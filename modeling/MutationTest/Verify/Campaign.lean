import MutationTest.Verify.Restoration
import MutationTest.Verify.Mutants
import MutationTest.Verify.SamplingCounts

/-! # A campaign in which nothing fails

Where no step fails, `main` is a function of the source file: `main_quiet` gives its log and its
report. Each mutant is generated from the original text, run once and judged by its own run. -/

namespace MutationTest
open Exec

/-- No step fails. -/
def Host.Quiet (host : Host) : Prop := ∀ p, host.fault p = none

/-- The outcome of the test command depends on the content of the source file only. -/
def Host.Deterministic (host : Host) (call : TestCall) (f : ByteArray → TestOutcome) : Prop :=
  ∀ x content, host.shell x call content = f content

/-- The mutant with index `idx` and its description. -/
def mutantOf (py : PyAst) (original : String) (nExprSites idx : ℕ) : String × Option String :=
  match makeMutantSourceUnified py original idx nExprSites with
  | .ok (some mutant) => mutant
  | _ => ("", none)

/-- What the source file holds while the mutant is tested. -/
def mutantContent (host : Host) (original : String) (nExprSites idx : ℕ) : ByteArray :=
  encodeText host.linesep (mutantOf host.py original nExprSites idx).1

/-- The entry of a mutant in the report. -/
def entryOf (host : Host) (f : ByteArray → TestOutcome) (original : String) (nExprSites idx : ℕ) :
    Entry :=
  let result := verdict (f (mutantContent host original nExprSites idx))
  ⟨idx, (mutantOf host.py original nExprSites idx).2, result.1, result.2⟩

/-- The entries for a list of indices, each with the verdict of its own run of the tests; `n` counts
the mutants. -/
def runEntries (host : Host) (args : Args) (original : String) (nExprSites : ℕ) :
    ℕ → List ℕ → List Entry
  | _, [] => []
  | n, idx :: rest =>
    match makeMutantSourceUnified host.py original idx nExprSites with
    | .ok (some (mutantSource, description)) =>
      let result := verdict (host.shell (.mutant n) (testCall args)
        (encodeText host.linesep mutantSource))
      ⟨idx, description, result.1, result.2⟩ ::
        runEntries host args original nExprSites (n + 1) rest
    | _ => runEntries host args original nExprSites (n + 1) rest

/-- The events of the loop; `n` counts the mutants. -/
def loopEvents (content : ℕ → ByteArray) : ℕ → List ℕ → List Event
  | _, [] => []
  | n, idx :: rest =>
    .tested (.mutant n) (content idx) :: .restored n :: loopEvents content (n + 1) rest

/-- The contents on which the test command ran. -/
def testedContents (log : List Event) : List ByteArray :=
  log.filterMap fun
    | .tested _ content => some content
    | .restored _ => none

/-- The same without the baseline. -/
def mutantTests (log : List Event) : List ByteArray :=
  log.filterMap fun
    | .tested (.mutant _) content => some content
    | _ => none

theorem testedContents_append (l l' : List Event) :
    testedContents (l ++ l') = testedContents l ++ testedContents l' := List.filterMap_append

theorem mutantTests_append (l l' : List Event) :
    mutantTests (l ++ l') = mutantTests l ++ mutantTests l' := List.filterMap_append

theorem testedContents_loopEvents (content : ℕ → ByteArray) (n : ℕ) (idxs : List ℕ) :
    testedContents (loopEvents content n idxs) = idxs.map content := by
  induction idxs generalizing n with
  | nil => rfl
  | cons idx rest ih =>
    rw [List.map_cons, ← ih (n + 1)]
    rfl

theorem mutantTests_loopEvents (content : ℕ → ByteArray) (n : ℕ) (idxs : List ℕ) :
    mutantTests (loopEvents content n idxs) = idxs.map content := by
  induction idxs generalizing n with
  | nil => rfl
  | cons idx rest ih =>
    rw [List.map_cons, ← ih (n + 1)]
    rfl

theorem Host.Quiet.drains {host : Host} (hq : host.Quiet) (x : Execution) : host.Drains x := by
  simp [Drains, hq _]

theorem Host.Quiet.testsReturn {host : Host} (hq : host.Quiet) (x : Execution) (call : TestCall)
    (content : ByteArray) : host.TestsReturn x call content :=
  ⟨hq _, hq _, fun _ => ⟨hq _, hq.drains x⟩⟩

/-! ## The loop -/

section
variable {host : Host} {args : Args} {f : ByteArray → TestOutcome} {original : String}
  {nExprSites : ℕ} {idxs : List ℕ}
  (hgen : ∀ idx ∈ idxs, makeMutantSourceUnified host.py original idx nExprSites =
    .ok (some (mutantOf host.py original nExprSites idx)))
include hgen

theorem runEntries_eq (hdet : host.Deterministic (testCall args) f) (n : ℕ) :
    runEntries host args original nExprSites n idxs =
      idxs.map (entryOf host f original nExprSites) := by
  induction idxs generalizing n with
  | nil => rfl
  | cons idx rest ih =>
    rw [runEntries, hgen idx List.mem_cons_self]
    dsimp only
    rw [hdet, ih fun i hi => hgen i (List.mem_cons_of_mem _ hi)]
    rfl

theorem mutantLoop_quiet (hq : host.Quiet) (n : ℕ) (results : List Entry) (w : World) :
    mutantLoop host args original nExprSites n idxs results w =
      (.ok (results ++ runEntries host args original nExprSites n idxs),
        { w with
          source := if idxs = [] then w.source else encodeText host.linesep original
          log := w.log ++ loopEvents (mutantContent host original nExprSites) n idxs }) := by
  induction idxs generalizing n results w with
  | nil => simp [mutantLoop, loopEvents, runEntries]
  | cons idx rest ih =>
    have hwrite : ∀ p content w, writeSource host p content w = (.ok (), setSource content w) :=
      fun p content w => step_of_quiet (hq p) w
    have hmutant := hgen idx List.mem_cons_self
    rw [mutantLoop, bind_ok (reach_of_quiet (hq _) w), hmutant, ofExcept_ok,
      bind_ok (pure_apply _ _)]
    dsimp only
    rw [bind_ok (hwrite _ _ _), bind_ok (runTests_of_returns (hq.testsReturn ..)),
      bind_ok (reach_of_quiet (hq _) _), bind_ok (hwrite _ _ _)]
    have hrecord : ∀ w, record (.restored n) w =
        (.ok (), { w with log := w.log ++ [.restored n] }) := fun _ => rfl
    rw [bind_ok (hrecord _), ih fun i hi => hgen i (List.mem_cons_of_mem _ hi)]
    rw [runEntries, hmutant]
    simp [setSource, afterTests, loopEvents, mutantContent]

end

theorem sliceFrom_zero {α : Type} (l : List α) : sliceFrom l 0 = l := rfl

theorem sliceFrom_natCast {α : Type} (l : List α) (k : ℕ) : sliceFrom l k = l.drop k := by
  rw [sliceFrom, if_neg (by omega), Int.toNat_natCast]

theorem slice_sublist {α : Type} (l : List α) (k : ℤ) : (sliceFrom l k).Sublist l := by
  unfold sliceFrom
  split <;> exact List.drop_sublist ..

/-! ## The whole run -/

/-- The number of sites of a module. -/
def Module.totalSites (m : Module) : ℕ := m.root.opSites.length + m.root.sdlStmts.length

/-- The entries of the report for a list of indices. -/
def entriesOf (host : Host) (f : ByteArray → TestOutcome) (original : String) (m : Module)
    (idxs : List ℕ) : List Entry :=
  idxs.map (entryOf host f original m.root.opSites.length)

/-- The events of a whole run on the content `S`. -/
def runEvents (host : Host) (S : ByteArray) (original : String) (m : Module) (idxs : List ℕ) :
    List Event :=
  .tested .baseline S :: loopEvents (mutantContent host original m.root.opSites.length) 1 idxs

section
variable {host : Host} {args : Args} {f : ByteArray → TestOutcome} {original : String} {m : Module}
  {w : World} {sampled : List ℕ}

theorem mutantOf_eq (hm : host.py.parse original = .ok m) {idx : ℕ} (hidx : idx < m.totalSites) :
    makeMutantSourceUnified host.py original idx m.root.opSites.length =
      .ok (some (mutantOf host.py original m.root.opSites.length idx)) := by
  obtain ⟨x, -, h⟩ := makeMutantSourceUnified_of_lt hm hidx
  rw [mutantOf, h]

theorem mutantOf_slice (hm : host.py.parse original = .ok m) (hlt : ∀ i ∈ sampled, i < m.totalSites)
    (k : ℤ) : ∀ idx ∈ sliceFrom sampled k,
      makeMutantSourceUnified host.py original idx m.root.opSites.length =
        .ok (some (mutantOf host.py original m.root.opSites.length idx)) :=
  fun idx h => mutantOf_eq hm (hlt idx ((slice_sublist sampled k).subset h))

theorem chooseIndices_quiet (hq : host.Quiet) {T : ℕ} (hs : indices T args.maxMutants = .ok sampled)
    (w : World) : chooseIndices host args T w = (.ok (sliceFrom sampled args.startAt), w) := by
  rw [chooseIndices, bind_ok (reach_of_quiet (hq _) w), hs, ofExcept_ok, bind_ok (pure_apply _ _),
    bind_ok (reach_of_quiet (hq _) w)]
  by_cases h : args.startAt = 0
  · simp [h, sliceFrom_zero]
  · simp [h]

/-- The run up to the number of sites. -/
theorem main_collects (hq : host.Quiet) (args : Args) (hdec : decodeText w.source = .ok original)
    (hm : host.py.parse original = .ok m) :
    main host args w = (if m.totalSites = 0 then noSites host
      else testMutants host args original m.root.opSites.length m.totalSites)
        (setBackup w.source w) := by
  have hread : readText host w = (.ok original, w) := by
    rw [readText_of_quiet (hq _), hdec]; rfl
  have hcopy : copyBackup host w = (.ok (), setBackup w.source w) := step_of_quiet (hq _) w
  have hlen : (m.root.opSites.map OpSite.site).length +
      (m.root.sdlStmts.map fun e => Node.sdlSite e.2).length = m.totalSites := by
    simp [Module.totalSites]
  rw [main, bind_ok hread, bind_ok hcopy, bind_ok (reach_of_quiet (hq _) _), collectSites_eq hm,
    ofExcept_ok, bind_ok (pure_apply _ _), bind_ok (reach_of_quiet (hq _) _),
    collectSdlSites_eq hm, ofExcept_ok, bind_ok (pure_apply _ _), hlen, List.length_map]

theorem main_quiet (hq : host.Quiet) (hdec : decodeText w.source = .ok original)
    (hm : host.py.parse original = .ok m) (hT : m.totalSites ≠ 0)
    (hpass : host.shell .baseline (testCall args) w.source = .exit 0)
    (hs : indices m.totalSites args.maxMutants = .ok sampled)
    (hlt : ∀ i ∈ sampled, i < m.totalSites) :
    main host args w = (.ok (),
      { source := w.source
        backup := none
        report := some (.json (makeReport (host.resolve args.sourceFile) m.totalSites
          (runEntries host args original m.root.opSites.length 1
            (sliceFrom sampled args.startAt))))
        log := w.log ++ runEvents host w.source original m (sliceFrom sampled args.startAt) }) := by
  have hbaseline : checkBaseline host args (setBackup w.source w) =
      (.ok (), afterTests .baseline (setBackup w.source w)) := by
    have hverdict : verdict (host.shell .baseline (testCall args) (setBackup w.source w).source) =
      (true, exitReason 0) := congrArg verdict hpass
    rw [checkBaseline, bind_ok (reach_of_quiet (hq _) _),
      bind_ok (runTests_of_returns (hq.testsReturn ..)), hverdict]
    exact reach_of_quiet (hq _) _
  rw [main_collects hq args hdec hm, if_neg hT, testMutants, bind_ok hbaseline,
    bind_ok (chooseIndices_quiet hq hs _)]
  have hmutants : mutantLoop host args original m.root.opSites.length 1
      (sliceFrom sampled args.startAt) [] (afterTests .baseline (setBackup w.source w)) = _ :=
    mutantLoop_quiet (mutantOf_slice hm hlt args.startAt) hq 1 [] _
  have hloop := tryFinally_ok hmutants (restoreOriginal host)
  rw [bind_ok (restoreOriginal_of_restores rfl ⟨hq _, hq _⟩)] at hloop
  have hreport : ∀ r w, writeReport host r w = (.ok (), { w with report := some (.json r) }) :=
    fun r w => step_of_quiet (hq _) w
  rw [bind_ok hloop, bind_ok (reach_of_quiet (hq _) _), bind_ok (hreport _ _),
    reach_of_quiet (hq _) _]
  simp [runEvents, afterTests, setBackup]

/-- A baseline that fails ends the run. -/
theorem main_refused (hq : host.Quiet) (hdec : decodeText w.source = .ok original)
    (hm : host.py.parse original = .ok m) (hT : m.totalSites ≠ 0)
    (hfail : host.shell .baseline (testCall args) w.source ≠ .exit 0) :
    main host args w =
      (.raised (.systemExit 1), { afterTests .baseline w with backup := none }) := by
  obtain ⟨reason, hverdict⟩ : ∃ reason,
      verdict (host.shell .baseline (testCall args) (setBackup w.source w).source) =
        (false, reason) := verdict_of_ne hfail
  have hunlink : ∀ w, unlinkBackup host .unlinkBaseline w = (.ok (), { w with backup := none }) :=
    fun w => step_of_quiet (hq _) w
  have hbaseline : checkBaseline host args (setBackup w.source w) =
      (.raised (.systemExit 1), { afterTests .baseline w with backup := none }) := by
    rw [checkBaseline, bind_ok (reach_of_quiet (hq _) _),
      bind_ok (runTests_of_returns (hq.testsReturn ..)), hverdict]
    dsimp only
    rw [bind_ok (hunlink _), bind_ok (reach_of_quiet (hq _) _)]
    rfl
  rw [main_collects hq args hdec hm, if_neg hT, testMutants, bind_raised hbaseline]

theorem main_deterministic (hq : host.Quiet) (hdet : host.Deterministic (testCall args) f)
    (hdec : decodeText w.source = .ok original) (hm : host.py.parse original = .ok m)
    (hT : m.totalSites ≠ 0) (hpass : f w.source = .exit 0)
    (hs : indices m.totalSites args.maxMutants = .ok sampled)
    (hlt : ∀ i ∈ sampled, i < m.totalSites) :
    main host args w = (.ok (),
      { source := w.source
        backup := none
        report := some (.json (makeReport (host.resolve args.sourceFile) m.totalSites
          (entriesOf host f original m (sliceFrom sampled args.startAt))))
        log := w.log ++ runEvents host w.source original m (sliceFrom sampled args.startAt) }) := by
  rw [main_quiet hq hdec hm hT ((hdet _ _).trans hpass) hs hlt,
    runEntries_eq (mutantOf_slice hm hlt args.startAt) hdet, entriesOf]

end

/-! ## The report -/

theorem score_error {mortos gerados : ℕ} (h : gerados ≠ 0) :
    |score mortos gerados - 100 * mortos / gerados| ≤ 100 * mortos / gerados * (1 / 2 ^ 51) := by
  set q : ℚ := mortos / gerados with hq
  have hq0 : 0 ≤ q := div_nonneg (Nat.cast_nonneg _) (Nat.cast_nonneg _)
  have h1 := abs_le.mp (abs_double_sub_le hq0)
  have hd0 : 0 ≤ double q := BinaryFloat.round_nonneg 53 hq0
  have h2 := abs_le.mp (abs_double_sub_le (mul_nonneg hd0 (by norm_num : (0 : ℚ) ≤ 100)))
  have heq : (100 : ℚ) * mortos / gerados = 100 * q := by rw [hq]; ring
  rw [score, if_neg h, ← hq, heq, abs_le]
  constructor <;> linarith

theorem verdict_survived (r : TestOutcome) : (verdict r).1 = decide (r = .exit 0) := by
  cases r with
  | exit returncode => by_cases h : returncode = 0 <;> simp [verdict, h]
  | timeout => rfl

section
variable (host : Host) (f : ByteArray → TestOutcome) (original : String) (m : Module)
  (idxs : List ℕ)

theorem entriesOf_index : (entriesOf host f original m idxs).map (·.index) = idxs := by
  simp [entriesOf, entryOf, Function.comp_def]

theorem entriesOf_description : (entriesOf host f original m idxs).map (·.description) =
    (idxs.map (mutantOf host.py original m.root.opSites.length)).map (·.2) := by
  simp [entriesOf, entryOf, Function.comp_def]

theorem entriesOf_survived : (entriesOf host f original m idxs).map (·.survived) =
    idxs.map fun idx =>
      decide (f (mutantContent host original m.root.opSites.length idx) = .exit 0) := by
  simp [entriesOf, entryOf, Function.comp_def, verdict_survived]

end

theorem makeReport_counts (sourcePath : String) (totalSites : ℕ) (results : List Entry) :
    let r := makeReport sourcePath totalSites results
    r.mortos + r.vivos = r.mutantesGerados ∧ r.mutantesGerados = r.detalhes.length := by
  refine ⟨?_, rfl⟩
  simp only [makeReport]
  rw [Nat.add_comm, ← List.countP_eq_length_filter, ← List.countP_eq_length_filter,
    List.length_eq_countP_add_countP (fun r => r.survived) (l := results)]
  simp

/-- The sites of a source fit into memory: each has an object of sixteen bytes or more to itself, in
an address space of `2 ^ 56` bytes. -/
def PyAst.SitesFit (py : PyAst) : Prop :=
  ∀ s exprSites sdlSites, collectSites py s = .ok exprSites → collectSdlSites py s = .ok sdlSites →
    exprSites.length + sdlSites.length ≤ 2 ^ 52

/-- The modules behind the two collectors. -/
theorem parse_of_collectSites {py : PyAst} {s : String} {exprSites : List Site}
    {sdlSites : List SdlSite} (hexpr : collectSites py s = .ok exprSites)
    (hsdl : collectSdlSites py s = .ok sdlSites) :
    ∃ m, py.parse s = .ok m ∧ exprSites = m.root.opSites.map OpSite.site ∧
      sdlSites = m.root.sdlStmts.map fun e => Node.sdlSite e.2 := by
  cases hm : py.parse s with
  | error e => rw [collectSites, hm] at hexpr; cases hexpr
  | ok m =>
    exact ⟨m, rfl, Except.ok.inj (hexpr.symm.trans (collectSites_eq hm)),
      Except.ok.inj (hsdl.symm.trans (collectSdlSites_eq hm))⟩

theorem PyAst.SitesFit.of_modules {py : PyAst}
    (h : ∀ s m, py.parse s = .ok m → m.totalSites ≤ 2 ^ 52) : py.SitesFit := by
  intro s exprSites sdlSites hexpr hsdl
  obtain ⟨m, hm, rfl, rfl⟩ := parse_of_collectSites hexpr hsdl
  rw [List.length_map, List.length_map]
  exact h s m hm

/-- The campaign law. The tests see the original and then one mutant after the other, each generated
from the original text; there is one entry for each sampled index after the first `startAt`, in
increasing order, whose verdict is that of the run on its own mutant; and the figures of the report
are those of the entries. -/
theorem campaign_law {host : Host} {args : Args} {w : World} {f : ByteArray → TestOutcome}
    {original : String} {exprSites : List Site} {sdlSites : List SdlSite}
    (hquiet : host.Quiet) (hdet : host.Deterministic (testCall args) f)
    (hfits : host.py.SitesFit) (hdec : decodeText w.source = .ok original)
    (hexpr : collectSites host.py original = .ok exprSites)
    (hsdl : collectSdlSites host.py original = .ok sdlSites)
    (hT : 1 ≤ exprSites.length + sdlSites.length) (hM : 1 ≤ args.maxMutants)
    (hk : 0 ≤ args.startAt) (hpass : f w.source = .exit 0) :
    ∃ (sampled idxs : List ℕ) (mutants : List (String × Option String)) (w' : World) (r : Report),
      main host args w = (.ok (), w') ∧ w'.report = some (.json r) ∧
      -- what the tests see
      testedContents w'.log = testedContents w.log ++
        w.source :: mutants.map (fun x => encodeText host.linesep x.1) ∧
      (idxs.map fun idx => makeMutantSourceUnified host.py original idx exprSites.length) =
        mutants.map (fun x => .ok (some x)) ∧
      -- the indices
      indices (exprSites.length + sdlSites.length) args.maxMutants = .ok sampled ∧
      idxs = sampled.drop args.startAt.toNat ∧ idxs.Pairwise (· < ·) ∧
      (idxs.length : ℤ) =
        max 0 (min ((exprSites.length + sdlSites.length : ℕ) : ℤ) args.maxMutants -
          args.startAt) ∧
      -- the entries
      r.detalhes.map (·.index) = idxs ∧ r.detalhes.map (·.description) = mutants.map (·.2) ∧
      r.detalhes.map (·.survived) =
        mutants.map (fun x => decide (f (encodeText host.linesep x.1) = .exit 0)) ∧
      -- the figures
      r.mortos = (r.detalhes.filter fun e => !e.survived).length ∧
      r.mortos + r.vivos = r.mutantesGerados ∧ r.mutantesGerados = r.detalhes.length ∧
      r.escoreMutacaoPct = round1 (score r.mortos r.mutantesGerados) ∧
      (r.mutantesGerados ≠ 0 →
        |score r.mortos r.mutantesGerados - 100 * r.mortos / r.mutantesGerados| ≤
          100 * r.mortos / r.mutantesGerados * (1 / 2 ^ 51)) := by
  have hbound := hfits _ _ _ hexpr hsdl
  obtain ⟨m, hm, rfl, rfl⟩ := parse_of_collectSites hexpr hsdl
  simp only [List.length_map] at hT hbound ⊢
  obtain ⟨sampled, hs, hlen, hpair, hlt⟩ := indices_ok hM hbound
  obtain ⟨k, hk⟩ := Int.eq_ofNat_of_zero_le hk
  have hslice : sliceFrom sampled args.startAt = sampled.drop k := by
    rw [hk]; exact sliceFrom_natCast sampled k
  have hmain := main_deterministic hquiet hdet hdec hm (Nat.one_le_iff_ne_zero.mp hT) hpass hs hlt
  rw [hslice] at hmain
  refine ⟨sampled, sampled.drop k,
    (sampled.drop k).map (mutantOf host.py original m.root.opSites.length), _, _, hmain, rfl, ?_,
    ?_, hs, by rw [hk]; rfl, hpair.sublist (List.drop_sublist k sampled), ?_, ?_, ?_, ?_, rfl,
    (makeReport_counts ..).1, rfl, rfl, score_error⟩
  · rw [testedContents_append, runEvents, List.map_map]
    congr 1
    exact congrArg (w.source :: ·) (testedContents_loopEvents _ 1 _)
  · rw [List.map_map]
    exact List.map_congr_left fun idx h => mutantOf_eq hm (hlt idx (List.mem_of_mem_drop h))
  · rw [List.length_drop, hlen]
    omega
  · exact entriesOf_index ..
  · exact entriesOf_description ..
  · rw [List.map_map]
    exact entriesOf_survived ..

theorem assertPy_sitesFit : assertPy.SitesFit := by
  refine PyAst.SitesFit.of_modules fun s m h => ?_
  have hall : ∀ x ∈ assertTexts, (assertModule 1 x.1.1 x.1.2).totalSites ≤ 2 ^ 52 := by
    decide +kernel
  rcases assertPy_parse_eq h with rfl | rfl | ⟨x, hx, rfl⟩
  · decide +kernel
  · decide +kernel
  · exact hall x hx

theorem assertHost_deterministic (faults : List (Step × Fault)) (call : TestCall) :
    (assertHost faults).Deterministic call (assertShell .baseline call) := fun _ _ => rfl

/-- The example with a budget of two mutants, resumed at the second. -/
theorem campaign_law_assert :
    ∃ (idxs : List ℕ) (w' : World) (r : Report),
      main (assertHost []) { assertArgs with maxMutants := 2, startAt := 1 } assertWorld =
        (.ok (), w') ∧ w'.report = some (.json r) ∧ (idxs.length : ℤ) = 1 ∧
      r.detalhes.map (·.index) = idxs := by
  obtain ⟨_, idxs, _, w', r, hmain, hreport, -, -, -, -, -, hlen, hindex, -⟩ :=
    @campaign_law (assertHost []) { assertArgs with maxMutants := 2, startAt := 1 } assertWorld
      (assertShell .baseline (testCall assertArgs)) "assert a < b + 1\n" _ _ (fun _ => rfl)
      (assertHost_deterministic [] _) assertPy_sitesFit (by decide +kernel)
      (collectSites_eq assertPy_parse) (collectSdlSites_eq assertPy_parse) (by decide +kernel)
      (by decide) (by decide) (by decide +kernel)
  exact ⟨idxs, w', r, hmain, hreport, by rw [hlen]; decide +kernel, hindex⟩

end MutationTest

import MutationTest.Verify.Resumption
import MutationTest.Bytecode

/-! # Whose code the tests execute

The tests of a mutant execute the code of that mutant as long as the `.pyc` file that they find does
not carry the modification second and the size of the mutant for another text
(`own_code_iff`). Nothing in the loop sees to that: operators of equal length give mutants of equal
size, and a fast test command lets several of them fall into one second. -/

namespace MutationTest
open Exec SlotCache

theorem indices_lt {T : ℕ} {M : ℤ} (hT : T ≤ 2 ^ 52) {l : List ℕ} (h : indices T M = .ok l) :
    ∀ i ∈ l, i < T := by
  by_cases hM : 1 ≤ M
  · obtain ⟨l', hl, -, -, hlt⟩ := indices_ok hM hT
    obtain rfl := Except.ok.inj (h.symm.trans hl)
    exact hlt
  · unfold indices at h
    split at h
    · split at h
      · cases h
      · rw [Int.toNat_of_nonpos (by omega)] at h
        obtain rfl := Except.ok.inj h
        simp [sampled]
    · obtain rfl := Except.ok.inj h
      exact fun i => List.mem_range.mp

/-! ## The log of a run -/

section
variable {host : Host} {args : Args} {w : World} {original : String} {m : Module} {sampled : List ℕ}

theorem noSites_log (w : World) : (noSites host w).2.log = w.log := by
  have hkeeps : Keeps (fun v => v.log = w.log) (noSites host) :=
    Keeps.bind reach_keeps fun _ => step_keeps (fun _ h => h) fun _ _ h => h
  exact Triple.of_keeps hkeeps rfl

/-- A run logs the baseline and then one mutant after the other, as far as it comes. -/
theorem log_isPrefix (hdec : decodeText w.source = .ok original)
    (hm : host.py.parse original = .ok m)
    (hs : indices m.totalSites args.maxMutants = .ok sampled)
    (hlt : ∀ i ∈ sampled, i < m.totalSites) :
    (main host args w).2.log <+:
      w.log ++ runEvents host w.source original m (sliceFrom sampled args.startAt) := by
  refine ((main_follows host args).prefix_obs w).trans ?_
  have hq := host.quieted_quiet
  by_cases hT : m.totalSites = 0
  · rw [main_collects hq args hdec hm, if_pos hT, noSites_log]
    exact List.prefix_append _ _
  by_cases hpass : host.shell .baseline (testCall args) w.source = .exit 0
  · rw [main_quiet hq hdec hm hT hpass hs hlt]
    exact List.prefix_rfl
  · rw [main_refused hq hdec hm hT hpass]
    exact (List.prefix_append_right_inj w.log).mpr (List.prefix_append [_] _)

theorem log_of_returned (hdec : decodeText w.source = .ok original)
    (hm : host.py.parse original = .ok m) (hT : m.totalSites ≠ 0)
    (hs : indices m.totalSites args.maxMutants = .ok sampled)
    (hlt : ∀ i ∈ sampled, i < m.totalSites) (hok : (main host args w).1 = .ok ()) :
    (main host args w).2.log =
      w.log ++ runEvents host w.source original m (sliceFrom sampled args.startAt) := by
  rcases (main_follows host args).same_or w with h | ⟨hne, -⟩
  · by_cases hpass : host.shell .baseline (testCall args) w.source = .exit 0
    · rw [h, main_quiet host.quieted_quiet hdec hm hT hpass hs hlt]
      rfl
    · rw [h, main_refused host.quieted_quiet hdec hm hT hpass] at hok
      cases hok
  · exact absurd hok (hne ())

end

/-! ## The imports of a run -/

namespace Interpreter

variable {Code : Type} (I : Interpreter Code)

/-- The imports of the mutants that a run would test. -/
def mutantImports (host : Host) (original : String) (nExprSites : ℕ) (idxs : List ℕ) :
    List (Execution × SourceFile) :=
  (loopEvents (mutantContent host original nExprSites) 1 idxs).filterMap I.imported?

/-- The imports of the mutants that a run has tested: the imports after the baseline. -/
def testedImports (log : List Event) : List (Execution × SourceFile) :=
  log.tail.filterMap I.imported?

/-- The `.pyc` file after the baseline. -/
def afterBaseline (content : ByteArray) : Option ((ℕ × ℕ) × Code) :=
  (I.imported? (.tested .baseline content)).toList.foldl
    (fun slot i => (lookup (fun i => i.2.key) (fun i => I.compile i.2.content) slot i).2) I.found

/-- Whenever a mutant is imported, the `.pyc` file does not carry its second and its size, unless it
holds its code. -/
def KeysTellApart (slot : Option ((ℕ × ℕ) × Code)) (imports : List (Execution × SourceFile)) :
    Prop :=
  AllFresh (fun i => i.2.key) (fun i => I.compile i.2.content) slot imports

theorem imported?_eq {e : Event} {i : Execution × SourceFile} (h : I.imported? e = some i) :
    ∃ content, e = .tested i.1 content := by
  cases e with
  | tested x content =>
    simp only [imported?] at h
    split at h
    · exact ⟨content, by rw [← Option.some.inj h]⟩
    · cases h
  | restored n => cases h

theorem ne_baseline_of_mem {content : ℕ → ByteArray} {n : ℕ} {idxs : List ℕ}
    {i : Execution × SourceFile} (h : i ∈ (loopEvents content n idxs).filterMap I.imported?) :
    i.1 ≠ .baseline := by
  obtain ⟨e, he, hi⟩ := List.mem_filterMap.mp h
  have hmutant : ∀ n, ∀ e ∈ loopEvents content n idxs,
      (∃ k content, e = .tested (.mutant k) content) ∨ ∃ k, e = .restored k := by
    clear he hi h
    induction idxs with
    | nil => exact fun _ _ he => nomatch he
    | cons idx rest ih =>
      intro n e he
      rcases List.mem_cons.mp he with rfl | he
      · exact .inl ⟨_, _, rfl⟩
      rcases List.mem_cons.mp he with rfl | he
      · exact .inr ⟨_, rfl⟩
      · exact ih (n + 1) e he
  obtain ⟨content, rfl⟩ := I.imported?_eq hi
  rcases hmutant n _ he with ⟨k, c, heq⟩ | ⟨k, heq⟩
  · rw [(Event.tested.inj heq).1]
    simp
  · cases heq

/-- The condition on a log that starts with the baseline. -/
theorem ownCode_iff {S : ByteArray} {events : List Event}
    (h : ∀ i ∈ events.filterMap I.imported?, i.1 ≠ .baseline) :
    I.OwnCode (.tested .baseline S :: events) ↔
      I.KeysTellApart (I.afterBaseline S) (events.filterMap I.imported?) := by
  have himports : (Event.tested .baseline S :: events).filterMap I.imported? =
      (I.imported? (.tested .baseline S)).toList ++ events.filterMap I.imported? := by
    rw [List.filterMap_cons]
    cases I.imported? (.tested .baseline S) <;> rfl
  rw [KeysTellApart, ← replay_own_iff, OwnCode, executed, himports, replay_append,
    List.forall_mem_append]
  have hbaseline : ∀ x ∈ replay (fun i => i.2.key) (fun i => I.compile i.2.content) I.found
      (I.imported? (.tested .baseline S)).toList, x.1.1 = .baseline := by
    intro x hx
    obtain ⟨content, heq⟩ := I.imported?_eq (Option.mem_toList.mp (mem_of_mem_replay hx))
    exact (Event.tested.inj heq).1.symm
  constructor
  · rintro ⟨-, hown⟩ x hx
    exact hown x hx (h _ (mem_of_mem_replay hx))
  · intro hown
    exact ⟨fun x hx hne => absurd (hbaseline x hx) hne, fun x hx _ => hown x hx⟩

end Interpreter

/-- A run tests the mutants of its sample in their order, as far as it comes, and all if it returns.
Whatever the test command does, whatever the runs of the tests last and wherever the run stops, the
tests of all mutants execute their own code exactly if the modification seconds and sizes of their
imports tell them apart. -/
theorem own_code_iff {Code : Type} (I : Interpreter Code) {host : Host} {args : Args} {w : World}
    {original : String} {exprSites : List Site} {sdlSites : List SdlSite} {sampled : List ℕ}
    (hfits : host.py.SitesFit) (hdec : decodeText w.source = .ok original)
    (hexpr : collectSites host.py original = .ok exprSites)
    (hsdl : collectSdlSites host.py original = .ok sdlSites)
    (hs : indices (exprSites.length + sdlSites.length) args.maxMutants = .ok sampled) :
    I.testedImports (runLog host args w) <+:
        I.mutantImports host original exprSites.length (sliceFrom sampled args.startAt) ∧
      ((main host args w).1 = .ok () → 0 < exprSites.length + sdlSites.length →
        I.testedImports (runLog host args w) =
          I.mutantImports host original exprSites.length (sliceFrom sampled args.startAt)) ∧
      (I.OwnCode (runLog host args w) ↔
        I.KeysTellApart (I.afterBaseline w.source) (I.testedImports (runLog host args w))) := by
  have hbound := hfits _ _ _ hexpr hsdl
  obtain ⟨m, hm, rfl, rfl⟩ := parse_of_collectSites hexpr hsdl
  simp only [List.length_map] at hs hbound ⊢
  have hlt := indices_lt hbound hs
  set content := mutantContent host original m.root.opSites.length with hcontent
  set idxs := sliceFrom sampled args.startAt with hidxs
  have hdrop : ∀ events, (w.log ++ events).drop w.log.length = events := fun _ => List.drop_left
  have hrun : runLog host args w <+: .tested .baseline w.source :: loopEvents content 1 idxs := by
    have hprefix : (main host args w).2.log.drop w.log.length <+: _ :=
      (log_isPrefix hdec hm hs hlt).drop _
    rwa [hdrop] at hprefix
  have hreturned : (main host args w).1 = .ok () → 0 < m.totalSites →
      runLog host args w = .tested .baseline w.source :: loopEvents content 1 idxs := by
    intro hok hT
    rw [runLog, log_of_returned hdec hm (Nat.pos_iff_ne_zero.mp hT) hs hlt hok, hdrop]
    rfl
  match hlog : runLog host args w with
  | [] =>
    refine ⟨List.nil_prefix, fun hok hT => ?_, iff_of_true (fun x hx => nomatch hx) ?_⟩
    · rw [hlog] at hreturned
      cases hreturned hok hT
    · exact fun pre i hpre => by simp [Interpreter.testedImports] at hpre
  | e :: events =>
    rw [hlog] at hrun hreturned
    obtain ⟨rfl, hevents⟩ := List.cons_prefix_cons.mp hrun
    refine ⟨hevents.filterMap _, fun hok hT => ?_,
      I.ownCode_iff fun i hi => I.ne_baseline_of_mem ((hevents.filterMap _).subset hi)⟩
    rw [hreturned hok hT]
    rfl

/-! ## A slow clock -/

namespace Interpreter

variable {Code : Type} (I : Interpreter Code) {content : ℕ → ByteArray}

theorem filterMap_loopEvents_cons (n idx : ℕ) (rest : List ℕ) :
    (loopEvents content n (idx :: rest)).filterMap I.imported? =
      (I.imported? (.tested (.mutant n) (content idx))).toList ++
        (loopEvents content (n + 1) rest).filterMap I.imported? := by
  rw [loopEvents, List.filterMap_cons]
  cases I.imported? (.tested (.mutant n) (content idx)) <;> rfl

theorem mtime_of_imported? {n : ℕ} {c : ByteArray} {i : Execution × SourceFile}
    (h : i ∈ (I.imported? (.tested (.mutant n) c)).toList) : i.2.mtime = I.written n := by
  rw [Option.mem_toList, imported?] at h
  split at h
  · rw [← Option.some.inj h]
    rfl
  · cases h

variable {I} (hlater : ∀ n, I.written n < I.written (n + 1))
include hlater

theorem written_le_of_mem {idxs : List ℕ} {n : ℕ} {i : Execution × SourceFile}
    (hi : i ∈ (loopEvents content n idxs).filterMap I.imported?) : I.written n ≤ i.2.mtime := by
  induction idxs generalizing n with
  | nil => cases hi
  | cons idx rest ih =>
    rw [filterMap_loopEvents_cons, List.mem_append] at hi
    rcases hi with hi | hi
    · exact (I.mtime_of_imported? hi).ge
    · exact (hlater n).le.trans (ih hi)

/-- A clock that has moved on whenever a mutant is written tells the mutants apart, whatever their
sizes are. -/
theorem keysTellApart_of_later {S : ByteArray} {host : Host} {original : String} {nExprSites : ℕ}
    (idxs : List ℕ) (hbaseline : ∀ e ∈ I.afterBaseline S, e.1.1 < I.written 1) :
    I.KeysTellApart (I.afterBaseline S) (I.mutantImports host original nExprSites idxs) := by
  refine allFresh_of_pairwise (fun e he i hi hkey => ?_) ?_
  · have hlt := (hbaseline e he).trans_le (written_le_of_mem hlater hi)
    rw [← hkey] at hlt
    exact lt_irrefl _ hlt
  · unfold mutantImports
    generalize 1 = n
    induction idxs generalizing n with
    | nil => exact .nil
    | cons idx rest ih =>
      rw [filterMap_loopEvents_cons, List.pairwise_append]
      refine ⟨?_, ih (n + 1), fun i hi j hj hkey => ?_⟩
      · cases I.imported? _ <;> simp
      · have hlt := (hlater n).trans_le (written_le_of_mem hlater hj)
        rw [← I.mtime_of_imported? hi,
          show i.2.mtime = j.2.mtime from congrArg Prod.fst hkey] at hlt
        exact lt_irrefl _ hlt

end Interpreter

/-! ## An example -/

/-- The text is its own code; the run starts at second one, and ends in it. -/
def quickInterpreter : Interpreter ByteArray where
  compile := some
  found := none
  imports _ := true
  mtime := 0
  written _ := 1

theorem own_code_iff_assert :
    quickInterpreter.testedImports (runLog (assertHost []) assertArgs assertWorld) =
        quickInterpreter.mutantImports (assertHost []) "assert a < b + 1\n" 2 [0, 1, 2] ∧
      (quickInterpreter.OwnCode (runLog (assertHost []) assertArgs assertWorld) ↔
        quickInterpreter.KeysTellApart
          (quickInterpreter.afterBaseline "assert a < b + 1\n".toUTF8)
          (quickInterpreter.testedImports (runLog (assertHost []) assertArgs assertWorld))) := by
  obtain ⟨-, hall, hiff⟩ := @own_code_iff _ quickInterpreter (assertHost []) assertArgs assertWorld
    "assert a < b + 1\n" _ _ [0, 1, 2] assertPy_sitesFit (by decide +kernel)
    (collectSites_eq assertPy_parse) (collectSdlSites_eq assertPy_parse) (by decide +kernel)
  exact ⟨hall (by decide +kernel) (by decide +kernel), hiff⟩

/-- The tree of `assert a == b == c`, with the two operators as parameters. -/
def chainRoot (o₁ o₂ : CmpOp) : Node :=
  ⟨⟨.module, ⟨0, 0⟩⟩,
    .cons .body ⟨.assert, ⟨1, 0⟩⟩
      (.cons .test ⟨.compare [o₁, o₂], ⟨1, 7⟩⟩
        (.cons .left ⟨.name "a" .load, ⟨1, 7⟩⟩ .nil
          (.cons .comparators ⟨.name "b" .load, ⟨1, 12⟩⟩ .nil
            (.cons .comparators ⟨.name "c" .load, ⟨1, 17⟩⟩ .nil .nil))) .nil) .nil⟩

def chainTexts : List (Node × String) :=
  [(chainRoot .eq .eq, "assert a == b == c"), (chainRoot .notEq .eq, "assert a != b == c"),
    (chainRoot .eq .notEq, "assert a == b != c"), (passRoot, "pass")]

def chainHost : Host where
  py :=
    { parse s := if s = "assert a == b == c\n" then .ok ⟨chainRoot .eq .eq, rfl, by decide⟩
        else .error .syntaxError
      unparse t := ((chainTexts.find? fun x => t.strip = x.1.strip).map (·.2)).getD "?" }
  resolve := ("/src/" ++ ·)
  linesep := "\n"
  shell _ _ _ := .exit 0
  fault _ := none

/-- All mutants are written within a second, and the first two have the same size: the tests of the
second execute the code of the first. -/
theorem second_mutant_not_executed :
    let log := runLog chainHost assertArgs { source := "assert a == b == c\n".toUTF8 }
    ¬quickInterpreter.OwnCode log ∧
      (quickInterpreter.executed log).map (fun x => (x.1.2.content, x.2)) =
        ["assert a == b == c\n", "assert a != b == c", "assert a == b != c", "pass"].zipWith
          (fun text code => (String.toUTF8 text, some (String.toUTF8 code)))
          ["assert a == b == c\n", "assert a != b == c", "assert a != b == c", "pass"] := by
  decide +kernel

end MutationTest

import MutationTest.ReportJson
import MutationTest.Verify.SamplingCounts
import MutationTest.Verify.FreshReport

/-! # Reading the report

A reader of the report file gets back the report that was written (`readReport_bytes`), and nothing
from a beginning of it (`readReport_beginning`). So whatever has happened to the tool, a report that
can be read is the whole report of a run that came to the end of its tests (`readable_report`). -/

namespace MutationTest
open Exec JsonText BinaryFloat

/-! ## A reader -/

namespace Reader

/-- The value of a name, the last one if there are several. -/
def field? (name : String) : Value → Option Value
  | .object ms => (ms.reverse.find? fun m => m.1 = name).map (·.2)
  | _ => none

def nat? : Value → Option ℕ
  | .number x => x.nat?
  | _ => none

def float? : Value → Option ℚ
  | .number x => some (double x.toRat)
  | _ => none

def str? : Value → Option String
  | .string s => some s
  | _ => none

def bool? : Value → Option Bool
  | .bool b => some b
  | _ => none

/-- A string or `None`. -/
def optional? : Value → Option (Option String)
  | .null => some none
  | .string s => some (some s)
  | _ => none

def list? : Value → Option (List Value)
  | .array vs => some vs
  | _ => none

def detalhe? (v : Value) : Option Entry := do
  return { index := ← (field? "index" v).bind nat?
           description := ← (field? "description" v).bind optional?
           survived := ← (field? "survived" v).bind bool?
           reason := ← (field? "reason" v).bind str? }

def report? (v : Value) : Option Report := do
  return { arquivo := ← (field? "arquivo" v).bind str?
           totalSitesNoArquivo := ← (field? "total_sites_no_arquivo" v).bind nat?
           mutantesGerados := ← (field? "mutantes_gerados" v).bind nat?
           mortos := ← (field? "mortos" v).bind nat?
           vivos := ← (field? "vivos" v).bind nat?
           escoreMutacaoPct := ← (field? "escore_mutacao_pct" v).bind float?
           detalhes := ← ((field? "detalhes" v).bind list?).bind fun vs => vs.mapM detalhe? }

end Reader

/-- The report in a file. -/
def readReport (content : ByteArray) : Option Report := do
  let text ← String.fromUTF8? content
  Reader.report? (← parse text.toList)

namespace Reader

theorem detalhe?_toJson (e : Entry) : detalhe? e.toJson = some e := by
  obtain ⟨index, description, survived, reason⟩ := e
  cases description <;>
    simp [detalhe?, Entry.toJson, field?, nat?, optional?, bool?, str?, Number.nat?_ofNat]

theorem report?_toJson {r : Report} (h : double (floatRepr r.escoreMutacaoPct).toRat =
    r.escoreMutacaoPct) : report? r.toJson = some r := by
  have hentries : (r.detalhes.map Entry.toJson).mapM detalhe? = some r.detalhes := by
    induction r.detalhes with
    | nil => rfl
    | cons e es ih => simp [detalhe?_toJson, ih]
  simp [report?, Report.toJson, field?, nat?, str?, float?, list?, Number.nat?_ofNat, h, hentries]

end Reader

/-! ## The score -/

theorem length_lastDigits {n : ℕ} (hn : 0 < n) (m : ℕ) : (lastDigits n m).length = n := by
  have hle : (Nat.toDigits 10 (m % 10 ^ n)).length ≤ n :=
    (Nat.length_toDigits_le_iff (by decide) hn).mpr (Nat.mod_lt _ (by positivity))
  simp [lastDigits, hle]

theorem ofDigitChars_lastDigits (n m : ℕ) :
    Nat.ofDigitChars 10 (lastDigits n m) 0 = m % 10 ^ n := by
  rw [lastDigits, Nat.ofDigitChars_append, Nat.ofDigitChars_replicate_zero, Nat.mul_zero,
    Nat.ofDigitChars_ten_toDigits]

/-- Where decimals name a double, the fewest that name it are written. -/
theorem double_floatRepr {x : ℚ} (hx : 0 ≤ x) {n : ℕ} (h1 : 1 ≤ n) (h20 : n ≤ 20)
    (h : double (roundHalfEven (x * 10 ^ n) / 10 ^ n) = x) : double (floatRepr x).toRat = x := by
  have hfind : ∃ n, 0 < n ∧ fewestDecimals x = n ∧
      double (roundHalfEven (x * 10 ^ n) / 10 ^ n) = x := by
    cases hfound : ((List.range 20).map (· + 1)).find? fun n =>
        double (roundHalfEven (x * 10 ^ n) / 10 ^ n) = x with
    | none =>
      have hmem : n ∈ (List.range 20).map (· + 1) :=
        List.mem_map.mpr ⟨n - 1, List.mem_range.mpr (by omega), by omega⟩
      exact absurd h (by simpa using List.find?_eq_none.mp hfound n hmem)
    | some n =>
      obtain ⟨i, -, rfl⟩ := List.mem_map.mp (List.mem_of_find?_eq_some hfound)
      exact ⟨i + 1, i.succ_pos, by rw [fewestDecimals, hfound]; rfl, by
        simpa using List.find?_some hfound⟩
  obtain ⟨n, hn, hfewest, hname⟩ := hfind
  have hdigits : 0 ≤ roundHalfEven (x * 10 ^ n) :=
    le_roundHalfEven (by push_cast; positivity)
  obtain ⟨m, hm⟩ := Int.eq_ofNat_of_zero_le hdigits
  have hwhole : 10 ^ n * (m / 10 ^ n) + m % 10 ^ n = m := Nat.div_add_mod m (10 ^ n)
  rw [floatRepr, hfewest, hm, Int.toNat_natCast, Number.toRat_ofDecimals,
    length_lastDigits hn, ofDigitChars_lastDigits, hwhole]
  rwa [hm, Int.cast_natCast] at hname

/-- A number of tenths is written with one decimal. -/
theorem double_floatRepr_tenths {k : ℤ} (h0 : 0 ≤ k) (hk : k ≤ 2 ^ 50) :
    double (floatRepr (double (k / 10))).toRat = double (k / 10) := by
  have h0' : (0 : ℚ) ≤ k / 10 := div_nonneg (by exact_mod_cast h0) (by norm_num)
  have hk' : (k : ℚ) ≤ 2 ^ 50 := by exact_mod_cast hk
  have herror := abs_double_sub_le h0'
  have hnear : |(k : ℚ) - double (k / 10) * 10 ^ 1| < 1 / 2 := by
    have heq : (k : ℚ) - double (k / 10) * 10 ^ 1 = -(double (k / 10) - k / 10) * 10 := by ring
    rw [heq, abs_mul, abs_neg]
    calc |double ((k : ℚ) / 10) - k / 10| * |(10 : ℚ)| ≤ k / 10 * (1 / 2 ^ 53) * |(10 : ℚ)| := by
          gcongr
      _ = k / 2 ^ 53 := by norm_num; ring
      _ ≤ 2 ^ 50 / 2 ^ 53 := by gcongr
      _ < 1 / 2 := by norm_num
  refine double_floatRepr (round_nonneg _ h0') (n := 1) le_rfl (by omega) ?_
  rw [roundHalfEven_of_near hnear, pow_one]

theorem score_le {mortos gerados : ℕ} (h : mortos ≤ gerados) :
    0 ≤ score mortos gerados ∧ score mortos gerados ≤ 100 := by
  unfold score
  split
  · norm_num
  next hne =>
    have hquot : (mortos : ℚ) / gerados ≤ 1 :=
      div_le_one_of_le₀ (by exact_mod_cast h) (by positivity)
    have h0 : (0 : ℚ) ≤ mortos / gerados := by positivity
    have hround0 : 0 ≤ double (mortos / gerados) := round_nonneg _ h0
    have hround : double (mortos / gerados) ≤ 1 :=
      round_le (by norm_num) ⟨1, 0, by norm_num, by norm_num⟩ h0 hquot
    have hshort : Short 53 100 := ⟨100, 0, by norm_num, by norm_num⟩
    exact ⟨round_nonneg _ (by positivity),
      round_le (by norm_num) hshort (by positivity) (by linarith)⟩

/-- The score of a report is a number of tenths. -/
theorem makeReport_score (sourcePath : String) (totalSites : ℕ) (results : List Entry) :
    double (floatRepr (makeReport sourcePath totalSites results).escoreMutacaoPct).toRat =
      (makeReport sourcePath totalSites results).escoreMutacaoPct := by
  obtain ⟨h0, h100⟩ := score_le (List.length_filter_le (fun r : Entry => !r.survived) results)
  refine double_floatRepr_tenths (le_roundHalfEven (by push_cast; positivity)) ?_
  have hle : roundHalfEven
      (score (results.filter fun r => !r.survived).length results.length * 10) ≤ 1000 :=
    roundHalfEven_le (by push_cast; linarith)
  exact hle.trans (by norm_num)

/-! ## The bytes -/

theorem newline_notMem_escape (c : Char) : '\n' ∉ escape c := by
  unfold escape
  split
  iterate 7 decide
  next _ _ hnewline _ _ _ _ =>
    split
    next hlt =>
      have hdigit : ∀ n < 16, Nat.digitChar n ≠ '\n' := by decide
      simp [(hdigit _ (by omega : c.toNat / 16 < 16)).symm,
        (hdigit _ (by omega : c.toNat % 16 < 16)).symm]
    next => exact fun h => hnewline (List.mem_singleton.mp h).symm

theorem flatMap_of_newline_notMem {sep s : List Char} (h : '\n' ∉ s) :
    (s.flatMap fun c => if c = '\n' then sep else [c]) = s := by
  have hmap : (s.flatMap fun c => if c = '\n' then sep else [c]) = s.flatMap fun c => [c] :=
    List.flatMap_congr fun c hc => if_neg fun (he : c = '\n') => h (he ▸ hc)
  rw [hmap, List.flatMap_singleton']

section
variable {linesep : String}

/-- The line ends of the layout are all that the host changes. -/
theorem bytes_eq (hsep : linesep.toList.all isSpace) (r : Report) :
    r.bytes linesep = (String.ofList (print (indented linesep.toList hsep) 0 r.toJson)).toUTF8 := by
  have hspaces : ∀ d, '\n' ∉ List.replicate d ' ' := fun d hmem =>
    absurd (List.eq_of_mem_replicate hmem) (by decide)
  have hrecodes : Style.Recodes (fun c => if c = '\n' then linesep.toList else [c])
      (indented ['\n'] isSpace_newline) (indented linesep.toList hsep) :=
    { newline := fun d => by
        simp only [indented, List.flatMap_append, flatMap_of_newline_notMem (hspaces _)]
        simp
      space := rfl
      escape := fun c => flatMap_of_newline_notMem (newline_notMem_escape c)
      other := fun c hc => if_neg fun (h : c = '\n') => hc (h ▸ rfl) }
  rw [Report.bytes, encodeText, Report.dumps, String.toList_ofList, hrecodes.print]

theorem readReport_bytes_of_score (hsep : linesep.toList.all isSpace) {r : Report}
    (h : double (floatRepr r.escoreMutacaoPct).toRat = r.escoreMutacaoPct) :
    readReport (r.bytes linesep) = some r := by
  rw [readReport, bytes_eq hsep, fromUTF8?_toUTF8]
  simp [parse_print, Reader.report?_toJson h]

theorem toUTF8_of_fromUTF8? {content : ByteArray} {text : String}
    (h : String.fromUTF8? content = some text) : text.toUTF8 = content := by
  unfold String.fromUTF8? at h
  split at h
  · obtain rfl := Option.some.inj h
    rfl
  · cases h

/-- What is left of a report, if its end is missing, is no report. -/
theorem readReport_torn (hsep : linesep.toList.all isSpace) {r : Report} {content rest : ByteArray}
    (hrest : rest ≠ .empty) (hbytes : content ++ rest = r.bytes linesep) :
    readReport content = none := by
  cases htext : String.fromUTF8? content with
  | none => simp [readReport, htext]
  | some text =>
    rw [← toUTF8_of_fromUTF8? htext, bytes_eq hsep] at hbytes
    have hencode : text.toList.utf8Encode ++ rest =
        (print (indented linesep.toList hsep) 0 r.toJson).utf8Encode := by
      rw [String.utf8Encode_toList, ← String.toByteArray_ofList]
      exact hbytes
    have hbegin := List.isPrefix_of_utf8Encode_append_eq_utf8Encode rest hencode
    have hnone : parse text.toList = none := by
      refine parse_eq_none_of_prefix (by simp [Report.toJson, Value.isNumber]) hbegin fun heq => ?_
      rw [heq] at hencode
      exact hrest ((ByteArray.append_right_inj _).mp (hencode.trans ByteArray.append_empty.symm))
    simp [readReport, htext, hnone]

theorem readReport_bytes (hsep : linesep.toList.all isSpace) (sourcePath : String)
    (totalSites : ℕ) (results : List Entry) :
    readReport ((makeReport sourcePath totalSites results).bytes linesep) =
      some (makeReport sourcePath totalSites results) :=
  readReport_bytes_of_score hsep (makeReport_score sourcePath totalSites results)

/-- Of what is written for the results of a campaign, a reader gets the report from the whole and
nothing from any other beginning. -/
theorem readReport_beginning (hsep : linesep.toList.all isSpace) (sourcePath : String)
    (totalSites : ℕ) (results : List Entry) {content rest : ByteArray}
    (h : content ++ rest = (makeReport sourcePath totalSites results).bytes linesep) :
    readReport content =
      if rest = .empty then some (makeReport sourcePath totalSites results) else none := by
  split
  next hrest =>
    rw [hrest, ByteArray.append_empty] at h
    rw [h, readReport_bytes hsep]
  next hrest => exact readReport_torn hsep hrest h

end

/-! ## What a run leaves in the file -/

/-- The report of a run that finds the content in the source file. -/
def OwnReport (host : Host) (args : Args) (content : ByteArray) (r : Report) : Prop :=
  ∃ original m idxs, decodeText content = .ok original ∧ host.py.parse original = .ok m ∧
    indices m.totalSites args.maxMutants = .ok idxs ∧
    r = makeReport (host.resolve args.sourceFile) m.totalSites
      (runEntries host args original m.root.opSites.length 1 (sliceFrom idxs args.startAt))

section
variable {host : Host} {args : Args} {old : Option ReportFile}

/-- The report file has not been touched. -/
def Untouched (old : Option ReportFile) (w : World) : Prop := w.report = old

theorem runTests_untouched (x : Execution) (call : TestCall) :
    Keeps (Untouched old) (runTests host x call) := by
  have hcommunicate : Keeps (Untouched old) (communicate host x call) :=
    Keeps.bind reach_keeps fun _ _ h => h
  refine Keeps.bind reach_keeps fun _ => Keeps.bind hcommunicate fun r => ?_
  cases r with
  | exit returncode => exact Keeps.pure _
  | timeout =>
    exact Keeps.bind reach_keeps fun _ =>
      Keeps.bind (Keeps.tryExcept reach_keeps (Keeps.pure _)) fun _ => Keeps.pure _

theorem writeSource_untouched (p : Step) (content : ByteArray) :
    Keeps (Untouched old) (writeSource host p content) := step_keeps (fun _ h => h) fun _ _ h => h

theorem unlinkBackup_untouched (p : Step) : Keeps (Untouched old) (unlinkBackup host p) :=
  step_keeps (fun _ h => h) fun _ _ h => h

theorem mutantLoop_untouched (original : String) (nExprSites n : ℕ) (idxs : List ℕ)
    (results : List Entry) :
    Keeps (Untouched old) (mutantLoop host args original nExprSites n idxs results) := by
  induction idxs generalizing n results with
  | nil => exact Keeps.pure _
  | cons idx rest ih =>
    refine Keeps.bind reach_keeps fun _ => Keeps.bind (Keeps.ofExcept _) fun r => ?_
    cases r with
    | none => exact ih (n + 1) results
    | some mutant =>
      exact Keeps.bind (writeSource_untouched _ _) fun _ => Keeps.bind (runTests_untouched _ _)
        fun _ => Keeps.bind reach_keeps fun _ => Keeps.bind (writeSource_untouched _ _) fun _ =>
          Keeps.bind (fun _ h => h) fun _ => ih _ _

theorem restoreOriginal_untouched : Keeps (Untouched old) (restoreOriginal host) := by
  refine Keeps.bind (fun w h => ?_) fun _ => unlinkBackup_untouched _
  unfold copyBack
  cases w.backup with
  | none => exact h
  | some content => exact writeSource_untouched _ content w h

theorem checkBaseline_untouched : Keeps (Untouched old) (checkBaseline host args) := by
  refine Keeps.bind reach_keeps fun _ => Keeps.bind (runTests_untouched _ _) fun r => ?_
  match r with
  | (true, _) => exact reach_keeps
  | (false, _) =>
    exact Keeps.bind (unlinkBackup_untouched _) fun _ => Keeps.bind reach_keeps fun _ _ h => h

theorem chooseIndices_untouched (T : ℕ) : Keeps (Untouched old) (chooseIndices host args T) :=
  Keeps.bind reach_keeps fun _ => Keeps.bind (Keeps.ofExcept _) fun _ =>
    Keeps.bind reach_keeps fun _ => Keeps.pure _

/-- The file after a run: as before, or with the run's report, or with what was left of a write that
failed. -/
def Leaves (host : Host) (args : Args) (content : ByteArray) (old : Option ReportFile) (w : World) :
    Prop :=
  w.report = old ∨ (∃ r, OwnReport host args content r ∧ w.report = some (.json r)) ∨
    ∃ r e left, OwnReport host args content r ∧
      host.fault .writeReport = some (.raises e (some left)) ∧ w.report = some (.other left)

/-- `Q` where a program returns, and `Leaves` where it stops. -/
abbrev OrLeaves {α : Type} (host : Host) (args : Args) (content : ByteArray)
    (old : Option ReportFile) (Q : α → World → Prop) : Post World PyExc α :=
  ⟨Q, fun _ => Leaves host args content old, Leaves host args content old⟩

section
variable {content : ByteArray} {original : String} {m : Module}

theorem writeReport_leaves {r : Report} (h : OwnReport host args content r) :
    Triple (Untouched old) (writeReport host r)
      (OrLeaves host args content old fun _ => Leaves host args content old) := by
  intro w hw
  unfold writeReport step
  split
  next => exact .inr (.inl ⟨r, h, rfl⟩)
  next => exact .inl hw
  next e left hfault => exact .inr (.inr ⟨r, e, left, h, hfault, rfl⟩)
  next => exact .inl hw

/-- Where nothing is written, a program that stops leaves the file as it was. -/
theorem Untouched.leaves {α : Type} {x : M α} {R : α → Prop} (hkeeps : Keeps (Untouched old) x)
    (hx : ∀ w, Returns w x fun a _ => R a) : Triple (Untouched old) x
      (OrLeaves host args content old fun a w => Untouched old w ∧ R a) :=
  (Returns.and_keeps (fun w _ => hx w) hkeeps).conseq (fun _ h => h) (fun _ _ h => h)
    (fun _ _ h => .inl h) fun _ h => .inl h

theorem Untouched.leaves_unit {x : M Unit} (hkeeps : Keeps (Untouched old) x) :
    Triple (Untouched old) x (OrLeaves host args content old fun _ => Untouched old) :=
  hkeeps.conseq (fun _ h => h) (fun _ _ h => h) (fun _ _ h => .inl h) fun _ h => .inl h

theorem mutantLoop_leaves (hdec : decodeText content = .ok original)
    (hm : host.py.parse original = .ok m) {idxs : List ℕ}
    (hidxs : indices m.totalSites args.maxMutants = .ok idxs) :
    Triple (Untouched old)
      (Exec.tryFinally (mutantLoop host args original m.root.opSites.length 1
        (sliceFrom idxs args.startAt) []) (restoreOriginal host))
      (OrLeaves host args content old fun results w => Untouched old w ∧
        OwnReport host args content
          (makeReport (host.resolve args.sourceFile) m.totalSites results)) := by
  refine Triple.tryFinally (E := fun _ => Untouched old)
    (R := fun results w => Untouched old w ∧
      OwnReport host args content
        (makeReport (host.resolve args.sourceFile) m.totalSites results)) ?_ ?_ fun _ => ?_
  · refine (Returns.and_keeps (fun v _ results t h => ?_) (mutantLoop_untouched _ _ _ _ _)).conseq
      (fun _ h => h) (fun _ _ h => h) (fun _ _ h => h) fun _ h => .inl h
    obtain ⟨rfl, -⟩ := mutantLoop_returns _ _ _ _ _ results t h
    exact ⟨original, m, idxs, hdec, hm, hidxs, rfl⟩
  · rintro results w ⟨hold, hown⟩
    have hrestore : Triple (Untouched old) (restoreOriginal host)
        (OrLeaves host args content old fun _ v => Untouched old v ∧
          OwnReport host args content
            (makeReport (host.resolve args.sourceFile) m.totalSites results)) :=
      (Untouched.leaves_unit restoreOriginal_untouched).conseq (fun _ h => h)
        (fun _ _ h => ⟨h, hown⟩) (fun _ _ h => h) fun _ h => h
    exact hrestore w hold
  · exact restoreOriginal_untouched.conseq (fun _ h => h) (fun _ _ h => .inl h)
      (fun _ _ h => .inl h) fun _ h => .inl h

theorem testMutants_leaves (hdec : decodeText content = .ok original)
    (hm : host.py.parse original = .ok m) :
    Triple (Untouched old) (testMutants host args original m.root.opSites.length m.totalSites)
      (OrLeaves host args content old fun _ => Leaves host args content old) := by
  refine Triple.bind (Untouched.leaves_unit checkBaseline_untouched) fun _ => Triple.bind
    (Untouched.leaves (R := fun chosen => ∃ idxs, indices m.totalSites args.maxMutants = .ok idxs ∧
      chosen = sliceFrom idxs args.startAt) (chooseIndices_untouched _)
      fun w a t h => (chooseIndices_returns _ a t h).1) fun chosen => ?_
  rintro w ⟨hold, idxs, hidxs, rfl⟩
  refine Triple.bind (mutantLoop_leaves hdec hm hidxs) (fun results => ?_) w hold
  rintro v ⟨hv, hown⟩
  have hprint : Keeps (Leaves host args content old) (reach host .printReport) := reach_keeps
  exact Triple.bind (Untouched.leaves_unit reach_keeps) (fun _ => Triple.bind
    (writeReport_leaves hown) fun _ => hprint) v hv

theorem readText_leaves (w : World) :
    Triple (fun v => v = w) (readText host) (OrLeaves host args w.source w.report
      fun original v => Untouched w.report v ∧ decodeText w.source = .ok original) := by
  have hreach : Keeps (fun v => v = w) (reach host .readText) := reach_keeps
  refine Triple.bind (R := fun _ v => v = w) (hreach.conseq (fun _ h => h) (fun _ _ h => h)
    (fun _ _ h => .inl (h ▸ rfl)) fun _ h => .inl (h ▸ rfl)) fun _ v hv => ?_
  have hdecode : Triple (fun v => v = w) (ofExcept (decodeText w.source))
      (OrLeaves host args w.source w.report
        fun original v => Untouched w.report v ∧ decodeText w.source = .ok original) :=
    Triple.ofExcept (fun _ h _ hv => ⟨hv ▸ rfl, h⟩) fun _ _ _ hv => .inl (hv ▸ rfl)
  rw [hv]
  exact hdecode w rfl

theorem main_orLeaves (host : Host) (args : Args) (w : World) :
    Triple (fun v => v = w) (main host args)
      (OrLeaves host args w.source w.report fun _ => Leaves host args w.source w.report) := by
  refine Triple.bind (readText_leaves w) fun original => ?_
  rintro v ⟨hv, hdec⟩
  have hcopy : Keeps (Untouched w.report) (copyBackup host) := fun v hv =>
    (step_keeps (fun _ h => h) fun _ _ h => h :
      Keeps (Untouched w.report) (step host .copyBackup (setBackup v.source) setBackup)) v hv
  refine Triple.bind (Untouched.leaves_unit hcopy) (fun _ => Triple.bind
    (Untouched.leaves_unit reach_keeps) fun _ => Triple.bind
      (Untouched.leaves (R := fun exprSites => collectSites host.py original = .ok exprSites)
        (Keeps.ofExcept _) fun _ => Returns.ofExcept fun _ h => h) fun exprSites => ?_) v hv
  rintro v ⟨hv, hexpr⟩
  refine Triple.bind (Untouched.leaves_unit reach_keeps) (fun _ => Triple.bind
    (Untouched.leaves (R := fun sdlSites => collectSdlSites host.py original = .ok sdlSites)
      (Keeps.ofExcept _) fun _ => Returns.ofExcept fun _ h => h) fun sdlSites => ?_) v hv
  rintro v ⟨hv, hsdl⟩
  obtain ⟨m, hm, rfl, rfl⟩ := parse_of_collectSites hexpr hsdl
  simp only [List.length_map]
  refine Triple.ite (P := Untouched w.report) (fun _ => ?_)
    (fun _ => testMutants_leaves hdec hm) v hv
  have hnoSites : Keeps (Untouched w.report) (noSites host) :=
    Keeps.bind reach_keeps fun _ => unlinkBackup_untouched _
  exact hnoSites.conseq (fun _ h => h) (fun _ _ h => .inl h) (fun _ _ h => .inl h) fun _ h => .inl h

/-- Whatever goes wrong at whatever step, this is what `main` leaves in the report file. -/
theorem main_leaves (host : Host) (args : Args) (w : World) :
    Leaves host args w.source w.report (main host args w).2 := by
  have hmain := main_orLeaves host args w w rfl
  match hw : main host args w with
  | (.ok _, _) | (.raised _, _) | (.killed, _) =>
    rw [hw] at hmain
    exact hmain

end

end

/-! ## Every history -/

/-- A write of the report that fails leaves a beginning of what was to be written. -/
def Run.LeavesBeginning (run : Run) (w : World) : Prop :=
  ∀ r e left, OwnReport run.host run.args w.source r →
    run.host.fault .writeReport = some (.raises e (some left)) →
    ∃ rest, left ++ rest = r.bytes run.host.linesep

/-- The runs of a history that starts in `w₀`, each with the state that it finds. -/
def runsFrom (w₀ : World) : List Act → List (Run × World)
  | [] => []
  | .run r :: history => (r, w₀) :: runsFrom (Act.apply w₀ (.run r)) history
  | .save content :: history => runsFrom (Act.apply w₀ (.save content)) history

/-- Whatever has happened before, a report that can be read is the whole report of the run that left
the file, unless it was there before the first run. -/
theorem readable_report (w₀ : World) (history : List Act)
    (hbegin : ∀ e ∈ runsFrom w₀ history, e.1.LeavesBeginning e.2)
    (hlinesep : ∀ e ∈ runsFrom w₀ history, e.1.host.linesep.toList.all isSpace)
    {linesep : String} (hsep : linesep.toList.all isSpace) {file : ReportFile} {r : Report}
    (hfile : (history.foldl Act.apply w₀).report = some file)
    (hread : readReport (file.bytes linesep) = some r) :
    w₀.report = some file ∨
      ∃ e ∈ runsFrom w₀ history, OwnReport e.1.host e.1.args e.2.source r ∧
        (main e.1.host e.1.args e.2).2.report = some file := by
  induction history generalizing w₀ with
  | nil => exact .inl hfile
  | cons act history ih =>
    cases act with
    | save content => exact ih (setSource content w₀) hbegin hlinesep hfile
    | run run =>
      simp only [runsFrom, List.forall_mem_cons] at hbegin hlinesep
      simp only [runsFrom, List.exists_mem_cons_iff]
      refine (ih _ hbegin.2 hlinesep.2 hfile).elim (fun hafter => ?_)
        fun hlater => .inr (.inr hlater)
      -- the file is what this run leaves
      rcases main_leaves run.host run.args w₀ with hold | ⟨own, hown, hjson⟩ |
        ⟨own, e, left, hown, hfault, hother⟩
      · exact .inl (hold.symm.trans hafter)
      · obtain rfl := Option.some.inj (hjson.symm.trans hafter)
        obtain ⟨original, m, idxs, hdec, hm, hidxs, rfl⟩ := hown
        rw [ReportFile.bytes, readReport_bytes hsep] at hread
        obtain rfl := Option.some.inj hread
        exact .inr (.inl ⟨⟨original, m, idxs, hdec, hm, hidxs, rfl⟩, hafter⟩)
      · obtain rfl := Option.some.inj (hother.symm.trans hafter)
        obtain ⟨rest, hrest⟩ := hbegin.1 own e left hown hfault
        have hempty : rest = .empty := by
          by_contra hne
          rw [ReportFile.bytes, readReport_torn hlinesep.1 hne hrest] at hread
          cases hread
        obtain ⟨original, m, idxs, hdec, hm, hidxs, rfl⟩ := hown
        rw [hempty, ByteArray.append_empty] at hrest
        rw [ReportFile.bytes, hrest, readReport_bytes hlinesep.1] at hread
        obtain rfl := Option.some.inj hread
        exact .inr (.inl ⟨⟨original, m, idxs, hdec, hm, hidxs, rfl⟩, hafter⟩)

def assertEntries : List Entry :=
  runEntries (assertHost []) assertArgs "assert a < b + 1\n" 2 1 [0, 1, 2]

/-- The report of the example: one of the three mutants survives. -/
def assertReport : Report := makeReport "/src/a.py" 3 assertEntries

/-- The whole report of the example, and the report without its last byte. -/
theorem readReport_beginning_assert :
    readReport (assertReport.bytes "\r\n") = some assertReport ∧
      readReport ((assertReport.bytes "\r\n").extract 0 ((assertReport.bytes "\r\n").size - 1)) =
        none := by
  have hsep : "\r\n".toList.all isSpace := by decide
  have hwhole : readReport (assertReport.bytes "\r\n") = some assertReport :=
    (readReport_beginning hsep "/src/a.py" 3 assertEntries ByteArray.append_empty).trans
      (if_pos rfl)
  refine ⟨hwhole, ?_⟩
  have hpos : 0 < (assertReport.bytes "\r\n").size := by
    refine Nat.pos_of_ne_zero fun hzero => ?_
    have hnone : readReport .empty = none := by decide +kernel
    rw [ByteArray.size_eq_zero_iff.mp hzero, hnone] at hwhole
    cases hwhole
  generalize hbytes : assertReport.bytes "\r\n" = content at hpos
  have hpart : content.extract 0 (content.size - 1) ++
      content.extract (content.size - 1) content.size = assertReport.bytes "\r\n" := by
    rw [hbytes, ← ByteArray.extract_eq_extract_append_extract _ (by omega) (by omega),
      ByteArray.extract_zero_size]
  have hrest : content.extract (content.size - 1) content.size ≠ .empty := by
    intro h
    have hzero := congrArg ByteArray.size h
    rw [ByteArray.size_extract, ByteArray.size_empty] at hzero
    omega
  exact (readReport_beginning hsep "/src/a.py" 3 assertEntries hpart).trans (if_neg hrest)

/-- The disk is full when the first run saves its report; the second run saves its own. -/
def fullDisk : List Act :=
  [.run ⟨assertHost [(.writeReport, .raises .osError (some .empty))], assertArgs⟩,
    .run ⟨assertHost [], assertArgs⟩]

theorem readable_report_fullDisk :
    ∃ e ∈ runsFrom assertWorld fullDisk,
      OwnReport e.1.host e.1.args e.2.source assertReport ∧
        (main e.1.host e.1.args e.2).2.report = some (.json assertReport) := by
  have hbegin : ∀ e ∈ runsFrom assertWorld fullDisk, e.1.LeavesBeginning e.2 := by
    simp only [fullDisk, runsFrom, List.forall_mem_cons]
    refine ⟨fun r e left _ hfault => ?_, fun r e left _ hfault => ?_, fun _ h => nomatch h⟩
    · cases hfault
      exact ⟨_, ByteArray.empty_append⟩
    · cases hfault
  have hlinesep : ∀ e ∈ runsFrom assertWorld fullDisk, e.1.host.linesep.toList.all isSpace := by
    simp only [fullDisk, runsFrom, List.forall_mem_cons]
    exact ⟨by decide, by decide, fun _ h => nomatch h⟩
  have hread : readReport ((ReportFile.json assertReport).bytes "\n") = some assertReport :=
    readReport_bytes (by decide) _ _ _
  have hfile : (fullDisk.foldl Act.apply assertWorld).report = some (.json assertReport) := by
    decide +kernel
  exact (readable_report assertWorld fullDisk hbegin hlinesep (by decide) hfile hread).resolve_left
    fun h => nomatch h

end MutationTest

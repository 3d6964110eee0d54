import MutationTest.Verify.Resumption
import MutationTest.Verify.Histories

/-! # Whose report it is

A run that returns has written its own report, or has found no site and written none
(`main_returns`); what it writes does not depend on the report that it finds (`main_respects`). So
after an exit with status zero the report file is that of the run exactly where the source has a
site. -/

namespace MutationTest
open Exec

/-! ## Exit status -/

/-- No function of the library ends the interpreter with status zero. -/
structure Host.NeverExits (host : Host) : Prop where
  steps : ∀ p left, host.fault p ≠ some (.raises (.systemExit 0) left)
  parse : ∀ s, host.py.parse s ≠ .error (.systemExit 0)

/-- What is raised is no exit with status zero. -/
abbrev NoExit {α : Type} (x : M α) : Prop :=
  Triple (fun _ => True) x ⟨fun _ _ => True, fun e _ => e ≠ .systemExit 0, fun _ => True⟩

section
variable {host : Host} (h : host.NeverExits)
include h

theorem step_noExit (p : Step) (done : World → World) (left : ByteArray → World → World) :
    NoExit (step host p done left) := by
  intro w _
  unfold step
  split
  next => trivial
  next e hf => rintro rfl; exact h.steps p none hf
  next e content hf => rintro rfl; exact h.steps p (some content) hf
  next => trivial

theorem reach_noExit (p : Step) : NoExit (reach host p) := step_noExit h p _ _

theorem runTests_noExit (x : Execution) (call : TestCall) : NoExit (runTests host x call) := by
  have hcommunicate : NoExit (communicate host x call) :=
    Triple.bind (reach_noExit h _) fun _ _ _ => trivial
  refine Triple.bind (reach_noExit h _) fun _ => Triple.bind hcommunicate fun r => ?_
  cases r with
  | exit returncode => exact fun _ _ => trivial
  | timeout =>
    refine Triple.bind (reach_noExit h _) fun _ => Triple.bind (R := fun _ _ => True) ?_
      fun _ _ _ => trivial
    exact Triple.tryExcept (reach_noExit h _) (fun _ _ _ _ => trivial) fun _ _ _ he => he

theorem writeSource_noExit (p : Step) (content : ByteArray) : NoExit (writeSource host p content) :=
  step_noExit h p _ _

theorem unlinkBackup_noExit (p : Step) : NoExit (unlinkBackup host p) := step_noExit h p _ _

/-- What a traversal of the source raises, the parser raised. -/
theorem ofExcept_noExit {α : Type} {s : String} {r : Except PyExc α}
    (hr : ∀ e, r = .error e → host.py.parse s = .error e) : NoExit (ofExcept r : M α) :=
  Triple.ofExcept (fun _ _ _ _ => trivial) fun e he _ _ hexit => h.parse s (hexit ▸ hr e he)

omit h in
theorem makeMutantSourceUnified_error {s : String} {idx nExprSites : ℕ} {e : PyExc}
    (he : makeMutantSourceUnified host.py s idx nExprSites = .error e) :
    host.py.parse s = .error e := by
  cases hm : host.py.parse s with
  | error e' =>
    simp only [makeMutantSourceUnified, makeMutantSource, makeSdlMutantSource, collectSdlSites, hm]
      at he
    split at he <;> cases he <;> rfl
  | ok m =>
    unfold makeMutantSourceUnified at he
    split at he
    · rw [makeMutantSource_eq hm] at he
      cases he
    · cases hj : m.root.sdlStmts[idx - nExprSites]? with
      | none => rw [makeSdlMutantSource_none hm hj] at he; cases he
      | some d =>
        obtain ⟨d', hd'⟩ := firstHit_isSome (List.mem_of_getElem? hj)
        rw [makeSdlMutantSource_some hm hj hd'] at he
        cases he

theorem mutantLoop_noExit (args : Args) (original : String) (nExprSites n : ℕ) (idxs : List ℕ)
    (results : List Entry) :
    NoExit (mutantLoop host args original nExprSites n idxs results) := by
  induction idxs generalizing n results with
  | nil => exact fun _ _ => trivial
  | cons idx rest ih =>
    refine Triple.bind (reach_noExit h _) fun _ => Triple.bind (R := fun _ _ => True)
      (ofExcept_noExit h fun _ => makeMutantSourceUnified_error) fun r => ?_
    cases r with
    | none => exact ih (n + 1) results
    | some mutant =>
      exact Triple.bind (writeSource_noExit h _ _) fun _ => Triple.bind (runTests_noExit h _ _)
        fun _ => Triple.bind (reach_noExit h _) fun _ => Triple.bind (writeSource_noExit h _ _)
          fun _ => Triple.bind (R := fun _ _ => True) (fun _ _ => trivial) fun _ => ih _ _

theorem restoreOriginal_noExit : NoExit (restoreOriginal host) := by
  refine Triple.bind (R := fun _ _ => True) ?_ fun _ => unlinkBackup_noExit h _
  intro w _
  unfold copyBack
  cases w.backup with
  | none => exact fun he => nomatch he
  | some content => exact writeSource_noExit h _ content w trivial

theorem checkBaseline_noExit (args : Args) : NoExit (checkBaseline host args) := by
  refine Triple.bind (reach_noExit h _) fun _ => Triple.bind (runTests_noExit h _ _) fun r => ?_
  match r with
  | (true, _) => exact reach_noExit h _
  | (false, _) =>
    exact Triple.bind (unlinkBackup_noExit h _) fun _ => Triple.bind (reach_noExit h _) fun _ =>
      Triple.raise fun _ _ he => by cases he

theorem chooseIndices_noExit (args : Args) (totalSites : ℕ) :
    NoExit (chooseIndices host args totalSites) := by
  refine Triple.bind (reach_noExit h _) fun _ => Triple.bind (R := fun _ _ => True) ?_ fun _ =>
    Triple.bind (reach_noExit h _) fun _ _ _ => trivial
  refine Triple.ofExcept (fun _ _ _ _ => trivial) fun e he _ _ hexit => ?_
  subst hexit
  unfold indices at he
  split at he
  · split at he <;> cases he
  · cases he

theorem main_noExit (args : Args) : NoExit (main host args) := by
  have hread : NoExit (readText host) := by
    refine Triple.bind (reach_noExit h _) fun _ w _ => ?_
    refine (Triple.ofExcept (fun _ _ _ _ => trivial) fun e he _ _ hexit => ?_ :
      NoExit (ofExcept (decodeText w.source))) w trivial
    subst hexit
    unfold decodeText at he
    split at he <;> cases he
  refine Triple.bind hread fun original => Triple.bind (R := fun _ _ => True) ?_ fun _ => ?_
  · exact fun w _ => step_noExit h _ _ _ w trivial
  have hexpr : ∀ e, collectSites host.py original = .error e →
      host.py.parse original = .error e := by
    intro e he
    unfold collectSites at he
    cases hm : host.py.parse original with
    | error e' => rw [hm] at he; cases he; rfl
    | ok m => rw [hm] at he; cases he
  have hsdl : ∀ e, collectSdlSites host.py original = .error e →
      host.py.parse original = .error e := by
    intro e he
    unfold collectSdlSites at he
    cases hm : host.py.parse original with
    | error e' => rw [hm] at he; cases he; rfl
    | ok m => rw [hm] at he; cases he
  refine Triple.bind (reach_noExit h _) fun _ => Triple.bind (ofExcept_noExit h hexpr)
    fun exprSites => Triple.bind (reach_noExit h _) fun _ => Triple.bind (ofExcept_noExit h hsdl)
    fun sdlSites => Triple.ite (fun _ => ?_) fun _ => ?_
  · exact Triple.bind (reach_noExit h _) fun _ => unlinkBackup_noExit h _
  refine Triple.bind (checkBaseline_noExit h args) fun _ =>
    Triple.bind (chooseIndices_noExit h args _) fun chosen => Triple.bind (R := fun _ _ => True) ?_
    fun results => Triple.bind (reach_noExit h _) fun _ =>
      Triple.bind (step_noExit h _ _ _) fun _ => reach_noExit h _
  refine Triple.tryFinally (mutantLoop_noExit h _ _ _ _ _ _) (fun _ => restoreOriginal_noExit h)
    fun e w he => ?_
  have := restoreOriginal_noExit h w trivial
  match hr : restoreOriginal host w with
  | (.ok _, _) => exact he
  | (.raised _, _) => rw [hr] at this; exact this
  | (.killed, _) => trivial

end

/-- Exit status zero means that `main` has returned. -/
theorem returned_of_exitStatus {host : Host} (h : host.NeverExits) {args : Args} {w : World}
    (hexit : exitStatus (main host args w).1 = some 0) : (main host args w).1 = .ok () := by
  have hpost := main_noExit h args w trivial
  match hr : main host args w with
  | (.ok _, _) => rfl
  | (.raised e, w') =>
    rw [hr] at hpost hexit
    have hne : e ≠ .systemExit 0 := hpost
    unfold exitStatus at hexit
    split at hexit <;> simp_all
  | (.killed, _) => rw [hr] at hexit; cases hexit

/-! ## What a run that returns has written -/

section
variable {host : Host} {args : Args} {w : World}

theorem step_returns {p : Step} {done : World → World} {left : ByteArray → World → World}
    {R : Unit → World → Prop} (h : R () (done w)) : Returns w (step host p done left) R := by
  intro a w' hw
  unfold step at hw
  split at hw <;> cases hw
  exact h

theorem reach_returns {p : Step} {R : Unit → World → Prop} (h : R () w) :
    Returns w (reach host p) R := step_returns h

theorem runTests_returns (x : Execution) (call : TestCall) :
    Returns w (runTests host x call) fun r w' =>
      r = verdict (host.shell x call w.source) ∧ w' = afterTests x w := by
  intro r w' hw
  by_cases h : host.TestsReturn x call w.source
  · rw [runTests_of_returns h] at hw
    cases hw
    exact ⟨rfl, rfl⟩
  · exact absurd (by rw [hw]) (runTests_of_not_returns h r)

theorem mutantLoop_returns (original : String) (nExprSites n : ℕ) (idxs : List ℕ)
    (results : List Entry) :
    Returns w (mutantLoop host args original nExprSites n idxs results) fun results' w' =>
      results' = results ++ runEntries host args original nExprSites n idxs ∧
        w'.report = w.report := by
  induction idxs generalizing n results w with
  | nil => exact Returns.pure ⟨by simp [runEntries], rfl⟩
  | cons idx rest ih =>
    refine Returns.bind (Q := fun _ w' => w = w') (reach_returns rfl) ?_
    rintro _ _ rfl
    refine Returns.bind (Q := fun r w' => w = w' ∧
      makeMutantSourceUnified host.py original idx nExprSites = .ok r)
      (Returns.ofExcept fun r hr => ⟨rfl, hr⟩) ?_
    rintro r _ ⟨rfl, hr⟩
    cases r with
    | none =>
      intro results' w' hw
      rw [runEntries, hr]
      exact ih (n + 1) results results' w' hw
    | some mutant =>
      obtain ⟨mutantSource, description⟩ := mutant
      -- the tests see what has just been written
      refine Returns.bind (Q := fun _ w' => w' = setSource (encodeText host.linesep mutantSource) w)
        (step_returns rfl) ?_
      rintro _ _ rfl
      refine Returns.bind (runTests_returns _ _) ?_
      rintro ⟨survived, reason⟩ _ ⟨hverdict, rfl⟩
      refine Returns.bind (Q := fun _ w' => w'.report = w.report) (reach_returns rfl) fun _ w₁ h₁ =>
        Returns.bind (Q := fun _ w' => w'.report = w.report) (step_returns h₁) fun _ w₂ h₂ =>
        Returns.bind (Q := fun _ w' => w'.report = w.report) ?_ fun _ w₃ h₃ => ?_
      · rintro _ _ hw
        cases hw
        exact h₂
      · intro results' w' hw
        obtain ⟨rfl, hreport⟩ := ih (n + 1) _ results' w' hw
        refine ⟨?_, hreport.trans h₃⟩
        have hverdict : (survived, reason) = verdict (host.shell (.mutant n) (testCall args)
          (encodeText host.linesep mutantSource)) := hverdict
        rw [runEntries, hr]
        simp only [List.append_assoc, List.singleton_append, ← hverdict]

theorem checkBaseline_returns :
    Returns w (checkBaseline host args) fun _ w' => w'.report = w.report := by
  refine Returns.bind (Q := fun _ w' => w = w') (reach_returns rfl) ?_
  rintro _ _ rfl
  refine Returns.bind (runTests_returns _ _) ?_
  rintro ⟨passed, reason⟩ _ ⟨-, rfl⟩
  cases passed with
  | true => exact reach_returns rfl
  | false =>
    exact Returns.bind (Q := fun _ _ => True) (step_returns trivial) fun _ _ _ =>
      Returns.bind (Q := fun _ _ => True) (reach_returns trivial) fun _ _ _ => Returns.raise _

theorem chooseIndices_returns (T : ℕ) :
    Returns w (chooseIndices host args T) fun chosen w' =>
      (∃ idxs, indices T args.maxMutants = .ok idxs ∧ chosen = sliceFrom idxs args.startAt) ∧
        w'.report = w.report := by
  refine Returns.bind (Q := fun _ w' => w = w') (reach_returns rfl) ?_
  rintro _ _ rfl
  refine Returns.bind (Q := fun idxs w' => w = w' ∧ indices T args.maxMutants = .ok idxs)
    (Returns.ofExcept fun idxs h => ⟨rfl, h⟩) ?_
  rintro idxs _ ⟨rfl, hidxs⟩
  refine Returns.bind (Q := fun _ w' => w = w') (reach_returns rfl) ?_
  rintro _ _ rfl
  refine Returns.pure ⟨⟨idxs, hidxs, ?_⟩, rfl⟩
  by_cases h : args.startAt = 0
  · simp [h, sliceFrom_zero]
  · simp [h]

theorem testMutants_returns (original : String) (nExprSites T : ℕ) :
    Returns w (testMutants host args original nExprSites T) fun _ w' =>
      ∃ idxs, indices T args.maxMutants = .ok idxs ∧
        w'.report = some (.json (makeReport (host.resolve args.sourceFile) T
          (runEntries host args original nExprSites 1 (sliceFrom idxs args.startAt)))) := by
  refine Returns.bind checkBaseline_returns fun _ _ _ =>
    Returns.bind (chooseIndices_returns T) ?_
  rintro chosen w₁ ⟨⟨idxs, hidxs, rfl⟩, -⟩
  refine Returns.bind (Q := fun results _ => results =
    runEntries host args original nExprSites 1 (sliceFrom idxs args.startAt))
    (Returns.tryFinally (mutantLoop_returns original nExprSites 1 _ []) ?_) ?_
  · rintro results w₂ ⟨rfl, -⟩ _ _ _
    rfl
  · rintro _ w₃ rfl
    exact Returns.bind (Q := fun _ _ => True) (reach_returns trivial) fun _ _ _ =>
      Returns.bind (Q := fun _ w' => w'.report = some (.json (makeReport
        (host.resolve args.sourceFile) T
        (runEntries host args original nExprSites 1 (sliceFrom idxs args.startAt)))))
        (step_returns rfl) fun _ _ h => reach_returns ⟨idxs, hidxs, h⟩

/-- A run that returns has written its report, or found nothing to mutate and written none. -/
theorem main_returns (host : Host) (args : Args) (w : World) :
    Returns w (main host args) fun _ w' => ∃ original m,
      decodeText w.source = .ok original ∧ host.py.parse original = .ok m ∧
      if m.totalSites = 0 then w'.report = w.report
      else ∃ idxs, indices m.totalSites args.maxMutants = .ok idxs ∧
        w'.report = some (.json (makeReport (host.resolve args.sourceFile) m.totalSites
          (runEntries host args original m.root.opSites.length 1
            (sliceFrom idxs args.startAt)))) := by
  refine Returns.bind (Q := fun original w' => w = w' ∧ decodeText w.source = .ok original)
    (Returns.bind (Q := fun _ w' => w = w') (reach_returns rfl) ?_) ?_
  · rintro _ _ rfl original w' hw
    have hread : Returns w (ofExcept (decodeText w.source)) fun original w' =>
      w = w' ∧ decodeText w.source = .ok original := Returns.ofExcept fun _ h => ⟨rfl, h⟩
    exact hread original w' hw
  rintro original _ ⟨rfl, hdec⟩
  refine Returns.bind (Q := fun _ w' => w'.report = w.report) ?_ fun _ w₁ h₁ => ?_
  · intro a w' hw
    have hcopy : Returns w (step host .copyBackup (setBackup w.source) setBackup) fun _ w' =>
      w'.report = w.report := step_returns rfl
    exact hcopy a w' hw
  refine Returns.bind (Q := fun _ w' => w'.report = w.report) (reach_returns h₁) fun _ w₂ h₂ =>
    Returns.bind (Q := fun exprSites w' => w'.report = w.report ∧
      collectSites host.py original = .ok exprSites) (Returns.ofExcept fun _ h => ⟨h₂, h⟩) ?_
  rintro exprSites w₃ ⟨h₃, hexpr⟩
  refine Returns.bind (Q := fun _ w' => w'.report = w.report) (reach_returns h₃) fun _ w₄ h₄ =>
    Returns.bind (Q := fun sdlSites w' => w'.report = w.report ∧
      collectSdlSites host.py original = .ok sdlSites) (Returns.ofExcept fun _ h => ⟨h₄, h⟩) ?_
  rintro sdlSites w₅ ⟨h₅, hsdl⟩
  obtain ⟨m, hm, rfl, rfl⟩ := parse_of_collectSites hexpr hsdl
  simp only [List.length_map]
  refine Returns.ite (fun hT => ?_) fun hT => ?_
  · refine Returns.bind (Q := fun _ w' => w'.report = w.report) (reach_returns h₅) fun _ _ h =>
      step_returns ⟨original, m, hdec, hm, ?_⟩
    rw [if_pos (show m.totalSites = 0 from hT)]
    exact h
  · intro a w' hw
    refine ⟨original, m, hdec, hm, ?_⟩
    rw [if_neg (show m.totalSites ≠ 0 from hT)]
    exact testMutants_returns original _ _ a w' hw

end

/-! ## The report that a run finds -/

/-- Alike but for the report. -/
def SameButReport (w w' : World) : Prop :=
  w.source = w'.source ∧ w.backup = w'.backup ∧ w.log = w'.log

section
variable {host : Host} {args : Args}

theorem step_respects {p : Step} {done : World → World} {left : ByteArray → World → World}
    (hdone : ∀ w w', SameButReport w w' → SameButReport (done w) (done w'))
    (hleft : ∀ c w w', SameButReport w w' → SameButReport (left c w) (left c w')) :
    Respects SameButReport (step host p done left) := by
  intro w w' h
  unfold step
  split
  next => exact ⟨rfl, hdone w w' h⟩
  next => exact ⟨rfl, h⟩
  next => exact ⟨rfl, hleft _ w w' h⟩
  next => exact ⟨rfl, h⟩

theorem reach_respects (p : Step) : Respects SameButReport (reach host p) :=
  step_respects (fun _ _ h => h) fun _ _ _ h => h

theorem writeSource_respects (p : Step) (content : ByteArray) :
    Respects SameButReport (writeSource host p content) :=
  step_respects (fun _ _ h => ⟨rfl, h.2⟩) fun _ _ _ h => ⟨rfl, h.2⟩

theorem unlinkBackup_respects (p : Step) : Respects SameButReport (unlinkBackup host p) :=
  step_respects (fun _ _ h => ⟨h.1, rfl, h.2.2⟩) fun _ _ _ h => h

theorem runTests_respects (x : Execution) (call : TestCall) :
    Respects SameButReport (runTests host x call) := by
  have hcommunicate : Respects SameButReport (communicate host x call) := by
    refine Respects.bind (reach_respects _) fun _ w w' h => ?_
    obtain ⟨hsource, hbackup, hlog⟩ := h
    exact ⟨by simp only [hsource], hsource, hbackup, by simp only [hlog, hsource]⟩
  refine Respects.bind (reach_respects _) fun _ => Respects.bind hcommunicate fun r => ?_
  cases r with
  | exit returncode => exact Respects.pure _
  | timeout =>
    exact Respects.bind (reach_respects _) fun _ =>
      Respects.bind (Respects.tryExcept (reach_respects _) (Respects.pure _)) fun _ =>
        Respects.pure _

theorem readText_respects : Respects SameButReport (readText host) := by
  have hread : Respects SameButReport fun w => (ofExcept (decodeText w.source) : M String) w := by
    intro w w' h
    have := Respects.ofExcept (decodeText w.source) w w' h
    rwa [show (ofExcept (decodeText w.source) : M String) w' =
      (ofExcept (decodeText w'.source) : M String) w' by rw [h.1]] at this
  exact Respects.bind (reach_respects _) fun _ => hread

theorem copyBackup_respects : Respects SameButReport (copyBackup host) := by
  intro w w' h
  unfold copyBackup
  rw [h.1]
  have hcopy : Respects SameButReport
      (step host .copyBackup (setBackup w'.source) setBackup) :=
    step_respects (fun _ _ h => ⟨h.1, rfl, h.2.2⟩) fun _ _ _ h => ⟨h.1, rfl, h.2.2⟩
  exact hcopy w w' h

theorem copyBack_respects : Respects SameButReport (copyBack host) := by
  intro w w' h
  unfold copyBack
  rw [h.2.1]
  cases w'.backup with
  | none => exact ⟨rfl, h⟩
  | some content => exact writeSource_respects _ content w w' h

theorem mutantLoop_respects (original : String) (nExprSites n : ℕ) (idxs : List ℕ)
    (results : List Entry) :
    Respects SameButReport (mutantLoop host args original nExprSites n idxs results) := by
  induction idxs generalizing n results with
  | nil => exact Respects.pure _
  | cons idx rest ih =>
    refine Respects.bind (reach_respects _) fun _ => Respects.bind (Respects.ofExcept _) fun r => ?_
    cases r with
    | none => exact ih (n + 1) results
    | some mutant =>
      have hrecord : Respects SameButReport (record (.restored n)) := fun w w' h =>
        ⟨rfl, h.1, h.2.1, congrArg (· ++ [Event.restored n]) h.2.2⟩
      exact Respects.bind (writeSource_respects _ _) fun _ =>
        Respects.bind (runTests_respects _ _) fun _ => Respects.bind (reach_respects _) fun _ =>
          Respects.bind (writeSource_respects _ _) fun _ => Respects.bind hrecord fun _ => ih _ _

theorem checkBaseline_respects : Respects SameButReport (checkBaseline host args) := by
  refine Respects.bind (reach_respects _) fun _ => Respects.bind (runTests_respects _ _) fun r => ?_
  match r with
  | (true, _) => exact reach_respects _
  | (false, _) =>
    exact Respects.bind (unlinkBackup_respects _) fun _ => Respects.bind (reach_respects _) fun _ =>
      Respects.raise _

/-- No run depends on the report that it finds. -/
theorem main_respects (host : Host) (args : Args) : Respects SameButReport (main host args) := by
  refine Respects.bind readText_respects fun original => Respects.bind copyBackup_respects fun _ =>
    Respects.bind (reach_respects _) fun _ => Respects.bind (Respects.ofExcept _) fun exprSites =>
    Respects.bind (reach_respects _) fun _ => Respects.bind (Respects.ofExcept _) fun sdlSites =>
    Respects.ite (Respects.bind (reach_respects _) fun _ => unlinkBackup_respects _) ?_
  have hchoose : Respects SameButReport
      (chooseIndices host args (exprSites.length + sdlSites.length)) :=
    Respects.bind (reach_respects _) fun _ => Respects.bind (Respects.ofExcept _) fun _ =>
      Respects.bind (reach_respects _) fun _ => Respects.pure _
  exact Respects.bind checkBaseline_respects fun _ => Respects.bind hchoose fun _ =>
    Respects.bind (Respects.tryFinally (mutantLoop_respects _ _ _ _ _)
      (Respects.bind copyBack_respects fun _ => unlinkBackup_respects _)) fun _ =>
    Respects.bind (reach_respects _) fun _ =>
      Respects.bind (step_respects (fun _ _ h => h) fun _ _ _ h => h) fun _ => reach_respects _

end

/-! ## Freshness -/

/-- What a run writes to the report file: what it leaves there if it finds nothing. -/
def writtenReport (host : Host) (args : Args) (w : World) : Option ReportFile :=
  (main host args { w with report := none }).2.report

/-- After the run the report file holds the report that this run wrote: that of the sites of its
source and of the outcomes of its tests. -/
def LeavesFreshReport (host : Host) (args : Args) (w : World) : Prop :=
  ∃ (r : Report) (original : String) (exprSites : List Site) (sdlSites : List SdlSite)
    (idxs : List ℕ),
    (main host args w).2.report = some (.json r) ∧ writtenReport host args w = some (.json r) ∧
    decodeText w.source = .ok original ∧ collectSites host.py original = .ok exprSites ∧
    collectSdlSites host.py original = .ok sdlSites ∧
    r.totalSitesNoArquivo = exprSites.length + sdlSites.length ∧
    indices r.totalSitesNoArquivo args.maxMutants = .ok idxs ∧
    r.detalhes = runEntries host args original exprSites.length 1 (sliceFrom idxs args.startAt)

/-- The source has something to mutate. -/
def HasSites (py : PyAst) (content : ByteArray) : Prop :=
  ∃ (original : String) (exprSites : List Site) (sdlSites : List SdlSite),
    decodeText content = .ok original ∧ collectSites py original = .ok exprSites ∧
    collectSdlSites py original = .ok sdlSites ∧ 0 < exprSites.length + sdlSites.length

/-- What happens to the file: a run of the tool, however it ends, or the user saves another text. -/
inductive Act where
  | run (r : Run)
  | save (content : ByteArray)

def Act.apply (w : World) : Act → World
  | .run r => (main r.host r.args w).2
  | .save content => setSource content w

/-- Whatever has happened before, a run with exit status zero leaves a fresh report exactly where
its source has something to mutate. -/
theorem fresh_report_iff (w₀ : World) (history : List Act) {host : Host} (args : Args)
    (hlibrary : host.NeverExits)
    (hexit : exitStatus (main host args (history.foldl Act.apply w₀)).1 = some 0) :
    LeavesFreshReport host args (history.foldl Act.apply w₀) ↔
      HasSites host.py (history.foldl Act.apply w₀).source := by
  generalize history.foldl Act.apply w₀ = w at hexit ⊢
  have hok := returned_of_exitStatus hlibrary hexit
  obtain ⟨original, m, hdec, hm, hreport⟩ := main_returns host args w () _ (Prod.ext hok rfl)
  -- the same run, started without a report
  have hsame := main_respects host args w { w with report := none } ⟨rfl, rfl, rfl⟩
  obtain ⟨original', m', hdec', hm', hwritten⟩ :=
    main_returns host args { w with report := none } () _ (Prod.ext (hsame.1.symm.trans hok) rfl)
  obtain rfl := Except.ok.inj (hdec.symm.trans hdec')
  obtain rfl := Except.ok.inj (hm.symm.trans hm')
  have hlen : (m.root.opSites.map OpSite.site).length +
      (m.root.sdlStmts.map fun e => Node.sdlSite e.2).length = m.totalSites := by
    simp [Module.totalSites]
  constructor
  · rintro ⟨r, original', exprSites, sdlSites, _, hr, hw, hdec', hexpr, hsdl, -⟩
    refine ⟨original', exprSites, sdlSites, hdec', hexpr, hsdl, ?_⟩
    obtain rfl := Except.ok.inj (hdec.symm.trans hdec')
    obtain ⟨m', hm', rfl, rfl⟩ := parse_of_collectSites hexpr hsdl
    obtain rfl := Except.ok.inj (hm.symm.trans hm')
    rw [hlen, Nat.pos_iff_ne_zero]
    intro hT
    rw [if_pos hT] at hwritten
    rw [writtenReport, hwritten] at hw
    cases hw
  · rintro ⟨original', exprSites, sdlSites, hdec', hexpr, hsdl, hpos⟩
    obtain rfl := Except.ok.inj (hdec.symm.trans hdec')
    obtain ⟨m', hm', rfl, rfl⟩ := parse_of_collectSites hexpr hsdl
    obtain rfl := Except.ok.inj (hm.symm.trans hm')
    rw [hlen, Nat.pos_iff_ne_zero] at hpos
    rw [if_neg hpos] at hreport hwritten
    obtain ⟨idxs, hidxs, hr⟩ := hreport
    obtain ⟨idxs', hidxs', hw⟩ := hwritten
    obtain rfl := Except.ok.inj (hidxs.symm.trans hidxs')
    refine ⟨_, original, _, _, idxs, hr, hw, hdec, hexpr, hsdl, hlen.symm, hidxs, ?_⟩
    rw [List.length_map]
    rfl

theorem assertHost_neverExits {faults : List (Step × Fault)}
    (h : ∀ p e left, (assertHost faults).fault p = some (.raises e left) → e ≠ .systemExit 0) :
    (assertHost faults).NeverExits where
  steps p left hf := h p _ left hf rfl
  parse s hs := by
    simp only [assertHost, assertPy] at hs
    split at hs
    · cases hs
    split at hs
    · cases hs
    split at hs <;> cases hs

/-- The example, after a run that was interrupted and a change of the source. -/
theorem fresh_report_iff_assert :
    let history : List Act :=
      [.run ⟨assertHost [(.popen (.mutant 2), .raises .keyboardInterrupt none)], assertArgs⟩,
        .save "\nassert a < b + 1\n".toUTF8, .save "assert a < b + 1\n".toUTF8]
    LeavesFreshReport (assertHost []) assertArgs (history.foldl Act.apply assertWorld) ↔
      HasSites assertPy (history.foldl Act.apply assertWorld).source :=
  fresh_report_iff _ _ _ (assertHost_neverExits fun _ _ _ h => nomatch h) (by decide +kernel)

/-- A run on the example, then the user takes the assertion out: the second run ends with status
zero, and the report is that of the first. -/
theorem stale_report :
    let w := [Act.run ⟨assertHost [], assertArgs⟩, .save "pass".toUTF8].foldl Act.apply assertWorld
    let second := main (assertHost []) assertArgs w
    exitStatus second.1 = some 0 ∧ second.2.report = w.report ∧
      second.2.savedReport.map (·.totalSitesNoArquivo) = some 3 ∧
      writtenReport (assertHost []) assertArgs w = none := by
  decide +kernel

end MutationTest

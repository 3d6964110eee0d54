import MutationTest.Main
import MutationTest.Verify.OperatorPasses

/-! # The source file comes back

Until the loop the source file is untouched, during the loop the backup holds the original, and the
`finally` clause copies it back. `main_triple` is this invariant carried through `main` for every
way to end. From it: the source file is restored by every run that is not killed, and a history of
runs that are killed anywhere keeps the pristine content as long as no run copies a mutated source
over the backup. -/

namespace MutationTest
open Exec

/-! ## Invariants of the two files -/

section
variable {host : Host} {p : Step} {P : World → Prop} {Q : Post World PyExc Unit}

theorem step_triple {done : World → World} {left : ByteArray → World → World}
    (hdone : ∀ w, P w → Q.ok () (done w)) (hraised : ∀ e w, P w → Q.raised e w)
    (hleft : host.fault p ≠ none → ∀ e c w, P w → Q.raised e (left c w))
    (hkilled : ∀ w, P w → Q.killed w) : Triple P (step host p done left) Q := by
  intro w hw
  unfold step
  split
  next => exact hdone w hw
  next => exact hraised _ w hw
  next h => exact hleft (by simp [h]) _ _ w hw
  next => exact hkilled w hw

/-- A step that changes neither file, or changes them alike. -/
theorem step_keeps {done : World → World} {left : ByteArray → World → World}
    (hdone : ∀ w, P w → P (done w)) (hleft : ∀ c w, P w → P (left c w)) :
    Keeps P (step host p done left) :=
  step_triple hdone (fun _ _ h => h) (fun _ _ => hleft) fun _ h => h

theorem reach_keeps : Keeps P (reach host p) := step_keeps (fun _ h => h) fun _ _ h => h

end

/-- An assertion about the contents of the source file and of the backup. -/
def OnFiles (I : ByteArray → Option ByteArray → Prop) (w : World) : Prop := I w.source w.backup

section
variable {host : Host} {I : ByteArray → Option ByteArray → Prop}

theorem record_keeps (e : Event) : Keeps (OnFiles I) (record e) := fun _ h => h

theorem communicate_keeps (x : Execution) (call : TestCall) :
    Keeps (OnFiles I) (communicate host x call) :=
  Keeps.bind reach_keeps fun _ _ h => h

theorem runTests_keeps (x : Execution) (call : TestCall) :
    Keeps (OnFiles I) (runTests host x call) := by
  refine Keeps.bind reach_keeps fun _ => Keeps.bind (communicate_keeps x call) fun r => ?_
  cases r with
  | exit returncode => exact Keeps.pure _
  | timeout =>
    exact Keeps.bind reach_keeps fun _ =>
      Keeps.bind (Keeps.tryExcept reach_keeps (Keeps.pure _)) fun _ => Keeps.pure _

theorem readText_keeps : Keeps (OnFiles I) (readText host) :=
  Keeps.bind reach_keeps fun _ w h => Keeps.ofExcept (decodeText w.source) w h

theorem chooseIndices_keeps (args : Args) (totalSites : ℕ) :
    Keeps (OnFiles I) (chooseIndices host args totalSites) :=
  Keeps.bind reach_keeps fun _ => Keeps.bind (Keeps.ofExcept _) fun _ =>
    Keeps.bind reach_keeps fun _ => Keeps.pure _

theorem writeReport_keeps (r : Report) : Keeps (OnFiles I) (writeReport host r) :=
  step_keeps (fun _ h => h) fun _ _ h => h

end

/-! ## When `run_tests` returns -/

/-- The second `communicate` returns or raises what `except Exception` catches. -/
def Host.Drains (host : Host) (x : Execution) : Prop :=
  match host.fault (.drain x) with
  | none => True
  | some (.raises e _) => e.isException
  | some .kill => False

/-- Nothing goes wrong in a run of the tests, as far as the run comes. -/
def Host.TestsReturn (host : Host) (x : Execution) (call : TestCall) (content : ByteArray) : Prop :=
  host.fault (.popen x) = none ∧ host.fault (.communicate x) = none ∧
    (host.shell x call content = .timeout → host.fault (.taskkill x) = none ∧ host.Drains x)

/-- What `run_tests` makes of the end of the test process. -/
def verdict : TestOutcome → Bool × String
  | .exit returncode => (returncode == 0, exitReason returncode)
  | .timeout => (false, timeoutReason)

theorem verdict_of_ne {r : TestOutcome} (h : r ≠ .exit 0) :
    ∃ reason, verdict r = (false, reason) := by
  cases r with
  | exit returncode =>
    have hne : returncode ≠ 0 := fun h0 => h (by rw [h0])
    exact ⟨exitReason returncode, by simp [verdict, hne]⟩
  | timeout => exact ⟨timeoutReason, rfl⟩

/-- The world after the tests ran on its source. -/
def afterTests (x : Execution) (w : World) : World :=
  { w with log := w.log ++ [.tested x w.source] }

section
variable {host : Host} {x : Execution} {call : TestCall} {w : World}

theorem communicate_of_quiet (h : host.fault (.communicate x) = none) :
    communicate host x call w = (.ok (host.shell x call w.source), afterTests x w) :=
  bind_ok (reach_of_quiet h w) _

theorem drain_of_drains (h : host.Drains x) (w : World) :
    tryExcept PyExc.isException (reach host (.drain x)) (pure ()) w = (.ok (), w) := by
  unfold Host.Drains at h
  unfold Exec.tryExcept reach step
  split at h
  next hf => simp [hf]
  next e left hf => cases left <;> simp [hf, h]
  next => exact h.elim

theorem drain_of_not_drains (h : ¬host.Drains x) (w : World) :
    ∀ u, (tryExcept PyExc.isException (reach host (.drain x)) (pure ()) w).1 ≠ .ok u := by
  unfold Host.Drains at h
  unfold Exec.tryExcept reach step
  split at h
  next => exact absurd trivial h
  next e left hf => cases left <;> simp [hf, h]
  next hf => simp [hf]

theorem runTests_of_returns (h : host.TestsReturn x call w.source) :
    runTests host x call w = (.ok (verdict (host.shell x call w.source)), afterTests x w) := by
  obtain ⟨hpopen, hcomm, htimeout⟩ := h
  rw [runTests, bind_ok (reach_of_quiet hpopen w), bind_ok (communicate_of_quiet hcomm)]
  cases hout : host.shell x call w.source with
  | exit returncode => rfl
  | timeout =>
    obtain ⟨hkill, hdrain⟩ := htimeout hout
    dsimp only
    rw [bind_ok (reach_of_quiet hkill _), bind_ok (drain_of_drains hdrain _)]
    rfl

theorem runTests_of_not_returns (h : ¬host.TestsReturn x call w.source) :
    ∀ r, (runTests host x call w).1 ≠ .ok r := by
  rw [runTests]
  by_cases hpopen : host.fault (.popen x) = none
  · rw [bind_ok (reach_of_quiet hpopen w)]
    by_cases hcomm : host.fault (.communicate x) = none
    · rw [bind_ok (communicate_of_quiet hcomm)]
      cases hout : host.shell x call w.source with
      | exit returncode => exact absurd ⟨hpopen, hcomm, by simp [hout]⟩ h
      | timeout =>
        dsimp only
        by_cases hkill : host.fault (.taskkill x) = none
        · rw [bind_ok (reach_of_quiet hkill _)]
          refine (bind_stopped (drain_of_not_drains (fun hdrain => h ?_) _) _).2
          exact ⟨hpopen, hcomm, fun _ => ⟨hkill, hdrain⟩⟩
        · exact (bind_stopped (step_of_fault hkill _) _).2
    · exact (bind_stopped (bind_stopped (step_of_fault hcomm w) _).2 _).2
  · exact (bind_stopped (step_of_fault hpopen w) _).2

end

/-! ## From the backup to the report -/

section
variable {host : Host} {args : Args} {S : ByteArray}

/-- The source holds `S`. -/
abbrev Intact (S : ByteArray) : World → Prop := OnFiles fun source _ => source = S

/-- The backup holds `S`. -/
abbrev Saved (S : ByteArray) : World → Prop := OnFiles fun _ backup => backup = some S

/-- Between the backup and the loop both do. -/
abbrev Copied (S : ByteArray) : World → Prop :=
  OnFiles fun source backup => source = S ∧ backup = some S

theorem unlinkBackup_keeps (p : Step) : Keeps (Intact S) (unlinkBackup host p) :=
  step_keeps (fun _ h => h) fun _ _ h => h

/-- Where `main` goes on after the baseline, the backup is still there. -/
theorem checkBaseline_triple : Triple (Copied S) (checkBaseline host args)
    ⟨fun _ => Copied S, fun _ => Intact S, Intact S⟩ := by
  have hweak : ∀ {α : Type} {x : M α}, Keeps (Copied S) x →
      Triple (Copied S) x ⟨fun _ => Copied S, fun _ => Intact S, Intact S⟩ := fun h =>
    h.conseq (fun _ h => h) (fun _ _ h => h) (fun _ _ h => h.1) fun _ h => h.1
  refine Triple.bind (hweak reach_keeps) fun _ => ?_
  refine Triple.bind (hweak (runTests_keeps .baseline (testCall args))) fun r => ?_
  match r with
  | (true, _) => exact hweak reach_keeps
  | (false, _) =>
  refine Triple.bind (R := fun _ => Intact S) ?_ fun _ =>
    Triple.bind (R := fun _ => Intact S) reach_keeps fun _ => Triple.raise fun _ h => h
  exact (unlinkBackup_keeps _).conseq (fun _ h => h.1) (fun _ _ h => h) (fun _ _ h => h)
    fun _ h => h

theorem writeSource_keeps (p : Step) (content : ByteArray) :
    Keeps (Saved S) (writeSource host p content) :=
  step_keeps (fun _ h => h) fun _ _ h => h

/-- The loop writes the source only. -/
theorem mutantLoop_keeps (original : String) (nExprSites n : ℕ) (idxs : List ℕ)
    (results : List Entry) :
    Keeps (Saved S) (mutantLoop host args original nExprSites n idxs results) := by
  induction idxs generalizing n results with
  | nil => exact Keeps.pure _
  | cons idx rest ih =>
    refine Keeps.bind reach_keeps fun _ => Keeps.bind (Keeps.ofExcept _) fun r => ?_
    cases r with
    | none => exact ih (n + 1) results
    | some mutant =>
      exact Keeps.bind (writeSource_keeps _ _) fun _ => Keeps.bind (runTests_keeps _ _) fun _ =>
        Keeps.bind reach_keeps fun _ => Keeps.bind (writeSource_keeps _ _) fun _ =>
          Keeps.bind (record_keeps _) fun _ => ih _ _

/-- How a run can end that had the source before it: where it is not there any more the backup has
it, and that only after a kill or where the last copy fails. -/
def mainPost (host : Host) (S : ByteArray) : Post World PyExc Unit where
  ok _ := Intact S
  raised _ w := Intact S w ∨ host.fault .finallyCopy ≠ none ∧ Saved S w
  killed w := Intact S w ∨ Saved S w

theorem mainPost_of_intact {x : M Unit} {P : World → Prop}
    (h : Triple P x ⟨fun _ => Intact S, fun _ => Intact S, Intact S⟩) :
    Triple P x (mainPost host S) :=
  h.conseq (fun _ h => h) (fun _ _ h => h) (fun _ _ h => .inl h) fun _ h => .inl h

/-- The `finally` clause, on either way into it. -/
theorem restoreOriginal_triple : Triple (Saved S) (restoreOriginal host)
    ⟨fun _ => Intact S, (mainPost host S).raised, (mainPost host S).killed⟩ := by
  refine Triple.bind (R := fun _ => Intact S) ?_ fun _ => mainPost_of_intact (unlinkBackup_keeps _)
  intro w hw
  have hw : w.backup = some S := hw
  have hcopy : Triple (Saved S) (writeSource host .finallyCopy S)
      ⟨fun _ => Intact S, (mainPost host S).raised, (mainPost host S).killed⟩ := by
    unfold writeSource step
    intro w hw
    split
    next => rfl
    next h => exact .inr ⟨by simp [h], hw⟩
    next h => exact .inr ⟨by simp [h], hw⟩
    next => exact .inr hw
  rw [copyBack, hw]
  exact hcopy w hw

theorem copyBackup_triple : Triple (Intact S) (copyBackup host)
    ⟨fun _ => Copied S, fun _ => Intact S, Intact S⟩ := by
  intro w hw
  have hw : w.source = S := hw
  have hstep : Triple (Intact S) (step host .copyBackup (setBackup S) setBackup)
      ⟨fun _ => Copied S, fun _ => Intact S, Intact S⟩ :=
    step_triple (fun _ h => ⟨h, rfl⟩) (fun _ _ h => h) (fun _ _ _ _ h => h) fun _ h => h
  rw [copyBackup, hw]
  exact hstep w hw

theorem noSites_keeps : Keeps (Intact S) (noSites host) :=
  Keeps.bind reach_keeps fun _ => unlinkBackup_keeps _

theorem main_triple (host : Host) (args : Args) :
    Triple (Intact S) (main host args) (mainPost host S) := by
  have hintact : ∀ {α : Type} {x : M α}, Keeps (Copied S) x →
      Triple (Copied S) x ⟨fun _ => Copied S, (mainPost host S).raised, (mainPost host S).killed⟩ :=
    fun h => h.conseq (fun _ h => h) (fun _ _ h => h) (fun _ _ h => .inl h.1) fun _ h => .inl h.1
  have hcopied : ∀ {α : Type} {x : M α},
      Triple (Copied S) x ⟨fun _ => Copied S, fun _ => Intact S, Intact S⟩ →
      Triple (Copied S) x ⟨fun _ => Copied S, (mainPost host S).raised, (mainPost host S).killed⟩ :=
    fun h => h.conseq (fun _ h => h) (fun _ _ h => h) (fun _ _ h => .inl h) fun _ h => .inl h
  refine Triple.bind (R := fun _ => Intact S) ?_ fun original => ?_
  · exact readText_keeps.conseq (fun _ h => h) (fun _ _ h => h) (fun _ _ h => .inl h)
      fun _ h => .inl h
  refine Triple.bind (R := fun _ => Copied S) ?_ fun _ => ?_
  · exact copyBackup_triple.conseq (fun _ h => h) (fun _ _ h => h) (fun _ _ h => .inl h)
      fun _ h => .inl h
  refine Triple.bind (hintact reach_keeps) fun _ => Triple.bind (hintact (Keeps.ofExcept _))
    fun exprSites => Triple.bind (hintact reach_keeps) fun _ =>
    Triple.bind (hintact (Keeps.ofExcept _)) fun sdlSites => ?_
  refine Triple.ite (fun _ => ?_) fun _ => ?_
  · exact mainPost_of_intact (noSites_keeps.conseq (fun _ h => h.1) (fun _ _ h => h)
      (fun _ _ h => h) fun _ h => h)
  refine Triple.bind (hcopied checkBaseline_triple) fun _ =>
    Triple.bind (hintact (chooseIndices_keeps _ _)) fun chosen => ?_
  refine Triple.bind (R := fun _ => Intact S) ?_ fun results => mainPost_of_intact ?_
  · refine Triple.tryFinally (R := fun _ => Saved S) (E := fun _ => Saved S) ?_
      (fun _ => restoreOriginal_triple) fun _ => restoreOriginal_triple.conseq (fun _ h => h)
        (fun _ _ h => .inl h) (fun _ _ h => h) fun _ h => h
    exact (mutantLoop_keeps _ _ _ _ _).conseq (fun _ h => h.2) (fun _ _ h => h) (fun _ _ h => h)
      fun _ h => .inr h
  · exact Keeps.bind reach_keeps fun _ => Keeps.bind (writeReport_keeps _) fun _ => reach_keeps

end

/-- Unless it is killed, `main` leaves the source file as it found it: whatever is raised at
whatever step, provided that the copy of the `finally` clause succeeds. -/
theorem source_restored (host : Host) (args : Args) (w : World)
    (hcopy : host.fault .finallyCopy = none) (hkill : (main host args w).1 ≠ .killed) :
    (main host args w).2.source = w.source := by
  have h := main_triple host args w (rfl : w.source = w.source)
  match hr : main host args w with
  | (.ok _, w') => rw [hr] at h; exact h
  | (.raised e, w') =>
    rw [hr] at h
    rcases h with h | ⟨hfault, -⟩
    · exact h
    · exact absurd hcopy hfault
  | (.killed, w') => exact absurd (by rw [hr]) hkill

/-! ## The `finally` clause -/

section
variable {host : Host} {w : World} {S : ByteArray}

/-- The `finally` clause succeeds. -/
def Host.Restores (host : Host) : Prop :=
  host.fault .finallyCopy = none ∧ host.fault .finallyUnlink = none

theorem restoreOriginal_of_restores (hb : w.backup = some S) (h : host.Restores) :
    restoreOriginal host w = (.ok (), { w with source := S, backup := none }) := by
  have hcopy : copyBack host w = (.ok (), setSource S w) := by
    rw [copyBack, hb]
    exact step_of_quiet h.1 w
  rw [restoreOriginal, bind_ok hcopy]
  exact step_of_quiet h.2 _

theorem restoreOriginal_of_not_restores (hb : w.backup = some S) (h : ¬host.Restores) :
    (∀ u, (restoreOriginal host w).1 ≠ .ok u) ∧ (restoreOriginal host w).2.backup = some S := by
  by_cases hcopy : host.fault .finallyCopy = none
  · have hok : copyBack host w = (.ok (), setSource S w) := by
      rw [copyBack, hb]
      exact step_of_quiet hcopy w
    have hunlink : host.fault .finallyUnlink ≠ none := fun hu => h ⟨hcopy, hu⟩
    rw [restoreOriginal, bind_ok hok]
    refine ⟨step_of_fault hunlink _, ?_⟩
    unfold unlinkBackup step
    split <;> first | exact hb | exact absurd ‹_› hunlink
  · have hne : ∀ u, (copyBack host w).1 ≠ .ok u := by
      rw [copyBack, hb]
      exact step_of_fault hcopy w
    refine ⟨(bind_stopped hne _).2, ?_⟩
    rw [restoreOriginal, (bind_stopped hne _).1, copyBack, hb]
    exact Triple.of_keeps (writeSource_keeps .finallyCopy S) hb

end

/-! ## Runs that do not start -/

/-- The run gets as far as writing the backup. -/
def Host.CopiesSource (host : Host) (w : World) : Prop :=
  host.fault .readText = none ∧ (∃ original, decodeText w.source = .ok original) ∧
    host.fault .copyBackup ≠ some .kill ∧ ∀ e, host.fault .copyBackup ≠ some (.raises e none)

theorem readText_of_quiet {host : Host} (h : host.fault .readText = none) (w : World) :
    readText host w = ofExcept (decodeText w.source) w :=
  bind_ok (reach_of_quiet h w) _

/-- A run that does not get to the backup changes nothing and does not return. -/
theorem main_of_not_copies {host : Host} (args : Args) {w : World} (h : ¬host.CopiesSource w) :
    (main host args w).2 = w ∧ ∀ u, (main host args w).1 ≠ .ok u := by
  -- it is enough that the first step that does not return changes nothing
  have hstop : ∀ {α β : Type} {x : M α} (f : α → M β), (x w).2 = w → (∀ a, (x w).1 ≠ .ok a) →
      ((x >>= f) w).2 = w ∧ ∀ b, ((x >>= f) w).1 ≠ .ok b := fun f hw hne =>
    ⟨(bind_stopped hne f).1.trans hw, (bind_stopped hne f).2⟩
  by_cases hread : host.fault .readText = none
  · cases hdec : decodeText w.source with
    | error e =>
      refine hstop _ ?_ ?_ <;> rw [readText_of_quiet hread, hdec] <;> simp [raise]
    | ok original =>
      have hok : readText host w = (.ok original, w) := by
        rw [readText_of_quiet hread, hdec]; rfl
      unfold main
      rw [bind_ok hok]
      have hcopy : ∃ o, copyBackup host w = (o, w) ∧ ∀ u, o ≠ .ok u := by
        have hex : ∃ t, decodeText w.source = .ok t := ⟨original, hdec⟩
        unfold copyBackup step
        cases hf : host.fault .copyBackup with
        | none => exact absurd ⟨hread, hex, by simp [hf], by simp [hf]⟩ h
        | some fault => cases fault with
          | raises e content => cases content with
            | none => exact ⟨.raised e, rfl, by simp⟩
            | some c => exact absurd ⟨hread, hex, by simp [hf], by simp [hf]⟩ h
          | kill => exact ⟨.killed, rfl, by simp⟩
      obtain ⟨o, ho, hne⟩ := hcopy
      exact hstop _ (by rw [ho]) (by rw [ho]; exact hne)
  · have hreach := hstop (fun _ w => ofExcept (decodeText w.source) w)
      (reach_snd host .readText w) (step_of_fault hread w)
    exact hstop _ hreach.1 hreach.2

/-! ## An example -/

/-- A test command that notices the changed comparison and the deleted statement. -/
def assertShell (_ : Execution) (_ : TestCall) (content : ByteArray) : TestOutcome :=
  if content = "assert a < b + 1\n".toUTF8 ∨ content = "assert a < b - 1".toUTF8 then .exit 0
  else .exit 1

/-- A host where the faults of the list occur. -/
def assertHost (faults : List (Step × Fault)) : Host where
  py := assertPy
  resolve := ("/src/" ++ ·)
  linesep := "\n"
  shell := assertShell
  fault p := faults.lookup p

def assertArgs : Args := { sourceFile := "a.py", testCmd := "pytest" }

def assertWorld : World := { source := "assert a < b + 1\n".toUTF8 }

theorem source_restored_interrupt :
    (main (assertHost [(.communicate (.mutant 2), .raises .keyboardInterrupt none)]) assertArgs
      assertWorld).2.source = "assert a < b + 1\n".toUTF8 :=
  source_restored _ assertArgs assertWorld rfl (by decide +kernel)

end MutationTest

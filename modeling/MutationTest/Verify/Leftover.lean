import MutationTest.Verify.Restoration

/-! # The backup that stays behind

`main` removes the backup on its three planned ways out. What is raised between the copy and the
`try`, or by the clean-up itself, leaves it there. `backup_removed_iff` says exactly when the file
is gone: `Removes` carries such an equivalence backwards through `main`, one rule for each
construct. -/

namespace MutationTest
open Exec

/-- If it is not killed, `x` started in `w` ends without a backup exactly when `C` holds. -/
def Removes {α : Type} (x : M α) (w : World) (C : Prop) : Prop :=
  (x w).1 ≠ .killed → ((x w).2.backup = none ↔ C)

namespace Removes

variable {α β : Type} {x : M α} {f : α → M β} {w w' : World} {C D : Prop} {host : Host}

/-- What does not return keeps the backup. -/
theorem stopped (hb : w.backup ≠ none) (hne : ∀ a, (x w).1 ≠ .ok a)
    (hw : (x w).2.backup = w.backup) (hC : ¬C) : Removes (x >>= f) w C := fun _ => by
  rw [(bind_stopped hne f).1, hw]
  exact iff_of_false hb hC

theorem congr (h : C ↔ D) (hx : Removes x w C) : Removes x w D := fun hk => (hx hk).trans h

theorem next {a : α} (h : x w = (.ok a, w')) (hf : Removes (f a) w' C) : Removes (x >>= f) w C := by
  intro hk
  rw [bind_ok h] at hk ⊢
  exact hf hk

theorem reach {p : Step} {f : Unit → M β} (hb : w.backup ≠ none) (hf : Removes (f ()) w C) :
    Removes (MutationTest.reach host p >>= f) w (host.fault p = none ∧ C) := by
  by_cases hp : host.fault p = none
  · simpa only [hp, true_and] using next (reach_of_quiet hp w) hf
  · exact stopped hb (step_of_fault hp w) (by rw [reach_snd]) fun h => hp h.1

theorem ofExcept {r : Except PyExc α} {C : α → Prop} (hb : w.backup ≠ none)
    (hf : ∀ a, r = .ok a → Removes (f a) w (C a)) :
    Removes (Exec.ofExcept r >>= f) w (∃ a, r = .ok a ∧ C a) := by
  cases r with
  | ok a =>
    have h : Removes (Exec.ofExcept (Except.ok a) >>= f) w (C a) := next rfl (hf a rfl)
    simpa only [Except.ok.injEq, exists_eq_left'] using h
  | error e => exact stopped hb (by simp [raise]) rfl (by simp)

theorem tests {x : Execution} {call : TestCall} {f : Bool × String → M β}
    (hb : w.backup ≠ none)
    (hf : Removes (f (verdict (host.shell x call w.source))) (afterTests x w) C) :
    Removes (runTests host x call >>= f) w (host.TestsReturn x call w.source ∧ C) := by
  by_cases h : host.TestsReturn x call w.source
  · simpa only [h, true_and] using next (runTests_of_returns h) hf
  · have hkeeps : Keeps (OnFiles fun _ b => b = w.backup) (runTests host x call) :=
      runTests_keeps x call
    have hw := Triple.of_keeps (s := w) hkeeps rfl
    exact stopped hb (runTests_of_not_returns h) hw fun h' => h h'.1

theorem unlink {p : Step} (hb : w.backup ≠ none) :
    Removes (unlinkBackup host p) w (host.fault p = none) := by
  intro _
  unfold unlinkBackup step
  split
  next h => exact iff_of_true rfl h
  all_goals
    next h => exact iff_of_false hb (by simp [h])

/-- Nothing makes a backup again. -/
theorem unlink_bind {p : Step} {f : Unit → M β} (hb : w.backup ≠ none)
    (hf : Keeps (OnFiles fun _ b => b = none) (f ())) :
    Removes (unlinkBackup host p >>= f) w (host.fault p = none) := by
  by_cases hp : host.fault p = none
  · have hok : unlinkBackup host p w = (.ok (), { w with backup := none }) := step_of_quiet hp w
    refine next hok fun _ => ?_
    exact iff_of_true (Triple.of_keeps hf rfl) hp
  · refine stopped hb (step_of_fault hp w) ?_ hp
    unfold unlinkBackup step
    split <;> first | rfl | exact absurd ‹_› hp

theorem ite {c : Prop} [Decidable c] {y : M α} (hx : c → Removes x w C) (hy : ¬c → Removes y w D) :
    Removes (if c then x else y) w (if c then C else D) := by
  split
  next h => exact hx h
  next h => exact hy h

end Removes

/-! ## The clean-up of the loop -/

section
variable {host : Host} {w : World} {S : ByteArray}

/-- The loop with its `finally` clause, and what follows it. -/
theorem Removes.loop {α β : Type} {x : M α} {f : α → M β} (hb : w.backup = some S)
    (hx : Keeps (Saved S) x) (hf : ∀ a, Keeps (OnFiles fun _ b => b = none) (f a)) :
    Removes (tryFinally x (restoreOriginal host) >>= f) w host.Restores := by
  intro hk
  have hsaved : Saved S (x w).2 := Triple.of_keeps hx hb
  have hstop : ∀ {w₁} {tail : Unit → M α}, w₁.backup = some S → ¬host.Restores →
      tryFinally x (restoreOriginal host) w = (restoreOriginal host >>= tail) w₁ →
      Removes (tryFinally x (restoreOriginal host) >>= f) w host.Restores := by
    intro w₁ tail hw₁ h heq
    obtain ⟨hne, hbackup⟩ := restoreOriginal_of_not_restores hw₁ h
    obtain ⟨hw, hne⟩ := bind_stopped hne tail
    exact Removes.stopped (by simp [hb]) (by rw [heq]; exact hne)
      (by rw [heq, hw, hbackup, hb]) h
  match hxw : x w with
  | (.killed, w₁) => exact absurd (by rw [bind_killed (tryFinally_killed hxw _)]) hk
  | (.ok a, w₁) =>
    rw [hxw] at hsaved
    by_cases h : host.Restores
    · have hok := tryFinally_ok hxw (restoreOriginal host)
      rw [bind_ok (restoreOriginal_of_restores hsaved h)] at hok
      rw [bind_ok hok]
      exact iff_of_true (Triple.of_keeps (hf a) rfl) h
    · exact hstop hsaved h (tryFinally_ok hxw _) hk
  | (.raised e, w₁) =>
    rw [hxw] at hsaved
    by_cases h : host.Restores
    · have hraised := tryFinally_raised hxw (restoreOriginal host)
      rw [bind_ok (restoreOriginal_of_restores hsaved h)] at hraised
      rw [bind_raised hraised]
      exact iff_of_true rfl h
    · exact hstop hsaved h (tryFinally_raised hxw _) hk

end

/-! ## `main` -/

/-- What has to go well between the backup and the end: no exception before the `try`, and the
removal that the run comes to. -/
def CleansUp (host : Host) (args : Args) (content : ByteArray) (original : String) : Prop :=
  host.fault .collectSites = none ∧ ∃ exprSites, collectSites host.py original = .ok exprSites ∧
  (host.fault .collectSdlSites = none ∧
    ∃ sdlSites, collectSdlSites host.py original = .ok sdlSites ∧
    if exprSites.length + sdlSites.length = 0 then
      host.fault .printNoSites = none ∧ host.fault .unlinkNoSites = none
    else
      host.fault .printBaseline = none ∧ host.TestsReturn .baseline (testCall args) content ∧
      if host.shell .baseline (testCall args) content ≠ .exit 0 then
        host.fault .unlinkBaseline = none
      else
        host.fault .printReady = none ∧ host.fault .sample = none ∧ args.maxMutants ≠ 0 ∧
          host.fault .printStart = none ∧ host.Restores)

theorem indices_isOk {T : ℕ} (hT : T ≠ 0) (M : ℤ) : (∃ l, indices T M = .ok l) ↔ M ≠ 0 := by
  unfold indices
  split
  · split <;> simp_all
  · refine iff_of_true ⟨_, rfl⟩ ?_
    omega

/-- Unless it is killed, a run that writes the backup leaves none behind exactly when nothing is
raised where no `finally` removes it. -/
theorem removes_of_copied {host : Host} {args : Args} {w : World} {original : String}
    (hread : host.fault .readText = none) (hdec : decodeText w.source = .ok original)
    (hcopy : host.fault .copyBackup = none) :
    Removes (main host args) w (CleansUp host args w.source original) := by
  have hb : (setBackup w.source w).backup ≠ none := by simp [setBackup]
  have hok : readText host w = (.ok original, w) := by rw [readText_of_quiet hread, hdec]; rfl
  refine Removes.next hok (Removes.next (step_of_quiet hcopy w) ?_)
  refine Removes.reach hb (Removes.ofExcept hb fun exprSites _ => ?_)
  refine Removes.reach hb (Removes.ofExcept hb fun sdlSites _ => ?_)
  refine Removes.ite (fun _ => Removes.reach hb (Removes.unlink hb)) fun hT => ?_
  rw [testMutants, checkBaseline, Exec.bind_assoc]
  refine Removes.reach hb ?_
  rw [Exec.bind_assoc]
  refine Removes.tests hb ?_
  by_cases hpass : host.shell .baseline (testCall args) w.source = .exit 0
  · have hverdict : verdict (host.shell .baseline (testCall args) (setBackup w.source w).source) =
        (true, exitReason 0) := congrArg verdict hpass
    rw [if_neg (not_not.mpr hpass), hverdict, chooseIndices]
    refine Removes.reach hb ?_
    rw [Exec.bind_assoc]
    refine Removes.reach hb ?_
    rw [Exec.bind_assoc]
    refine Removes.congr ((exists_and_right).trans (and_congr_left' (indices_isOk hT _)))
      (Removes.ofExcept hb fun chosen _ => ?_)
    rw [Exec.bind_assoc]
    refine Removes.reach hb (Removes.next rfl ?_)
    refine Removes.loop rfl (mutantLoop_keeps _ _ _ _ _) fun results => ?_
    exact Keeps.bind reach_keeps fun _ => Keeps.bind (writeReport_keeps _) fun _ => reach_keeps
  · obtain ⟨reason, hverdict⟩ : ∃ reason,
        verdict (host.shell .baseline (testCall args) (setBackup w.source w).source) =
          (false, reason) := verdict_of_ne hpass
    rw [if_pos hpass, hverdict]
    dsimp only
    rw [Exec.bind_assoc]
    refine Removes.unlink_bind hb ?_
    rw [Exec.bind_assoc]
    exact Keeps.bind reach_keeps fun _ w h => h

/-- Unless it is killed, `main` ends without a backup exactly when the run cleans up after the copy,
or does not get as far as the copy and there was no backup before. -/
theorem backup_removed_iff (host : Host) (args : Args) (w : World)
    (hkill : (main host args w).1 ≠ .killed) :
    (main host args w).2.backup = none ↔
      (host.CopiesSource w → host.fault .copyBackup = none ∧
        ∃ original, decodeText w.source = .ok original ∧ CleansUp host args w.source original) ∧
      (¬host.CopiesSource w → w.backup = none) := by
  by_cases hcopies : host.CopiesSource w
  · obtain ⟨hread, ⟨original, hdec⟩, hcopykill, hleft⟩ := id hcopies
    simp only [hcopies, hdec, Except.ok.injEq, exists_eq_left', not_true_eq_false, true_implies,
      false_implies, and_true]
    match hf : host.fault .copyBackup with
    | none => simpa only [true_and] using removes_of_copied hread hdec hf hkill
    | some .kill => exact absurd hf hcopykill
    | some (.raises e none) => exact absurd hf (hleft e)
    | some (.raises e (some content)) =>
      have hok : readText host w = (.ok original, w) := by rw [readText_of_quiet hread, hdec]; rfl
      have hcopy : copyBackup host w = (.raised e, setBackup content w) := by
        rw [copyBackup, step, hf]
      rw [main, bind_ok hok, bind_raised hcopy]
      simp [setBackup]
  · rw [(main_of_not_copies args hcopies).1]
    simp only [hcopies, false_implies, not_false_eq_true, true_implies, true_and]

theorem backup_removed_assert : (main (assertHost []) assertArgs assertWorld).2.backup = none := by
  refine (backup_removed_iff _ _ _ (by decide +kernel)).mpr ⟨fun _ => ⟨rfl, ?_⟩, fun _ => rfl⟩
  refine ⟨"assert a < b + 1\n", by decide +kernel, rfl, _, rfl, rfl, _, rfl, ?_⟩
  rw [if_neg (by decide +kernel), if_neg (by decide +kernel)]
  exact ⟨rfl, ⟨rfl, rfl, fun _ => ⟨rfl, trivial⟩⟩, rfl, rfl, by decide, rfl, rfl, rfl⟩

/-- A budget of zero mutants: the division in the sampling leaves the backup behind. -/
theorem backup_left_zero_budget :
    (main (assertHost []) { assertArgs with maxMutants := 0 } assertWorld).1 =
        .raised .zeroDivisionError ∧
      (main (assertHost []) { assertArgs with maxMutants := 0 } assertWorld).2.backup ≠ none := by
  decide +kernel

end MutationTest

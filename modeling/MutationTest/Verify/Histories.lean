import MutationTest.Verify.Restoration

/-! # Histories of runs

The user starts `main` again and again on the same file, whatever became of the run before. A run
killed in mid-mutant leaves the source mutated and the backup pristine; the next run copies the one
over the other (`pristine_lost`). As long as no run does that, one of the two files holds the
pristine content (`pristine_kept`). -/

namespace MutationTest
open Exec

/-- One start of the tool, with all that happens to it. -/
structure Run where
  host : Host
  args : Args

/-- The files after a sequence of runs. -/
def after (runs : List Run) (w : World) : World :=
  runs.foldl (fun w r => (main r.host r.args w).2) w

theorem after_append_singleton (runs : List Run) (r : Run) (w : World) :
    after (runs ++ [r]) w = (main r.host r.args (after runs w)).2 := by
  simp [after]

/-- One of the two files holds `S`. -/
def HoldsPristine (S : ByteArray) : World → Prop :=
  OnFiles fun source backup => source = S ∨ backup = some S

instance (S : ByteArray) (w : World) : Decidable (HoldsPristine S w) :=
  inferInstanceAs (Decidable (_ ∨ _))

/-- A run that starts on the pristine source, killed or not. -/
theorem holdsPristine_of_intact {host : Host} {args : Args} {S : ByteArray} {w : World}
    (hw : w.source = S) : HoldsPristine S (main host args w).2 := by
  have h := main_triple host args w hw
  match hr : main host args w with
  | (.ok _, w') => rw [hr] at h; exact .inl h
  | (.raised e, w') => rw [hr] at h; exact h.imp_right (·.2)
  | (.killed, w') => rw [hr] at h; exact h

theorem source_of_ok {host : Host} {args : Args} {S : ByteArray} {w : World} (hw : w.source = S)
    (hok : (main host args w).1 = .ok ()) : (main host args w).2.source = S := by
  have h := main_triple host args w hw
  match hr : main host args w with
  | (.ok _, w') => rw [hr] at h; exact h
  | (.raised e, w') => rw [hr] at hok; cases hok
  | (.killed, w') => rw [hr] at hok; cases hok

/-- Where every run that writes the backup starts on the pristine source, one of the files holds the
pristine content after every run, be it killed or not, and every run that returns leaves it in the
source. -/
theorem pristine_kept {w₀ : World} {runs : List Run}
    (hcopies : ∀ pre r, pre ++ [r] <+: runs → r.host.CopiesSource (after pre w₀) →
      (after pre w₀).source = w₀.source) :
    (∀ pre, pre <+: runs → HoldsPristine w₀.source (after pre w₀)) ∧
      ∀ pre r, pre ++ [r] <+: runs → (main r.host r.args (after pre w₀)).1 = .ok () →
        (after (pre ++ [r]) w₀).source = w₀.source := by
  constructor
  · intro pre
    induction pre using List.reverseRecOn with
    | nil => exact fun _ => .inl rfl
    | append_singleton pre r ih =>
      intro hpre
      rw [after_append_singleton]
      by_cases h : r.host.CopiesSource (after pre w₀)
      · exact holdsPristine_of_intact (hcopies pre r hpre h)
      · rw [(main_of_not_copies r.args h).1]
        exact ih ((List.prefix_append pre [r]).trans hpre)
  · intro pre r hpre hok
    rw [after_append_singleton]
    by_cases h : r.host.CopiesSource (after pre w₀)
    · exact source_of_ok (hcopies pre r hpre h) hok
    · exact absurd hok ((main_of_not_copies r.args h).2 ())

/-- Two runs of the example: the first is killed before its second mutant, the second resumes. -/
theorem pristine_kept_resumed :
    let runs : List Run := [⟨assertHost [(.generate 2, .kill)], assertArgs⟩,
      ⟨assertHost [], { assertArgs with startAt := 1 }⟩]
    (∀ pre, pre <+: runs → HoldsPristine assertWorld.source (after pre assertWorld)) ∧
      ∀ pre r, pre ++ [r] <+: runs → (main r.host r.args (after pre assertWorld)).1 = .ok () →
        (after (pre ++ [r]) assertWorld).source = assertWorld.source := by
  refine pristine_kept fun pre r hpre _ => ?_
  match pre with
  | [] => rfl
  | [r₁] =>
    obtain ⟨rfl, -⟩ := List.cons_prefix_cons.mp hpre
    decide +kernel
  | _ :: _ :: pre => exact absurd hpre.length_le (by simp)

/-- The first run is killed while its second mutant is in the source, the second resumes: it takes
the mutant for the original, returns, and no file has the pristine content any more. -/
theorem pristine_lost :
    let killed : Run := ⟨assertHost [(.popen (.mutant 2), .kill)], assertArgs⟩
    let resumed : Run := ⟨assertHost [], { assertArgs with startAt := 1 }⟩
    ¬HoldsPristine assertWorld.source (after [killed, resumed] assertWorld) ∧
      (main resumed.host resumed.args (after [killed] assertWorld)).1 = .ok () ∧
      (after [killed, resumed] assertWorld).source ≠ assertWorld.source := by
  decide +kernel

end MutationTest

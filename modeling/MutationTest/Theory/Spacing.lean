import Mathlib.Algebra.Order.Floor.Semifield
import Mathlib.Algebra.Order.Group.Abs
import Mathlib.Data.List.Count
import Mathlib.Tactic.Linarith

/-! # Evenly spaced samples

The samples are the integer parts of `n` numbers `y 0, y 1, …` which are the multiples of a step `a`
up to an error below `ε`. While the step exceeds one by twice the error, no two samples coincide
(`floor_lt_floor_of_near`) and the last stays below `n * a` (`floor_lt_of_near`). Of the exact
multiples, `⌈p / a⌉₊` fall below `p` (`countP_floor_lt`). -/

namespace Spacing

variable {K : Type*} [Field K] [LinearOrder K] [IsStrictOrderedRing K]

/-- The first `n` values of `y` are not negative, and close to the multiples of `a`. -/
def Near (y : ℕ → K) (a ε : K) (n : ℕ) : Prop := ∀ i < n, 0 ≤ y i ∧ |y i - i * a| < ε

theorem near_exact {a ε : K} (ha : 0 ≤ a) (hε : 0 < ε) (n : ℕ) : Near (fun i => i * a) a ε n :=
  fun i _ => ⟨mul_nonneg (Nat.cast_nonneg i) ha, by rwa [sub_self, abs_zero]⟩

variable [FloorSemiring K] {y : ℕ → K} {a ε : K} {n i : ℕ}

theorem floor_lt_floor_of_near (hy : Near y a ε n) (ha : 1 + 2 * ε ≤ a) (hi : i + 1 < n) :
    ⌊y i⌋₊ < ⌊y (i + 1)⌋₊ := by
  obtain ⟨h0, hlow⟩ := hy i (by omega)
  obtain ⟨-, hhigh⟩ := hy (i + 1) hi
  rw [abs_lt] at hlow hhigh
  push_cast at hhigh
  have hstep : y i + 1 ≤ y (i + 1) := by linarith
  rw [Nat.lt_iff_add_one_le, ← Nat.floor_add_one h0]
  exact Nat.floor_le_floor hstep

theorem floor_lt_of_near (hy : Near y a ε n) (ha : ε ≤ a) {T : ℕ} (hT : n * a = T) (hi : i < n) :
    ⌊y i⌋₊ < T := by
  obtain ⟨h0, hnear⟩ := hy i hi
  rw [abs_lt] at hnear
  have hsucc : (i : K) + 1 ≤ n := by exact_mod_cast hi
  have hpos : 0 < a := (lt_of_le_of_lt (abs_nonneg _) (hy i hi).2).trans_le ha
  have hmul : ((i : K) + 1) * a ≤ T := hT ▸ mul_le_mul_of_nonneg_right hsucc hpos.le
  rw [Nat.floor_lt h0]
  linarith

theorem countP_floor_lt (ha : 0 < a) (n p : ℕ) :
    ((List.range n).map fun i : ℕ => ⌊(i : K) * a⌋₊).countP (· < p) = min n ⌈(p : K) / a⌉₊ := by
  have hiff : ∀ i : ℕ, ⌊(i : K) * a⌋₊ < p ↔ i < ⌈(p : K) / a⌉₊ := by
    intro i
    rw [Nat.floor_lt (mul_nonneg (Nat.cast_nonneg i) ha.le), Nat.lt_ceil, lt_div_iff₀ ha]
  have hcount : ∀ c : ℕ, (List.range n).countP (fun i => decide (i < c)) = min n c := by
    intro c
    induction n with
    | zero => simp
    | succ n ih =>
      rw [List.range_succ, List.countP_append, ih, List.countP_singleton]
      by_cases h : n < c
      · rw [if_pos (by simpa using h)]
        omega
      · rw [if_neg (by simpa using h)]
        omega
  rw [List.countP_map, ← hcount]
  exact List.countP_congr fun i _ => by simp [hiff]

end Spacing

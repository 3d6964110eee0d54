import MutationTest.Sampling
import Mathlib.Data.List.Sort

/-! # The sampled indices

In double arithmetic the sample of `T > M` sites has exactly `M` indices, in strictly increasing
order and below `T`, as long as `T` is at most `2 ^ 52` (`indices_ok`). -/

namespace MutationTest
open BinaryFloat

/-- Where the truncated products increase, the set merges none of them. -/
theorem sampled_eq {product : ℕ → ℚ} {count : ℕ}
    (h : ∀ i, i + 1 < count → ⌊product i⌋₊ < ⌊product (i + 1)⌋₊) :
    sampled product count = ((List.range count).map fun i => ⌊product i⌋₊) ∧
      (sampled product count).Pairwise (· < ·) := by
  have hmono : ∀ j i, i < j → j < count → ⌊product i⌋₊ < ⌊product j⌋₊ := by
    intro j
    induction j with
    | zero => exact fun i hi => absurd hi (Nat.not_lt_zero i)
    | succ j ih =>
      intro i hi hj
      rcases Nat.lt_succ_iff_lt_or_eq.mp hi with hi | rfl
      · exact (ih i hi (by omega)).trans (h j hj)
      · exact h i hj
  have hlt : ((List.range count).map fun i => ⌊product i⌋₊).Pairwise (· < ·) := by
    rw [List.pairwise_map]
    refine List.pairwise_lt_range.imp_of_mem fun {i j} _ hj hij => hmono j i hij ?_
    exact List.mem_range.mp hj
  have heq : sampled product count = (List.range count).map fun i => ⌊product i⌋₊ := by
    rw [sampled, List.dedup_eq_self.mpr (hlt.imp Nat.ne_of_lt)]
    exact List.mergeSort_of_pairwise (hlt.imp fun h => by simpa using h.le)
  exact ⟨heq, heq ▸ hlt⟩

section
variable {T M : ℕ}

theorem double_natCast {n : ℕ} (h : n ≤ 2 ^ 53) : double n = n := by
  have hs : Short 53 (((n : ℤ) : ℚ)) := short_intCast (by rw [Nat.abs_cast]; exact_mod_cast h)
  exact_mod_cast round_eq_self (by norm_num) hs

/-- The relative error of a rounding. -/
theorem abs_double_sub_le {x : ℚ} (hx : 0 ≤ x) : |double x - x| ≤ x * (1 / 2 ^ 53) := by
  have hround := abs_round_sub_le 53 x
  rw [abs_of_nonneg hx] at hround
  exact hround.trans_eq (by norm_num)

/-- `1 + 2 ^ -52` is a double and the quotient does not fall below it. -/
theorem one_lt_step (hM : 0 < M) (hlt : M < T) (hT : T ≤ 2 ^ 52) : 1 < double (T / M) := by
  have hM' : (0 : ℚ) < M := by exact_mod_cast hM
  have hM52 : (M : ℚ) ≤ 2 ^ 52 := by exact_mod_cast (hlt.le.trans hT)
  have hTM : (M : ℚ) + 1 ≤ T := by exact_mod_cast hlt
  have hs : Short 53 (1 + 1 / 2 ^ 52) := ⟨2 ^ 52 + 1, -52, by norm_num, by norm_num⟩
  have hle : (1 : ℚ) + 1 / 2 ^ 52 ≤ T / M := by
    rw [le_div_iff₀ hM', add_mul, one_mul]
    have : (1 : ℚ) / 2 ^ 52 * M ≤ 1 := by
      rw [div_mul_eq_mul_div, one_mul, div_le_one (by positivity)]; exact hM52
    linarith
  have := le_round (p := 53) (by norm_num) hs (by norm_num) hle
  exact lt_of_lt_of_le (by norm_num) this

/-- The last product stays half a unit below `T`. -/
theorem mul_step_le (hM : 0 < M) (hlt : M < T) (hT : T ≤ 2 ^ 52) {i : ℕ} (hi : i < M) :
    i * double (T / M) ≤ T - 1 / 2 := by
  have hM' : (0 : ℚ) < M := by exact_mod_cast hM
  have hTM : (M : ℚ) < T := by exact_mod_cast hlt
  have hT' : (T : ℚ) ≤ 2 ^ 52 := by exact_mod_cast hT
  have hi' : (i : ℚ) + 1 ≤ M := by exact_mod_cast hi
  have hquot : (0 : ℚ) < T / M := div_pos (hM'.trans hTM) hM'
  have hstep : double (T / M) ≤ T / M * (1 + 1 / 2 ^ 53) := by
    have hround := (abs_le.mp (abs_double_sub_le hquot.le)).2
    linarith
  have hone : (1 : ℚ) < T / M := (one_lt_div hM').mpr hTM
  have hi_le : (i : ℚ) * (T / M) ≤ T - 1 := by
    calc (i : ℚ) * (T / M) ≤ (M - 1) * (T / M) := by gcongr; linarith
      _ = T - T / M := by field_simp
      _ ≤ T - 1 := by linarith
  calc (i : ℚ) * double (T / M) ≤ i * (T / M * (1 + 1 / 2 ^ 53)) := by gcongr
    _ = i * (T / M) * (1 + 1 / 2 ^ 53) := by ring
    _ ≤ (T - 1) * (1 + 1 / 2 ^ 53) := by gcongr
    _ = T - 1 + (T - 1) * (1 / 2 ^ 53) := by ring
    _ ≤ T - 1 + 2 ^ 52 * (1 / 2 ^ 53) := by gcongr; linarith
    _ = T - 1 / 2 := by norm_num; ring

theorem floor_product_lt (hM : 0 < M) (hlt : M < T) (hT : T ≤ 2 ^ 52) {i : ℕ} (hi : i < M) :
    ⌊double (double i * double (T / M))⌋₊ < T := by
  have hstep := one_lt_step hM hlt hT
  have hpos : 0 ≤ (i : ℚ) * double (T / M) := mul_nonneg (Nat.cast_nonneg i) (by linarith)
  have hs : Short 53 ((T : ℚ) - 1 / 2) := by
    refine ⟨2 * T - 1, -1, ?_, ?_⟩
    · rw [abs_le]; constructor <;> omega
    · push_cast; norm_num; ring
  have hle : double (i * double (T / M)) ≤ T - 1 / 2 :=
    round_le (by norm_num) hs hpos (mul_step_le hM hlt hT hi)
  have h0 : 0 ≤ double (i * double (T / M)) := round_nonneg _ hpos
  rw [double_natCast (by omega), Nat.floor_lt h0]
  linarith

theorem floor_product_lt_succ (hM : 0 < M) (hlt : M < T) (hT : T ≤ 2 ^ 52) {i : ℕ}
    (hi : i + 1 < M) :
    ⌊double (double i * double (T / M))⌋₊ < ⌊double (double (i + 1 : ℕ) * double (T / M))⌋₊ := by
  have hstep := one_lt_step hM hlt hT
  have hpos : 0 ≤ (i : ℚ) * double (T / M) := mul_nonneg (Nat.cast_nonneg i) (by linarith)
  have htop := mul_step_le hM hlt hT hi
  have hT' : (T : ℚ) ≤ 2 ^ 52 := by exact_mod_cast hT
  have := floor_round_lt_floor_round (p := 52) (x := i * double (T / M))
    (y := (i + 1 : ℕ) * double (T / M)) hpos (by push_cast; linarith) (by linarith)
  rw [double_natCast (by omega), double_natCast (by omega)]
  have hfloor : ∀ x : ℚ, 0 ≤ x → (⌊double x⌋₊ : ℤ) = ⌊round 53 x⌋ := fun x hx =>
    Int.natCast_floor_eq_floor (round_nonneg _ hx)
  exact_mod_cast (hfloor _ hpos).trans_lt (this.trans_eq (hfloor _ (by positivity)).symm)

end

/-- The index list has `min T M` elements, strictly increasing and below `T`. -/
theorem indices_ok {T : ℕ} {M : ℤ} (hM : 1 ≤ M) (hT : T ≤ 2 ^ 52) :
    ∃ l, indices T M = .ok l ∧ l.length = min T M.toNat ∧ l.Pairwise (· < ·) ∧
      ∀ i ∈ l, i < T := by
  obtain ⟨m, rfl⟩ := Int.eq_ofNat_of_zero_le (show 0 ≤ M by omega)
  unfold indices
  simp only [Int.toNat_natCast, Int.cast_natCast]
  split
  next hlt =>
    have hlt : m < T := by exact_mod_cast hlt
    have hm : 0 < m := by omega
    rw [if_neg (by omega)]
    obtain ⟨heq, hpair⟩ := @sampled_eq (fun i => double (double i * double (T / m))) m
      fun i hi => floor_product_lt_succ hm hlt hT hi
    refine ⟨_, rfl, ?_, hpair, ?_⟩
    · rw [heq, List.length_map, List.length_range]
      omega
    · rw [heq]
      intro j hj
      obtain ⟨i, hi, rfl⟩ := List.mem_map.mp hj
      exact floor_product_lt hm hlt hT (List.mem_range.mp hi)
  next hle =>
    refine ⟨_, rfl, ?_, List.pairwise_lt_range, fun i => List.mem_range.mp⟩
    rw [List.length_range]
    omega

end MutationTest

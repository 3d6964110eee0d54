import Mathlib.Data.Int.Log
import Mathlib.Algebra.Order.Archimedean.Basic
import Mathlib.Data.Rat.Floor
import Mathlib.Tactic.Linarith
import Mathlib.Tactic.Positivity
import Mathlib.Tactic.Ring
import Mathlib.Tactic.FieldSimp
import Mathlib.Tactic.NormNum

/-! # Rounding to a binary precision

Rationals rounded to `p` significant binary digits, ties to even, with no bound on the exponent.
Rounding is monotone and exact on short numbers (`round_mono`, `round_eq_self`), its error is at
most half a unit in the last place, and in a range where that unit is less than one it keeps numbers
that are more than one apart in different unit intervals (`floor_round_lt_floor_round`). -/

namespace BinaryFloat

/-! ## Nearest integer -/

/-- The nearest integer, the even one of two. -/
def roundHalfEven (x : ℚ) : ℤ :=
  if x - ⌊x⌋ < 1 / 2 then ⌊x⌋
  else if 1 / 2 < x - ⌊x⌋ then ⌊x⌋ + 1
  else ⌊x⌋ + ⌊x⌋ % 2

theorem abs_roundHalfEven_sub (x : ℚ) : |(roundHalfEven x : ℚ) - x| ≤ 1 / 2 := by
  have h0 := Int.floor_le x
  have h1 := Int.lt_floor_add_one x
  unfold roundHalfEven
  split
  · rw [abs_le]; constructor <;> linarith
  · split
    · rw [abs_le]; push_cast; constructor <;> linarith
    · rcases Int.emod_two_eq_zero_or_one ⌊x⌋ with h | h <;>
        (rw [h, abs_le]; push_cast; constructor <;> linarith)

/-- An integer closer than one half is the nearest one. -/
theorem roundHalfEven_of_near {x : ℚ} {k : ℤ} (h : |(k : ℚ) - x| < 1 / 2) :
    roundHalfEven x = k := by
  have hr := abs_roundHalfEven_sub x
  rw [abs_lt] at h
  rw [abs_le] at hr
  have h1 : ((roundHalfEven x - k : ℤ) : ℚ) < 1 := by push_cast; linarith
  have h2 : (-1 : ℚ) < (roundHalfEven x - k : ℤ) := by push_cast; linarith
  have h1' : roundHalfEven x - k < 1 := by exact_mod_cast h1
  have h2' : -1 < roundHalfEven x - k := by exact_mod_cast h2
  omega

@[simp] theorem roundHalfEven_intCast (k : ℤ) : roundHalfEven (k : ℚ) = k :=
  roundHalfEven_of_near (by simp)

theorem roundHalfEven_mono {x y : ℚ} (h : x ≤ y) : roundHalfEven x ≤ roundHalfEven y := by
  have hx := abs_le.mp (abs_roundHalfEven_sub x)
  have hy := abs_le.mp (abs_roundHalfEven_sub y)
  by_contra hlt
  have hlt : ((roundHalfEven y + 1 : ℤ) : ℚ) ≤ roundHalfEven x := by
    exact_mod_cast Int.add_one_le_of_lt (not_le.mp hlt)
  push_cast at hlt
  -- the two results are one apart, so both numbers are the midpoint between them
  have hxy : x = y := le_antisymm h (by linarith)
  rw [hxy] at hlt
  linarith

theorem le_roundHalfEven {x : ℚ} {k : ℤ} (h : (k : ℚ) ≤ x) : k ≤ roundHalfEven x :=
  roundHalfEven_intCast k ▸ roundHalfEven_mono h

theorem roundHalfEven_le {x : ℚ} {k : ℤ} (h : x ≤ k) : roundHalfEven x ≤ k :=
  roundHalfEven_intCast k ▸ roundHalfEven_mono h

/-! ## Significant digits -/

/-- The unit in the last place of numbers of the size of `x`. -/
def ulp (p : ℕ) (x : ℚ) : ℚ := 2 ^ (Int.log 2 |x| + 1 - p)

/-- Round to `p` significant binary digits, ties to even. -/
def round (p : ℕ) (x : ℚ) : ℚ := roundHalfEven (x / ulp p x) * ulp p x

/-- Numbers with at most `p` significant binary digits. -/
def Short (p : ℕ) (x : ℚ) : Prop := ∃ m e : ℤ, |m| ≤ 2 ^ p ∧ x = m * 2 ^ e

theorem ulp_pos (p : ℕ) (x : ℚ) : 0 < ulp p x := zpow_pos (by norm_num) _

theorem ulp_le_ulp {p : ℕ} {x y : ℚ} (hx : 0 < x) (h : x ≤ y) : ulp p x ≤ ulp p y := by
  have hlog : Int.log 2 |x| ≤ Int.log 2 |y| := by
    rw [abs_of_pos hx, abs_of_pos (hx.trans_le h)]
    exact Int.log_mono_right hx h
  exact zpow_le_zpow_right₀ (by norm_num) (by omega)

theorem abs_round_sub (p : ℕ) (x : ℚ) : |round p x - x| ≤ ulp p x / 2 := by
  have hu := ulp_pos p x
  have heq : round p x - x = (roundHalfEven (x / ulp p x) - x / ulp p x) * ulp p x := by
    rw [round]; field_simp
  rw [heq, abs_mul, abs_of_pos hu]
  calc |(roundHalfEven (x / ulp p x) : ℚ) - x / ulp p x| * ulp p x
      ≤ 1 / 2 * ulp p x := by gcongr; exact abs_roundHalfEven_sub _
    _ = ulp p x / 2 := by ring

/-- The relative error of rounding. -/
theorem abs_round_sub_le (p : ℕ) (x : ℚ) : |round p x - x| ≤ |x| * 2 ^ (-p : ℤ) := by
  rcases eq_or_ne x 0 with rfl | hx
  · simp [round, show roundHalfEven 0 = 0 from roundHalfEven_intCast 0]
  · have hlog := Int.zpow_log_le_self (b := 2) (by norm_num) (abs_pos.mpr hx)
    calc |round p x - x| ≤ ulp p x / 2 := abs_round_sub p x
      _ = 2 ^ (Int.log 2 |x|) * 2 ^ (-p : ℤ) := by
        rw [ulp, show Int.log 2 |x| + 1 - (p : ℤ) = Int.log 2 |x| + -p + 1 by ring,
          zpow_add₀ (by norm_num), zpow_add₀ (by norm_num)]
        ring
      _ ≤ |x| * 2 ^ (-p : ℤ) :=
        mul_le_mul_of_nonneg_right (by exact_mod_cast hlog) (zpow_pos (by norm_num) _).le

@[simp] theorem round_zero (p : ℕ) : round p 0 = 0 := by
  simp [round, show roundHalfEven 0 = 0 from roundHalfEven_intCast 0]

theorem round_of_int_mul {p : ℕ} {x : ℚ} {k : ℤ} (h : x = k * ulp p x) : round p x = x := by
  have hu := (ulp_pos p x).ne'
  have hk : x / ulp p x = k := by rw [div_eq_iff hu]; exact h
  rw [round, hk, roundHalfEven_intCast, ← h]

theorem round_of_exponent_le {p : ℕ} {x : ℚ} {m e : ℤ} (hx : x = m * 2 ^ e)
    (h : Int.log 2 |x| + 1 - p ≤ e) : round p x = x := by
  obtain ⟨d, rfl⟩ := Int.le.dest h
  refine round_of_int_mul (k := m * 2 ^ d) ?_
  rw [ulp]
  conv_lhs => rw [hx]
  push_cast
  rw [zpow_add₀ (by norm_num), zpow_natCast]
  ring

/-- Rounding changes no short number. -/
theorem round_eq_self {p : ℕ} (hp : 0 < p) {x : ℚ} (h : Short p x) : round p x = x := by
  obtain ⟨m, e, hm, hx⟩ := h
  rcases eq_or_ne x 0 with rfl | hx0
  · simp
  have hpos := abs_pos.mpr hx0
  by_cases hE : Int.log 2 |x| + 1 - p ≤ e
  · exact round_of_exponent_le hx hE
  · -- the significand is a power of two with one digit too many
    have hge : (2 : ℚ) ^ (e + p) ≤ |x| := by
      exact_mod_cast (Int.zpow_le_iff_le_log (b := 2) (by norm_num) hpos).mpr (by omega)
    have hle : |x| ≤ 2 ^ (e + p) := by
      have hm : (|m| : ℚ) ≤ 2 ^ p := by exact_mod_cast hm
      have h2 : (0 : ℚ) < 2 ^ e := zpow_pos (by norm_num) e
      rw [hx, abs_mul, abs_of_pos h2, zpow_add₀ (by norm_num), zpow_natCast, mul_comm]
      exact mul_le_mul_of_nonneg_left hm h2.le
    have habs : |x| = 2 ^ (e + p) := le_antisymm hle hge
    have hlog : Int.log 2 |x| = e + p := by
      rw [habs]; exact_mod_cast Int.log_zpow (R := ℚ) (b := 2) (by norm_num) (e + p)
    have hp' : Int.log 2 |x| + 1 - p ≤ e + p := by omega
    rcases abs_choice x with h | h
    · exact round_of_exponent_le (m := 1) (by rw [← habs, h]; simp) hp'
    · exact round_of_exponent_le (m := -1) (by rw [← habs, h]; simp) hp'

theorem short_intCast {p : ℕ} {n : ℤ} (h : |n| ≤ 2 ^ p) : Short p n := ⟨n, 0, h, by simp⟩

/-! ## Order -/

theorem round_le_zpow {p : ℕ} (hp : 0 < p) {x : ℚ} {k : ℤ} (hx : 0 < x) (h : x ≤ 2 ^ k) :
    round p x ≤ 2 ^ k := by
  have hlog : Int.log 2 |x| ≤ k := by
    have := Int.log_mono_right (b := 2) hx h
    rw [abs_of_pos hx]
    exact this.trans_eq (by exact_mod_cast Int.log_zpow (R := ℚ) (b := 2) (by norm_num) k)
  obtain ⟨d, hd⟩ := Int.le.dest (show Int.log 2 |x| + 1 - p ≤ k by omega)
  have hk : (2 : ℚ) ^ k = ((2 ^ d : ℤ) : ℚ) * ulp p x := by
    rw [ulp, ← hd, zpow_add₀ (by norm_num), zpow_natCast]; push_cast; ring
  have hu := ulp_pos p x
  rw [round, hk]
  gcongr
  exact roundHalfEven_le (by rw [div_le_iff₀ hu, ← hk]; exact h)

theorem zpow_log_le_round {p : ℕ} (hp : 0 < p) {x : ℚ} (hx : 0 < x) :
    2 ^ Int.log 2 x ≤ round p x := by
  obtain ⟨q, rfl⟩ : ∃ q, p = q + 1 := ⟨p - 1, by omega⟩
  have hk : (2 : ℚ) ^ Int.log 2 x = ((2 ^ q : ℤ) : ℚ) * ulp (q + 1) x := by
    rw [ulp, abs_of_pos hx]
    push_cast
    rw [← zpow_natCast, ← zpow_add₀ (by norm_num)]
    congr 1
    ring
  have hu := ulp_pos (q + 1) x
  rw [round, hk]
  gcongr
  refine le_roundHalfEven ?_
  rw [le_div_iff₀ hu, ← hk]
  exact_mod_cast Int.zpow_log_le_self (b := 2) (by norm_num) hx

theorem round_nonneg (p : ℕ) {x : ℚ} (hx : 0 ≤ x) : 0 ≤ round p x := by
  have hu := ulp_pos p x
  have : 0 ≤ roundHalfEven (x / ulp p x) := le_roundHalfEven (by push_cast; positivity)
  exact mul_nonneg (by exact_mod_cast this) hu.le

theorem round_mono {p : ℕ} (hp : 0 < p) {x y : ℚ} (hx : 0 ≤ x) (h : x ≤ y) :
    round p x ≤ round p y := by
  rcases hx.eq_or_lt with rfl | hx
  · simpa using round_nonneg p h
  have hy := hx.trans_le h
  rcases (Int.log_mono_right (b := 2) hx h).eq_or_lt with hlog | hlog
  · -- the same last place
    have hu : ulp p x = ulp p y := by rw [ulp, ulp, abs_of_pos hx, abs_of_pos hy, hlog]
    have hpos := ulp_pos p y
    rw [round, round, hu]
    gcongr
    exact_mod_cast roundHalfEven_mono (by gcongr)
  · -- a power of two lies between
    have hle : x ≤ 2 ^ (Int.log 2 y) := by
      have := Int.lt_zpow_succ_log_self (b := 2) (by norm_num) x
      refine (show x < 2 ^ (Int.log 2 x + 1) by exact_mod_cast this).le.trans ?_
      exact zpow_le_zpow_right₀ (by norm_num) (by omega)
    exact (round_le_zpow hp hx hle).trans (zpow_log_le_round hp hy)

theorem le_round {p : ℕ} (hp : 0 < p) {r x : ℚ} (hr : Short p r) (h0 : 0 ≤ r) (h : r ≤ x) :
    r ≤ round p x := round_eq_self hp hr ▸ round_mono hp h0 h

theorem round_le {p : ℕ} (hp : 0 < p) {r x : ℚ} (hr : Short p r) (h0 : 0 ≤ x) (h : x ≤ r) :
    round p x ≤ r := round_eq_self hp hr ▸ round_mono hp h0 h

/-! ## Truncation -/

/-- Numbers more than one apart fall, after rounding, into different unit intervals. -/
theorem floor_round_lt_floor_round {p : ℕ} {x y : ℚ} (hx : 0 ≤ x) (h : x + 1 < y)
    (hy : y < 2 ^ p) : ⌊round (p + 1) x⌋ < ⌊round (p + 1) y⌋ := by
  have hp := Nat.succ_pos p
  set n := ⌊round (p + 1) x⌋ with hn
  have hnle : (n : ℚ) ≤ round (p + 1) x := Int.floor_le _
  have hn0 : 0 ≤ n := Int.floor_nonneg.mpr (round_nonneg _ hx)
  suffices hsuff : ((n + 1 : ℤ) : ℚ) ≤ round (p + 1) y from
    Int.lt_of_lt_of_le (Int.lt_succ n) (Int.le_floor.mpr hsuff)
  have hshort : ∀ {k : ℤ}, 0 ≤ k → (k : ℚ) ≤ 2 ^ p → Short (p + 1) k := by
    intro k hk hkp
    have hkp : k ≤ 2 ^ p := by exact_mod_cast hkp
    refine short_intCast ?_
    rw [abs_of_nonneg hk, pow_succ]
    omega
  by_cases hny : ((n + 1 : ℤ) : ℚ) ≤ y
  · exact le_round hp (hshort (by omega) (hny.trans hy.le)) (by exact_mod_cast Int.le_add_one hn0)
      hny
  · -- `x` was rounded up to `n`, and `y` is as close to `n + 1`
    have hny : y < n + 1 := by push_cast at hny; linarith
    have hx0 : 0 < x := by
      rcases hx.eq_or_lt with rfl | hx0
      · rw [round_zero] at hn
        rw [hn] at hny
        norm_num at hny
        linarith
      · exact hx0
    have herr := abs_le.mp (abs_round_sub (p + 1) x)
    have hu := ulp_le_ulp (p := p + 1) hx0 (show x ≤ y by linarith)
    have hupos := ulp_pos (p + 1) y
    have hlog : Int.log 2 |y| < p := by
      rw [abs_of_pos (by linarith)]
      exact (Int.lt_zpow_iff_log_lt (b := 2) (by norm_num) (by linarith)).mp
        (by exact_mod_cast hy)
    obtain ⟨d, hd⟩ := Int.le.dest (show Int.log 2 |y| + 1 - (p + 1 : ℕ) ≤ 0 by push_cast; omega)
    have hone : (1 : ℚ) = ((2 ^ d : ℤ) : ℚ) * ulp (p + 1) y := by
      rw [ulp]; push_cast
      rw [← zpow_natCast, ← zpow_add₀ (by norm_num), add_comm (d : ℤ)]
      push_cast at hd
      rw [hd, zpow_zero]
    have hmul : ((n + 1 : ℤ) : ℚ) = (((n + 1) * 2 ^ d : ℤ) : ℚ) * ulp (p + 1) y := by
      rw [Int.cast_mul, mul_assoc, ← hone, mul_one]
    have hnear : |(((n + 1) * 2 ^ d : ℤ) : ℚ) - y / ulp (p + 1) y| < 1 / 2 := by
      have heq : (((n + 1) * 2 ^ d : ℤ) : ℚ) - y / ulp (p + 1) y =
          (((n + 1 : ℤ) : ℚ) - y) / ulp (p + 1) y := by
        rw [hmul]; field_simp
      rw [heq, abs_div, abs_of_pos hupos, div_lt_iff₀ hupos, abs_lt]
      push_cast
      constructor <;> linarith
    rw [round, roundHalfEven_of_near hnear, ← hmul]

end BinaryFloat

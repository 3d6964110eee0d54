import MutationTest.Verify.SamplingCounts
import MutationTest.Theory.Spacing

/-! # The budget

`indices` takes `min T M` of `T` sites, at distances as even as integers allow. The counts need of
the arithmetic no more than products close to the exact ones; double arithmetic provides that
(`near_doubleProduct`) as long as `T * M` stays below `2 ^ 50`. -/

namespace MutationTest
open BinaryFloat Spacing

/-- `indices` with the products `i * step` as a parameter. -/
def budget (product : ℕ → ℚ) (T M : ℕ) : List ℕ :=
  if M < T then sampled product M else List.range T

/-- `i * step` in double arithmetic. -/
def doubleProduct (T M i : ℕ) : ℚ := double (double i * double (T / M))

/-- The budget is met exactly: as many different indices as it allows, all of them sites. -/
structure MeetsBudget (T M : ℕ) (l : List ℕ) : Prop where
  count : l.length = min T M
  increasing : l.Pairwise (· < ·)
  inRange : ∀ i ∈ l, i < T

section
variable {T M : ℕ}

theorem indices_eq_budget (hM : 1 ≤ M) : indices T M = .ok (budget (doubleProduct T M) T M) := by
  unfold indices budget
  simp only [gt_iff_lt, Nat.cast_lt, Int.cast_natCast, Int.toNat_natCast]
  split
  · rw [if_neg (by omega)]
    rfl
  · rfl

theorem one_add_le_div (hM : 1 ≤ M) (hlt : M < T) : 1 + 2 * (1 / (2 * M) : ℚ) ≤ T / M := by
  have hM' : (0 : ℚ) < M := by exact_mod_cast hM
  have hTM : (M : ℚ) + 1 ≤ T := by exact_mod_cast hlt
  rw [le_div_iff₀ hM']
  calc (1 + 2 * (1 / (2 * M) : ℚ)) * M = M + 1 := by field_simp
    _ ≤ T := hTM

theorem sampled_of_near (hM : 1 ≤ M) (hlt : M < T) {product : ℕ → ℚ}
    (h : Near product (T / M : ℚ) (1 / (2 * M)) M) :
    sampled product M = (List.range M).map (fun i => ⌊product i⌋₊) ∧
      (sampled product M).Pairwise (· < ·) :=
  sampled_eq fun _ hi => floor_lt_floor_of_near h (one_add_le_div hM hlt) hi

theorem meetsBudget_of_near (hM : 1 ≤ M) {product : ℕ → ℚ}
    (h : M < T → Near product (T / M : ℚ) (1 / (2 * M)) M) :
    MeetsBudget T M (budget product T M) := by
  unfold budget
  split
  next hlt =>
    obtain ⟨heq, hpair⟩ := sampled_of_near hM hlt (h hlt)
    refine ⟨?_, hpair, ?_⟩
    · rw [heq, List.length_map, List.length_range]
      omega
    · rw [heq]
      intro j hj
      obtain ⟨i, hi, rfl⟩ := List.mem_map.mp hj
      have hM' : (0 : ℚ) < M := by exact_mod_cast hM
      have hstep := one_add_le_div hM hlt
      have hε : (0 : ℚ) < 1 / (2 * M) := by positivity
      refine floor_lt_of_near (h hlt) (by linarith) ?_ (List.mem_range.mp hi)
      field_simp
  next hle =>
    refine ⟨?_, List.pairwise_lt_range, fun i => List.mem_range.mp⟩
    rw [List.length_range]
    omega

/-- Of the exact products, those below `p` are in proportion to `p`. -/
theorem countP_budget (hM : 1 ≤ M) (hlt : M < T) {p : ℕ} (hp : p ≤ T) :
    (budget (fun i => i * (T / M : ℚ)) T M).countP (· < p) = ⌈(p * M / T : ℚ)⌉₊ := by
  have hM' : (0 : ℚ) < M := by exact_mod_cast hM
  have hT' : (0 : ℚ) < T := hM'.trans (by exact_mod_cast hlt)
  have hexact : Near (fun i : ℕ => i * (T / M : ℚ)) (T / M : ℚ) (1 / (2 * M)) M :=
    near_exact (div_pos hT' hM').le (by positivity) M
  have hquot : (p : ℚ) / (T / M) = p * M / T := by field_simp
  have hle : ⌈(p * M / T : ℚ)⌉₊ ≤ M := by
    rw [Nat.ceil_le, div_le_iff₀ hT', mul_comm]
    exact_mod_cast Nat.mul_le_mul_left M hp
  rw [budget, if_pos hlt, (sampled_of_near hM hlt hexact).1, countP_floor_lt (div_pos hT' hM'),
    hquot, min_eq_right hle]

/-! ## Double arithmetic -/

/-- Two roundings err by less than `3 * 2 ^ -53` of the product, which is below `T`. -/
theorem near_doubleProduct (hM : 1 ≤ M) (hlt : M < T) (hTM : T * M < 2 ^ 50) :
    Near (doubleProduct T M) (T / M : ℚ) (1 / (2 * M)) M := by
  intro i hi
  have hM' : (0 : ℚ) < M := by exact_mod_cast hM
  have hTpos : (0 : ℚ) < T := hM'.trans (by exact_mod_cast hlt)
  have hTM' : (T : ℚ) * M < 2 ^ 50 := by exact_mod_cast hTM
  have hT : T ≤ T * M := Nat.le_mul_of_pos_right T (by omega)
  set a : ℚ := T / M with ha
  have ha0 : 0 < a := div_pos hTpos hM'
  have hstep0 : 0 ≤ double a := round_nonneg 53 ha0.le
  have hi0 : (0 : ℚ) ≤ i := Nat.cast_nonneg i
  have hprod : 0 ≤ (i : ℚ) * double a := mul_nonneg hi0 hstep0
  have hia : (i : ℚ) * a ≤ T := by
    have hiM : (i : ℚ) ≤ M := by exact_mod_cast hi.le
    calc (i : ℚ) * a ≤ M * a := mul_le_mul_of_nonneg_right hiM ha0.le
      _ = T := by rw [ha]; field_simp
  have hfirst : |(i : ℚ) * double a - i * a| ≤ T * (1 / 2 ^ 53) := by
    rw [← mul_sub, abs_mul, abs_of_nonneg hi0]
    calc (i : ℚ) * |double a - a| ≤ i * (a * (1 / 2 ^ 53)) :=
          mul_le_mul_of_nonneg_left (abs_double_sub_le ha0.le) hi0
      _ = i * a * (1 / 2 ^ 53) := by ring
      _ ≤ T * (1 / 2 ^ 53) := mul_le_mul_of_nonneg_right hia (by norm_num)
  have hsecond := abs_double_sub_le hprod
  have htop : (i : ℚ) * double a ≤ T * 2 := by
    have := (abs_le.mp hfirst).2
    linarith
  have hexact : double (i : ℚ) = i := double_natCast (by omega)
  refine ⟨?_, ?_⟩
  · rw [doubleProduct, hexact]
    exact round_nonneg 53 hprod
  · rw [doubleProduct, hexact]
    calc |double (i * double a) - i * a|
        ≤ |double (i * double a) - i * double a| + |i * double a - i * a| := abs_sub_le _ _ _
      _ ≤ T * 2 * (1 / 2 ^ 53) + T * (1 / 2 ^ 53) := by
          refine add_le_add (hsecond.trans ?_) hfirst
          exact mul_le_mul_of_nonneg_right htop (by norm_num)
      _ < 1 / (2 * M) := by
          rw [lt_div_iff₀ (by positivity)]
          calc ((T : ℚ) * 2 * (1 / 2 ^ 53) + T * (1 / 2 ^ 53)) * (2 * M)
              = T * M * (6 / 2 ^ 53) := by ring
            _ < 2 ^ 50 * (6 / 2 ^ 53) := mul_lt_mul_of_pos_right hTM' (by norm_num)
            _ ≤ 1 := by norm_num

end

/-- The budget is met by every computation whose products are close to the exact ones, by the exact
one in proportion on every prefix of the sites, and by double arithmetic, whose products are that
close. -/
theorem budget_met {T M : ℕ} (hT : 1 ≤ T) (hM : 1 ≤ M) :
    (∀ product : ℕ → ℚ,
      (M < T → ∀ i < M, 0 ≤ product i ∧ |product i - i * (T / M)| < 1 / (2 * M)) →
        MeetsBudget T M (budget product T M)) ∧
    (MeetsBudget T M (budget (fun i => i * (T / M : ℚ)) T M) ∧
      (M < T → ∀ p ≤ T,
        (budget (fun i => i * (T / M : ℚ)) T M).countP (· < p) = ⌈(p * M / T : ℚ)⌉₊)) ∧
    (T * M < 2 ^ 50 → M < T → ∀ i < M,
      0 ≤ doubleProduct T M i ∧ |doubleProduct T M i - i * (T / M)| < 1 / (2 * M)) ∧
    indices T M = .ok (budget (doubleProduct T M) T M) ∧
    (T ≤ 2 ^ 52 → MeetsBudget T M (budget (doubleProduct T M) T M)) := by
  have hM' : (0 : ℚ) < M := by exact_mod_cast hM
  refine ⟨fun product h => meetsBudget_of_near hM h, ⟨meetsBudget_of_near hM fun _ => ?_,
    fun hlt p hp => countP_budget hM hlt hp⟩, fun h hlt => near_doubleProduct hM hlt h,
    indices_eq_budget hM, fun h => ?_⟩
  · exact near_exact (by positivity) (by positivity) M
  · obtain ⟨l, hl, hcount, hincreasing, hrange⟩ := @indices_ok T M (by omega) h
    obtain rfl := Except.ok.inj ((indices_eq_budget hM).symm.trans hl)
    exact ⟨by simpa using hcount, hincreasing, hrange⟩

/-- Three of the seven indices of four are below five. -/
theorem budget_met_seven :
    MeetsBudget 7 4 (budget (doubleProduct 7 4) 7 4) ∧
      (budget (fun i => i * (7 / 4 : ℚ)) 7 4).countP (· < 5) = ⌈(5 * 4 / 7 : ℚ)⌉₊ := by
  obtain ⟨-, ⟨-, hcount⟩, -, -, hdouble⟩ := @budget_met 7 4 (by decide) (by decide)
  exact ⟨hdouble (by decide), by exact_mod_cast hcount (by decide) 5 (by decide)⟩

end MutationTest

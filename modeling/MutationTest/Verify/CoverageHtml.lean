import MutationTest.CoverageHtml
import MutationTest.Theory.Spelling
import MutationTest.TextFiles

/-! # Translated pages

The replacements are made one after the other, so each could undo the work of an earlier one. The
overlaps of their words are checked once (`sound_spelled`): only the words in `fragile` can leave a
text that is still to be translated, and one run removes them all. -/

namespace MutationTest.CoverageHtml
open Rewriting Spelling

/-! ## The words -/

def spelling (x : String × String) : List Char × List Char := (x.1.toList, x.2.toList)

def spelled : List (List Char × List Char) := replacements.map spelling

def searched : List (List Char) := spelled.map (·.1)

def steps : List (List Char × List Char) := spelled ++ [(statements, instrucoes)]

/-- Words out of which one pass makes a text that it should have replaced: two texts that share a
letter, or one that a replacement completes. -/
def fragile : List (List Char) :=
  [">File<span class=\"arrows\">File<span class=\"arrows\">",
    ">class<span class=\"arrows\">class<span class=\"arrows\">",
    ">function<span class=\"arrows\">function<span class=\"arrows\">",
    ">statements<span class=\"arrows\">statements<span class=\"arrows\">",
    ">missing<span class=\"arrows\">missing<span class=\"arrows\">",
    ">excluded<span class=\"arrows\">excluded<span class=\"arrows\">",
    ">branches<span class=\"arrows\">branches<span class=\"arrows\">",
    ">partial<span class=\"arrows\">partial<span class=\"arrows\">",
    ">coverage<span class=\"arrows\">coverage<span class=\"arrows\">",
    ">&#xab; prev</a>&#xab; prev</a>", ">&#xbb; next</a>&#xbb; next</a>",
    "&nbsp; change column sortinglt=\"Show/hide keyboard shortcuts\"",
    "show/hide this helplt=\"Show/hide keyboard shortcuts\"",
    "&nbsp; (zero) top of pagelt=\"Show/hide keyboard shortcuts\""].map String.toList

/-- The replacement of `old` completes the word `p`, of which `k` letters are new. -/
def completes (bad : List (List Char)) (p old : List Char) (k : ℕ) : Bool :=
  p ∉ bad && p ≠ old && old ++ p.drop k ∈ bad

/-- Where a fragile word comes from, and what removes it: it is two overlapping occurrences of
`y.1`, or it begins with one, and what completes a word ends as the word does. -/
def removes (bad : List (List Char)) (f : List Char) (y : List Char × List Char) : Bool :=
  y.1.isPrefixOf f &&
    (((overlapLengths y.1 y.2).any fun k => f = y.1 ++ y.1.drop k) ||
      (overlapLengths y.1 y.2).isEmpty && bad.all fun g => g.getLast? ≠ y.1.getLast?)

def latin (w : List Char) : Bool :=
  w.all fun c => decide (c.toNat < 256) && c ≠ '\n' && c ≠ '\r'

def sound (l : List (List Char × List Char)) (bad : List (List Char)) (s n : List Char) : Bool :=
  inertAll (completes bad) (l.map (·.1) ++ bad) (l ++ [(s, n)]) &&
    (l.all fun y => (overlapLengths y.1 y.2).all fun k =>
      decide (k = 1) && decide (1 < y.1.length) && y.1 ++ y.1.drop k ∈ bad) &&
    (bad.all fun f => l.any fun y => removes bad f y) && (n.all fun c => !c.isDigit) &&
    (l ++ [(s, n)]).all fun x => inert (fun _ => false) (Char.isDigit :: literal s) x.1 x.2 &&
      latin x.1 && latin x.2

theorem sound_congr {l l' : List (List Char × List Char)} {bad bad' : List (List Char)}
    {s s' n n' : List Char} (hl : l = l') (hbad : bad = bad') (hs : s = s') (hn : n = n')
    (h : sound l' bad' s' n') : sound l bad s n := by
  rw [hl, hbad, hs, hn]
  exact h

theorem map_spelling_cons {a b : String} {x y : List Char} {l : List (String × String)}
    {l' : List (List Char × List Char)} (ha : a.toList = x) (hb : b.toList = y)
    (h : l.map spelling = l') : ((a, b) :: l).map spelling = (x, y) :: l' := by
  rw [List.map_cons, spelling, ha, hb, h]

theorem sound_spelled : sound spelled fragile statements instrucoes := by
  apply sound_congr
  · simp only [spelled, replacements]
    iterate 43 apply map_spelling_cons String.toList_ofList String.toList_ofList
    rfl
  · simp only [fragile]
    iterate 14 apply map_toList_cons String.toList_ofList
    rfl
  · exact String.toList_ofList
  · exact String.toList_ofList
  · decide +kernel

def Absent (words : List (List Char)) (t : List Char) : Prop := ∀ p ∈ words, ¬p <:+: t

/-- A digit and the text of the regular expression. -/
def numbered (digit : Char → Bool) : Pattern Char := digit :: literal statements

section
variable {x y : List Char × List Char} {p f t : List Char} {digit : Char → Bool}

theorem mem_steps (hx : x ∈ spelled) : x ∈ steps := List.mem_append_left _ hx

theorem mem_statements : (statements, instrucoes) ∈ steps :=
  List.mem_append_right _ (List.mem_singleton_self _)

theorem inertAll_spelled : inertAll (completes fragile) (searched ++ fragile) steps := by
  have h := sound_spelled
  simp only [sound, Bool.and_eq_true, and_assoc] at h
  exact h.1

theorem inert_searched (hp : p ∈ searched) (hx : x ∈ steps) :
    Inert (completes fragile p x.1) (literal p) x.1 x.2 :=
  .of_inertAll inertAll_spelled (List.mem_append_left _ hp) hx

theorem inert_fragile (hp : p ∈ fragile) (hx : x ∈ steps) :
    Inert (fun _ => false) (literal p) x.1 x.2 := by
  refine (Inert.of_inertAll inertAll_spelled (List.mem_append_right _ hp) hx).mono fun k _ hk => ?_
  simp [completes, hp] at hk

theorem inert_self (hx : x ∈ spelled) : Inert (fun _ => false) (literal x.1) x.1 x.2 := by
  refine (inert_searched (List.mem_map_of_mem hx) (mem_steps hx)).mono fun k _ hk => ?_
  simp [completes] at hk

theorem of_mem_overlapLengths (hx : x ∈ spelled) {k : ℕ} (hk : k ∈ overlapLengths x.1 x.2) :
    k = 1 ∧ 1 < x.1.length ∧ x.1 ++ x.1.drop k ∈ fragile := by
  have h := sound_spelled
  simp only [sound, Bool.and_eq_true, List.all_eq_true, decide_eq_true_eq, and_assoc] at h
  exact h.2.1 x hx k hk

theorem exists_removes (hf : f ∈ fragile) : ∃ y ∈ spelled, removes fragile f y := by
  have h := sound_spelled
  simp only [sound, Bool.and_eq_true, List.all_eq_true, List.any_eq_true, and_assoc] at h
  exact h.2.2.1 f hf

theorem sound_letters (hx : x ∈ steps) :
    inert (fun _ => false) (numbered Char.isDigit) x.1 x.2 ∧ latin x.1 ∧ latin x.2 := by
  have h := sound_spelled
  simp only [sound, Bool.and_eq_true, List.all_eq_true, and_assoc] at h
  exact h.2.2.2.2 x hx

theorem no_digit_instrucoes (hdigit : ∀ c : Char, c.toNat < 256 → digit c = c.isDigit) :
    ∀ c ∈ instrucoes, digit c = false := by
  have h := sound_spelled
  simp only [sound, Bool.and_eq_true, List.all_eq_true, Bool.not_eq_true', and_assoc] at h
  intro c hc
  obtain ⟨-, -, hlatin⟩ := sound_letters mem_statements
  simp only [latin, List.all_eq_true, Bool.and_eq_true, decide_eq_true_eq] at hlatin
  rw [hdigit c (hlatin c hc).1.1, h.2.2.2.1 c hc]

theorem inert_numbered (hdigit : ∀ c : Char, c.toNat < 256 → digit c = c.isDigit) (hx : x ∈ steps) :
    Inert (fun _ => false) (numbered digit) x.1 x.2 := by
  obtain ⟨hinert, hold, hnew⟩ := sound_letters hx
  refine (Inert.of_inert hinert).congr_head fun c hc => (hdigit c ?_).symm
  simp only [latin, List.all_eq_true, Bool.and_eq_true, decide_eq_true_eq] at hold hnew
  rcases List.mem_append.mp hc with hc | hc
  · exact (hold c hc).1.1
  · exact (hnew c hc).1.1

end

/-! ## The replacements -/

section
variable {x y : List Char × List Char} {l : List (List Char × List Char)} {p f g t : List Char}

theorem replaced_eq (t : List Char) :
    replaced t = spelled.foldl (fun t x => replaceAll x.1 x.2 t) t := by
  rw [spelled, List.foldl_map]
  rfl

theorem rewritten_step (hx : x ∈ spelled) (t : List Char) :
    Rewritten x.1 x.2 t (replaceAll x.1 x.2 t) :=
  rewritten_replaceAll (fun h => (inert_self hx).nonempty (by rw [h]; rfl)) t

/-- What no replacement makes stays absent. -/
theorem absent_foldl {p : Pattern Char} (hp : ∀ x ∈ l, Inert (fun _ => false) p x.1 x.2)
    (hl : l ⊆ spelled) (ht : ¬occurs p t) :
    ¬occurs p (l.foldl (fun t x => replaceAll x.1 x.2 t) t) := by
  induction l generalizing t with
  | nil => exact ht
  | cons x l ih =>
    have hx := List.mem_cons_self (a := x) (l := l)
    refine ih (fun y hy => hp y (List.mem_cons_of_mem x hy)) (fun y hy =>
      hl (List.mem_cons_of_mem x hy)) ?_
    exact (hp x hx).absent (rewritten_step (hl hx) t) ht

/-- One replacement removes its word and brings back none of the others. -/
theorem absent_step (hx : x ∈ spelled) {done : List (List Char)} (hdone : done ⊆ searched)
    (hfragile : Absent fragile t) (h : Absent done t) :
    Absent fragile (replaceAll x.1 x.2 t) ∧ Absent (x.1 :: done) (replaceAll x.1 x.2 t) := by
  have hstep := rewritten_step hx t
  refine ⟨fun f hf hin => ?_, fun p hp hin => ?_⟩
  · rw [← occurs_literal] at hin
    refine (inert_fragile hf (mem_steps hx)).absent hstep ?_ hin
    rw [occurs_literal]
    exact hfragile f hf
  · by_cases hpx : p = x.1
    · subst hpx
      obtain ⟨k, hk, hover⟩ := overlaps_of_occurs (inert_self hx) hin
      exact hfragile _ (of_mem_overlapLengths hx hk).2.2 hover
    · have hp := (List.mem_cons.mp hp).resolve_left hpx
      rw [← occurs_literal] at hin
      rcases occurs_of_rewritten (inert_searched (hdone hp) (mem_steps hx)) hstep hin with
        hin | ⟨k, hk, hin⟩
      · exact h p hp (occurs_literal.mp hin)
      · simp only [completes, Bool.and_eq_true, decide_eq_true_eq] at hk
        rw [drop_literal, literal, literal, ← List.map_append, ← literal, occurs_literal] at hin
        exact hfragile _ hk.2 hin

theorem absent_searched_foldl (hl : l ⊆ spelled) {done : List (List Char)} (hdone : done ⊆ searched)
    (hfragile : Absent fragile t) (h : Absent done t)
    (hall : ∀ p ∈ searched, p ∈ done ∨ p ∈ l.map (·.1)) :
    Absent searched (l.foldl (fun t x => replaceAll x.1 x.2 t) t) := by
  induction l generalizing t done with
  | nil => exact fun p hp => h p ((hall p hp).resolve_right (by simp))
  | cons x l ih =>
    have hx := hl List.mem_cons_self
    obtain ⟨hfragile, h⟩ := absent_step hx hdone hfragile h
    refine ih (fun y hy => hl (List.mem_cons_of_mem x hy)) ?_ hfragile h fun p hp => ?_
    · exact List.cons_subset.mpr ⟨List.mem_map_of_mem hx, hdone⟩
    · simpa [or_assoc, or_comm, or_left_comm] using hall p hp

theorem absent_replaced (h : Absent fragile t) :
    Absent fragile (replaced t) ∧ Absent searched (replaced t) := by
  rw [replaced_eq]
  refine ⟨fun f hf => ?_, ?_⟩
  · rw [← occurs_literal]
    refine absent_foldl (fun x hx => inert_fragile hf (mem_steps hx)) (List.Subset.refl _) ?_
    rw [occurs_literal]
    exact h f hf
  · exact absent_searched_foldl (List.Subset.refl _) (List.nil_subset _) h (by simp [Absent])
      fun p hp => .inr hp

/-- What one of the replacements removes, and none makes, is absent afterwards. -/
theorem absent_replaced_of (hy : y ∈ spelled)
    (hg : ∀ x ∈ spelled, Inert (fun _ => false) (literal g) x.1 x.2)
    (hafter : ∀ t, ¬g <:+: replaceAll y.1 y.2 t) (t : List Char) : ¬g <:+: replaced t := by
  obtain ⟨l, l', hsplit⟩ := List.append_of_mem hy
  rw [replaced_eq, hsplit, List.foldl_append, List.foldl_cons, ← occurs_literal]
  have hsub : l' ⊆ spelled := fun x hx => by simp [hsplit, hx]
  refine absent_foldl (fun x hx => hg x (hsub hx)) hsub ?_
  rw [occurs_literal]
  exact hafter _

theorem absent_fragile_replaced (t : List Char) : Absent fragile (replaced t) := by
  intro f hf
  obtain ⟨y, hy, hremoves⟩ := exists_removes hf
  simp only [removes, Bool.and_eq_true, Bool.or_eq_true, List.any_eq_true, List.all_eq_true,
    decide_eq_true_eq, List.isPrefixOf_iff_prefix, List.isEmpty_iff] at hremoves
  obtain ⟨hpre, ⟨k, hk, rfl⟩ | ⟨hnone, hlast⟩⟩ := hremoves
  · refine absent_replaced_of hy (fun x hx => inert_fragile hf (mem_steps hx)) (fun t => ?_) t
    refine not_overlap_replaceAll (inert_self hy) hk (fun j hj => ?_)
      (inert_fragile hf (mem_steps hy))
    have hk := of_mem_overlapLengths hy hk
    have hj := of_mem_overlapLengths hy hj
    omega
  · refine fun hin => absent_replaced_of hy (fun x hx => ?_) (fun t hin => ?_) t
      (hpre.isInfix.trans hin)
    · refine (inert_searched (List.mem_map_of_mem hy) (mem_steps hx)).mono fun k hk hcomp => ?_
      simp only [completes, Bool.and_eq_true, decide_eq_true_eq] at hcomp
      refine absurd ?_ (hlast _ hcomp.2)
      rw [length_literal] at hk
      rw [List.getLast?_append, List.getLast?_drop, if_neg (Nat.not_le.mpr hk),
        List.getLast?_eq_some_getLast (List.ne_nil_of_length_pos (Nat.zero_lt_of_lt hk))]
      rfl
    · obtain ⟨k, hk, -⟩ := overlaps_of_occurs (inert_self hy) hin
      simp [hnone] at hk

end

/-! ## The regular expression -/

section
variable {digit : Char → Bool} {c : Char} {ds t : List Char} {x : List Char × List Char}

theorem statements_eq : ∃ w, statements = ' ' :: w := ⟨_, String.toList_ofList⟩

theorem digit_of_latin (hdigit : ∀ c : Char, c.toNat < 256 → digit c = c.isDigit) :
    digit ' ' = false ∧ digit '\n' = false :=
  ⟨(hdigit ' ' (by decide)).trans (by decide), (hdigit '\n' (by decide)).trans (by decide)⟩

theorem subFrom_eq (n : ℕ) (t : List Char) : subFrom digit n t = sub digit (t.drop n) := by
  induction t generalizing n with
  | nil => simp [subFrom, sub]
  | cons c t ih =>
    cases n with
    | zero => rfl
    | succ n => rw [subFrom, ih, List.drop_succ_cons]

theorem sub_group (hspace : digit ' ' = false) (hne : ds ≠ []) (hds : ∀ d ∈ ds, digit d)
    (t : List Char) : sub digit (ds ++ (statements ++ t)) = ds ++ (instrucoes ++ sub digit t) := by
  obtain ⟨w, hw⟩ := statements_eq
  have htake : (ds ++ (statements ++ t)).takeWhile digit = ds := by
    rw [List.takeWhile_append_of_pos hds, hw, List.cons_append,
      List.takeWhile_cons_of_neg (by simp [hspace]), List.append_nil]
  have hdrop : (ds ++ (statements ++ t)).dropWhile digit = statements ++ t := by
    rw [List.dropWhile_append_of_pos hds, hw, List.cons_append,
      List.dropWhile_cons_of_neg (by simp [hspace])]
  obtain ⟨d, ds, rfl⟩ := List.exists_cons_of_ne_nil hne
  rw [List.cons_append] at htake hdrop
  rw [List.cons_append, sub, subFrom, htake, hdrop]
  simp only [subFrom_eq]
  rw [if_pos ⟨hne, List.isPrefixOf_iff_prefix.mpr (List.prefix_append _ t)⟩, List.append_assoc]
  have hlen : (d :: ds).length + statements.length - 1 = (ds ++ statements).length := by
    simp [Nat.add_right_comm]
  rw [hlen, ← List.append_assoc ds, List.drop_left]

theorem sub_cons (h : ∀ ds, ds ≠ [] → (∀ d ∈ ds, digit d) → ¬ds ++ statements <+: c :: t) :
    sub digit (c :: t) = c :: sub digit t := by
  rw [sub, subFrom]
  refine if_neg fun ⟨hne, hpre⟩ => h _ hne (fun d => List.mem_takeWhile_imp) ?_
  rw [List.isPrefixOf_iff_prefix] at hpre
  have := (List.prefix_append_right_inj ((c :: t).takeWhile digit)).mpr hpre
  rwa [List.takeWhile_append_dropWhile] at this

@[elab_as_elim]
theorem sub_induction {motive : List Char → Prop} (nil : motive [])
    (group : ∀ ds t, ds ≠ [] → (∀ d ∈ ds, digit d) → motive t → motive (ds ++ (statements ++ t)))
    (keep : ∀ c t, (∀ ds, ds ≠ [] → (∀ d ∈ ds, digit d) → ¬ds ++ statements <+: c :: t) →
      motive t → motive (c :: t)) (t : List Char) : motive t := by
  induction hn : t.length using Nat.strong_induction_on generalizing t with
  | _ n ih =>
    subst hn
    cases t with
    | nil => exact nil
    | cons c t =>
      by_cases hgroup : ∃ ds, ds ≠ [] ∧ (∀ d ∈ ds, digit d) ∧ ds ++ statements <+: c :: t
      · obtain ⟨ds, hne, hds, rest, hrest⟩ := hgroup
        rw [← hrest, List.append_assoc]
        refine group ds rest hne hds (ih rest.length ?_ rest rfl)
        rw [← hrest, List.length_append, List.length_append]
        have := List.length_pos_of_ne_nil hne
        omega
      · refine keep c t (fun ds hne hds hpre => hgroup ⟨ds, hne, hds, hpre⟩) ?_
        exact ih t.length (by simp) t rfl

theorem rewritten_sub (hspace : digit ' ' = false) (t : List Char) :
    Rewritten statements instrucoes t (sub digit t) := by
  induction t using sub_induction with
  | nil => exact .nil
  | group ds t hne hds ih =>
    rw [sub_group hspace hne hds]
    have hgroup : Rewritten statements instrucoes (statements ++ t) (instrucoes ++ sub digit t) :=
      .replace ih
    clear hne hds
    induction ds with
    | nil => exact hgroup
    | cons d ds hds => exact .keep d hds
  | keep c t h ih =>
    rw [sub_cons h]
    exact .keep c ih

theorem occurs_of_no_digit {a : List Char} (ha : ∀ c ∈ a, digit c = false)
    (h : occurs (numbered digit) (a ++ t)) : occurs (numbered digit) t := by
  induction a with
  | nil => exact h
  | cons c a ih =>
    rw [List.cons_append, occurs, numbered, begins_cons, ha c List.mem_cons_self, Bool.false_and,
      Bool.false_or] at h
    exact ih (fun d hd => ha d (List.mem_cons_of_mem c hd)) h

theorem not_prefix_instrucoes : ¬statements <+: instrucoes ++ t := by
  obtain ⟨v, hv⟩ : ∃ v, statements = ' ' :: 's' :: v := ⟨_, String.toList_ofList⟩
  obtain ⟨w, hw⟩ : ∃ w, instrucoes = ' ' :: 'i' :: w := ⟨_, String.toList_ofList⟩
  rw [hv, hw, List.cons_append, List.cons_append]
  simp

theorem not_occurs_sub (hdigit : ∀ c : Char, c.toNat < 256 → digit c = c.isDigit) (t : List Char) :
    ¬occurs (numbered digit) (sub digit t) := by
  obtain ⟨hspace, -⟩ := digit_of_latin hdigit
  induction t using sub_induction with
  | nil => exact Bool.false_ne_true
  | group ds t hne hds ih =>
    rw [sub_group hspace hne hds]
    clear hne
    induction ds with
    | nil =>
      exact fun h => ih (occurs_of_no_digit (no_digit_instrucoes hdigit) h)
    | cons d ds ihds =>
      rw [List.cons_append, occurs, Bool.or_eq_true, not_or]
      refine ⟨fun hbegins => ?_, ihds fun d hd => hds d (List.mem_cons_of_mem _ hd)⟩
      rw [numbered, begins_cons, Bool.and_eq_true, begins_literal] at hbegins
      cases ds with
      | nil => exact not_prefix_instrucoes hbegins.2
      | cons e ds =>
        obtain ⟨w, hw⟩ := statements_eq
        rw [hw, List.cons_append, List.cons_prefix_cons] at hbegins
        have he := hds e (by simp)
        rw [← hbegins.2.1, hspace] at he
        exact Bool.false_ne_true he
  | keep c t h ih =>
    rw [sub_cons h, occurs, Bool.or_eq_true, not_or]
    refine ⟨fun hbegins => ?_, ih⟩
    have := begins_cons_of_rewritten (inert_numbered hdigit mem_statements)
      (rewritten_sub hspace t) hbegins
    rw [numbered, begins_cons, Bool.and_eq_true, begins_literal] at this
    exact h [c] (by simp) (by simpa using this.1) ((List.prefix_cons_inj c).mpr this.2)

theorem sub_eq_self (h : ¬occurs (numbered digit) t) : sub digit t = t := by
  induction t with
  | nil => rfl
  | cons c t ih =>
    rw [sub_cons, ih fun hin => h (occurs_append_right (a := [c]) hin)]
    rintro ds hne hds ⟨rest, hrest⟩
    refine h (occurs_iff.mpr ⟨ds.dropLast, ds.getLast hne :: statements, rest, ?_, ?_⟩)
    · rw [← hrest, ← List.singleton_append (l := statements), ← List.append_assoc,
        List.dropLast_append_getLast]
    · rw [numbered, fits, hds _ (List.getLast_mem hne), Bool.true_and, fits_literal]

theorem newline_not_mem (hx : x ∈ steps) : '\n' ∉ x.1 ∧ '\n' ∉ x.2 ∧ '\r' ∉ x.2 := by
  obtain ⟨-, hold, hnew⟩ := sound_letters hx
  simp only [latin, List.all_eq_true, Bool.and_eq_true, decide_eq_true_eq] at hold hnew
  exact ⟨fun h => (hold _ h).1.2 rfl, fun h => (hnew _ h).1.2 rfl, fun h => (hnew _ h).2 rfl⟩

theorem sub_separated (hspace : digit ' ' = false) (hline : digit '\n' = false) (a b : List Char) :
    sub digit (a ++ '\n' :: b) = sub digit a ++ '\n' :: sub digit b := by
  -- No number with its text goes across the end of a line.
  have hsplit : ∀ {ds a : List Char}, (∀ d ∈ ds, digit d) →
      ds ++ statements <+: a ++ '\n' :: b → ds ++ statements <+: a := by
    rintro ds a hds ⟨s, hs⟩
    rcases List.append_eq_append_iff.mp hs with ⟨d, rfl, -⟩ | ⟨d, hd, hrest⟩
    · exact List.prefix_append _ d
    · cases d with
      | nil => exact ⟨[], by simpa using hd⟩
      | cons x d =>
        obtain ⟨rfl, -⟩ := List.cons.inj hrest
        have hmem : '\n' ∈ ds ++ statements := by simp [hd]
        rcases List.mem_append.mp hmem with hmem | hmem
        · exact absurd (hds _ hmem) (by simp [hline])
        · exact absurd hmem (newline_not_mem mem_statements).1
  induction a using sub_induction with
  | nil =>
    rw [List.nil_append, sub_cons fun ds hne hds hpre => hne ?_]
    · rfl
    · have := List.prefix_nil.mp (hsplit (a := []) hds hpre)
      exact (List.append_eq_nil_iff.mp this).1
  | group ds a hne hds ih =>
    rw [List.append_assoc, List.append_assoc, sub_group hspace hne hds,
      sub_group hspace hne hds, ih]
    simp
  | keep c a h ih =>
    have hkeep : ∀ ds, ds ≠ [] → (∀ d ∈ ds, digit d) →
        ¬ds ++ statements <+: c :: (a ++ '\n' :: b) :=
      fun ds hne hds hpre => h ds hne hds (hsplit (a := c :: a) hds hpre)
    rw [List.cons_append, sub_cons hkeep, ih, sub_cons h, List.cons_append]

end

/-! ## Texts -/

/-- No text of the frame is left that the program looks for. -/
def Translated (digit : Char → Bool) (text : String) : Prop :=
  (∀ x ∈ replacements, ¬x.1.toList <:+: text.toList) ∧
    ¬∃ d, digit d ∧ d :: statements <:+: text.toList

def lines (text : String) : List String := (text.toList.splitOn '\n').map String.ofList

section
variable {digit : Char → Bool} {text : String} {t : List Char} {x : List Char × List Char}

theorem translated_iff : Translated digit text ↔
    Absent searched text.toList ∧ ¬occurs (numbered digit) text.toList := by
  have hmem : (∀ x ∈ replacements, ¬x.1.toList <:+: text.toList) ↔ Absent searched text.toList := by
    simp only [Absent, searched, spelled, List.map_map, List.forall_mem_map]
    rfl
  refine and_congr hmem (not_congr ⟨?_, fun h => ?_⟩)
  · rintro ⟨d, hd, a, b, h⟩
    refine occurs_iff.mpr ⟨a, d :: statements, b, h.symm, ?_⟩
    rw [numbered, fits, hd, Bool.true_and, fits_literal]
  · obtain ⟨a, w, b, h, hw⟩ := occurs_iff.mp h
    cases w with
    | nil => exact absurd hw Bool.false_ne_true
    | cons d w =>
      rw [numbered, fits, Bool.and_eq_true, fits_literal] at hw
      obtain ⟨hd, rfl⟩ := hw
      exact ⟨d, hd, a, b, h.symm⟩

theorem translated_of_absent (hdigit : ∀ c : Char, c.toNat < 256 → digit c = c.isDigit)
    (h : Absent fragile text.toList) : Translated digit (translate digit text) := by
  obtain ⟨hfragile, hsearched⟩ := absent_replaced h
  have hsub := rewritten_sub (digit_of_latin hdigit).1 (replaced text.toList)
  rw [translated_iff, translate, String.toList_ofList]
  refine ⟨fun p hp hin => ?_, not_occurs_sub hdigit _⟩
  rw [← occurs_literal] at hin
  rcases occurs_of_rewritten (inert_searched hp mem_statements) hsub hin with hin | ⟨k, hk, hin⟩
  · exact hsearched p hp (occurs_literal.mp hin)
  · simp only [completes, Bool.and_eq_true, decide_eq_true_eq] at hk
    rw [drop_literal, literal, literal, ← List.map_append, ← literal, occurs_literal] at hin
    exact hfragile _ hk.2 hin

theorem absent_fragile_translate (hdigit : ∀ c : Char, c.toNat < 256 → digit c = c.isDigit)
    (text : String) : Absent fragile (translate digit text).toList := by
  intro f hf
  have hsub := rewritten_sub (digit_of_latin hdigit).1 (replaced text.toList)
  rw [translate, String.toList_ofList, ← occurs_literal]
  refine (inert_fragile hf mem_statements).absent hsub ?_
  rw [occurs_literal]
  exact absent_fragile_replaced _ f hf

theorem foldl_eq_self {l : List (List Char × List Char)} (h : ∀ x ∈ l, ¬x.1 <:+: t) :
    l.foldl (fun t x => replaceAll x.1 x.2 t) t = t := by
  induction l with
  | nil => rfl
  | cons x l ih =>
    rw [List.foldl_cons, replaceAll_eq_self (h x List.mem_cons_self)]
    exact ih fun y hy => h y (List.mem_cons_of_mem x hy)

theorem replaced_eq_self (h : Absent searched t) : replaced t = t := by
  rw [replaced_eq]
  exact foldl_eq_self fun x hx => h _ (List.mem_map_of_mem hx)

theorem translate_eq_self (h : Translated digit text) : translate digit text = text := by
  obtain ⟨hsearched, hnumbered⟩ := translated_iff.mp h
  rw [translate, replaced_eq_self hsearched, sub_eq_self hnumbered, String.ofList_toList]

/-- One run leaves nothing to translate in a page without fragile words, so a second run changes
nothing. -/
theorem translate_once (os : Platform) (h : ∀ w ∈ fragile, ¬w <:+: text.toList) :
    Translated os.isDecimal (translate os.isDecimal text) ∧
      translate os.isDecimal (translate os.isDecimal text) = translate os.isDecimal text :=
  have htranslated := translated_of_absent os.isDecimal_eq h
  ⟨htranslated, translate_eq_self htranslated⟩

/-- Two runs leave nothing to translate in any page: what the first one leaves, or makes, the second
one finds. -/
theorem translate_twice (os : Platform) (text : String) :
    Translated os.isDecimal (translate os.isDecimal (translate os.isDecimal text)) ∧
      translate os.isDecimal (translate os.isDecimal (translate os.isDecimal text)) =
        translate os.isDecimal (translate os.isDecimal text) := by
  have hfragile := absent_fragile_translate os.isDecimal_eq text
  have htranslated := translated_of_absent os.isDecimal_eq hfragile
  exact ⟨htranslated, translate_eq_self htranslated⟩

/-- Linux, with the digits of the first tables. -/
def posix : Platform := ⟨"\n", Char.isDigit, .inl rfl, fun _ _ => rfl⟩

theorem translate_once_created :
    Translated posix.isDecimal (translate posix.isDecimal "created at ") ∧
    translate posix.isDecimal (translate posix.isDecimal "created at ") =
      translate posix.isDecimal "created at " :=
  translate_once posix (by
    intro w hw hin
    have hlong : ∀ w ∈ fragile, decide (11 < w.length) := by
      apply forall_toList
      · iterate 14 apply map_toList_cons String.toList_ofList
        rfl
      · rfl
    exact absurd hin.length_le (by simpa using hlong w hw))

/-! ## Lines -/

theorem splitOn_foldl {l : List (List Char × List Char)} (hl : l ⊆ spelled) (t : List Char) :
    (l.foldl (fun t x => replaceAll x.1 x.2 t) t).splitOn '\n' =
      (t.splitOn '\n').map (l.foldl fun t x => replaceAll x.1 x.2 t) := by
  induction l generalizing t with
  | nil => simp
  | cons x l ih =>
    have hx := hl List.mem_cons_self
    obtain ⟨hold, hnew, -⟩ := newline_not_mem (mem_steps hx)
    have hne : x.1 ≠ [] := fun h => (inert_self hx).nonempty (by rw [h]; rfl)
    rw [List.foldl_cons, ih fun y hy => hl (List.mem_cons_of_mem x hy),
      splitOn_map (replaceAll_separated hne hold)
        (fun a ha => not_mem_of_rewritten hnew (rewritten_step hx a) ha), List.map_map]
    rfl

theorem splitOn_replaced (t : List Char) :
    (replaced t).splitOn '\n' = (t.splitOn '\n').map replaced := by
  rw [replaced_eq, splitOn_foldl (List.Subset.refl _)]
  exact List.map_congr_left fun a _ => (replaced_eq a).symm

/-- The lines of a page are translated one by one. -/
theorem lines_translate (os : Platform) (text : String) :
    lines (translate os.isDecimal text) = (lines text).map (translate os.isDecimal) := by
  obtain ⟨hspace, hline⟩ := digit_of_latin os.isDecimal_eq
  have hnew := (newline_not_mem mem_statements).2.1
  rw [lines, lines, translate, String.toList_ofList,
    splitOn_map (sub_separated hspace hline)
      (fun a ha => not_mem_of_rewritten hnew (rewritten_sub hspace a) ha), splitOn_replaced]
  simp [translate, Function.comp_def]

end

/-! ## Directories -/

section
variable {os : Platform} {dir : Dir} {path : String} {paths : List String} {text : String → String}

/-- The pages read as `text` says. -/
def Reads (dir : Dir) (paths : List String) (text : String → String) : Prop :=
  ∀ path ∈ paths, decodeText (dir path) = .ok (text path)

theorem return_not_mem_foldl {l : List (List Char × List Char)} (hl : l ⊆ spelled) {t : List Char}
    (ht : '\r' ∉ t) : '\r' ∉ l.foldl (fun t x => replaceAll x.1 x.2 t) t := by
  induction l generalizing t with
  | nil => exact ht
  | cons x l ih =>
    have hx := hl List.mem_cons_self
    refine ih (fun y hy => hl (List.mem_cons_of_mem x hy)) ?_
    exact not_mem_of_rewritten (newline_not_mem (mem_steps hx)).2.2 (rewritten_step hx t) ht

theorem return_not_mem_translate {content : ByteArray} {original : String}
    (h : decodeText content = .ok original) :
    '\r' ∉ (translate os.isDecimal original).toList := by
  have hsub := rewritten_sub (digit_of_latin os.isDecimal_eq).1 (replaced original.toList)
  rw [translate, String.toList_ofList]
  refine not_mem_of_rewritten (newline_not_mem mem_statements).2.2 hsub ?_
  rw [replaced_eq]
  exact return_not_mem_foldl (List.Subset.refl _) (return_not_mem_of_decodeText h)

theorem translateFile_ok {original : String} (h : decodeText (dir path) = .ok original) :
    ∃ dir', translateFile os path dir =
        (.ok (decide (translate os.isDecimal original ≠ original)), dir') ∧
      decodeText (dir' path) = .ok (translate os.isDecimal original) ∧
      (∀ q, q ≠ path → dir' q = dir q) ∧
      (translate os.isDecimal original = original → dir' = dir) := by
  rw [translateFile, h]
  dsimp only
  by_cases hsame : translate os.isDecimal original = original
  · refine ⟨dir, ?_, ?_, fun _ _ => rfl, fun _ => rfl⟩
    · rw [if_neg (not_not_intro hsame), decide_eq_false (not_not_intro hsame)]
    · rw [hsame, h]
  · refine ⟨Function.update dir path (encodeText os.linesep (translate os.isDecimal original)), ?_,
      ?_, fun q hq => Function.update_of_ne hq _ _, fun h => absurd h hsame⟩
    · rw [if_pos hsame, decide_eq_true hsame]
    · rw [Function.update_self]
      exact decodeText_encodeText os.linesep_eq (return_not_mem_translate h)

/-- A run over pages that can be read translates each of them and nothing else. -/
theorem translateFiles_ok (hnodup : paths.Nodup) (h : Reads dir paths text) (changed total : ℕ) :
    ∃ dir', translateFiles os paths changed total dir =
        (.ok (changed + paths.countP (fun p => translate os.isDecimal (text p) ≠ text p),
          total + paths.length), dir') ∧
      Reads dir' paths (fun p => translate os.isDecimal (text p)) ∧
      (∀ q ∉ paths, dir' q = dir q) ∧
      ((∀ p ∈ paths, translate os.isDecimal (text p) = text p) → dir' = dir) := by
  induction paths generalizing dir changed total with
  | nil => exact ⟨dir, rfl, nofun, fun _ _ => rfl, fun _ => rfl⟩
  | cons path paths ih =>
    obtain ⟨hnot, hnodup⟩ := List.nodup_cons.mp hnodup
    obtain ⟨dir₁, hrun, hread, hframe, hsame⟩ :=
      @translateFile_ok os _ _ _ (h path List.mem_cons_self)
    have hrest : Reads dir₁ paths text := fun p hp => by
      rw [hframe p fun he => hnot (he ▸ hp)]
      exact h p (List.mem_cons_of_mem path hp)
    have hstep : translateFiles os (path :: paths) changed total dir =
        translateFiles os paths
          (changed + if translate os.isDecimal (text path) ≠ text path then 1 else 0)
          (total + 1) dir₁ := by
      rw [translateFiles, Exec.bind_ok hrun]
      by_cases hc : translate os.isDecimal (text path) = text path <;> simp [hc]
    obtain ⟨dir₂, hruns, hreads, hframes, hsames⟩ := ih hnodup hrest
      (changed + if translate os.isDecimal (text path) ≠ text path then 1 else 0) (total + 1)
    refine ⟨dir₂, ?_, ?_, ?_, fun hall => ?_⟩
    · rw [hstep, hruns, List.countP_cons, List.length_cons]
      simp only [decide_eq_true_eq, Nat.add_assoc, Nat.add_comm 1,
        Nat.add_comm (if _ then 1 else 0)]
    · intro p hp
      rcases List.mem_cons.mp hp with rfl | hp
      · rw [hframes p hnot, hread]
      · exact hreads p hp
    · intro q hq
      rw [List.mem_cons, not_or] at hq
      rw [hframes q hq.2, hframe q hq.1]
    · rw [hsames fun p hp => hall p (List.mem_cons_of_mem path hp),
        hsame (hall path List.mem_cons_self)]

theorem translateFiles_append (as bs : List String) (changed total : ℕ) :
    translateFiles os (as ++ bs) changed total =
      translateFiles os as changed total >>= fun n => translateFiles os bs n.1 n.2 := by
  induction as generalizing changed total with
  | nil => rfl
  | cons path as ih =>
    rw [List.cons_append, translateFiles, translateFiles, Exec.bind_assoc]
    congr 1
    funext hchanged
    cases hchanged <;> exact ih _ _

/-- From the third run on no page is written, and nothing is left to translate. -/
theorem main_thrice (hnodup : paths.Nodup) (h : Reads dir paths text) :
    ∃ n₁ dir₁ n₂ dir₂, main os paths dir = (.ok (n₁, paths.length), dir₁) ∧
      main os paths dir₁ = (.ok (n₂, paths.length), dir₂) ∧
      main os paths dir₂ = (.ok (0, paths.length), dir₂) ∧
      ∀ path ∈ paths, ∃ text, decodeText (dir₂ path) = .ok text ∧ Translated os.isDecimal text := by
  obtain ⟨dir₁, hrun₁, hreads₁, -⟩ := translateFiles_ok hnodup h 0 0
  obtain ⟨dir₂, hrun₂, hreads₂, -⟩ := translateFiles_ok hnodup hreads₁ 0 0
  obtain ⟨dir₃, hrun₃, -, -, hsame⟩ := translateFiles_ok hnodup hreads₂ 0 0
  have hdone := fun p => translate_twice os (text p)
  rw [hsame fun p _ => (hdone p).2,
    List.countP_eq_zero.mpr fun p _ => by simp [(hdone p).2]] at hrun₃
  simp only [Nat.zero_add] at hrun₁ hrun₂ hrun₃
  exact ⟨_, dir₁, _, dir₂, hrun₁, hrun₂, hrun₃, fun p hp => ⟨_, hreads₂ p hp, (hdone p).1⟩⟩

theorem main_thrice_index : ∃ n₁ dir₁ n₂ dir₂,
    main posix ["index.html"] (fun _ => encodeText "\n" "created at ") = (.ok (n₁, 1), dir₁) ∧
      main posix ["index.html"] dir₁ = (.ok (n₂, 1), dir₂) ∧
      main posix ["index.html"] dir₂ = (.ok (0, 1), dir₂) ∧
      ∀ path ∈ ["index.html"], ∃ text, decodeText (dir₂ path) = .ok text ∧
        Translated posix.isDecimal text :=
  @main_thrice posix _ _ (fun _ => "created at ") (by simp) fun _ _ =>
    decodeText_encodeText (.inl rfl) (by simp)

/-- A page that is not UTF-8 ends the run: the pages before it are translated, nothing else is
touched. -/
theorem main_stops {before after : List String} (hnodup : before.Nodup) (hpath : path ∉ before)
    (h : Reads dir before text) {e : PyExc} (he : decodeText (dir path) = .error e) :
    ∃ dir', main os (before ++ path :: after) dir = (.raised e, dir') ∧
      Reads dir' before (fun p => translate os.isDecimal (text p)) ∧
      ∀ q ∉ before, dir' q = dir q := by
  obtain ⟨dir', hrun, hreads, hframe, -⟩ := translateFiles_ok hnodup h 0 0
  have hfile : translateFile os path dir' = (.raised e, dir') := by
    rw [translateFile, hframe path hpath, he]
    rfl
  refine ⟨dir', ?_, hreads, hframe⟩
  rw [main, translateFiles_append, Exec.bind_ok hrun, translateFiles, Exec.bind_raised hfile]

theorem main_stops_latin : ∃ dir',
    main posix (["index.html"] ++ "latin.html" :: ["style.html"]) (fun path =>
        if path = "latin.html" then ⟨#[0xe7]⟩ else encodeText "\n" "created at ") =
      (.raised .unicodeDecodeError, dir') ∧
      Reads dir' ["index.html"] (fun _ => translate posix.isDecimal "created at ") ∧
      ∀ q ∉ ["index.html"], dir' q =
        if q = "latin.html" then ⟨#[0xe7]⟩ else encodeText "\n" "created at " :=
  main_stops (by simp) (by simp)
    (fun path hp => by
      obtain rfl := List.mem_singleton.mp hp
      exact decodeText_encodeText (.inl rfl) (by simp))
    (by
      have hinvalid : ¬ByteArray.IsValidUTF8 ⟨#[0xe7]⟩ := by decide +kernel
      simp [decodeText, String.fromUTF8?, hinvalid])

end

end MutationTest.CoverageHtml

import Mathlib.Data.List.Dedup
import Mathlib.Data.List.Infix
import Mathlib.Tactic.Common

/-! # Replacing words in texts

A pattern is a list of classes of letters, one for each letter of the words that it fits. Replacing
a word `old` by `new` at some places of a text (`Rewritten`) can only make an occurrence of a
pattern where `new` overlaps it in a way `old` does not. Where it never does (`Inert`), every
occurrence in the result comes from one in the text (`occurs_of_rewritten`), so what a text does not
contain stays absent. The overlaps are finitely many and are checked by evaluation. -/

namespace Rewriting

variable {α : Type}

/-! ## Patterns -/

abbrev Pattern (α : Type) : Type := List (α → Bool)

/-- The word fits the pattern, letter by letter. -/
def fits : Pattern α → List α → Bool
  | [], [] => true
  | f :: p, c :: w => f c && fits p w
  | _, _ => false

def begins (p : Pattern α) (t : List α) : Bool := fits p (t.take p.length)

def ends (p : Pattern α) (t : List α) : Bool := fits p (t.drop (t.length - p.length))

/-- Some part of the text fits the pattern. -/
def occurs (p : Pattern α) : List α → Bool
  | [] => p.isEmpty
  | c :: t => begins p (c :: t) || occurs p t

/-- The pattern of one word. -/
def literal [DecidableEq α] (w : List α) : Pattern α := w.map fun c x => decide (x = c)

section
variable {p q : Pattern α} {f : α → Bool} {a b t w : List α} {c : α}

theorem length_of_fits (h : fits p w) : w.length = p.length := by
  induction p generalizing w with
  | nil => cases w <;> simp_all [fits]
  | cons f p ih =>
    cases w with
    | nil => simp [fits] at h
    | cons c w =>
      simp only [fits, Bool.and_eq_true] at h
      rw [List.length_cons, List.length_cons, ih h.2]

theorem fits_append (ha : fits p a) (hb : fits q b) : fits (p ++ q) (a ++ b) := by
  induction p generalizing a with
  | nil =>
    obtain rfl : a = [] := List.eq_nil_of_length_eq_zero (length_of_fits ha)
    exact hb
  | cons f p ih =>
    cases a with
    | nil => simp [fits] at ha
    | cons c a =>
      simp only [fits, Bool.and_eq_true] at ha
      simp only [List.cons_append, fits, Bool.and_eq_true]
      exact ⟨ha.1, ih ha.2⟩

theorem fits_split (h : fits p w) (k : ℕ) :
    fits (p.take k) (w.take k) ∧ fits (p.drop k) (w.drop k) := by
  induction p generalizing w k with
  | nil =>
    obtain rfl : w = [] := List.eq_nil_of_length_eq_zero (length_of_fits h)
    simp [fits]
  | cons f p ih =>
    cases w with
    | nil => simp [fits] at h
    | cons c w =>
      cases k with
      | zero => exact ⟨by simp [fits], by simpa using h⟩
      | succ k =>
        simp only [fits, Bool.and_eq_true] at h
        have := ih h.2 k
        simp only [List.take_succ_cons, List.drop_succ_cons, fits, Bool.and_eq_true]
        exact ⟨⟨h.1, this.1⟩, this.2⟩

theorem begins_iff : begins p t ↔ ∃ w rest, t = w ++ rest ∧ fits p w := by
  constructor
  · intro h
    exact ⟨t.take p.length, t.drop p.length, (List.take_append_drop _ t).symm, h⟩
  · rintro ⟨w, rest, rfl, hw⟩
    rw [begins, ← length_of_fits hw, List.take_left]
    exact hw

theorem ends_iff : ends p t ↔ ∃ rest w, t = rest ++ w ∧ fits p w := by
  constructor
  · intro h
    exact ⟨_, _, (List.take_append_drop (t.length - p.length) t).symm, h⟩
  · rintro ⟨rest, w, rfl, hw⟩
    rw [ends, ← length_of_fits hw, List.length_append, Nat.add_sub_cancel, List.drop_left]
    exact hw

theorem occurs_iff : occurs p t ↔ ∃ a w b, t = a ++ w ++ b ∧ fits p w := by
  induction t with
  | nil =>
    rw [occurs, List.isEmpty_iff]
    constructor
    · rintro rfl
      exact ⟨[], [], [], rfl, rfl⟩
    · rintro ⟨a, w, b, he, hw⟩
      obtain ⟨rfl, rfl⟩ := List.append_eq_nil_iff.mp (List.append_eq_nil_iff.mp he.symm).1
      exact List.eq_nil_of_length_eq_zero (length_of_fits hw).symm
  | cons c t ih =>
    rw [occurs, Bool.or_eq_true, ih, begins_iff]
    constructor
    · rintro (⟨w, b, he, hw⟩ | ⟨a, w, b, rfl, hw⟩)
      · exact ⟨[], w, b, he, hw⟩
      · exact ⟨c :: a, w, b, by simp, hw⟩
    · rintro ⟨a, w, b, he, hw⟩
      cases a with
      | nil => exact .inl ⟨w, b, he, hw⟩
      | cons x a =>
        obtain ⟨rfl, rfl⟩ := List.cons.inj he
        exact .inr ⟨a, w, b, by simp, hw⟩

theorem begins_cons : begins (f :: p) (c :: t) = (f c && begins p t) := by
  simp [begins, fits]

theorem begins_append (h : begins p a) : begins p (a ++ b) := by
  obtain ⟨w, rest, rfl, hw⟩ := begins_iff.mp h
  exact begins_iff.mpr ⟨w, rest ++ b, by simp, hw⟩

/-- A pattern at the beginning of `a ++ b` ends in `a` or goes beyond it. -/
theorem begins_append_iff : begins p (a ++ b) ↔
    p.length ≤ a.length ∧ begins p a ∨
      a.length < p.length ∧ fits (p.take a.length) a ∧ begins (p.drop a.length) b := by
  constructor
  · intro h
    rcases Nat.lt_or_ge a.length p.length with hlt | hle
    · refine .inr ⟨hlt, ?_⟩
      have hsplit := fits_split h a.length
      have htake : ((a ++ b).take p.length).take a.length = a := by
        rw [List.take_take, min_eq_left hlt.le, List.take_left]
      have hdrop : ((a ++ b).take p.length).drop a.length =
          b.take (p.drop a.length).length := by
        rw [List.drop_take, List.drop_left, List.length_drop]
      rwa [htake, hdrop] at hsplit
    · refine .inl ⟨hle, ?_⟩
      rwa [begins, List.take_append_of_le_length hle] at h
  · rintro (⟨-, h⟩ | ⟨hlt, ha, hb⟩)
    · exact begins_append h
    · obtain ⟨w, rest, rfl, hw⟩ := begins_iff.mp hb
      refine begins_iff.mpr ⟨a ++ w, rest, by simp, ?_⟩
      have := fits_append ha hw
      rwa [List.take_append_drop] at this

/-- An occurrence in `a ++ b` is in `a`, in `b`, or across. -/
theorem occurs_append (h : occurs p (a ++ b)) : occurs p a ∨ occurs p b ∨
    ∃ k, 0 < k ∧ k < p.length ∧ ends (p.take k) a ∧ begins (p.drop k) b := by
  induction a with
  | nil => exact .inr (.inl h)
  | cons c a ih =>
    rw [List.cons_append, occurs, Bool.or_eq_true] at h
    rcases h with h | h
    · rw [← List.cons_append, begins_append_iff] at h
      rcases h with ⟨-, h⟩ | ⟨hlt, hfits, hb⟩
      · exact .inl (by rw [occurs, h, Bool.true_or])
      · refine .inr (.inr ⟨_, Nat.succ_pos _, hlt, ?_, hb⟩)
        exact ends_iff.mpr ⟨[], _, rfl, hfits⟩
    · rcases ih h with h | h | ⟨k, hpos, hlt, hends, hb⟩
      · exact .inl (by rw [occurs, h, Bool.or_true])
      · exact .inr (.inl h)
      · obtain ⟨rest, w, rfl, hw⟩ := ends_iff.mp hends
        exact .inr (.inr ⟨k, hpos, hlt, ends_iff.mpr ⟨c :: rest, w, rfl, hw⟩, hb⟩)

theorem occurs_of_across {k : ℕ} (ha : ends (p.take k) a) (hb : begins (p.drop k) b) :
    occurs p (a ++ b) := by
  obtain ⟨rest, w, rfl, hw⟩ := ends_iff.mp ha
  obtain ⟨w', rest', rfl, hw'⟩ := begins_iff.mp hb
  refine occurs_iff.mpr ⟨rest, w ++ w', rest', by simp, ?_⟩
  have := fits_append hw hw'
  rwa [List.take_append_drop] at this

theorem occurs_append_right (h : occurs p b) : occurs p (a ++ b) := by
  obtain ⟨x, w, y, rfl, hw⟩ := occurs_iff.mp h
  exact occurs_iff.mpr ⟨a ++ x, w, y, by simp, hw⟩

theorem occurs_of_begins (h : begins p t) : occurs p t := by
  obtain ⟨w, rest, rfl, hw⟩ := begins_iff.mp h
  exact occurs_iff.mpr ⟨[], w, rest, rfl, hw⟩

variable [DecidableEq α]

@[simp] theorem length_literal : (literal a).length = a.length := List.length_map _

@[simp] theorem take_literal (k : ℕ) : (literal a).take k = literal (a.take k) :=
  (List.map_take).symm

@[simp] theorem drop_literal (k : ℕ) : (literal a).drop k = literal (a.drop k) :=
  (List.map_drop).symm

theorem fits_literal : fits (literal a) w ↔ w = a := by
  induction a generalizing w with
  | nil => cases w <;> simp [literal, fits]
  | cons c a ih =>
    cases w with
    | nil => simp [literal, fits]
    | cons x w =>
      have hstep : fits (literal (c :: a)) (x :: w) = (decide (x = c) && fits (literal a) w) := rfl
      rw [hstep, Bool.and_eq_true, ih, decide_eq_true_iff, List.cons.injEq]

theorem begins_literal : begins (literal a) t ↔ a <+: t := by
  rw [begins_iff]
  constructor
  · rintro ⟨w, rest, rfl, hw⟩
    rw [fits_literal.mp hw]
    exact List.prefix_append a rest
  · rintro ⟨rest, rfl⟩
    exact ⟨a, rest, rfl, fits_literal.mpr rfl⟩

theorem ends_literal : ends (literal a) t ↔ a <:+ t := by
  rw [ends_iff]
  constructor
  · rintro ⟨rest, w, rfl, hw⟩
    rw [fits_literal.mp hw]
    exact List.suffix_append rest a
  · rintro ⟨rest, rfl⟩
    exact ⟨rest, a, rfl, fits_literal.mpr rfl⟩

theorem occurs_literal : occurs (literal a) t ↔ a <:+: t := by
  rw [occurs_iff]
  constructor
  · rintro ⟨x, w, y, rfl, hw⟩
    rw [fits_literal.mp hw]
    exact ⟨x, y, rfl⟩
  · rintro ⟨x, y, rfl⟩
    exact ⟨x, a, y, rfl, fits_literal.mpr rfl⟩

end

/-! ## Rewriting -/

/-- The second text is the first one with `new` for `old` at some places. -/
inductive Rewritten (old new : List α) : List α → List α → Prop
  | nil : Rewritten old new [] []
  | keep (c : α) {t out : List α} : Rewritten old new t out → Rewritten old new (c :: t) (c :: out)
  | replace {t out : List α} : Rewritten old new t out → Rewritten old new (old ++ t) (new ++ out)

/-- The word and the pattern agree as far as both go. -/
def agree : Pattern α → List α → Bool
  | f :: p, c :: w => f c && agree p w
  | _, _ => true

/-- An overlap of `new` with a word of the pattern is one that `old` has too, or is one of the
`breaks`: the first letters of the word are made by the replacement. -/
structure Inert (breaks : ℕ → Bool) (p : Pattern α) (old new : List α) : Prop where
  nonempty : p ≠ []
  whole : ¬agree p new
  left : ∀ w, w <:+ new.tail → agree p w →
    w.length < p.length ∧ (ends (p.take w.length) old ∨ breaks w.length)
  right : ∀ q, q <:+ p.tail → agree q new → q.length ≤ new.length ∧ begins q old

/-- `Inert`, by evaluation. -/
def inert (breaks : ℕ → Bool) (p : Pattern α) (old new : List α) : Bool :=
  !p.isEmpty && !agree p new &&
    new.tail.tails.all (fun w => !agree p w ||
      decide (w.length < p.length) && (ends (p.take w.length) old || breaks w.length)) &&
    p.tail.tails.all fun q => !agree q new || decide (q.length ≤ new.length) && begins q old

theorem Inert.of_inert {breaks : ℕ → Bool} {p : Pattern α} {old new : List α}
    (h : inert breaks p old new) : Inert breaks p old new := by
  simp only [inert, Bool.and_eq_true, Bool.not_eq_true', List.all_eq_true, List.mem_tails,
    Bool.or_eq_true, decide_eq_true_eq, List.isEmpty_eq_false_iff] at h
  obtain ⟨⟨⟨hne, hwhole⟩, hleft⟩, hright⟩ := h
  exact ⟨hne, by simp [hwhole], fun w hw hagree => (hleft w hw).resolve_left (by simp [hagree]),
    fun q hq hagree => (hright q hq).resolve_left (by simp [hagree])⟩

section
variable {breaks : ℕ → Bool} {p : Pattern α} {old new t out w : List α}

theorem agree_of_begins (h : begins p w) : agree p w := by
  induction p generalizing w with
  | nil => rfl
  | cons f p ih =>
    cases w with
    | nil => rfl
    | cons c w =>
      rw [begins_cons, Bool.and_eq_true] at h
      rw [agree, Bool.and_eq_true]
      exact ⟨h.1, ih h.2⟩

theorem agree_head_congr {f g : α → Bool} (h : ∀ c ∈ w, f c = g c) :
    agree (f :: p) w = agree (g :: p) w := by
  cases w with
  | nil => rfl
  | cons c w => rw [agree, agree, h c List.mem_cons_self]

theorem fits_head_congr {f g : α → Bool} (h : ∀ c ∈ w, f c = g c) :
    fits (f :: p) w = fits (g :: p) w := by
  cases w with
  | nil => rfl
  | cons c w => rw [fits, fits, h c List.mem_cons_self]

theorem agree_literal [DecidableEq α] {a : List α} (h : w.length ≤ a.length) :
    agree (literal a) w ↔ w = a.take w.length := by
  induction a generalizing w with
  | nil =>
    obtain rfl : w = [] := List.eq_nil_of_length_eq_zero (Nat.le_zero.mp h)
    simp [literal, agree]
  | cons c a ih =>
    cases w with
    | nil => simp [literal, agree]
    | cons x w =>
      have hstep : agree (literal (c :: a)) (x :: w) =
          (decide (x = c) && agree (literal a) w) := rfl
      rw [hstep, Bool.and_eq_true, ih (Nat.le_of_succ_le_succ h), decide_eq_true_iff,
        List.length_cons, List.take_succ_cons, List.cons.injEq]

theorem agree_of_fits (h : fits (p.take w.length) w) : agree p w := by
  induction p generalizing w with
  | nil => rfl
  | cons f p ih =>
    cases w with
    | nil => rfl
    | cons c w =>
      rw [List.length_cons, List.take_succ_cons, fits, Bool.and_eq_true] at h
      rw [agree, Bool.and_eq_true]
      exact ⟨h.1, ih h.2⟩

/-! ### Many words and replacements -/

def startsWith [DecidableEq α] (c : α) : List α → Bool
  | [] => false
  | d :: _ => decide (d = c)

def heads [DecidableEq α] (words : List (List α)) : List α := (words.filterMap List.head?).dedup

/-- `inert` for all words and replacements; only parts that begin with the same letter are
compared. -/
def inertAll [DecidableEq α] (breaks : List α → List α → ℕ → Bool) (words : List (List α))
    (steps : List (List α × List α)) : Bool :=
  words.all (fun p => !p.isEmpty) && steps.all (fun x => !x.2.isEmpty) &&
    (words.all fun p => steps.all fun x => !agree (literal p) x.2) &&
    ((heads words).all fun c => steps.all fun x =>
      (x.2.tail.tails.filter (startsWith c)).all fun w => (words.filter (startsWith c)).all fun p =>
        !agree (literal p) w || decide (w.length < p.length) &&
          (ends (literal (p.take w.length)) x.1 || breaks p x.1 w.length)) &&
    (heads (steps.map (·.2))).all fun c => words.all fun p =>
      (p.tail.tails.filter (startsWith c)).all fun q =>
        (steps.filter fun x => startsWith c x.2).all fun x =>
          !agree (literal q) x.2 || decide (q.length ≤ x.2.length) && begins (literal q) x.1

theorem mem_heads [DecidableEq α] {words : List (List α)} {c : α} {w : List α}
    (h : c :: w ∈ words) : c ∈ heads words :=
  List.mem_dedup.mpr (List.mem_filterMap.mpr ⟨c :: w, h, rfl⟩)

theorem Inert.of_inertAll [DecidableEq α] {breaks : List α → List α → ℕ → Bool}
    {words : List (List α)} {steps : List (List α × List α)} (h : inertAll breaks words steps)
    {s : List α} (hs : s ∈ words) {x : List α × List α} (hx : x ∈ steps) :
    Inert (breaks s x.1) (literal s) x.1 x.2 := by
  simp only [inertAll, Bool.and_eq_true, List.all_eq_true, List.mem_filter, List.mem_tails,
    Bool.not_eq_true', List.isEmpty_eq_false_iff, Bool.or_eq_true, decide_eq_true_eq] at h
  obtain ⟨⟨⟨⟨hwords, hsteps⟩, hwhole⟩, hleft⟩, hright⟩ := h
  obtain ⟨c, s, rfl⟩ := List.exists_cons_of_ne_nil (hwords s hs)
  obtain ⟨d, n, hn⟩ := List.exists_cons_of_ne_nil (hsteps x hx)
  refine ⟨by simp [literal], by simp [hwhole _ hs x hx], fun w hw hagree => ?_,
    fun q hq hagree => ?_⟩
  · cases w with
    | nil => exact ⟨by simp, .inl (ends_iff.mpr ⟨x.1, [], by simp, rfl⟩)⟩
    | cons e w =>
      have he : e = c := by
        have : (decide (e = c) && agree (literal s) w) = true := hagree
        exact of_decide_eq_true ((Bool.and_eq_true _ _).mp this).1
      subst he
      have := (hleft e (mem_heads hs) x hx (e :: w) ⟨hw, by simp [startsWith]⟩ _
        ⟨hs, by simp [startsWith]⟩).resolve_left (by simp [hagree])
      rwa [length_literal, take_literal]
  · obtain ⟨q, hqs, rfl⟩ : ∃ r, r <:+ s ∧ q = literal r := by
      have hdrop := List.suffix_iff_eq_drop.mp hq
      exact ⟨_, List.drop_suffix _ s, hdrop.trans (drop_literal (a := s) _)⟩
    cases q with
    | nil => exact ⟨Nat.zero_le _, begins_iff.mpr ⟨[], x.1, rfl, rfl⟩⟩
    | cons e q =>
      have he : d = e := by
        rw [hn] at hagree
        have : (decide (d = e) && agree (literal q) n) = true := hagree
        exact of_decide_eq_true ((Bool.and_eq_true _ _).mp this).1
      subst he
      have := (hright d (mem_heads (List.mem_map.mpr ⟨x, hx, hn⟩)) _ hs (d :: q)
        ⟨hqs, by simp [startsWith]⟩ x ⟨hx, by simp [startsWith, hn]⟩).resolve_left
          (by simp [hagree])
      rwa [length_literal]

namespace Inert

/-- A word of the pattern that begins inside of `new` goes beyond it. -/
theorem outside (hp : Inert breaks p old new) : ¬occurs p new := by
  intro h
  obtain ⟨a, w, b, hnew, hw⟩ := occurs_iff.mp h
  have hbegins : begins p (w ++ b) := begins_iff.mpr ⟨w, b, rfl, hw⟩
  rw [List.append_assoc] at hnew
  cases a with
  | nil => exact hp.whole (hnew ▸ agree_of_begins hbegins)
  | cons c a =>
    have hlt := (hp.left (w ++ b) ⟨a, by rw [hnew]; rfl⟩ (agree_of_begins hbegins)).1
    rw [List.length_append, length_of_fits hw] at hlt
    omega

theorem ends_old (hp : Inert breaks p old new) {k : ℕ} (hk : k < p.length)
    (h : ends (p.take k) new) : ends (p.take k) old ∨ breaks k := by
  obtain ⟨a, w, rfl, hw⟩ := ends_iff.mp h
  have hlength : w.length = k := by
    rw [length_of_fits hw, List.length_take, min_eq_left hk.le]
  have hagree : agree p w := agree_of_fits (by rwa [hlength])
  cases a with
  | nil => exact absurd hagree hp.whole
  | cons c a => exact hlength ▸ (hp.left w (List.suffix_append a w) hagree).2

theorem begins_old (hp : Inert breaks p old new) {k : ℕ} (hpos : 0 < k)
    (h : begins (p.drop k) (new ++ out)) : begins (p.drop k) old := by
  have hsuffix : p.drop k <:+ p.tail := by
    rw [← List.drop_one]
    exact List.drop_suffix_drop_left p hpos
  rcases begins_append_iff.mp h with ⟨-, hnew⟩ | ⟨hlt, hfits, -⟩
  · exact (hp.right _ hsuffix (agree_of_begins hnew)).2
  · exact absurd (hp.right _ hsuffix (agree_of_fits hfits)).1 (Nat.not_le.mpr hlt)

end Inert

/-- What is left of a word of the pattern after its first letters is not begun by a
replacement. -/
theorem begins_of_rewritten (hp : Inert breaks p old new) (h : Rewritten old new t out) {k : ℕ}
    (hk : 0 < k) (hout : begins (p.drop k) out) : begins (p.drop k) t := by
  induction h generalizing k with
  | nil => exact hout
  | keep c _ ih =>
    rcases hd : p.drop k with _ | ⟨f, q⟩
    · simp [begins, fits]
    · have hq : q = p.drop (k + 1) := by
        rw [← List.drop_drop, hd, List.drop_one, List.tail_cons]
      rw [hd, begins_cons, Bool.and_eq_true] at hout
      rw [begins_cons, Bool.and_eq_true]
      subst hq
      exact ⟨hout.1, ih (Nat.succ_pos k) hout.2⟩
  | replace _ _ => exact begins_append (hp.begins_old hk hout)

theorem begins_cons_of_rewritten (hp : Inert breaks p old new) (h : Rewritten old new t out) {c : α}
    (hout : begins p (c :: out)) : begins p (c :: t) := by
  rcases hd : p with _ | ⟨f, q⟩
  · exact absurd hd hp.nonempty
  · have hq : q = p.drop 1 := by rw [hd]; rfl
    rw [hd, begins_cons, Bool.and_eq_true] at hout
    rw [begins_cons, Bool.and_eq_true]
    refine ⟨hout.1, ?_⟩
    have := hout.2
    rw [hq] at this ⊢
    exact begins_of_rewritten hp h Nat.one_pos this

/-- Every occurrence in the result comes from one in the text, unless a replacement completes the
word. -/
theorem occurs_of_rewritten [DecidableEq α] (hp : Inert breaks p old new)
    (h : Rewritten old new t out) (hout : occurs p out) :
    occurs p t ∨ ∃ k, breaks k ∧ occurs (literal old ++ p.drop k) t := by
  induction h with
  | nil => exact .inl hout
  | keep c hrest ih =>
    rw [occurs, Bool.or_eq_true] at hout
    rcases hout with hout | hout
    · exact .inl (occurs_of_begins (begins_cons_of_rewritten hp hrest hout))
    · exact (ih hout).imp (occurs_append_right (a := [c])) fun ⟨k, hk, hocc⟩ =>
        ⟨k, hk, occurs_append_right (a := [c]) hocc⟩
  | replace hrest ih =>
    rcases occurs_append hout with hnew | hout | ⟨k, hpos, hlt, hends, hbegins⟩
    · exact absurd hnew hp.outside
    · exact (ih hout).imp occurs_append_right fun ⟨k, hk, hocc⟩ =>
        ⟨k, hk, occurs_append_right hocc⟩
    · have hrest := begins_of_rewritten hp hrest hpos hbegins
      rcases hp.ends_old hlt hends with hends | hbreak
      · exact .inl (occurs_of_across hends hrest)
      · obtain ⟨w, rest, rfl, hw⟩ := begins_iff.mp hrest
        refine .inr ⟨k, hbreak, occurs_iff.mpr ⟨[], old ++ w, rest, by simp, ?_⟩⟩
        exact fits_append (fits_literal.mpr rfl) hw

theorem not_mem_of_rewritten {c : α} (hc : c ∉ new) (h : Rewritten old new t out)
    (ht : c ∉ t) : c ∉ out := by
  induction h with
  | nil => exact ht
  | keep d _ ih =>
    rw [List.mem_cons, not_or] at ht ⊢
    exact ⟨ht.1, ih ht.2⟩
  | replace _ ih =>
    rw [List.mem_append, not_or] at ht ⊢
    exact ⟨hc, ih ht.2⟩

namespace Inert

theorem mono {breaks' : ℕ → Bool} (hp : Inert breaks p old new)
    (h : ∀ k < p.length, breaks k → breaks' k) : Inert breaks' p old new :=
  ⟨hp.nonempty, hp.whole, fun w hw hagree =>
    have hleft := hp.left w hw hagree
    ⟨hleft.1, hleft.2.imp_right (h _ hleft.1)⟩, hp.right⟩

/-- What a text does not contain stays absent. -/
theorem absent [DecidableEq α] (hp : Inert (fun _ => false) p old new)
    (h : Rewritten old new t out) (ht : ¬occurs p t) : ¬occurs p out := fun hout =>
  (occurs_of_rewritten hp h hout).elim ht fun ⟨_, hbreak, _⟩ => Bool.false_ne_true hbreak

/-- Only the letters of the two words matter to the first class. -/
theorem congr_head {f g : α → Bool} (hp : Inert breaks (f :: p) old new)
    (h : ∀ c ∈ old ++ new, f c = g c) : Inert breaks (g :: p) old new where
  nonempty := by simp
  whole := by
    rw [← agree_head_congr fun c hc => h c (List.mem_append_right old hc)]
    exact hp.whole
  left w hw hagree := by
    have hnew : ∀ c ∈ w, f c = g c := fun c hc =>
      h c (List.mem_append_right old (List.mem_of_mem_tail (hw.subset hc)))
    rw [← agree_head_congr hnew] at hagree
    refine (hp.left w hw hagree).imp_right (Or.imp_left fun hends => ?_)
    cases w with
    | nil => exact hends
    | cons c w =>
      rw [List.length_cons, List.take_succ_cons, ends] at hends ⊢
      rwa [List.length_cons,
        ← fits_head_congr fun c hc => h c (List.mem_append_left new (List.mem_of_mem_drop hc))]
  right := hp.right

end Inert

end

/-! ## Replacing all occurrences -/

variable [DecidableEq α]

/-- From the left, without overlaps; the number counts the letters that are already replaced. -/
def replaceFrom (old new : List α) : ℕ → List α → List α
  | _, [] => []
  | n + 1, _ :: t => replaceFrom old new n t
  | 0, c :: t =>
    if old.isPrefixOf (c :: t) then new ++ replaceFrom old new (old.length - 1) t
    else c :: replaceFrom old new 0 t

/-- Every occurrence of `old`, which is not empty, replaced by `new`. -/
def replaceAll (old new t : List α) : List α := replaceFrom old new 0 t

section
variable {old new t : List α} {c : α}

theorem replaceFrom_eq (n : ℕ) (t : List α) :
    replaceFrom old new n t = replaceAll old new (t.drop n) := by
  induction t generalizing n with
  | nil => simp [replaceFrom, replaceAll]
  | cons c t ih =>
    cases n with
    | zero => rfl
    | succ n => rw [replaceFrom, ih, List.drop_succ_cons]

@[simp] theorem replaceAll_nil : replaceAll old new [] = [] := rfl

theorem replaceAll_append (hold : old ≠ []) (t : List α) :
    replaceAll old new (old ++ t) = new ++ replaceAll old new t := by
  obtain ⟨c, old, rfl⟩ := List.exists_cons_of_ne_nil hold
  have hpre : (c :: old).isPrefixOf (c :: (old ++ t)) :=
    List.isPrefixOf_iff_prefix.mpr (List.prefix_append (c :: old) t)
  rw [List.cons_append, replaceAll, replaceFrom, if_pos hpre, replaceFrom_eq]
  simp

theorem replaceAll_cons (h : ¬old <+: c :: t) :
    replaceAll old new (c :: t) = c :: replaceAll old new t := by
  rw [replaceAll, replaceFrom, if_neg (by simpa using h)]
  rfl

/-- A text is read from the left: an occurrence is replaced, and any other letter kept. -/
@[elab_as_elim]
theorem replaceAll_induction (hold : old ≠ []) {motive : List α → Prop} (nil : motive [])
    (replace : ∀ t, motive t → motive (old ++ t))
    (keep : ∀ c t, ¬old <+: c :: t → motive t → motive (c :: t)) (t : List α) : motive t := by
  induction hn : t.length using Nat.strong_induction_on generalizing t with
  | _ n ih =>
    subst hn
    cases t with
    | nil => exact nil
    | cons c t =>
      by_cases hpre : old <+: c :: t
      · obtain ⟨rest, hrest⟩ := hpre
        rw [← hrest]
        refine replace rest (ih rest.length ?_ rest rfl)
        rw [← hrest, List.length_append]
        have := List.length_pos_of_ne_nil hold
        omega
      · exact keep c t hpre (ih t.length (by simp) t rfl)

theorem rewritten_replaceAll (hold : old ≠ []) (t : List α) :
    Rewritten old new t (replaceAll old new t) := by
  induction t using replaceAll_induction hold with
  | nil => exact .nil
  | replace t ih =>
    rw [replaceAll_append hold]
    exact .replace ih
  | keep c t hpre ih =>
    rw [replaceAll_cons hpre]
    exact .keep c ih

/-- Lengths of the first parts of `old` that end `new`. -/
def overlapLengths (old new : List α) : List ℕ :=
  ((new.tail.tails.filter fun w => agree (literal old) w).map List.length).filter (0 < ·)

theorem mem_overlapLengths (hp : Inert (fun _ => false) (literal old) old new) {k : ℕ} :
    k ∈ overlapLengths old new ↔ 0 < k ∧ k < old.length ∧ old.take k <:+ new := by
  simp only [overlapLengths, List.mem_filter, List.mem_map, List.mem_tails, decide_eq_true_eq]
  constructor
  · rintro ⟨⟨w, ⟨hw, hagree⟩, rfl⟩, hpos⟩
    have hlt := (hp.left w hw hagree).1
    rw [length_literal] at hlt
    refine ⟨hpos, hlt, ?_⟩
    rw [← (agree_literal hlt.le).mp hagree]
    exact hw.trans (List.tail_suffix new)
  · rintro ⟨hpos, hlt, hsuffix⟩
    have hlength : (old.take k).length = k := by rw [List.length_take, min_eq_left hlt.le]
    have hagree : agree (literal old) (old.take k) :=
      (agree_literal (by omega)).mpr (by rw [hlength])
    refine ⟨⟨old.take k, ⟨?_, hagree⟩, hlength⟩, hpos⟩
    obtain ⟨rest, hrest⟩ := hsuffix
    cases rest with
    | nil => exact absurd (hrest ▸ hagree) hp.whole
    | cons c rest =>
      rw [← hrest]
      exact ⟨rest, rfl⟩

/-- An occurrence that is left over overlaps the one before it. -/
theorem overlaps_of_occurs (hp : Inert (fun _ => false) (literal old) old new)
    (h : old <:+: replaceAll old new t) :
    ∃ k ∈ overlapLengths old new, old ++ old.drop k <:+: t := by
  have hold : old ≠ [] := fun he => hp.nonempty (by rw [he]; rfl)
  rw [← occurs_literal] at h
  induction t using replaceAll_induction hold with
  | nil =>
    rw [replaceAll_nil, occurs_literal, List.infix_nil] at h
    exact absurd h hold
  | keep c t hpre ih =>
    rw [replaceAll_cons hpre, occurs, Bool.or_eq_true] at h
    rcases h with h | h
    · have := begins_cons_of_rewritten hp (rewritten_replaceAll hold t) h
      exact absurd (begins_literal.mp this) hpre
    · obtain ⟨k, hk, hin⟩ := ih h
      exact ⟨k, hk, hin.trans (List.suffix_cons c t).isInfix⟩
  | replace t ih =>
    rw [replaceAll_append hold] at h
    rcases occurs_append h with hnew | h | ⟨k, hpos, hlt, hends, hbegins⟩
    · exact absurd hnew hp.outside
    · obtain ⟨k, hk, hin⟩ := ih h
      exact ⟨k, hk, hin.trans (List.suffix_append old t).isInfix⟩
    · have hbegins := begins_of_rewritten hp (rewritten_replaceAll hold t) hpos hbegins
      rw [take_literal, ends_literal] at hends
      rw [drop_literal, begins_literal] at hbegins
      rw [length_literal] at hlt
      obtain ⟨rest, rfl⟩ := hbegins
      exact ⟨k, (mem_overlapLengths hp).mpr ⟨hpos, hlt, hends⟩, [], rest, by simp⟩

/-- The end of two overlapping occurrences, one letter or more after the first one begins, is begun
by no result: the second occurrence would have been replaced. -/
theorem not_drop_prefix_replaceAll (hp : Inert (fun _ => false) (literal old) old new) {v : List α}
    (hv : Inert (fun _ => false) (literal (v ++ old)) old new) {i : ℕ} (hpos : 0 < i)
    (hi : i ≤ v.length) : ¬(v ++ old).drop i <+: replaceAll old new t := by
  have hold : old ≠ [] := fun he => hp.nonempty (by rw [he]; rfl)
  have hdrop : (v ++ old).drop i = v.drop i ++ old := List.drop_append_of_le_length hi
  rw [hdrop]
  induction t using replaceAll_induction hold generalizing i with
  | nil => simp [hold]
  | replace t ih =>
    rw [replaceAll_append hold]
    intro hpre
    have hbegins : begins ((literal (v ++ old)).drop i) (new ++ replaceAll old new t) := by
      rw [drop_literal, hdrop]
      exact begins_literal.mpr hpre
    have hshort := hv.begins_old hpos hbegins
    rw [drop_literal, hdrop, begins_literal] at hshort
    have hlength := hshort.length_le
    have hnil : v.drop i = [] := by
      refine List.eq_nil_of_length_eq_zero ?_
      rw [List.length_append] at hlength
      omega
    rw [hnil, List.nil_append] at hpre
    rcases begins_append_iff.mp (begins_literal.mpr hpre) with ⟨-, h⟩ | ⟨-, h, -⟩
    · exact hp.whole (agree_of_begins h)
    · exact hp.whole (agree_of_fits h)
  | keep c t hnot ih =>
    rw [replaceAll_cons hnot]
    intro hpre
    rcases Nat.eq_or_lt_of_le hi with rfl | hlt
    · rw [List.drop_length, List.nil_append] at hpre
      have := begins_cons_of_rewritten hp (rewritten_replaceAll hold t) (begins_literal.mpr hpre)
      exact hnot (begins_literal.mp this)
    · rw [List.drop_eq_getElem_cons hlt, List.cons_append, List.cons_prefix_cons] at hpre
      exact ih (Nat.succ_pos i) hlt (List.drop_append_of_le_length hlt) hpre.2

/-- After one pass no two occurrences overlap: a second pass replaces all that the first one
left. -/
theorem not_overlap_replaceAll (hp : Inert (fun _ => false) (literal old) old new) {k : ℕ}
    (hk : k ∈ overlapLengths old new)
    (hshort : ∀ j ∈ overlapLengths old new, k + j ≤ old.length)
    (hf : Inert (fun _ => false) (literal (old ++ old.drop k)) old new) :
    ¬old ++ old.drop k <:+: replaceAll old new t := by
  have hold : old ≠ [] := fun he => hp.nonempty (by rw [he]; rfl)
  obtain ⟨hpos, hlt, hsuffix⟩ := (mem_overlapLengths hp).mp hk
  obtain ⟨v, hv⟩ : old.take k <:+ old := by
    have hends : ends ((literal old).take k) new := by
      rw [take_literal]
      exact ends_literal.mpr hsuffix
    have := (hp.ends_old (by rwa [length_literal]) hends).resolve_right Bool.false_ne_true
    rwa [take_literal, ends_literal] at this
  have hword : old ++ old.drop k = v ++ old := by
    calc old ++ old.drop k = v ++ old.take k ++ old.drop k := by rw [hv]
      _ = v ++ old := by rw [List.append_assoc, List.take_append_drop]
  have hlength : v.length + k = old.length := by
    have := congrArg List.length hv
    rwa [List.length_append, List.length_take, min_eq_left hlt.le] at this
  rw [hword] at hf
  rw [← occurs_literal, hword]
  induction t using replaceAll_induction hold with
  | nil =>
    rw [replaceAll_nil, occurs_literal, List.infix_nil]
    simp [hold]
  | keep c t hnot ih =>
    rw [replaceAll_cons hnot, occurs, Bool.or_eq_true, not_or]
    refine ⟨fun hbegins => hnot ?_, ih⟩
    have hpre : old <+: c :: replaceAll old new t :=
      (hword ▸ List.prefix_append old _ : old <+: v ++ old).trans (begins_literal.mp hbegins)
    exact begins_literal.mp
      (begins_cons_of_rewritten hp (rewritten_replaceAll hold t) (begins_literal.mpr hpre))
  | replace t ih =>
    rw [replaceAll_append hold]
    intro hocc
    rcases occurs_append hocc with hnew | hout | ⟨j, hjpos, -, hends, hbegins⟩
    · exact hf.outside hnew
    · exact ih hout
    · rw [take_literal, ends_literal] at hends
      rw [drop_literal, begins_literal] at hbegins
      rcases Nat.lt_or_ge v.length j with hj | hj
      · rcases Nat.lt_or_ge j old.length with hjlt | hjge
        · have heq : (v ++ old).take j = old.take j := by
            rw [← hword, List.take_append_of_le_length hjlt.le]
          rw [heq] at hends
          have := hshort j ((mem_overlapLengths hp).mpr ⟨hjpos, hjlt, hends⟩)
          omega
        · refine hp.outside (occurs_literal.mpr ?_)
          have hpre : old <+: (v ++ old).take j := by
            rw [← hword]
            exact List.prefix_take_iff.mpr ⟨List.prefix_append old _, hjge⟩
          exact hpre.isInfix.trans hends.isInfix
      · exact not_drop_prefix_replaceAll hp hf hjpos hj hbegins

/-- A text without the word is left as it is. -/
theorem replaceAll_eq_self (h : ¬old <:+: t) : replaceAll old new t = t := by
  induction t with
  | nil => rfl
  | cons c t ih =>
    have hpre : ¬old <+: c :: t := fun hpre => h hpre.isInfix
    rw [replaceAll_cons hpre, ih fun hin => h (hin.trans (List.suffix_cons c t).isInfix)]

/-- No occurrence goes across a letter that is not in the word. -/
theorem replaceAll_separated (hold : old ≠ []) (hc : c ∉ old) (a b : List α) :
    replaceAll old new (a ++ c :: b) = replaceAll old new a ++ c :: replaceAll old new b := by
  have hsplit : ∀ {a : List α}, old <+: a ++ c :: b → old <+: a := by
    rintro a ⟨s, hs⟩
    rcases List.append_eq_append_iff.mp hs with ⟨d, rfl, -⟩ | ⟨d, rfl, hd⟩
    · exact List.prefix_append old d
    · cases d with
      | nil => simp
      | cons x d =>
        obtain ⟨rfl, -⟩ := List.cons.inj hd
        simp at hc
  induction a using replaceAll_induction hold with
  | nil =>
    have hpre : ¬old <+: c :: b := fun hpre => hold (List.prefix_nil.mp (hsplit (a := []) hpre))
    rw [List.nil_append, replaceAll_cons hpre]
    rfl
  | replace a ih => rw [List.append_assoc, replaceAll_append hold, replaceAll_append hold, ih,
      List.append_assoc]
  | keep x a hpre ih =>
    have hpre' : ¬old <+: x :: (a ++ c :: b) := fun h => hpre (hsplit (a := x :: a) h)
    rw [List.cons_append, replaceAll_cons hpre', ih, replaceAll_cons hpre, List.cons_append]

end

/-- What treats the parts between two letters `c` apart treats each of them. -/
theorem splitOn_map {c : α} {f : List α → List α}
    (hsep : ∀ a b, f (a ++ c :: b) = f a ++ c :: f b) (hkeep : ∀ a, c ∉ a → c ∉ f a) (t : List α) :
    (f t).splitOn c = (t.splitOn c).map f := by
  induction hn : t.length using Nat.strong_induction_on generalizing t with
  | _ n ih =>
    subst hn
    by_cases ht : c ∈ t
    · obtain ⟨a, b, rfl⟩ := List.append_of_mem ht
      rw [hsep, List.splitOn_append_cons_self, List.splitOn_append_cons_self, List.map_append,
        ih a.length (by simp) a rfl, ih b.length (by simp; omega) b rfl]
    · rw [List.splitOn_eq_singleton ht, List.splitOn_eq_singleton (hkeep t ht), List.map_singleton]

end Rewriting

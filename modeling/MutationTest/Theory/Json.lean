import Mathlib.Data.List.DropRight
import Mathlib.Tactic.Common

/-! # JSON texts

A reader of JSON texts (`parse`). What it reads at the beginning of a text does not depend on what
follows (`reads_of_le`), so a text of which the end is missing is no JSON
(`parse_eq_none_of_append`). -/

namespace JsonText

/-! ## Tokens -/

def isSpace (c : Char) : Bool := c = ' ' ∨ c = '\t' ∨ c = '\n' ∨ c = '\r'

def skip (s : List Char) : List Char := s.dropWhile isSpace

/-- The characters that numbers are made of. -/
def isNumberChar (c : Char) : Bool := c.isDigit ∨ c = '-' ∨ c = '+' ∨ c = '.' ∨ c = 'e' ∨ c = 'E'

/-- The parts of a number: the digits before and after the point, and the exponent with its sign. -/
structure Parts where
  negative : Bool
  int : List Char
  point : Bool
  fraction : List Char
  mark : Option Char
  exponent : List Char

def parts (s : List Char) : Parts :=
  let unsigned := if s.head? = some '-' then s.tail else s
  let afterInt := unsigned.dropWhile Char.isDigit
  let decimals := if afterInt.head? = some '.' then afterInt.tail else []
  let afterFraction :=
    if afterInt.head? = some '.' then decimals.dropWhile Char.isDigit else afterInt
  { negative := s.head? = some '-'
    int := unsigned.takeWhile Char.isDigit
    point := afterInt.head? = some '.'
    fraction := decimals.takeWhile Char.isDigit
    mark := afterFraction.head?
    exponent := afterFraction.tail }

def isSign (c : Char) : Bool := c = '+' ∨ c = '-'

/-- The digits of an exponent. -/
def unsigned (s : List Char) : List Char := if s.head?.any isSign then s.tail else s

/-- The numbers of JSON: no leading zeros, and digits on both sides of a point. -/
def isNumber (s : List Char) : Bool :=
  let p := parts s
  p.int ≠ [] ∧ (p.int.head? = some '0' → p.int = ['0']) ∧ (p.point → p.fraction ≠ []) ∧
    (p.mark = none ∨ (p.mark = some 'e' ∨ p.mark = some 'E') ∧ unsigned p.exponent ≠ [] ∧
      (unsigned p.exponent).all Char.isDigit)

/-- A number, as it is written. -/
structure Number where
  text : List Char
  wf : isNumber text ∧ text.all isNumberChar

/-- What stands for a character in a string: the character, or a code unit of UTF-16. -/
inductive Item where
  | char (c : Char)
  | unit (n : ℕ)

def escaped? : Char → Option Char
  | '"' => some '"'
  | '\\' => some '\\'
  | '/' => some '/'
  | 'b' => some (Char.ofNat 8)
  | 'f' => some (Char.ofNat 12)
  | 'n' => some '\n'
  | 'r' => some '\r'
  | 't' => some '\t'
  | _ => none

def hexDigit? (c : Char) : Option ℕ :=
  if c.isDigit then some (c.toNat - 48)
  else if 'a' ≤ c ∧ c ≤ 'f' then some (c.toNat - 87)
  else if 'A' ≤ c ∧ c ≤ 'F' then some (c.toNat - 55)
  else none

def hex4? (a b c d : Char) : Option ℕ := do
  return (← hexDigit? a) * 4096 + (← hexDigit? b) * 256 + (← hexDigit? c) * 16 + (← hexDigit? d)

/-- A string up to its closing quote, and what follows. -/
def items : List Char → Option (List Item × List Char)
  | [] => none
  | '"' :: t => some ([], t)
  | '\\' :: 'u' :: a :: b :: c :: d :: t => do
    let n ← hex4? a b c d
    let (l, t) ← items t
    return (.unit n :: l, t)
  | '\\' :: e :: t => do
    let c ← escaped? e
    let (l, t) ← items t
    return (.char c :: l, t)
  | c :: t =>
    if c.toNat < 32 then none
    else do
      let (l, t) ← items t
      return (.char c :: l, t)

def isHigh (n : ℕ) : Bool := 0xD800 ≤ n ∧ n < 0xDC00

def isLow (n : ℕ) : Bool := 0xDC00 ≤ n ∧ n < 0xE000

/-- The characters of a string. A surrogate that has no other half is none. -/
def join : List Item → Option (List Char)
  | [] => some []
  | .char c :: l => (join l).map (c :: ·)
  | .unit n :: l =>
    if isHigh n then
      match l with
      | .unit m :: l =>
        if isLow m then
          (join l).map (Char.ofNat (0x10000 + (n - 0xD800) * 0x400 + (m - 0xDC00)) :: ·)
        else none
      | _ => none
    else if isLow n then none
    else (join l).map (Char.ofNat n :: ·)

/-- A string after its opening quote, and what follows. -/
def string? (s : List Char) : Option (String × List Char) := do
  let (l, t) ← items s
  return (String.ofList (← join l), t)

theorem items_cons {c : Char} (hquote : c ≠ '"') (hslash : c ≠ '\\') (hc : 32 ≤ c.toNat)
    (t : List Char) : items (c :: t) = (items t).map fun p => (.char c :: p.1, p.2) := by
  rw [items, if_neg (Nat.not_lt.mpr hc)]
  · cases items t <;> rfl
  · exact hquote
  · exact fun _ _ _ _ _ h _ => hslash h
  · exact fun _ _ h _ => hslash h

theorem join_unit {n : ℕ} (hhigh : ¬isHigh n) (hlow : ¬isLow n) (l : List Item) :
    join (.unit n :: l) = (join l).map (Char.ofNat n :: ·) := by
  rw [join.eq_def]
  simp only [hhigh, hlow]
  rfl

/-! ## Values -/

inductive Value where
  | null
  | bool (b : Bool)
  | number (n : Number)
  | string (s : String)
  | array (vs : List Value)
  | object (ms : List (String × Value))

def Value.isNumber : Value → Bool
  | .number _ => true
  | _ => false

def number? (s : List Char) : Option (Value × List Char) :=
  if h : JsonText.isNumber (s.takeWhile isNumberChar) ∧ (s.takeWhile isNumberChar).all isNumberChar
  then some (.number ⟨s.takeWhile isNumberChar, h⟩, s.dropWhile isNumberChar)
  else none

def word? : List Char → Option (Value × List Char)
  | 'n' :: 'u' :: 'l' :: 'l' :: t => some (.null, t)
  | 't' :: 'r' :: 'u' :: 'e' :: t => some (.bool true, t)
  | 'f' :: 'a' :: 'l' :: 's' :: 'e' :: t => some (.bool false, t)
  | _ => none

mutual

/-- A value at the beginning of a text, and what follows. -/
def value : ℕ → List Char → Option (Value × List Char)
  | 0, _ | _ + 1, [] => none
  | n + 1, c :: t =>
    if c = '"' then do
      let (s, t) ← string? t
      return (.string s, t)
    else if c = '[' then
      if (skip t).head? = some ']' then some (.array [], (skip t).tail)
      else do
        let (v, t) ← value n (skip t)
        let (vs, t) ← elements n t
        return (.array (v :: vs), t)
    else if c = '\x7b' then
      if (skip t).head? = some '\x7d' then some (.object [], (skip t).tail)
      else do
        let (m, t) ← member n (skip t)
        let (ms, t) ← members n t
        return (.object (m :: ms), t)
    else if isNumberChar c then number? (c :: t)
    else word? (c :: t)

/-- The rest of an array, after an element. -/
def elements : ℕ → List Char → Option (List Value × List Char)
  | 0, _ => none
  | n + 1, s =>
    match skip s with
    | ']' :: t => some ([], t)
    | ',' :: t => do
      let (v, t) ← value n (skip t)
      let (vs, t) ← elements n t
      return (v :: vs, t)
    | _ => none

/-- A name and a value. -/
def member : ℕ → List Char → Option ((String × Value) × List Char)
  | n + 1, '"' :: t => do
    let (k, t) ← string? t
    match skip t with
    | ':' :: t => do
      let (v, t) ← value n (skip t)
      return ((k, v), t)
    | _ => none
  | _, _ => none

/-- The rest of an object, after a member. -/
def members : ℕ → List Char → Option (List (String × Value) × List Char)
  | 0, _ => none
  | n + 1, s =>
    match skip s with
    | '\x7d' :: t => some ([], t)
    | ',' :: t => do
      let (m, t) ← member n (skip t)
      let (ms, t) ← members n t
      return (m :: ms, t)
    | _ => none

end

/-- The value of a whole text. Each step goes past a character, so the length is fuel enough. -/
def parse (s : List Char) : Option Value :=
  match value (s.length + 1) (skip s) with
  | some (v, t) => if skip t = [] then some v else none
  | none => none

/-! ## What follows -/

section
variable {s t r : List Char}

theorem skip_append {c : Char} (h : skip s = c :: r) : skip (s ++ t) = c :: (r ++ t) := by
  rw [skip] at h ⊢
  rw [List.dropWhile_append, h]
  rfl

theorem skip_append_of_ne_nil (h : skip s ≠ []) : skip (s ++ t) = skip s ++ t := by
  obtain ⟨c, r, hs⟩ := List.exists_cons_of_ne_nil h
  rw [skip_append hs, hs, List.cons_append]

theorem items_append {l : List Item} (h : items s = some (l, r)) :
    items (s ++ t) = some (l, r ++ t) := by
  fun_induction items s generalizing l with
  | case1 => cases h
  | case2 t' =>
    cases h
    rfl
  | case3 a b c d s ih =>
    simp only [Option.bind_eq_bind, Option.bind_eq_some_iff, Option.pure_def, Option.some.injEq,
      Prod.exists, Prod.mk.injEq] at h
    obtain ⟨n, hn, l', r', hs, rfl, rfl⟩ := h
    simp [items, hn, ih hs]
  | case4 e s hunit ih =>
    simp only [Option.bind_eq_bind, Option.bind_eq_some_iff, Option.pure_def, Option.some.injEq,
      Prod.exists, Prod.mk.injEq] at h
    obtain ⟨c, hc, l', r', hs, rfl, rfl⟩ := h
    have hu : e ≠ 'u' := by
      rintro rfl
      cases hc
    simp [items, hu, hc, ih hs]
  | case5 => cases h
  | case6 c s hquote hunit hescape hc ih =>
    simp only [Option.bind_eq_bind, Option.bind_eq_some_iff, Option.pure_def, Option.some.injEq,
      Prod.exists, Prod.mk.injEq] at h
    obtain ⟨l', r', hs, rfl, rfl⟩ := h
    have hslash : c ≠ '\\' := by
      rintro rfl
      cases s with
      | nil => cases hs
      | cons e s => exact hescape e s rfl rfl
    rw [List.cons_append, items_cons hquote hslash (Nat.not_lt.mp hc), ih hs]
    rfl

theorem string?_append {v : String} (h : string? s = some (v, r)) :
    string? (s ++ t) = some (v, r ++ t) := by
  simp only [string?, Option.bind_eq_bind, Option.bind_eq_some_iff, Option.pure_def,
    Option.some.injEq, Prod.exists, Prod.mk.injEq] at h
  obtain ⟨l, r', hl, v', hv, rfl, rfl⟩ := h
  simp [string?, items_append hl, hv]

theorem word?_append {v : Value} (h : word? s = some (v, r)) :
    word? (s ++ t) = some (v, r ++ t) := by
  unfold word? at h
  split at h <;> cases h <;> rfl

theorem number?_append {v : Value} (h : number? s = some (v, r)) (hr : r ≠ []) :
    number? (s ++ t) = some (v, r ++ t) := by
  unfold number? at h
  split at h
  next hwf =>
    obtain ⟨rfl, rfl⟩ := Prod.mk.inj (Option.some.inj h)
    have hne : ¬ (s.takeWhile isNumberChar).length = s.length := by
      intro hlen
      have hsplit := List.takeWhile_append_dropWhile (p := isNumberChar) (l := s)
      have hlength := congrArg List.length hsplit
      rw [List.length_append, hlen, Nat.add_eq_left] at hlength
      exact hr (List.eq_nil_of_length_eq_zero hlength)
    have htake : (s ++ t).takeWhile isNumberChar = s.takeWhile isNumberChar := by
      rw [List.takeWhile_append, if_neg hne]
    have hdrop : (s ++ t).dropWhile isNumberChar = s.dropWhile isNumberChar ++ t := by
      rw [List.dropWhile_append, if_neg (by simpa using hr)]
    simp [number?, htake, hdrop, hwf]
  next => cases h

end

/-- With the fuel `m`, and whatever is appended, the same is read as with the fuel `n`: a number
only if the end of the text is not its end. -/
structure Reads (n m : ℕ) : Prop where
  value : ∀ {s t r : List Char} {v : Value}, value n s = some (v, r) → r ≠ [] ∨ ¬v.isNumber →
    JsonText.value m (s ++ t) = some (v, r ++ t)
  elements : ∀ {s t r : List Char} {vs : List Value}, elements n s = some (vs, r) →
    JsonText.elements m (s ++ t) = some (vs, r ++ t)
  member : ∀ {s t r : List Char} {k : String × Value}, member n s = some (k, r) →
    r ≠ [] ∨ ¬k.2.isNumber → JsonText.member m (s ++ t) = some (k, r ++ t)
  members : ∀ {s t r : List Char} {ms : List (String × Value)}, members n s = some (ms, r) →
    JsonText.members m (s ++ t) = some (ms, r ++ t)

section
variable {n m : ℕ} {s t r : List Char}

theorem value_ne_nil {v : Value} (h : value n s = some (v, r)) : s ≠ [] := by
  rintro rfl
  cases n <;> cases h

theorem elements_ne_nil {vs : List Value} (h : elements n s = some (vs, r)) : s ≠ [] := by
  rintro rfl
  cases n <;> cases h

theorem member_ne_nil {k : String × Value} (h : member n s = some (k, r)) : s ≠ [] := by
  rintro rfl
  cases n <;> cases h

theorem members_ne_nil {ms : List (String × Value)} (h : members n s = some (ms, r)) :
    s ≠ [] := by
  rintro rfl
  cases n <;> cases h

namespace Reads

theorem value_succ (h : Reads n m) {v : Value} (hs : JsonText.value (n + 1) s = some (v, r))
    (hr : r ≠ [] ∨ ¬v.isNumber) : JsonText.value (m + 1) (s ++ t) = some (v, r ++ t) := by
  obtain ⟨c, s, rfl⟩ := List.exists_cons_of_ne_nil (value_ne_nil hs)
  rw [List.cons_append]
  simp only [JsonText.value] at hs ⊢
  split at hs
  next hc =>
    rw [if_pos hc]
    simp only [Option.bind_eq_bind, Option.bind_eq_some_iff, Option.pure_def, Option.some.injEq,
      Prod.exists, Prod.mk.injEq] at hs
    obtain ⟨l, r', hl, rfl, rfl⟩ := hs
    simp [string?_append hl]
  rw [if_neg ‹_›]
  split at hs
  next hc =>
    rw [if_pos hc]
    split at hs
    next hempty =>
      cases hs
      obtain ⟨r, hskip⟩ := List.head?_eq_some_iff.mp hempty
      rw [skip_append hskip, hskip]
      rfl
    next hitem =>
      simp only [Option.bind_eq_bind, Option.bind_eq_some_iff, Option.pure_def, Option.some.injEq,
        Prod.exists, Prod.mk.injEq] at hs
      obtain ⟨v, r', hv, vs, r'', hvs, rfl, rfl⟩ := hs
      have hskip := skip_append_of_ne_nil (t := t) (value_ne_nil hv)
      rw [hskip, List.head?_append_of_ne_nil _ (value_ne_nil hv), if_neg hitem,
        h.value hv (.inl (elements_ne_nil hvs))]
      simp [h.elements hvs]
  rw [if_neg ‹_›]
  split at hs
  next hc =>
    rw [if_pos hc]
    split at hs
    next hempty =>
      cases hs
      obtain ⟨r, hskip⟩ := List.head?_eq_some_iff.mp hempty
      rw [skip_append hskip, hskip]
      rfl
    next hitem =>
      simp only [Option.bind_eq_bind, Option.bind_eq_some_iff, Option.pure_def, Option.some.injEq,
        Prod.exists, Prod.mk.injEq] at hs
      obtain ⟨k, v, r', hk, ms, r'', hms, rfl, rfl⟩ := hs
      have hskip := skip_append_of_ne_nil (t := t) (member_ne_nil hk)
      rw [hskip, List.head?_append_of_ne_nil _ (member_ne_nil hk), if_neg hitem,
        h.member hk (.inl (members_ne_nil hms))]
      simp [h.members hms]
  rw [if_neg ‹_›]
  split at hs
  next hc =>
    rw [if_pos hc]
    refine number?_append hs (hr.resolve_right fun hv => hv ?_)
    unfold number? at hs
    split at hs
    · obtain ⟨rfl, -⟩ := Prod.mk.inj (Option.some.inj hs)
      rfl
    · cases hs
  next hc =>
    rw [if_neg hc]
    exact word?_append hs

theorem elements_succ (h : Reads n m) {vs : List Value}
    (hs : JsonText.elements (n + 1) s = some (vs, r)) :
    JsonText.elements (m + 1) (s ++ t) = some (vs, r ++ t) := by
  rw [JsonText.elements] at hs ⊢
  split at hs
  next hskip =>
    cases hs
    simp only [skip_append hskip]
  next hskip =>
    simp only [Option.bind_eq_bind, Option.bind_eq_some_iff, Option.pure_def, Option.some.injEq,
      Prod.exists, Prod.mk.injEq] at hs
    obtain ⟨v, r', hv, vs, r'', hvs, rfl, rfl⟩ := hs
    simp only [skip_append hskip, skip_append_of_ne_nil (value_ne_nil hv),
      h.value hv (.inl (elements_ne_nil hvs))]
    simp [h.elements hvs]
  next => cases hs

theorem member_succ (h : Reads n m) {k : String × Value}
    (hs : JsonText.member (n + 1) s = some (k, r)) (hr : r ≠ [] ∨ ¬k.2.isNumber) :
    JsonText.member (m + 1) (s ++ t) = some (k, r ++ t) := by
  unfold JsonText.member at hs
  split at hs
  next n' s' heq =>
    obtain rfl := Nat.succ.inj heq
    simp only [Option.bind_eq_bind, Option.bind_eq_some_iff, Prod.exists] at hs
    obtain ⟨l, r', hl, hs⟩ := hs
    split at hs
    next hskip =>
      simp only [Option.bind_eq_some_iff, Option.pure_def, Option.some.injEq, Prod.exists,
        Prod.mk.injEq] at hs
      obtain ⟨v, r'', hv, rfl, rfl⟩ := hs
      simp [JsonText.member, string?_append hl, skip_append hskip,
        skip_append_of_ne_nil (value_ne_nil hv), h.value hv hr]
    next => cases hs
  next => cases hs

theorem members_succ (h : Reads n m) {ms : List (String × Value)}
    (hs : JsonText.members (n + 1) s = some (ms, r)) :
    JsonText.members (m + 1) (s ++ t) = some (ms, r ++ t) := by
  rw [JsonText.members] at hs ⊢
  split at hs
  next hskip =>
    cases hs
    simp only [skip_append hskip]
  next hskip =>
    simp only [Option.bind_eq_bind, Option.bind_eq_some_iff, Option.pure_def, Option.some.injEq,
      Prod.exists, Prod.mk.injEq] at hs
    obtain ⟨k, v, r', hk, ms, r'', hms, rfl, rfl⟩ := hs
    simp only [skip_append hskip, skip_append_of_ne_nil (member_ne_nil hk),
      h.member hk (.inl (members_ne_nil hms))]
    simp [h.members hms]
  next => cases hs

end Reads

theorem reads_of_le (h : n ≤ m) : Reads n m := by
  induction n generalizing m with
  | zero => constructor <;> intros <;> contradiction
  | succ n ih =>
    obtain ⟨m, rfl⟩ : ∃ k, m = k + 1 := ⟨m - 1, by omega⟩
    have hnm : Reads n m := ih (Nat.le_of_succ_le_succ h)
    exact ⟨hnm.value_succ, hnm.elements_succ, hnm.member_succ, hnm.members_succ⟩

theorem skip_eq_nil_of_append (h : skip (s ++ t) = []) : skip t = [] := by
  simp only [skip, List.dropWhile_eq_nil_iff, List.mem_append] at h ⊢
  exact fun c hc => h c (.inr hc)

/-- The first character tells whether a value is a number. -/
theorem isNumber_of_value {c : Char} {v : Value} (h : value n (c :: s) = some (v, r)) :
    v.isNumber = isNumberChar c := by
  cases n with
  | zero => cases h
  | succ n =>
    simp only [value] at h
    split at h
    next hc =>
      simp only [Option.bind_eq_bind, Option.bind_eq_some_iff, Option.pure_def, Option.some.injEq,
        Prod.exists, Prod.mk.injEq] at h
      obtain ⟨a, t, -, rfl, -⟩ := h
      rw [hc]
      rfl
    split at h
    next hc =>
      rw [hc]
      split at h
      · cases h
        rfl
      · simp only [Option.bind_eq_bind, Option.bind_eq_some_iff, Option.pure_def, Option.some.injEq,
          Prod.exists, Prod.mk.injEq] at h
        obtain ⟨v, r', -, vs, r'', -, rfl, -⟩ := h
        rfl
    split at h
    next hc =>
      rw [hc]
      split at h
      · cases h
        rfl
      · simp only [Option.bind_eq_bind, Option.bind_eq_some_iff, Option.pure_def, Option.some.injEq,
          Prod.exists, Prod.mk.injEq] at h
        obtain ⟨k, v', r', -, ms, r'', -, rfl, -⟩ := h
        rfl
    split at h
    next hc =>
      rw [hc]
      unfold number? at h
      split at h <;> cases h
      rfl
    next hc =>
      unfold word? at h
      split at h <;> cases h <;> simp [Value.isNumber, hc]

/-- A text that lacks more than white space at its end is no JSON, unless it is a number. -/
theorem parse_eq_none_of_append {v : Value} (h : parse (s ++ t) = some v) (ht : skip t ≠ [])
    (hv : ¬v.isNumber) : parse s = none := by
  cases hs : parse s with
  | none => rfl
  | some w =>
    unfold parse at h hs
    split at hs
    next w' r hread =>
      split at h
      next v' r' hread' =>
        have hne := value_ne_nil hread
        rw [skip_append_of_ne_nil hne] at hread'
        obtain ⟨c, u, hskip⟩ := List.exists_cons_of_ne_nil hne
        split at h
        next hr' =>
          obtain rfl := Option.some.inj h
          have hw : ¬w'.isNumber := by
            rw [hskip] at hread hread'
            rwa [isNumber_of_value hread, ← isNumber_of_value hread']
          -- the two texts have the same value, and in both it ends at the same place
          have hlength : s.length + 1 ≤ (s ++ t).length + 1 := by simp
          rw [(reads_of_le hlength).value hread (.inr hw)] at hread'
          obtain ⟨-, rfl⟩ := Prod.mk.inj (Option.some.inj hread')
          exact absurd (skip_eq_nil_of_append hr') ht
        next => cases h
      next => cases h
    next => cases hs

end

end JsonText

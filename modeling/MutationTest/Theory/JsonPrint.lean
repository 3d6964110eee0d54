import MutationTest.Theory.Json
import Mathlib.Algebra.Field.Rat

/-! # Printed JSON

A printer of JSON whose layout and escapes are a parameter (`Style`). The reader gets back every
value that is printed (`parse_print`), and nothing from a part of the text that lacks its end
(`parse_eq_none_of_prefix`). A recoding of the white space changes the style only
(`Style.Recodes.print`). The numbers are natural numbers and decimals. -/

namespace JsonText

/-! ## Printing -/

/-- How texts are laid out: the white space before an element at a depth and after a colon, and what
stands for a character in a string. -/
structure Style where
  newline : ℕ → List Char
  space : List Char
  escape : Char → List Char
  item : Char → List Item
  isSpace_newline : ∀ d, (newline d).all isSpace
  isSpace_space : space.all isSpace
  items_escape : ∀ c t, items (escape c ++ t) = (items t).map fun p => (item c ++ p.1, p.2)
  join_item : ∀ c l, join (item c ++ l) = (join l).map (c :: ·)

def printString (σ : Style) (s : String) : List Char :=
  '"' :: (s.toList.flatMap σ.escape ++ ['"'])

mutual

/-- The text of a value, `d` levels deep. -/
def print (σ : Style) (d : ℕ) : Value → List Char
  | .null => ['n', 'u', 'l', 'l']
  | .bool true => ['t', 'r', 'u', 'e']
  | .bool false => ['f', 'a', 'l', 's', 'e']
  | .number n => n.text
  | .string s => printString σ s
  | .array [] => ['[', ']']
  | .array (v :: vs) => '[' :: (σ.newline (d + 1) ++ (print σ (d + 1) v ++ printElements σ d vs))
  | .object [] => ['\x7b', '\x7d']
  | .object (m :: ms) =>
    '\x7b' :: (σ.newline (d + 1) ++ (printMember σ (d + 1) m ++ printMembers σ d ms))

def printElements (σ : Style) (d : ℕ) : List Value → List Char
  | [] => σ.newline d ++ [']']
  | v :: vs => ',' :: (σ.newline (d + 1) ++ (print σ (d + 1) v ++ printElements σ d vs))

def printMember (σ : Style) (d : ℕ) : String × Value → List Char
  | (k, v) => printString σ k ++ ':' :: (σ.space ++ print σ d v)

def printMembers (σ : Style) (d : ℕ) : List (String × Value) → List Char
  | [] => σ.newline d ++ ['\x7d']
  | m :: ms => ',' :: (σ.newline (d + 1) ++ (printMember σ (d + 1) m ++ printMembers σ d ms))

end

section
variable {σ : Style} {d n : ℕ} {s t : List Char}

theorem skip_of_isSpace (hs : s.all isSpace) : skip (s ++ t) = skip t := by
  rw [skip, List.dropWhile_append_of_pos (fun c hc => List.all_eq_true.mp hs c hc), skip]

theorem skip_cons {c : Char} (hc : ¬isSpace c) : skip (c :: t) = c :: t :=
  List.dropWhile_cons_of_neg hc

theorem string?_flatMap (s : String) :
    string? (s.toList.flatMap σ.escape ++ '"' :: t) = some (s, t) := by
  have hitems (s : List Char) :
      items (s.flatMap σ.escape ++ '"' :: t) = some (s.flatMap σ.item, t) := by
    induction s with
    | nil => rfl
    | cons c s ih => simp [σ.items_escape, ih]
  have hjoin (s : List Char) : join (s.flatMap σ.item) = some s := by
    induction s with
    | nil => rfl
    | cons c s ih => simp [σ.join_item, ih]
  simp [string?, hitems, hjoin]

/-- A number ends here. -/
def Delimited (t : List Char) : Prop := ∀ c, t.head? = some c → ¬isNumberChar c

theorem delimited_cons {c : Char} (hc : ¬isNumberChar c) : Delimited (c :: t) := by
  intro c' h
  cases h
  exact hc

theorem not_isNumberChar_of_isSpace {c : Char} (hc : isSpace c) : ¬isNumberChar c := by
  simp only [isSpace, decide_eq_true_eq] at hc
  obtain rfl | rfl | rfl | rfl := hc <;> decide

theorem delimited_append {c : Char} (hs : s.all isSpace) (hc : ¬isNumberChar c) :
    Delimited (s ++ c :: t) := by
  cases s with
  | nil => exact delimited_cons hc
  | cons b s =>
    rw [List.all_cons, Bool.and_eq_true] at hs
    exact delimited_cons (not_isNumberChar_of_isSpace hs.1)

theorem delimited_printElements (vs : List Value) : Delimited (printElements σ d vs ++ t) := by
  cases vs with
  | nil =>
    rw [printElements, List.append_assoc]
    exact delimited_append (σ.isSpace_newline d) (by decide)
  | cons v vs => exact delimited_cons (by decide)

theorem delimited_printMembers (ms : List (String × Value)) :
    Delimited (printMembers σ d ms ++ t) := by
  cases ms with
  | nil =>
    rw [printMembers, List.append_assoc]
    exact delimited_append (σ.isSpace_newline d) (by decide)
  | cons v vs => exact delimited_cons (by decide)

theorem number?_text (x : Number) (ht : Delimited t) :
    number? (x.text ++ t) = some (.number x, t) := by
  have hall := List.all_eq_true.mp x.wf.2
  have ht' : t.takeWhile isNumberChar = [] ∧ t.dropWhile isNumberChar = t := by
    cases t with
    | nil => exact ⟨rfl, rfl⟩
    | cons c t =>
      exact ⟨List.takeWhile_cons_of_neg (ht c rfl), List.dropWhile_cons_of_neg (ht c rfl)⟩
  have htake : (x.text ++ t).takeWhile isNumberChar = x.text := by
    rw [List.takeWhile_append_of_pos hall, ht'.1, List.append_nil]
  have hdrop : (x.text ++ t).dropWhile isNumberChar = t := by
    rw [List.dropWhile_append_of_pos hall, ht'.2]
  simp only [number?, htake, hdrop, dif_pos x.wf]

theorem Number.exists_cons (x : Number) : ∃ c u, x.text = c :: u ∧ isNumberChar c := by
  obtain ⟨text, hnumber, hall⟩ := x
  cases text with
  | nil => cases hnumber
  | cons c u => exact ⟨c, u, rfl, List.all_eq_true.mp hall c (.head _)⟩

/-- A text begins with neither white space nor a closing bracket. -/
theorem print_exists_cons (v : Value) : ∃ c u, print σ d v = c :: u ∧ ¬isSpace c ∧ c ≠ ']' := by
  cases v with
  | null => exact ⟨_, _, rfl, by decide, by decide⟩
  | bool b => cases b <;> exact ⟨_, _, rfl, by decide, by decide⟩
  | number x =>
    obtain ⟨c, u, htext, hc⟩ := x.exists_cons
    refine ⟨c, u, htext, fun hspace => not_isNumberChar_of_isSpace hspace hc, ?_⟩
    rintro rfl
    cases hc
  | string s => exact ⟨_, _, rfl, by decide, by decide⟩
  | array vs => cases vs <;> exact ⟨_, _, rfl, by decide, by decide⟩
  | object ms => cases ms <;> exact ⟨_, _, rfl, by decide, by decide⟩

theorem skip_print (v : Value) : skip (print σ d v ++ t) = print σ d v ++ t := by
  obtain ⟨c, u, h, hspace, -⟩ := print_exists_cons (σ := σ) (d := d) v
  rw [h, List.cons_append, skip_cons hspace]

theorem skip_printMember (m : String × Value) :
    skip (printMember σ d m ++ t) = printMember σ d m ++ t := by
  rw [printMember, printString, List.cons_append, List.cons_append, skip_cons (by decide)]

end

mutual

/-- The reader gets back what is printed. -/
theorem value_print (σ : Style) (d : ℕ) (v : Value) {n : ℕ} {t : List Char}
    (hn : (print σ d v).length ≤ n) (ht : v.isNumber → Delimited t) :
    value n (print σ d v ++ t) = some (v, t) := by
  obtain ⟨n, rfl⟩ : ∃ k, n = k + 1 := by
    obtain ⟨c, u, h, -⟩ := print_exists_cons (σ := σ) (d := d) v
    rw [h, List.length_cons] at hn
    exact ⟨n - 1, by omega⟩
  cases v with
  | null => rfl
  | bool b => cases b <;> rfl
  | number x =>
    obtain ⟨c, u, htext, hc⟩ := x.exists_cons
    have hread := number?_text x (ht rfl)
    rw [htext, List.cons_append] at hread
    have hne : c ≠ '"' ∧ c ≠ '[' ∧ c ≠ '\x7b' := by
      refine ⟨?_, ?_, ?_⟩ <;> (rintro rfl; cases hc)
    rw [print, htext, List.cons_append, value, if_neg hne.1, if_neg hne.2.1, if_neg hne.2.2,
      if_pos hc, hread]
  | string s => simp [print, printString, value, string?_flatMap]
  | array vs =>
    cases vs with
    | nil => rfl
    | cons v vs =>
      simp only [print, List.length_cons, List.length_append] at hn
      have hv := value_print σ (d + 1) v (n := n) (t := printElements σ d vs ++ t) (by omega)
        fun _ => delimited_printElements vs
      have hvs := elements_print σ d vs (n := n) (t := t) (by omega)
      obtain ⟨c, u, h, -, hc⟩ := print_exists_cons (σ := σ) (d := d + 1) v
      have hhead : (print σ (d + 1) v ++ (printElements σ d vs ++ t)).head? ≠ some ']' := by
        rw [h]
        simpa using hc
      simp only [print, List.cons_append, List.append_assoc, value]
      rw [if_neg (by decide), if_pos trivial, skip_of_isSpace (σ.isSpace_newline (d + 1)),
        skip_print, if_neg hhead, hv]
      simp [hvs]
  | object ms =>
    cases ms with
    | nil => rfl
    | cons m ms =>
      simp only [print, List.length_cons, List.length_append] at hn
      have hm := member_print σ (d + 1) m (n := n) (t := printMembers σ d ms ++ t) (by omega)
        fun _ => delimited_printMembers ms
      have hms := members_print σ d ms (n := n) (t := t) (by omega)
      have hhead : (printMember σ (d + 1) m ++ (printMembers σ d ms ++ t)).head? ≠ some '\x7d' := by
        rw [printMember, printString]
        simp
      simp only [print, List.cons_append, List.append_assoc, value]
      rw [if_neg (by decide), if_neg (by decide), if_pos trivial,
        skip_of_isSpace (σ.isSpace_newline (d + 1)), skip_printMember,
        if_neg hhead, hm]
      simp [hms]

theorem elements_print (σ : Style) (d : ℕ) (vs : List Value) {n : ℕ} {t : List Char}
    (hn : (printElements σ d vs).length ≤ n) :
    elements n (printElements σ d vs ++ t) = some (vs, t) := by
  cases vs with
  | nil =>
    obtain ⟨n, rfl⟩ : ∃ k, n = k + 1 := by
      simp only [printElements, List.length_append, List.length_singleton] at hn
      exact ⟨n - 1, by omega⟩
    rw [printElements, List.append_assoc, elements, skip_of_isSpace (σ.isSpace_newline d)]
    rfl
  | cons v vs =>
    simp only [printElements, List.length_cons, List.length_append] at hn
    obtain ⟨n, rfl⟩ : ∃ k, n = k + 1 := ⟨n - 1, by omega⟩
    have hv := value_print σ (d + 1) v (n := n) (t := printElements σ d vs ++ t) (by omega)
      fun _ => delimited_printElements vs
    have hvs := elements_print σ d vs (n := n) (t := t) (by omega)
    simp only [printElements, List.cons_append, List.append_assoc, elements]
    rw [skip_cons (by decide)]
    simp only [skip_of_isSpace (σ.isSpace_newline (d + 1)), skip_print, hv]
    simp [hvs]

theorem member_print (σ : Style) (d : ℕ) (m : String × Value) {n : ℕ} {t : List Char}
    (hn : (printMember σ d m).length ≤ n) (ht : m.2.isNumber → Delimited t) :
    member n (printMember σ d m ++ t) = some (m, t) := by
  obtain ⟨k, v⟩ := m
  simp only [printMember, printString, List.length_cons, List.length_append] at hn
  obtain ⟨n, rfl⟩ : ∃ k, n = k + 1 := ⟨n - 1, by omega⟩
  have hv := value_print σ d v (n := n) (t := t) (by omega) ht
  simp only [printMember, printString, List.cons_append, List.append_assoc, List.nil_append,
    member, string?_flatMap, Option.bind_eq_bind, Option.bind_some]
  rw [skip_cons (by decide)]
  simp only [skip_of_isSpace σ.isSpace_space, skip_print, hv]
  rfl

theorem members_print (σ : Style) (d : ℕ) (ms : List (String × Value)) {n : ℕ} {t : List Char}
    (hn : (printMembers σ d ms).length ≤ n) :
    members n (printMembers σ d ms ++ t) = some (ms, t) := by
  cases ms with
  | nil =>
    obtain ⟨n, rfl⟩ : ∃ k, n = k + 1 := by
      simp only [printMembers, List.length_append, List.length_singleton] at hn
      exact ⟨n - 1, by omega⟩
    rw [printMembers, List.append_assoc, members, skip_of_isSpace (σ.isSpace_newline d)]
    rfl
  | cons m ms =>
    simp only [printMembers, List.length_cons, List.length_append] at hn
    obtain ⟨n, rfl⟩ : ∃ k, n = k + 1 := ⟨n - 1, by omega⟩
    have hm := member_print σ (d + 1) m (n := n) (t := printMembers σ d ms ++ t) (by omega)
      fun _ => delimited_printMembers ms
    have hms := members_print σ d ms (n := n) (t := t) (by omega)
    simp only [printMembers, List.cons_append, List.append_assoc, members]
    rw [skip_cons (by decide)]
    simp only [skip_of_isSpace (σ.isSpace_newline (d + 1)), skip_printMember, hm]
    simp [hms]

end

/-- A text that was printed has the value that it was printed from. -/
theorem parse_print (σ : Style) (v : Value) : parse (print σ 0 v) = some v := by
  have hread := value_print σ 0 v (n := (print σ 0 v).length + 1) (t := []) (by omega)
    fun _ _ h => nomatch h
  rw [List.append_nil] at hread
  have hskip := skip_print (σ := σ) (d := 0) (t := []) v
  rw [List.append_nil] at hskip
  rw [parse, hskip, hread]
  rfl

section
variable {σ : Style} {d : ℕ}

theorem getLast?_printElements (vs : List Value) : (printElements σ d vs).getLast? = some ']' := by
  induction vs with
  | nil => simp [printElements]
  | cons v vs ih => simp [printElements, List.getLast?_cons, ih]

theorem getLast?_printMembers (ms : List (String × Value)) :
    (printMembers σ d ms).getLast? = some '\x7d' := by
  induction ms with
  | nil => simp [printMembers]
  | cons m ms ih => simp [printMembers, List.getLast?_cons, ih]

theorem print_getLast? {v : Value} (hv : ¬v.isNumber) :
    ∃ c, (print σ d v).getLast? = some c ∧ ¬isSpace c := by
  cases v with
  | null => exact ⟨_, rfl, by decide⟩
  | bool b => cases b <;> exact ⟨_, rfl, by decide⟩
  | number x => exact absurd rfl hv
  | string s => exact ⟨'"', by simp [print, printString, List.getLast?_cons], by decide⟩
  | array vs =>
    cases vs with
    | nil => exact ⟨_, rfl, by decide⟩
    | cons v vs =>
      exact ⟨']', by simp [print, List.getLast?_cons, getLast?_printElements], by decide⟩
  | object ms =>
    cases ms with
    | nil => exact ⟨_, rfl, by decide⟩
    | cons m ms =>
      exact ⟨'\x7d', by simp [print, List.getLast?_cons, getLast?_printMembers], by decide⟩

/-- What is left of a printed text, if its end is missing, is no JSON. -/
theorem parse_eq_none_of_prefix {v : Value} (hv : ¬v.isNumber) {s : List Char}
    (h : s <+: print σ 0 v) (hne : s ≠ print σ 0 v) : parse s = none := by
  obtain ⟨t, ht⟩ := h
  have htne : t ≠ [] := by
    rintro rfl
    exact hne (ht ▸ (List.append_nil s).symm)
  refine parse_eq_none_of_append (ht ▸ parse_print σ v) (fun hskip => ?_) hv
  obtain ⟨c, hlast, hc⟩ := print_getLast? (σ := σ) (d := 0) hv
  rw [← ht, List.getLast?_append_of_ne_nil _ htne] at hlast
  exact hc (List.dropWhile_eq_nil_iff.mp hskip c (List.mem_of_getLast? hlast))

end

/-! ## Line ends -/

/-- A recoding of characters that changes nothing but white space. -/
structure Style.Recodes (f : Char → List Char) (σ σ' : Style) : Prop where
  newline : ∀ d, (σ.newline d).flatMap f = σ'.newline d
  space : σ.space.flatMap f = σ'.space
  escape : ∀ c, (σ.escape c).flatMap f = σ'.escape c
  other : ∀ c, ¬isSpace c → f c = [c]

namespace Style.Recodes
variable {f : Char → List Char} {σ σ' : Style}

theorem flatMap_eq (h : Recodes f σ σ') {s : List Char} (hs : s.all fun c => !isSpace c) :
    s.flatMap f = s := by
  induction s with
  | nil => rfl
  | cons c s ih =>
    rw [List.all_cons, Bool.and_eq_true] at hs
    rw [List.flatMap_cons, h.other c (by simpa using hs.1), ih hs.2, List.singleton_append]

theorem printString (h : Recodes f σ σ') (s : String) :
    (JsonText.printString σ s).flatMap f = JsonText.printString σ' s := by
  simp [JsonText.printString, List.flatMap_assoc, h.other '"' (by decide), h.escape]

mutual

theorem print (h : Recodes f σ σ') (d : ℕ) (v : Value) :
    (JsonText.print σ d v).flatMap f = JsonText.print σ' d v := by
  cases v with
  | null => exact h.flatMap_eq (s := ['n', 'u', 'l', 'l']) (by decide)
  | bool b =>
    cases b with
    | false => exact h.flatMap_eq (s := ['f', 'a', 'l', 's', 'e']) (by decide)
    | true => exact h.flatMap_eq (s := ['t', 'r', 'u', 'e']) (by decide)
  | number x =>
    have hall : ∀ c ∈ x.text, isNumberChar c := List.all_eq_true.mp x.wf.2
    refine h.flatMap_eq (List.all_eq_true.mpr fun c hc => ?_)
    simpa using fun hspace => not_isNumberChar_of_isSpace hspace (hall c hc)
  | string s => exact h.printString s
  | array vs =>
    cases vs with
    | nil => simp [JsonText.print, h.other '[' (by decide), h.other ']' (by decide)]
    | cons v vs =>
      simp [JsonText.print, h.other '[' (by decide), h.newline, h.print (d + 1) v,
        h.printElements d vs]
  | object ms =>
    cases ms with
    | nil => simp [JsonText.print, h.other '\x7b' (by decide), h.other '\x7d' (by decide)]
    | cons m ms =>
      simp [JsonText.print, h.other '\x7b' (by decide), h.newline, h.printMember (d + 1) m,
        h.printMembers d ms]

theorem printElements (h : Recodes f σ σ') (d : ℕ) (vs : List Value) :
    (JsonText.printElements σ d vs).flatMap f = JsonText.printElements σ' d vs := by
  cases vs with
  | nil => simp [JsonText.printElements, h.other ']' (by decide), h.newline]
  | cons v vs =>
    simp [JsonText.printElements, h.other ',' (by decide), h.newline, h.print (d + 1) v,
      h.printElements d vs]

theorem printMember (h : Recodes f σ σ') (d : ℕ) (m : String × Value) :
    (JsonText.printMember σ d m).flatMap f = JsonText.printMember σ' d m := by
  obtain ⟨k, v⟩ := m
  simp [JsonText.printMember, h.printString, h.other ':' (by decide), h.space, h.print d v]

theorem printMembers (h : Recodes f σ σ') (d : ℕ) (ms : List (String × Value)) :
    (JsonText.printMembers σ d ms).flatMap f = JsonText.printMembers σ' d ms := by
  cases ms with
  | nil => simp [JsonText.printMembers, h.other '\x7d' (by decide), h.newline]
  | cons m ms =>
    simp [JsonText.printMembers, h.other ',' (by decide), h.newline, h.printMember (d + 1) m,
      h.printMembers d ms]

end

end Style.Recodes

/-! ## Numbers -/

namespace Number

/-- The integer that is written in digits only. -/
def nat? (x : Number) : Option ℕ :=
  if x.text.all Char.isDigit then some (Nat.ofDigitChars 10 x.text 0) else none

def exponent (p : Parts) : ℤ :=
  (if p.exponent.head? = some '-' then -1 else 1) * Nat.ofDigitChars 10 (unsigned p.exponent) 0

def toRat (x : Number) : ℚ :=
  let p := parts x.text
  (if p.negative then -1 else 1) * Nat.ofDigitChars 10 (p.int ++ p.fraction) 0 *
    10 ^ (exponent p - p.fraction.length)

theorem isDigit_toDigits (n : ℕ) : ∀ c ∈ Nat.toDigits 10 n, c.isDigit := fun _ hc =>
  Nat.isDigit_of_mem_toDigits (by decide) (by decide) hc

theorem isNumberChar_of_isDigit {c : Char} (hc : c.isDigit) : isNumberChar c := by
  simp [isNumberChar, hc]

/-- No leading zeros. -/
theorem toDigits_head? (n : ℕ) :
    (Nat.toDigits 10 n).head? ≠ some '0' ∨ Nat.toDigits 10 n = ['0'] := by
  induction n using Nat.strong_induction_on with
  | h n ih =>
    rcases Nat.lt_or_ge n 10 with hlt | hge
    · rw [Nat.toDigits_of_lt_base hlt]
      rw [List.head?_cons, Ne, Option.some.injEq]
      exact (ne_or_eq n.digitChar '0').imp id fun h => by rw [h]
    · have hpos : 0 < n / 10 := by omega
      rw [Nat.toDigits_of_base_le (by decide) hge,
        List.head?_append_of_ne_nil _ Nat.toDigits_ne_nil]
      refine .inl ((ih (n / 10) (by omega)).resolve_right fun hzero => ?_)
      have hvalue := Nat.ofDigitChars_ten_toDigits (n := n / 10)
      rw [hzero] at hvalue
      exact absurd hvalue hpos.ne

theorem parts_digits {int t : List Char} (hne : int ≠ []) (hint : ∀ c ∈ int, c.isDigit)
    (ht : ∀ c, t.head? = some c → ¬c.isDigit) :
    parts (int ++ t) =
      { negative := false
        int := int
        point := t.head? = some '.'
        fraction := (if t.head? = some '.' then t.tail else []).takeWhile Char.isDigit
        mark := (if t.head? = some '.' then t.tail.dropWhile Char.isDigit else t).head?
        exponent := (if t.head? = some '.' then t.tail.dropWhile Char.isDigit else t).tail } := by
  obtain ⟨c, int, rfl⟩ := List.exists_cons_of_ne_nil hne
  have hc : c ≠ '-' := by
    rintro rfl
    exact absurd (hint '-' (.head _)) (by decide)
  have ht' : t.takeWhile Char.isDigit = [] ∧ t.dropWhile Char.isDigit = t := by
    cases t with
    | nil => exact ⟨rfl, rfl⟩
    | cons c t =>
      exact ⟨List.takeWhile_cons_of_neg (ht c rfl), List.dropWhile_cons_of_neg (ht c rfl)⟩
  have htake : (c :: int ++ t).takeWhile Char.isDigit = c :: int := by
    rw [List.takeWhile_append_of_pos hint, ht'.1, List.append_nil]
  have hdrop : (c :: int ++ t).dropWhile Char.isDigit = t := by
    rw [List.dropWhile_append_of_pos hint, ht'.2]
  have hhead : (c :: int ++ t).head? ≠ some '-' := by simpa using hc
  simp only [parts, hhead, ↓reduceIte, htake, hdrop, decide_false]
  split <;> rfl

theorem parts_int {int : List Char} (hne : int ≠ []) (hint : ∀ c ∈ int, c.isDigit) :
    parts int = ⟨false, int, false, [], none, []⟩ := by
  have h := parts_digits (t := []) hne hint fun c hc => nomatch hc
  rwa [List.append_nil] at h

theorem parts_decimal {int fraction : List Char} (hne : int ≠ []) (hint : ∀ c ∈ int, c.isDigit)
    (hfraction : ∀ c ∈ fraction, c.isDigit) :
    parts (int ++ '.' :: fraction) = ⟨false, int, true, fraction, none, []⟩ := by
  have hpoint : ∀ c, ('.' :: fraction).head? = some c → ¬c.isDigit := by
    intro c hc
    cases hc
    decide
  have htake : fraction.takeWhile Char.isDigit = fraction :=
    List.takeWhile_eq_self_iff.mpr hfraction
  have hdrop : fraction.dropWhile Char.isDigit = [] := List.dropWhile_eq_nil_iff.mpr hfraction
  rw [parts_digits hne hint hpoint]
  simp [htake, hdrop]

/-- A natural number without leading zeros. -/
def ofNat (n : ℕ) : Number where
  text := Nat.toDigits 10 n
  wf := by
    refine ⟨?_, List.all_eq_true.mpr fun c hc => isNumberChar_of_isDigit (isDigit_toDigits n c hc)⟩
    simpa [isNumber, parts_int Nat.toDigits_ne_nil (isDigit_toDigits n), Nat.toDigits_ne_nil]
      using toDigits_head? n

/-- A natural number, a point and decimals. -/
def ofDecimals (n : ℕ) (fraction : List Char) (hne : fraction ≠ [])
    (hfraction : ∀ c ∈ fraction, c.isDigit) : Number where
  text := Nat.toDigits 10 n ++ '.' :: fraction
  wf := by
    have hparts := parts_decimal Nat.toDigits_ne_nil (isDigit_toDigits n) hfraction
    refine ⟨by simpa [isNumber, hparts, Nat.toDigits_ne_nil, hne] using toDigits_head? n, ?_⟩
    simp only [List.all_append, List.all_cons, Bool.and_eq_true, List.all_eq_true]
    exact ⟨fun c hc => isNumberChar_of_isDigit (isDigit_toDigits n c hc), by decide,
      fun c hc => isNumberChar_of_isDigit (hfraction c hc)⟩

theorem nat?_ofNat (n : ℕ) : (ofNat n).nat? = some n := by
  have hall : (Nat.toDigits 10 n).all Char.isDigit := List.all_eq_true.mpr (isDigit_toDigits n)
  simp [nat?, ofNat, hall]

theorem toRat_ofDecimals (n : ℕ) {fraction : List Char} (hne : fraction ≠ [])
    (hfraction : ∀ c ∈ fraction, c.isDigit) :
    (ofDecimals n fraction hne hfraction).toRat =
      (10 ^ fraction.length * n + Nat.ofDigitChars 10 fraction 0 : ℕ) / 10 ^ fraction.length := by
  have hparts := parts_decimal Nat.toDigits_ne_nil (isDigit_toDigits n) hfraction
  have hvalue : Nat.ofDigitChars 10 (Nat.toDigits 10 n ++ fraction) 0 =
      10 ^ fraction.length * n + Nat.ofDigitChars 10 fraction 0 := by
    rw [Nat.ofDigitChars_append, Nat.ofDigitChars_ten_toDigits,
      Nat.ofDigitChars_eq_ofDigitChars_zero]
  simp [toRat, ofDecimals, hparts, exponent, unsigned, hvalue, zpow_neg, div_eq_mul_inv]

end Number

end JsonText

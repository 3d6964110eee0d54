import MutationTest.DigestAuth

/-! # The header of the digest client

What the client writes into `Authorization` is a list of pairs (`digestHeader_eq`), and where no
text in it has a comma, or begins or ends with a quote, the server reads these pairs out of it
(`parseAuthorizationPairs_written`). -/

namespace MutationTest.DigestAuth
open Http Handler

/-! ## Pairs -/

section
variable {p : Char → Bool} {l s r : List Char}

theorem dropWhile_ends (hl : ∀ c ∈ l, p c) (hs : ∀ c, s.head? = some c → p c = false) :
    (l ++ s).dropWhile p = s := by
  rw [List.dropWhile_append_of_pos hl]
  cases s with
  | nil => rfl
  | cons c s => rw [List.dropWhile_cons_of_neg (by simp [hs c rfl])]

/-- What is around a text goes, up to the first characters of it that stay. -/
theorem strip_ends (hl : ∀ c ∈ l, p c) (hr : ∀ c ∈ r, p c)
    (hhead : ∀ c, s.head? = some c → p c = false) (hlast : ∀ c, s.getLast? = some c → p c = false) :
    strip p (String.ofList (l ++ s ++ r)) = String.ofList s := by
  rw [strip, String.toList_ofList]
  congr 1
  by_cases hne : s = []
  · have hall : ∀ c ∈ l ++ r, p c := fun c hc => (List.mem_append.mp hc).elim (hl c) (hr c)
    rw [hne, List.append_nil, List.dropWhile_eq_nil_iff.mpr hall, List.rdropWhile_nil]
  · have hleft : (l ++ s ++ r).dropWhile p = s ++ r := by
      rw [List.append_assoc]
      refine dropWhile_ends hl fun c hc => hhead c ?_
      rwa [List.head?_append_of_ne_nil _ hne] at hc
    have hright : (r.reverse ++ s.reverse).dropWhile p = s.reverse :=
      dropWhile_ends (fun c hc => hr c (List.mem_reverse.mp hc))
        fun c hc => hlast c (by rwa [List.head?_reverse] at hc)
    rw [hleft, List.rdropWhile, List.reverse_append, hright, List.reverse_reverse]

theorem strip_self (hhead : ∀ c, s.head? = some c → p c = false)
    (hlast : ∀ c, s.getLast? = some c → p c = false) :
    strip p (String.ofList s) = String.ofList s := by
  have h := strip_ends (l := []) (r := []) (by simp) (by simp) hhead hlast
  rwa [List.nil_append, List.append_nil] at h

end

/-- A name and a value, as they stand on either side of `=`. -/
structure Pair where
  name : List Char
  value : List Char

namespace Pair

def text (x : Pair) : List Char := x.name ++ '=' :: x.value

/-- The pair comes apart again where it was put together. -/
structure Separable (x : Pair) : Prop where
  name : x.name ≠ [] ∧ ∀ c ∈ x.name, isSpace c = false ∧ c ≠ '=' ∧ c ≠ ','
  comma : ',' ∉ x.value
  head : ∀ c, x.value.head? = some c → isSpace c = false
  last : ∀ c, x.value.getLast? = some c → isSpace c = false
  value : x.value ≠ []

end Pair

def rendered (pairs : List Pair) : String :=
  String.ofList ([',', ' '].intercalate (pairs.map Pair.text))

/-- A blank after a separator belongs to what follows. -/
theorem intercalate_blank (c d : Char) (l : List Char) (ls : List (List Char)) :
    [c, d].intercalate (l :: ls) = [c].intercalate (l :: ls.map (d :: ·)) := by
  induction ls generalizing l with
  | nil => rfl
  | cons l' ls ih =>
    rw [List.intercalate_cons_cons, ih, List.map_cons, List.intercalate_cons_cons]
    cases ls <;> simp [List.intercalate_cons_cons]

/-- The loop body of `parse_authorization_pairs`. -/
def readItem (item : String) : Option (String × String) :=
  let item := strip isSpace item
  if '=' ∈ item.toList then
    let (key, value) := partition item '='
    some (strip isSpace key, strip (· = '"') (strip isSpace value))
  else none

theorem parseAuthorizationPairs_eq (headerValue : String) : parseAuthorizationPairs headerValue =
    dict ((split (partition headerValue ' ').2 ',').filterMap readItem) := rfl

/-- What a pair is read as. -/
def Pair.read (x : Pair) : String × String :=
  (String.ofList x.name, strip (· = '"') (String.ofList x.value))

theorem Pair.Separable.readItem {x : Pair} (h : x.Separable) {l : List Char}
    (hl : ∀ c ∈ l, isSpace c) : readItem (String.ofList (l ++ x.text)) = some x.read := by
  obtain ⟨name, value⟩ := x
  obtain ⟨⟨hne, hname⟩, hcomma, hhead, hlast, hvalue⟩ := h
  have hitem : strip isSpace (String.ofList (l ++ text ⟨name, value⟩)) =
      String.ofList (name ++ '=' :: value) := by
    have h := strip_ends (p := isSpace) (l := l) (s := text ⟨name, value⟩) (r := []) hl (by simp)
      (fun c hc => ?_) (fun c hc => ?_)
    · rwa [List.append_nil] at h
    · obtain ⟨d, name, rfl⟩ := List.exists_cons_of_ne_nil hne
      obtain rfl : d = c := by simpa [text] using hc
      exact (hname d List.mem_cons_self).1
    · refine hlast c ?_
      rw [← hc, text, List.getLast?_append_of_ne_nil _ (List.cons_ne_nil _ _)]
      exact (List.getLast?_cons_of_ne_nil hvalue).symm
  have hkey : ∀ c ∈ name, decide (c ≠ '=') := fun c hc => decide_eq_true (hname c hc).2.1
  have hpartition : partition (String.ofList (name ++ '=' :: value)) '=' =
      (String.ofList name, String.ofList value) := by
    rw [partition, String.toList_ofList, List.takeWhile_append_of_pos hkey,
      List.dropWhile_append_of_pos hkey]
    simp
  have hstrip : strip isSpace (String.ofList name) = String.ofList name :=
    strip_self (fun c hc => (hname c (List.mem_of_mem_head? hc)).1)
      fun c hc => (hname c (List.mem_of_getLast? hc)).1
  simp only [DigestAuth.readItem, hitem, hpartition, hstrip, strip_self hhead hlast]
  simp [Pair.read]

theorem Pair.Separable.comma_notMem {x : Pair} (h : x.Separable) : ',' ∉ x.text := by
  rw [text, List.mem_append, List.mem_cons]
  rintro (hc | hc | hc)
  · exact (h.name.2 _ hc).2.2 rfl
  · exact absurd hc (by decide)
  · exact h.comma hc

theorem partition_scheme (s : String) : (partition ("Digest " ++ s) ' ').2 = s := by
  have hscheme : "Digest ".toList = ['D', 'i', 'g', 'e', 's', 't', ' '] := String.toList_ofList
  rw [partition, String.toList_append, hscheme]
  simp

theorem parseAuthorizationPairs_rendered {pairs : List Pair} (hne : pairs ≠ [])
    (h : ∀ x ∈ pairs, x.Separable) :
    parseAuthorizationPairs ("Digest " ++ rendered pairs) = dict (pairs.map Pair.read) := by
  obtain ⟨x, pairs, rfl⟩ := List.exists_cons_of_ne_nil hne
  obtain ⟨hx, hpairs⟩ := List.forall_mem_cons.mp h
  have hsplit : ([','].intercalate (x.text :: (pairs.map Pair.text).map (' ' :: ·))).splitOn ',' =
      x.text :: (pairs.map Pair.text).map (' ' :: ·) := by
    refine List.splitOn_intercalate _ ?_ (List.cons_ne_nil _ _)
    rw [List.map_map, List.forall_mem_cons, List.forall_mem_map]
    refine ⟨hx.comma_notMem, fun y hy => ?_⟩
    rw [Function.comp_apply, List.mem_cons, not_or]
    exact ⟨by decide, (hpairs y hy).comma_notMem⟩
  have hfirst : readItem (String.ofList x.text) = some x.read := hx.readItem (l := []) (by simp)
  have hrest : (pairs.map fun y => String.ofList (' ' :: y.text)).filterMap readItem =
      pairs.map Pair.read := by
    rw [List.filterMap_map, ← List.filterMap_eq_map]
    refine List.filterMap_congr fun y hy => ?_
    rw [Function.comp_apply, Function.comp_apply]
    exact (hpairs y hy).readItem (l := [' ']) (by simp [isSpace])
  rw [parseAuthorizationPairs_eq, partition_scheme, rendered, List.map_cons, intercalate_blank,
    split, String.toList_ofList, hsplit, List.map_cons, List.filterMap_cons_some hfirst,
    List.map_map, List.map_map, List.map_cons]
  exact congrArg (fun l => dict (x.read :: l)) hrest

theorem dict_of_nodup {α : Type} {pairs : List (String × α)} (h : (pairs.map (·.1)).Nodup) :
    dict pairs = pairs := by
  have hstep : ∀ d : List (String × α), (d ++ pairs).map (·.1) |>.Nodup →
      pairs.foldl (fun d x => setItem d x.1 x.2) d = d ++ pairs := by
    intro d hd
    induction pairs generalizing d with
    | nil => simp
    | cons x pairs ih =>
      have hnew : d.any (·.1 = x.1) = false := by
        simp only [List.map_append, List.map_cons, List.nodup_append] at hd
        rw [List.any_eq_false]
        intro y hy he
        exact hd.2.2 y.1 (List.mem_map_of_mem hy) x.1 List.mem_cons_self (of_decide_eq_true he)
      rw [List.foldl_cons, setItem, hnew, if_neg Bool.false_ne_true, ih (List.nodup_cons.mp h).2]
      · simp
      · simpa using hd
  exact hstep [] h

/-! ## Texts between quotes -/

/-- A text that comes back from between two quotes. -/
structure Clean (s : String) : Prop where
  latin : IsLatin1 s.toList
  line : OneLine s.toList
  comma : ',' ∉ s.toList
  head : s.toList.head? ≠ some '"'
  last : s.toList.getLast? ≠ some '"'

def hexDigits : List Char :=
  ['0', '1', '2', '3', '4', '5', '6', '7', '8', '9', 'a', 'b', 'c', 'd', 'e', 'f']

def IsHex (s : String) : Prop := ∀ c ∈ s.toList, c ∈ hexDigits

theorem hexDigits_spec : ∀ c ∈ hexDigits, c.toNat < 256 ∧ c ≠ '\r' ∧ c ≠ '\n' ∧ c ≠ ',' ∧ c ≠ '"' ∧
    isSpace c = false := by
  simp [hexDigits, isSpace]

theorem IsHex.clean {s : String} (h : IsHex s) : Clean s where
  latin c hc := (hexDigits_spec c (h c hc)).1
  line := ⟨fun hc => (hexDigits_spec _ (h _ hc)).2.1 rfl,
    fun hc => (hexDigits_spec _ (h _ hc)).2.2.1 rfl⟩
  comma hc := (hexDigits_spec _ (h _ hc)).2.2.2.1 rfl
  head hc := (hexDigits_spec _ (h _ (List.mem_of_mem_head? hc))).2.2.2.2.1 rfl
  last hc := (hexDigits_spec _ (h _ (List.mem_of_getLast? hc))).2.2.2.2.1 rfl

theorem toDigits_subset_hexDigits (n : ℕ) : Nat.toDigits 16 n ⊆ hexDigits := by
  have hdigit : ∀ d < 16, Nat.digitChar d ∈ hexDigits := by decide
  induction n using Nat.strongRecOn with
  | ind n ih =>
    rw [Nat.toDigits_eq_if (by omega)]
    split
    next hlt => simpa using hdigit n hlt
    next hge =>
      refine List.append_subset.mpr ⟨ih _ (Nat.div_lt_self (by omega) (by omega)), ?_⟩
      simpa using hdigit _ (Nat.mod_lt n (by omega))

theorem isHex_hexText (width n : ℕ) : IsHex (hexText width n) := by
  intro c hc
  rw [hexText, String.toList_ofList, List.mem_append] at hc
  rcases hc with hc | hc
  · rw [List.eq_of_mem_replicate hc]
    decide
  · exact toDigits_subset_hexDigits n hc

theorem isHex_hex8 (n : ℕ) : IsHex (hex8 n) := isHex_hexText 8 n

theorem hex8_ne_nil (n : ℕ) : (hex8 n).toList ≠ [] := by
  rw [hex8, hexText, String.toList_ofList]
  exact List.append_ne_nil_of_right_ne_nil _ Nat.toDigits_ne_nil

/-! ## Headers -/

def quoted (s : String) : List Char := '"' :: (s.toList ++ ['"'])

/-- What the client writes for the challenge of the server. -/
def written (username path response nc cnonce : String) : List Pair :=
  [⟨"username".toList, quoted username⟩, ⟨"realm".toList, quoted digestRealm⟩,
    ⟨"nonce".toList, quoted digestNonce⟩, ⟨"uri".toList, quoted path⟩,
    ⟨"response".toList, quoted response⟩, ⟨"qop".toList, quoted "auth"⟩,
    ⟨"nc".toList, nc.toList⟩, ⟨"cnonce".toList, quoted cnonce⟩]

theorem digestHeader_eq (username path response nc cnonce : String) :
    digestHeader username digestRealm digestNonce path response none none (some "auth") nc cnonce =
      "Digest " ++ rendered (written username path response nc cnonce) := by
  apply String.toList_inj.mp
  simp [digestHeader, rendered, written, quoted, Pair.text, List.intercalate_cons_cons, toString]

theorem Clean.strip_quoted {s : String} (h : Clean s) :
    strip (· = '"') (String.ofList (quoted s)) = s := by
  have hstrip := strip_ends (p := (· = '"')) (l := ['"']) (s := s.toList) (r := ['"'])
    (by simp) (by simp) (fun c hc => decide_eq_false fun he => h.head (he ▸ hc))
    fun c hc => decide_eq_false fun he => h.last (he ▸ hc)
  rwa [String.ofList_toList] at hstrip

theorem Clean.separable {s : String} (h : Clean s) {name : List Char}
    (hname : name ≠ [] ∧ ∀ c ∈ name, isSpace c = false ∧ c ≠ '=' ∧ c ≠ ',') :
    Pair.Separable ⟨name, quoted s⟩ where
  name := hname
  comma := by simpa [quoted] using h.comma
  head c hc := by
    obtain rfl : '"' = c := by simpa [quoted] using hc
    decide
  last c hc := by
    rw [quoted, ← List.cons_append, List.getLast?_append_cons] at hc
    obtain rfl : '"' = c := by simpa using hc
    decide
  value := List.cons_ne_nil _ _

theorem clean_digestRealm : Clean digestRealm := by
  constructor <;> simp [digestRealm, IsLatin1, OneLine]

theorem clean_digestNonce : Clean digestNonce := by
  constructor <;> simp [digestNonce, IsLatin1, OneLine]

theorem clean_auth : Clean "auth" := by
  constructor <;> simp [IsLatin1, OneLine]

theorem IsHex.strip {s : String} (h : IsHex s) {p : Char → Bool}
    (hp : ∀ c ∈ hexDigits, p c = false) : strip p s = s := by
  have hstrip := strip_self (p := p) (fun c hc => hp c (h c (List.mem_of_mem_head? hc)))
    fun c hc => hp c (h c (List.mem_of_getLast? hc))
  rwa [String.ofList_toList] at hstrip

section
variable {username path response nc cnonce : String} (husername : Clean username)
  (hpath : Clean path) (hresponse : Clean response) (hnc : IsHex nc) (hne : nc.toList ≠ [])
  (hcnonce : Clean cnonce)
include husername hpath hresponse hnc hne hcnonce

theorem written_separable : ∀ x ∈ written username path response nc cnonce, x.Separable := by
  simp only [written, List.forall_mem_cons]
  refine ⟨husername.separable ?_, clean_digestRealm.separable ?_, clean_digestNonce.separable ?_,
    hpath.separable ?_, hresponse.separable ?_, clean_auth.separable ?_, ?_,
    hcnonce.separable ?_, by simp⟩
  case refine_7 =>
    have hspace : ∀ c ∈ nc.toList, isSpace c = false := fun c hc =>
      (hexDigits_spec c (hnc c hc)).2.2.2.2.2
    exact ⟨by simp [isSpace], hnc.clean.comma, fun c hc => hspace c (List.mem_of_mem_head? hc),
      fun c hc => hspace c (List.mem_of_getLast? hc), hne⟩
  all_goals simp [isSpace]

theorem parseAuthorizationPairs_written :
    parseAuthorizationPairs ("Digest " ++ rendered (written username path response nc cnonce)) =
      [("username", username), ("realm", digestRealm), ("nonce", digestNonce), ("uri", path),
        ("response", response), ("qop", "auth"), ("nc", nc), ("cnonce", cnonce)] := by
  have hseparable := written_separable husername hpath hresponse hnc hne hcnonce
  have hpairs : (written username path response nc cnonce).map Pair.read =
      [("username", username), ("realm", digestRealm), ("nonce", digestNonce), ("uri", path),
        ("response", response), ("qop", "auth"), ("nc", nc), ("cnonce", cnonce)] := by
    simp only [written, Pair.read, List.map_cons, List.map_nil, String.ofList_toList,
      husername.strip_quoted, clean_digestRealm.strip_quoted, clean_digestNonce.strip_quoted,
      hpath.strip_quoted, hresponse.strip_quoted, clean_auth.strip_quoted, hcnonce.strip_quoted,
      hnc.strip (p := (· = '"')) (by simp [hexDigits])]
  rw [parseAuthorizationPairs_rendered (by simp [written]) hseparable, hpairs]
  exact dict_of_nodup (by simp)

end

end MutationTest.DigestAuth

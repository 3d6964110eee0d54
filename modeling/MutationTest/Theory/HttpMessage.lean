import Mathlib.Data.List.DropRight
import Mathlib.Tactic.Common

/-! # HTTP/1.1 messages on a connection

A message is a start line, field lines and a body. Nothing on the wire marks the end of the body: a
client works it out from the method of its request, from the status and from the fields
(`bodyLength?`). Where that agrees with what was written (`Message.Framed`), the bytes of the next
message are left as they are (`readMessage_append`), and a client that reads one final response per
request reads those that were written, in their order (`readResponses_append`). -/

namespace Http

abbrev Bytes := List UInt8

/-! ## Lines -/

def crlf : Bytes := [13, 10]

/-- Lines are Latin-1 text. -/
def IsLatin1 (text : List Char) : Prop := ∀ c ∈ text, c.toNat < 256

/-- No part of the text ends a line. -/
def OneLine (text : List Char) : Prop := '\r' ∉ text ∧ '\n' ∉ text

-- not an instance over all characters
instance (text : List Char) : Decidable (IsLatin1 text) := List.decidableBAll _ text

instance (text : List Char) : Decidable (OneLine text) :=
  inferInstanceAs (Decidable ('\r' ∉ text ∧ '\n' ∉ text))

def encode (text : List Char) : Bytes := text.map Char.toUInt8

def decode (b : Bytes) : List Char := b.map Char.ofUInt8

/-- The line ending is LF, after an optional CR. -/
def chomp (line : Bytes) : Bytes := if line.getLast? = some 13 then line.dropLast else line

/-- The lines before the first empty one, and what follows it. `cur` is the part of the current line
that is already read. -/
def readLines (cur : Bytes) : Bytes → Option (List (List Char) × Bytes)
  | [] => none
  | b :: rest =>
    if b = 10 then
      if chomp cur = [] then some ([], rest)
      else (readLines [] rest).map fun x => (decode (chomp cur) :: x.1, x.2)
    else readLines (cur ++ [b]) rest

def linesBytes (lines : List (List Char)) : Bytes :=
  lines.flatMap (fun line => encode line ++ crlf) ++ crlf

section
variable {text : List Char}

theorem toNat_toUInt8 {c : Char} (hc : c.toNat < 256) : c.toUInt8.toNat = c.toNat := by
  rw [Char.toUInt8, UInt32.toNat_toUInt8]
  exact Nat.mod_eq_of_lt hc

theorem toUInt8_ne {c : Char} (hc : c.toNat < 256) {d : Char} (hd : d.toNat < 256) (h : c ≠ d) :
    c.toUInt8 ≠ d.toUInt8 := by
  intro he
  refine h (Char.toNat_inj.mp ?_)
  rw [← toNat_toUInt8 hc, ← toNat_toUInt8 hd, he]

theorem decode_encode (h : IsLatin1 text) : decode (encode text) = text := by
  have hchar : ∀ c ∈ text, (Char.ofUInt8 ∘ Char.toUInt8) c = id c := by
    intro c hc
    exact Char.toNat_inj.mp ((UInt8.toNat_toUInt32 _).trans (toNat_toUInt8 (h c hc)))
  rw [decode, encode, List.map_map, List.map_congr_left hchar, List.map_id]

theorem encode_ne {d : Char} (hd : d.toNat < 256) (h : IsLatin1 text) (hne : d ∉ text) :
    d.toUInt8 ∉ encode text := by
  intro hmem
  obtain ⟨c, hc, he⟩ := List.mem_map.mp hmem
  exact toUInt8_ne (h c hc) hd (fun hcd => hne (hcd ▸ hc)) he

theorem chomp_append_cr (line : Bytes) : chomp (line ++ [13]) = line := by
  simp [chomp]

theorem readLines_append {s : Bytes} (hs : 10 ∉ s) (cur rest : Bytes) :
    readLines cur (s ++ rest) = readLines (cur ++ s) rest := by
  induction s generalizing cur with
  | nil => simp
  | cons b s ih =>
    rw [List.mem_cons, not_or] at hs
    rw [List.cons_append, readLines, if_neg (Ne.symm hs.1), ih hs.2]
    simp

theorem readLines_line (h : IsLatin1 text) (hline : OneLine text) (hne : text ≠ []) (rest : Bytes) :
    readLines [] (encode text ++ crlf ++ rest) =
      (readLines [] rest).map fun x => (text :: x.1, x.2) := by
  have hlf : 10 ∉ encode text ++ [13] := by
    have htext : '\n'.toUInt8 ∉ encode text := encode_ne (by decide) h hline.2
    exact List.not_mem_append htext (by decide)
  have hcrlf : encode text ++ crlf ++ rest = encode text ++ [13] ++ 10 :: rest := by simp [crlf]
  rw [hcrlf, readLines_append hlf, List.nil_append, readLines, if_pos rfl, chomp_append_cr,
    decode_encode h, if_neg (by simpa [encode] using hne)]

theorem readLines_linesBytes {lines : List (List Char)}
    (h : ∀ line ∈ lines, line ≠ [] ∧ IsLatin1 line ∧ OneLine line) (rest : Bytes) :
    readLines [] (linesBytes lines ++ rest) = some (lines, rest) := by
  unfold linesBytes
  induction lines with
  | nil => simp [crlf, readLines, chomp]
  | cons line lines ih =>
    obtain ⟨hne, hlatin, hline⟩ := h line List.mem_cons_self
    rw [List.flatMap_cons, List.append_assoc, List.append_assoc, readLines_line hlatin hline hne,
      ← List.append_assoc, ih fun line hmem => h line (List.mem_cons_of_mem _ hmem)]
    rfl

end

/-! ## Numbers -/

def decimal? (text : List Char) : Option ℕ :=
  if text ≠ [] ∧ text.all Char.isDigit then some (Nat.ofDigitChars 10 text 0) else none

theorem decimal?_toDigits (n : ℕ) : decimal? (Nat.toDigits 10 n) = some n := by
  have hall : (Nat.toDigits 10 n).all Char.isDigit :=
    List.all_eq_true.mpr fun c hc => Nat.isDigit_of_mem_toDigits (by decide) (by decide) hc
  rw [decimal?, if_pos ⟨Nat.toDigits_ne_nil, hall⟩, Nat.ofDigitChars_ten_toDigits]

/-! ## Fields -/

def field (name value : List Char) : List Char := name ++ ": ".toList ++ value

/-- Names of fields are case-insensitive. -/
def fieldName (line : List Char) : List Char := (line.takeWhile (· ≠ ':')).map Char.toLower

def isBlank (c : Char) : Bool := c = ' ' ∨ c = '\t'

def fieldValue (line : List Char) : List Char :=
  (((line.dropWhile (· ≠ ':')).drop 1).dropWhile isBlank).rdropWhile isBlank

section
variable {name value : List Char}

theorem field_ne_nil (name value : List Char) : field name value ≠ [] :=
  List.append_ne_nil_of_left_ne_nil (List.append_ne_nil_of_right_ne_nil _ (by decide)) _

theorem fieldName_field (h : ':' ∉ name) :
    fieldName (field name value) = name.map Char.toLower := by
  have hname : ∀ c ∈ name, decide (c ≠ ':') := by
    intro c hc
    exact decide_eq_true fun he => h (he ▸ hc)
  rw [fieldName, field, List.append_assoc, List.takeWhile_append_of_pos hname]
  simp

theorem fieldValue_field (h : ':' ∉ name) (hvalue : ∀ c ∈ value, ¬isBlank c) :
    fieldValue (field name value) = value := by
  have hname : ∀ c ∈ name, decide (c ≠ ':') := by
    intro c hc
    exact decide_eq_true fun he => h (he ▸ hc)
  have hleft : value.dropWhile isBlank = value := by
    cases value with
    | nil => rfl
    | cons c value => exact List.dropWhile_cons_of_neg (hvalue c List.mem_cons_self)
  have hright : value.rdropWhile isBlank = value :=
    List.rdropWhile_eq_self_iff.mpr fun hne => hvalue _ (List.getLast_mem hne)
  rw [fieldValue, field, List.append_assoc, List.dropWhile_append_of_pos hname]
  simp [isBlank, hleft, hright]

/-- Blanks inside a value stay. -/
theorem fieldValue_field_of_ends (h : ':' ∉ name) (hhead : ∀ c, value.head? = some c → ¬isBlank c)
    (hlast : ∀ c, value.getLast? = some c → ¬isBlank c) :
    fieldValue (field name value) = value := by
  have hname : ∀ c ∈ name, decide (c ≠ ':') := by
    intro c hc
    exact decide_eq_true fun he => h (he ▸ hc)
  have hleft : value.dropWhile isBlank = value := by
    cases value with
    | nil => rfl
    | cons c value => exact List.dropWhile_cons_of_neg (hhead c rfl)
  have hright : value.rdropWhile isBlank = value :=
    List.rdropWhile_eq_self_iff.mpr fun hne => hlast _ (List.getLast?_eq_some_getLast hne)
  rw [fieldValue, field, List.append_assoc, List.dropWhile_append_of_pos hname]
  simp [isBlank, hleft, hright]

end

/-! ## Where a response ends -/

/-- The code in a status line, which is one of three digits. -/
def status? (start : List Char) : Option ℕ :=
  let code := ((start.dropWhile (· ≠ ' ')).drop 1).takeWhile (· ≠ ' ')
  if start.take 5 = "HTTP/".toList ∧ code.length = 3 then decimal? code else none

def contentLength? (fields : List (List Char)) : Option ℕ :=
  (fields.find? fun line => fieldName line = "content-length".toList).bind fun line =>
    decimal? (fieldValue line)

/-- How long the body of a response is; `head` says that it answers a `HEAD` request. There is no
answer where the body ends with the connection or is chunked. -/
def bodyLength? (head : Bool) (status : ℕ) (fields : List (List Char)) : Option ℕ :=
  if head ∨ status < 200 ∨ status = 204 ∨ status = 304 then some 0
  else if fields.any fun line => fieldName line = "transfer-encoding".toList then none
  else contentLength? fields

def statusLine (status reason : List Char) : List Char :=
  "HTTP/1.1".toList ++ ' ' :: (status ++ ' ' :: reason)

theorem statusLine_ne_nil (status reason : List Char) : statusLine status reason ≠ [] :=
  List.append_ne_nil_of_right_ne_nil _ (List.cons_ne_nil _ _)

theorem status?_statusLine {n : ℕ} (h100 : 100 ≤ n) (h999 : n ≤ 999) (reason : List Char) :
    status? (statusLine (Nat.toDigits 10 n) reason) = some n := by
  have hspace : ∀ c ∈ Nat.toDigits 10 n, decide (c ≠ ' ') := by
    intro c hc
    have hdigit := Nat.isDigit_of_mem_toDigits (by decide) (by decide) hc
    refine decide_eq_true ?_
    rintro rfl
    exact absurd hdigit (by decide)
  have hcode : (((statusLine (Nat.toDigits 10 n) reason).dropWhile (· ≠ ' ')).drop 1).takeWhile
      (· ≠ ' ') = Nat.toDigits 10 n := by
    have hversion : (statusLine (Nat.toDigits 10 n) reason).dropWhile (· ≠ ' ') =
        ' ' :: (Nat.toDigits 10 n ++ ' ' :: reason) := rfl
    rw [hversion, List.drop_one, List.tail_cons, List.takeWhile_append_of_pos hspace]
    simp
  have hlength : (Nat.toDigits 10 n).length = 3 := by
    have hle := (Nat.length_toDigits_le_iff (b := 10) (n := n) (k := 3) (by decide) (by decide)).mpr
      (by omega)
    have hnot := mt (Nat.length_toDigits_le_iff (b := 10) (n := n) (k := 2) (by decide)
      (by decide)).mp (by omega)
    omega
  rw [status?, hcode, if_pos ⟨rfl, hlength⟩, decimal?_toDigits]

/-- The first field of the name counts. -/
theorem contentLength?_append {before : List (List Char)}
    (h : ∀ line ∈ before, fieldName line ≠ "content-length".toList) (n : ℕ)
    (after : List (List Char)) :
    contentLength? (before ++ field "Content-Length".toList (Nat.toDigits 10 n) :: after) =
      some n := by
  have hbefore : before.find? (fun line => fieldName line = "content-length".toList) = none :=
    List.find?_eq_none.mpr fun line hline he => h line hline (of_decide_eq_true he)
  have hblank : ∀ c ∈ Nat.toDigits 10 n, ¬isBlank c := by
    intro c hc hblank
    have hdigit := Nat.isDigit_of_mem_toDigits (by decide) (by decide) hc
    rcases of_decide_eq_true hblank with rfl | rfl <;> exact absurd hdigit (by decide)
  have hname : fieldName (field "Content-Length".toList (Nat.toDigits 10 n)) =
      "content-length".toList := fieldName_field (by decide)
  have hfind : (field "Content-Length".toList (Nat.toDigits 10 n) :: after).find?
      (fun line => fieldName line = "content-length".toList) =
      some (field "Content-Length".toList (Nat.toDigits 10 n)) :=
    List.find?_cons_of_pos (decide_eq_true hname)
  rw [contentLength?, List.find?_append, hbefore, Option.none_or, hfind, Option.bind_some,
    fieldValue_field (by decide) hblank, decimal?_toDigits]

structure Message where
  start : List Char
  fields : List (List Char)
  body : Bytes
  deriving DecidableEq

namespace Message

def bytes (m : Message) : Bytes := linesBytes (m.start :: m.fields) ++ m.body

/-- A response before the one that answers the request. -/
def interim (m : Message) : Bool := (status? m.start).any (· < 200)

/-- A client finds the end of the body where it was written. -/
structure Framed (head : Bool) (m : Message) : Prop where
  lines : ∀ line ∈ m.start :: m.fields, line ≠ [] ∧ IsLatin1 line ∧ OneLine line
  length : (status? m.start).bind (bodyLength? head · m.fields) = some m.body.length

end Message

def readMessage (head : Bool) (s : Bytes) : Option (Message × Bytes) :=
  match readLines [] s with
  | some (start :: fields, rest) =>
    match (status? start).bind (bodyLength? head · fields) with
    | some n => if n ≤ rest.length then some (⟨start, fields, rest.take n⟩, rest.drop n) else none
    | none => none
  | _ => none

theorem readMessage_append {head : Bool} {m : Message} (h : m.Framed head) (rest : Bytes) :
    readMessage head (m.bytes ++ rest) = some (m, rest) := by
  rw [readMessage, Message.bytes, List.append_assoc, readLines_linesBytes h.lines]
  simp only [h.length]
  simp

/-- After a `HEAD` request, what was written as a body is not read. -/
theorem readMessage_head {head : Bool} {m : Message} (h : m.Framed head) (rest : Bytes) :
    readMessage true (m.bytes ++ rest) = some (⟨m.start, m.fields, []⟩, m.body ++ rest) := by
  obtain ⟨n, hn, -⟩ := Option.bind_eq_some_iff.mp h.length
  rw [readMessage, Message.bytes, List.append_assoc, readLines_linesBytes h.lines]
  simp [hn, bodyLength?]

/-! ## One final response per request -/

/-- The first response that is not interim, of at most `n` responses. -/
def readFinal (head : Bool) : ℕ → Bytes → Option (Message × Bytes)
  | 0, _ => none
  | n + 1, s =>
    match readMessage head s with
    | some (m, rest) => if m.interim then readFinal head n rest else some (m, rest)
    | none => none

/-- What a client reads that has sent requests with the given methods. -/
def readResponses : List Bool → Bytes → Option (List Message × Bytes)
  | [], s => some ([], s)
  | head :: heads, s =>
    match readFinal head s.length s with
    | some (m, rest) => (readResponses heads rest).map fun x => (m :: x.1, x.2)
    | none => none

/-- What is written for one request. -/
structure Reply where
  interims : List Message
  final : Message

namespace Reply

def bytes (r : Reply) : Bytes := r.interims.flatMap Message.bytes ++ r.final.bytes

structure Framed (head : Bool) (r : Reply) : Prop where
  interims : ∀ m ∈ r.interims, m.Framed head ∧ m.interim
  final : r.final.Framed head
  isFinal : r.final.interim = false

end Reply

theorem Message.length_bytes_pos (m : Message) : 0 < m.bytes.length := by
  simp only [bytes, linesBytes, crlf, List.length_append, List.length_cons, List.length_nil]
  omega

theorem Reply.length_interims_lt (r : Reply) : r.interims.length < r.bytes.length := by
  obtain ⟨interims, final⟩ := r
  unfold bytes
  induction interims with
  | nil => exact final.length_bytes_pos
  | cons m interims ih =>
    have hm := m.length_bytes_pos
    simp only [List.length_cons, List.flatMap_cons, List.length_append] at ih ⊢
    omega

theorem readFinal_append {head : Bool} {r : Reply} (h : r.Framed head) (rest : Bytes) {n : ℕ}
    (hn : r.interims.length < n) : readFinal head n (r.bytes ++ rest) = some (r.final, rest) := by
  obtain ⟨interims, final⟩ := r
  obtain ⟨hinterims, hfinal, hlast⟩ := h
  unfold Reply.bytes
  induction interims generalizing n with
  | nil =>
    obtain ⟨n, rfl⟩ := Nat.exists_eq_add_one_of_ne_zero (Nat.ne_zero_of_lt hn)
    simp [readFinal, readMessage_append hfinal, hlast]
  | cons m interims ih =>
    obtain ⟨n, rfl⟩ := Nat.exists_eq_add_one_of_ne_zero (Nat.ne_zero_of_lt hn)
    obtain ⟨hm, hinterim⟩ := hinterims m List.mem_cons_self
    have htail := ih (n := n) (by simpa using hn) fun m hmem =>
      hinterims m (List.mem_cons_of_mem _ hmem)
    rw [List.append_assoc] at htail
    simp only [readFinal, List.flatMap_cons, List.append_assoc, readMessage_append hm,
      if_pos hinterim]
    exact htail hfinal hlast

/-- A client reads the final responses in the order in which they were written. -/
theorem readResponses_append {replies : List (Bool × Reply)}
    (h : ∀ x ∈ replies, x.2.Framed x.1) (rest : Bytes) :
    readResponses (replies.map (·.1)) (replies.flatMap (·.2.bytes) ++ rest) =
      some (replies.map (·.2.final), rest) := by
  induction replies with
  | nil => rfl
  | cons x replies ih =>
    have hlength : x.2.interims.length <
        (x.2.bytes ++ (replies.flatMap (·.2.bytes) ++ rest)).length :=
      x.2.length_interims_lt.trans_le (by simp)
    rw [List.map_cons, List.flatMap_cons, List.append_assoc, readResponses,
      readFinal_append (h x List.mem_cons_self) _ hlength]
    simp only [ih fun x hmem => h x (List.mem_cons_of_mem _ hmem)]
    rfl

end Http

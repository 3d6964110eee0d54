import MutationTest.TextFiles
import MutationTest.Theory.JsonPrint

/-! # The report as JSON

What `main` writes to the report file: `json.dumps` of the dictionary, with `indent=2` and
`ensure_ascii=False`, under the line separator of the host. -/

namespace MutationTest
open JsonText BinaryFloat

/-! ## Strings -/

/-- The escapes of `py_encode_basestring`. -/
def escape (c : Char) : List Char :=
  match c with
  | '"' => ['\\', '"']
  | '\\' => ['\\', '\\']
  | '\n' => ['\\', 'n']
  | '\r' => ['\\', 'r']
  | '\t' => ['\\', 't']
  | '\x0c' => ['\\', 'f']
  | '\x08' => ['\\', 'b']
  | c =>
    if c.toNat < 32 then
      ['\\', 'u', '0', '0', Nat.digitChar (c.toNat / 16), Nat.digitChar (c.toNat % 16)]
    else [c]

/-- What a reader makes of `escape c`. -/
def escapeItem (c : Char) : Item :=
  match c with
  | '"' | '\\' | '\n' | '\r' | '\t' | '\x0c' | '\x08' => .char c
  | c => if c.toNat < 32 then .unit c.toNat else .char c

theorem hex4?_digitChar {n : ℕ} (h : n < 32) :
    hex4? '0' '0' (Nat.digitChar (n / 16)) (Nat.digitChar (n % 16)) = some n := by
  revert n
  decide

theorem items_escape (c : Char) (t : List Char) :
    items (escape c ++ t) = (items t).map fun p => ([escapeItem c] ++ p.1, p.2) := by
  unfold escape
  split
  iterate 7 simp [items, escaped?, escapeItem, Option.map_eq_bind]
  next hquote hslash _ _ _ _ _ =>
    split
    next hlt => simp [items, hex4?_digitChar hlt, escapeItem, hlt, Option.map_eq_bind]
    next hge =>
      rw [List.singleton_append, items_cons hquote hslash (Nat.le_of_not_lt hge)]
      simp [escapeItem, hge]

theorem join_escapeItem (c : Char) (l : List Item) :
    join ([escapeItem c] ++ l) = (join l).map (c :: ·) := by
  unfold escapeItem
  split
  iterate 7 rfl
  split
  next hlt =>
    have hhigh : ¬isHigh c.toNat := by
      simp only [isHigh, decide_eq_true_eq]
      omega
    have hlow : ¬isLow c.toNat := by
      simp only [isLow, decide_eq_true_eq]
      omega
    rw [List.singleton_append, join_unit hhigh hlow, Char.ofNat_toNat]
  next => rfl

/-- The layout of `indent=2`, with a line end. -/
def indented (newline : List Char) (h : newline.all isSpace) : Style where
  newline d := newline ++ List.replicate (2 * d) ' '
  space := [' ']
  escape := escape
  item c := [escapeItem c]
  isSpace_newline d := by
    rw [List.all_append, h, List.all_replicate]
    split <;> rfl
  isSpace_space := by decide
  items_escape := items_escape
  join_item := join_escapeItem

/-! ## Floats -/

/-- The fewest decimals that name a double, but at least one. -/
def fewestDecimals (x : ℚ) : ℕ :=
  (((List.range 20).map (· + 1)).find? fun n =>
    double (roundHalfEven (x * 10 ^ n) / 10 ^ n) = x).getD 20

/-- The last `n` digits of a number. -/
def lastDigits (n m : ℕ) : List Char :=
  List.replicate (n - (Nat.toDigits 10 (m % 10 ^ n)).length) '0' ++ Nat.toDigits 10 (m % 10 ^ n)

theorem lastDigits_ne_nil (n m : ℕ) : lastDigits n m ≠ [] :=
  List.append_ne_nil_of_right_ne_nil _ Nat.toDigits_ne_nil

theorem isDigit_lastDigits (n m : ℕ) : ∀ c ∈ lastDigits n m, c.isDigit := by
  intro c hc
  rcases List.mem_append.mp hc with hc | hc
  · rw [List.eq_of_mem_replicate hc]
    rfl
  · exact Number.isDigit_toDigits _ c hc

/-- `repr` of a float that is zero or lies between `1e-4` and `1e16`, where there is no exponent. -/
def floatRepr (x : ℚ) : Number :=
  let n := fewestDecimals x
  let digits := (roundHalfEven (x * 10 ^ n)).toNat
  .ofDecimals (digits / 10 ^ n) (lastDigits n digits) (lastDigits_ne_nil n digits)
    (isDigit_lastDigits n digits)

/-! ## The dictionary -/

def Entry.toJson (e : Entry) : Value :=
  .object [("index", .number (.ofNat e.index)),
    ("description", e.description.elim .null .string),
    ("survived", .bool e.survived),
    ("reason", .string e.reason)]

def Report.toJson (r : Report) : Value :=
  .object [("arquivo", .string r.arquivo),
    ("total_sites_no_arquivo", .number (.ofNat r.totalSitesNoArquivo)),
    ("mutantes_gerados", .number (.ofNat r.mutantesGerados)),
    ("mortos", .number (.ofNat r.mortos)),
    ("vivos", .number (.ofNat r.vivos)),
    ("escore_mutacao_pct", .number (floatRepr r.escoreMutacaoPct)),
    ("detalhes", .array (r.detalhes.map Entry.toJson))]

theorem isSpace_newline : ['\n'].all isSpace := by decide

def Report.dumps (r : Report) : String :=
  String.ofList (print (indented ['\n'] isSpace_newline) 0 r.toJson)

/-- What the report file holds after `report_path.write_text(...)`. -/
def Report.bytes (linesep : String) (r : Report) : ByteArray := encodeText linesep r.dumps

def ReportFile.bytes (linesep : String) : ReportFile → ByteArray
  | .json r => r.bytes linesep
  | .other content => content

end MutationTest

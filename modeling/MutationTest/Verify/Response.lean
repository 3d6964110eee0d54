import MutationTest.Handler

/-! # What a handler sends

Where no header has a line break in it, the bytes that go out for a response are those of one
message (`sendHead_eq`), and a client finds its end (`response_framed`). -/

namespace MutationTest.Handler
open Exec (Returns raise ofExcept)
open Http

/-! ## Texts of one line -/

section
variable {a b : List Char}

theorem isLatin1_append : IsLatin1 (a ++ b) ↔ IsLatin1 a ∧ IsLatin1 b := List.forall_mem_append

theorem oneLine_append : OneLine (a ++ b) ↔ OneLine a ∧ OneLine b := by
  simp only [OneLine, List.mem_append, not_or]
  tauto

theorem isLatin1_statusLine (ha : IsLatin1 a) (hb : IsLatin1 b) : IsLatin1 (statusLine a b) := by
  have hspace : ∀ {l}, IsLatin1 l → IsLatin1 (' ' :: l) := fun h =>
    isLatin1_append (a := [' ']).mpr ⟨by decide, h⟩
  exact isLatin1_append.mpr ⟨by decide, hspace (isLatin1_append.mpr ⟨ha, hspace hb⟩)⟩

theorem oneLine_statusLine (ha : OneLine a) (hb : OneLine b) : OneLine (statusLine a b) := by
  have hspace : ∀ {l}, OneLine l → OneLine (' ' :: l) := fun h =>
    oneLine_append (a := [' ']).mpr ⟨by decide, h⟩
  exact oneLine_append.mpr ⟨by decide, hspace (oneLine_append.mpr ⟨ha, hspace hb⟩)⟩

theorem toList_toString (n : ℕ) : (toString n).toList = Nat.toDigits 10 n := Nat.toList_repr

theorem isLatin1_toString (n : ℕ) : IsLatin1 (toString n).toList := by
  intro c hc
  rw [toList_toString] at hc
  have hdigit := Nat.isDigit_of_mem_toDigits (by decide) (by decide) hc
  simp only [Char.isDigit, Bool.and_eq_true, decide_eq_true_eq] at hdigit
  exact lt_of_le_of_lt hdigit.2 (by decide)

theorem oneLine_toString (n : ℕ) : OneLine (toString n).toList := by
  rw [toList_toString]
  constructor <;>
    exact fun hc => absurd (Nat.isDigit_of_mem_toDigits (by decide) (by decide) hc) (by decide)

end

/-! ## Writing a response -/

def headerLine (h : String × String) : List Char := field h.1.toList h.2.toList

/-- `_headers_buffer` with the given lines. -/
def queued (lines : List (List Char)) : List Bytes := lines.map fun line => encode line ++ crlf

section
variable {lib : Library} {lines : List (List Char)} {rest out : Bytes} {t : ℕ}

theorem toList_header (keyword value : String) :
    (keyword ++ ": " ++ value).toList = headerLine (keyword, value) := by
  simp [headerLine, field]

theorem sendLine_queued {text : String} (h : IsLatin1 text.toList) :
    sendLine text ⟨rest, queued lines, out, t⟩ =
      (.ok (), ⟨rest, queued (lines ++ [text.toList]), out, t⟩) := by
  have happend : sendLine text = append (encode text.toList ++ crlf) := if_pos h
  rw [happend]
  simp [append, queued]

theorem sendHeader_queued {keyword value : String} (h : IsLatin1 (headerLine (keyword, value))) :
    sendHeader keyword value ⟨rest, queued lines, out, t⟩ =
      (.ok (), ⟨rest, queued (lines ++ [headerLine (keyword, value)]), out, t⟩) := by
  rw [← toList_header] at h ⊢
  exact sendLine_queued h

theorem sendHeaders_queued {headers : List (String × String)}
    (h : ∀ x ∈ headers, IsLatin1 (headerLine x)) :
    sendHeaders headers ⟨rest, queued lines, out, t⟩ =
      (.ok (), ⟨rest, queued (lines ++ headers.map headerLine), out, t⟩) := by
  induction headers generalizing lines with
  | nil => simp [sendHeaders]
  | cons x headers ih =>
    rw [sendHeaders, Exec.bind_ok (sendHeader_queued (h x List.mem_cons_self)),
      ih fun y hy => h y (List.mem_cons_of_mem _ hy)]
    simp

theorem endHeaders_queued :
    endHeaders ⟨rest, queued lines, out, t⟩ = (.ok (), ⟨rest, [], out ++ linesBytes lines, t⟩) := by
  simp [endHeaders, queued, linesBytes, List.flatMap_def]

theorem sendResponseOnly_queued (n : ℕ) : sendResponseOnly lib n ⟨rest, [], out, t⟩ =
    (.ok (), ⟨rest, queued [statusLine (toString n).toList (lib.phrase n).1.toList], out, t⟩) := by
  have hline : ("HTTP/1.1 " ++ toString (n : ℤ) ++ " " ++ (lib.phrase n).1).toList =
      statusLine (toString n).toList (lib.phrase n).1.toList := by
    simp only [String.toList_append, List.append_assoc]
    rfl
  have hlatin := isLatin1_statusLine (isLatin1_toString n) (lib.phrase n).2.1
  rw [← hline] at hlatin ⊢
  exact (sendLine_queued hlatin : sendLine _ ⟨rest, queued [], out, t⟩ = _)

theorem sendLine_returns {c : Conn} (text : String) :
    Returns c (sendLine text) fun _ _ => IsLatin1 text.toList := by
  unfold sendLine
  exact Returns.ite (fun h _ _ _ => h) fun _ => Returns.raise _

theorem sendHeaders_returns {c : Conn} (headers : List (String × String)) :
    Returns c (sendHeaders headers) fun _ _ => ∀ x ∈ headers, IsLatin1 (headerLine x) := by
  induction headers generalizing c with
  | nil => exact Returns.pure (by simp)
  | cons x headers ih =>
    refine Returns.bind (sendLine_returns _) fun _ _ hx a t ht => ?_
    rw [toList_header] at hx
    exact List.forall_mem_cons.mpr ⟨hx, ih a t ht⟩

end

/-- The response that goes out for a status, headers and a body. -/
def response (lib : Library) (t : ℕ) (status : ℕ) (before : List (String × String)) (body : Bytes)
    (after : List (String × String)) : Message where
  start := statusLine (toString status).toList (lib.phrase status).1.toList
  fields := (("Server", lib.server.1) :: ("Date", (lib.date t).1) :: before ++
    ("Content-Length", toString body.length) :: after).map headerLine
  body := body

/-- The names that the handler gives to headers, that of the length apart. -/
def headerNames : List String :=
  ["Server", "Date", "Content-Type", "Content-Encoding", "Location", "Set-Cookie",
    "WWW-Authenticate"]

theorem headerNames_spec : ∀ name ∈ "Content-Length" :: headerNames, IsLatin1 name.toList ∧
    OneLine name.toList ∧ ':' ∉ name.toList ∧
    name.toList.map Char.toLower ≠ "transfer-encoding".toList ∧
    (name.toList.map Char.toLower = "content-length".toList ↔ name = "Content-Length") := by
  decide

/-- A header that stays on its line. -/
structure Safe (h : String × String) : Prop where
  name : h.1 ∈ headerNames
  value : OneLine h.2.toList

section
variable {lib : Library} {t : ℕ} {before after : List (String × String)} {body rest out : Bytes}

theorem isLatin1_headerLine {name value : String} (hname : name ∈ "Content-Length" :: headerNames)
    (hvalue : IsLatin1 value.toList) : IsLatin1 (headerLine (name, value)) :=
  isLatin1_append.mpr ⟨isLatin1_append.mpr ⟨(headerNames_spec _ hname).1, by decide⟩, hvalue⟩

theorem oneLine_headerLine {name value : String} (hname : name ∈ "Content-Length" :: headerNames)
    (hvalue : OneLine value.toList) : OneLine (headerLine (name, value)) :=
  oneLine_append.mpr ⟨oneLine_append.mpr ⟨(headerNames_spec _ hname).2.1, by decide⟩, hvalue⟩

theorem sendHead_eq (status : ℕ) (hbefore : ∀ x ∈ before, IsLatin1 (headerLine x))
    (hafter : ∀ x ∈ after, IsLatin1 (headerLine x)) (body rest out : Bytes) (t : ℕ) :
    sendHead lib status before body.length after ⟨rest, [], out, t⟩ =
      (.ok (), ⟨rest, [], out ++ linesBytes ((response lib t status before body after).start ::
        (response lib t status before body after).fields), t + 1⟩) := by
  have hserver : IsLatin1 (headerLine ("Server", lib.server.1)) :=
    isLatin1_headerLine (by decide) lib.server.2.1
  have hdate : IsLatin1 (headerLine ("Date", (lib.date t).1)) :=
    isLatin1_headerLine (by decide) (lib.date t).2.1
  have hlength : IsLatin1 (headerLine ("Content-Length", toString body.length)) :=
    isLatin1_headerLine (by decide) (isLatin1_toString _)
  have hresponse : sendResponse lib status ⟨rest, [], out, t⟩ = (.ok (), ⟨rest, queued
      (statusLine (toString status).toList (lib.phrase status).1.toList ::
        [("Server", lib.server.1), ("Date", (lib.date t).1)].map headerLine), out, t + 1⟩) := by
    rw [sendResponse, Exec.bind_ok (sendResponseOnly_queued status),
      Exec.bind_ok (sendHeader_queued hserver)]
    exact sendHeader_queued hdate
  rw [sendHead, Exec.bind_ok hresponse, Exec.bind_ok (sendHeaders_queued hbefore),
    Exec.bind_ok (sendHeader_queued hlength), Exec.bind_ok (sendHeaders_queued hafter),
    endHeaders_queued]
  simp [response]

theorem sendHead_returns {c : Conn} {status : ℤ} {length : ℕ} :
    Returns c (sendHead lib status before length after) fun _ _ =>
      (∀ x ∈ before, IsLatin1 (headerLine x)) ∧ ∀ x ∈ after, IsLatin1 (headerLine x) := by
  unfold sendHead
  refine Returns.bind (Q := fun _ _ => True) (fun _ _ _ => trivial) fun _ _ _ =>
    (sendHeaders_returns before).bind fun _ _ hbefore =>
      Returns.bind (Q := fun _ _ => True) (fun _ _ _ => trivial) fun _ _ _ =>
        (sendHeaders_returns after).bind fun _ _ hafter _ _ _ => ⟨hbefore, hafter⟩

theorem fieldName_headerLine {h : String × String}
    (hname : h.1 ∈ "Content-Length" :: headerNames) :
    fieldName (headerLine h) = h.1.toList.map Char.toLower :=
  fieldName_field (headerNames_spec _ hname).2.2.1

theorem status?_response {status : ℕ} (h200 : 200 ≤ status) (h999 : status ≤ 999) :
    status? (response lib t status before body after).start = some status := by
  rw [response, toList_toString]
  exact status?_statusLine (by omega) h999 _

theorem bodyLength?_response {head : Bool} {status : ℕ} (h200 : 200 ≤ status)
    (hbefore : ∀ x ∈ before, Safe x) (hafter : ∀ x ∈ after, Safe x)
    (hbody : head ∨ status = 204 ∨ status = 304 → body = []) :
    bodyLength? head status (response lib t status before body after).fields =
      some body.length := by
  unfold bodyLength?
  split
  next h =>
    have hempty := hbody (h.imp_right fun h => h.resolve_left (not_lt.mpr h200))
    rw [hempty]
    rfl
  next =>
    have hserver : "Server" ∈ headerNames := by decide
    have hdate : "Date" ∈ headerNames := by decide
    have hnames : ∀ x ∈ ("Server", lib.server.1) :: ("Date", (lib.date t).1) :: before,
        x.1 ∈ headerNames :=
      List.forall_mem_cons.mpr ⟨hserver, List.forall_mem_cons.mpr
        ⟨hdate, fun x hx => (hbefore x hx).name⟩⟩
    have hall : ∀ x ∈ ("Server", lib.server.1) :: ("Date", (lib.date t).1) :: before ++
        ("Content-Length", toString body.length) :: after,
        x.1 ∈ "Content-Length" :: headerNames := by
      refine List.forall_mem_append.mpr ⟨fun x hx => List.mem_cons_of_mem _ (hnames x hx),
        List.forall_mem_cons.mpr ⟨List.mem_cons_self, fun x hx => ?_⟩⟩
      exact List.mem_cons_of_mem _ (hafter x hx).name
    have hchunked : (response lib t status before body after).fields.any
        (fun line => fieldName line = "transfer-encoding".toList) = false := by
      rw [List.any_eq_false]
      intro line hline he
      obtain ⟨x, hx, rfl⟩ := List.mem_map.mp hline
      have hname := of_decide_eq_true he
      rw [fieldName_headerLine (hall x hx)] at hname
      exact (headerNames_spec _ (hall x hx)).2.2.2.1 hname
    have hlength : headerLine ("Content-Length", toString body.length) =
        field "Content-Length".toList (Nat.toDigits 10 body.length) := by
      rw [headerLine, toList_toString]
    rw [hchunked, if_neg Bool.false_ne_true, response, List.map_append, List.map_cons (l := after),
      hlength]
    refine contentLength?_append (fun line hline he => ?_) _ _
    obtain ⟨x, hx, rfl⟩ := List.mem_map.mp hline
    have hmem := hnames x hx
    rw [fieldName_headerLine (List.mem_cons_of_mem _ hmem)] at he
    have hname := (headerNames_spec _ (List.mem_cons_of_mem _ hmem)).2.2.2.2.mp he
    rw [hname] at hmem
    exact absurd hmem (by decide)

theorem response_framed {head : Bool} {status : ℕ} (h200 : 200 ≤ status) (h999 : status ≤ 999)
    (hbefore : ∀ x ∈ before, Safe x ∧ IsLatin1 (headerLine x))
    (hafter : ∀ x ∈ after, Safe x ∧ IsLatin1 (headerLine x))
    (hbody : head ∨ status = 204 ∨ status = 304 → body = []) :
    (response lib t status before body after).Framed head where
  lines := by
    have hsafe : ∀ x : String × String, Safe x ∧ IsLatin1 (headerLine x) →
        headerLine x ≠ [] ∧ IsLatin1 (headerLine x) ∧ OneLine (headerLine x) := fun x hx =>
      ⟨field_ne_nil _ _, hx.2,
        oneLine_headerLine (List.mem_cons_of_mem _ hx.1.name) hx.1.value⟩
    have htext : ∀ name ∈ headerNames, ∀ text : LineText, Safe (name, text.1) ∧
        IsLatin1 (headerLine (name, text.1)) := fun name hname text =>
      ⟨⟨hname, text.2.2⟩, isLatin1_headerLine (List.mem_cons_of_mem _ hname) text.2.1⟩
    refine List.forall_mem_cons.mpr ⟨⟨statusLine_ne_nil _ _, ?_, ?_⟩, ?_⟩
    · exact isLatin1_statusLine (isLatin1_toString _) (lib.phrase status).2.1
    · exact oneLine_statusLine (oneLine_toString _) (lib.phrase status).2.2
    · refine List.forall_mem_map.mpr (List.forall_mem_append.mpr
        ⟨List.forall_mem_cons.mpr ⟨?_, List.forall_mem_cons.mpr ⟨?_, ?_⟩⟩,
          List.forall_mem_cons.mpr ⟨?_, ?_⟩⟩)
      · exact hsafe _ (htext _ (by decide) lib.server)
      · exact hsafe _ (htext _ (by decide) (lib.date t))
      · exact fun x hx => hsafe x (hbefore x hx)
      · exact ⟨field_ne_nil _ _, isLatin1_headerLine (by decide) (isLatin1_toString _),
          oneLine_headerLine (by decide) (oneLine_toString _)⟩
      · exact fun x hx => hsafe x (hafter x hx)
  length := by
    rw [status?_response h200 h999, Option.bind_some]
    exact bodyLength?_response h200 (fun x hx => (hbefore x hx).1) (fun x hx => (hafter x hx).1)
      hbody

end

end MutationTest.Handler

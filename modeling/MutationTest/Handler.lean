import MutationTest.Ast
import MutationTest.Theory.Exec
import MutationTest.Theory.HttpMessage

/-! # The server of the Requests suite

The `_Handler` of `conftest.py`, as a program over a connection, with the parts of
`BaseHTTPRequestHandler` that it uses: a response is collected in `_headers_buffer` and goes out
with `end_headers`, and after a handler returns the next request is read from the first byte that is
not consumed. The library is a parameter. -/

namespace MutationTest
open Exec (raise ofExcept)
open Http (Bytes IsLatin1 OneLine encode crlf)

namespace Handler

/-! ## Strings -/

def startswith (s pre : String) : Bool := pre.toList.isPrefixOf s.toList

def split (s : String) (sep : Char) : List String := (s.toList.splitOn sep).map String.ofList

/-- `s.rsplit(sep, 1)[-1]`. -/
def afterLast (s : String) (sep : Char) : String := String.ofList (s.toList.rtakeWhile (· ≠ sep))

/-- `s.partition(sep)`, without the separator. -/
def partition (s : String) (sep : Char) : String × String :=
  (String.ofList (s.toList.takeWhile (· ≠ sep)),
    String.ofList ((s.toList.dropWhile (· ≠ sep)).drop 1))

/-- `s.lower()`, as far as a comparison with an ASCII text can see it. -/
def lower (s : String) : String := String.ofList (s.toList.map Char.toLower)

/-- `c.isspace()`. -/
def isSpace (c : Char) : Bool :=
  let n := c.toNat
  9 ≤ n ∧ n ≤ 13 ∨ 28 ≤ n ∧ n ≤ 32 ∨ n = 0x85 ∨ n = 0xA0 ∨ n = 0x1680 ∨ 0x2000 ≤ n ∧ n ≤ 0x200A ∨
    n ∈ [0x2028, 0x2029, 0x202F, 0x205F, 0x3000]

/-- `s.strip(…)`. -/
def strip (p : Char → Bool) (s : String) : String :=
  String.ofList ((s.toList.dropWhile p).rdropWhile p)

/-! ## Dictionaries -/

section
variable {α : Type}

def setItem (d : List (String × α)) (k : String) (v : α) : List (String × α) :=
  if d.any (·.1 = k) then d.map fun x => if x.1 = k then (k, v) else x else d ++ [(k, v)]

def dict (pairs : List (String × α)) : List (String × α) :=
  pairs.foldl (fun d x => setItem d x.1 x.2) []

def get? (d : List (String × α)) (k : String) : Option α := (d.find? (·.1 = k)).map (·.2)

end

/-- The values that the handler passes to `json.dumps`. -/
inductive Json where
  | str (s : String)
  | bool (b : Bool)
  | int (n : ℤ)
  | float (bits : BitVec 64)
  | dict (items : List (String × Json))

/-! ## The library -/

/-- The methods of the server. -/
inductive Command where
  | get | post | put | patch | delete | options | head
  deriving DecidableEq

def Command.name : Command → String
  | get => "GET" | post => "POST" | put => "PUT" | patch => "PATCH" | delete => "DELETE"
  | options => "OPTIONS" | head => "HEAD"

/-- What `parse_request` leaves in the handler. -/
structure Request where
  command : Command
  path : String
  headers : List (String × String)
  deriving DecidableEq

structure SplitResult where
  path : String
  query : String
  deriving DecidableEq

/-- Texts that the library puts into a response. -/
abbrev LineText := {s : String // IsLatin1 s.toList ∧ OneLine s.toList}

/-- `parse_qs` has no name without a value. -/
abbrev Values := {values : List String // values ≠ []}

/-- Functions of the library. `date` and `compress` depend on the time, which is counted in
responses. -/
structure Library where
  parseRequest : Bytes → Option (Request × Bytes)
  phrase : ℤ → LineText
  server : LineText
  date : ℕ → LineText
  urlsplit : String → Except PyExc SplitResult
  parseQs : String → List (String × Values)
  int : String → Except PyExc ℤ
  float : String → Except PyExc (BitVec 64)
  sleep : BitVec 64 → Except PyExc Unit
  dumps : Json → String
  b64encode : Bytes → String
  md5 : Bytes → String
  compress : ℕ → Bytes → Bytes

/-- What `int` makes of a decimal number is that number. -/
def Library.ReadsDecimals (lib : Library) : Prop :=
  ∀ text n k, Http.decimal? text.toList = some n → lib.int text = .ok k → k = n

/-! ## The connection -/

structure Conn where
  rfile : Bytes
  headersBuffer : List Bytes
  wfile : Bytes
  clock : ℕ
  deriving DecidableEq

abbrev HandlerM := Exec Conn PyExc

def utf8 (s : String) : Bytes := s.toUTF8.data.toList

def write (b : Bytes) : HandlerM Unit := fun c => (.ok (), { c with wfile := c.wfile ++ b })

/-- A negative size reads to the end. -/
def read (size : ℤ) : HandlerM Bytes := fun c =>
  if size < 0 then (.ok c.rfile, { c with rfile := [] })
  else (.ok (c.rfile.take size.toNat), { c with rfile := c.rfile.drop size.toNat })

def clock : HandlerM ℕ := fun c => (.ok c.clock, c)

def append (line : Bytes) : HandlerM Unit := fun c =>
  (.ok (), { c with headersBuffer := c.headersBuffer ++ [line] })

/-- `_headers_buffer.append(f"{text}\r\n".encode("latin-1", "strict"))`. -/
def sendLine (text : String) : HandlerM Unit :=
  if IsLatin1 text.toList then append (encode text.toList ++ crlf)
  else raise (.other "UnicodeEncodeError")

def sendHeader (keyword value : String) : HandlerM Unit := sendLine (keyword ++ ": " ++ value)

/-- `for k, v in headers: self.send_header(k, v)`. -/
def sendHeaders : List (String × String) → HandlerM Unit
  | [] => pure ()
  | h :: headers => do
    sendHeader h.1 h.2
    sendHeaders headers

def sendResponseOnly (lib : Library) (code : ℤ) : HandlerM Unit :=
  sendLine ("HTTP/1.1 " ++ toString code ++ " " ++ (lib.phrase code).1)

def dateTimeString (lib : Library) : HandlerM String := fun c =>
  (.ok (lib.date c.clock).1, { c with clock := c.clock + 1 })

def sendResponse (lib : Library) (code : ℤ) : HandlerM Unit := do
  sendResponseOnly lib code
  sendHeader "Server" lib.server.1
  sendHeader "Date" (← dateTimeString lib)

def endHeaders : HandlerM Unit := fun c =>
  (.ok (), { c with headersBuffer := [], wfile := c.wfile ++ (c.headersBuffer ++ [crlf]).flatten })

/-- `self.headers.get(name)`. -/
def Request.header? (self : Request) (name : String) : Option String :=
  (self.headers.find? fun h => lower h.1 = lower name).map (·.2)

/-- A status, the headers before the length of the body, that length, and the headers after it. -/
def sendHead (lib : Library) (status : ℤ) (before : List (String × String)) (length : ℕ)
    (after : List (String × String)) : HandlerM Unit := do
  sendResponse lib status
  sendHeaders before
  sendHeader "Content-Length" (toString length)
  sendHeaders after
  endHeaders

/-! ## `_Handler` -/

def digestRealm : String := "suite-de-testes"

def digestNonce : String := "d1e9a7c6b5f4e3d2c1b0a9988776655"

def parseAuthorizationPairs (headerValue : String) : List (String × String) :=
  dict ((split (partition headerValue ' ').2 ',').filterMap fun item =>
    let item := strip isSpace item
    if '=' ∈ item.toList then
      let (key, value) := partition item '='
      some (strip isSpace key, strip (· = '"') (strip isSpace value))
    else none)

def expectedDigestResponse (lib : Library) (username password method uri nc cnonce : String) :
    String :=
  let md5 := fun text => lib.md5 (utf8 text)
  let ha1 := md5 s!"{username}:{digestRealm}:{password}"
  let ha2 := md5 s!"{method}:{uri}"
  md5 s!"{ha1}:{digestNonce}:{nc}:{cnonce}:auth:{ha2}"

def sendJson (lib : Library) (status : ℤ) (payload : Json)
    (extraHeaders : List (String × String) := []) : HandlerM Unit := do
  let body := utf8 (lib.dumps payload)
  sendHead lib status [("Content-Type", "application/json")] body.length extraHeaders
  write body

/-- `int(self.headers.get("Content-Length", 0) or 0)`. -/
def contentLength (lib : Library) (self : Request) : Except PyExc ℤ :=
  match self.header? "Content-Length" with
  | none => .ok 0
  | some value => if value = "" then .ok 0 else lib.int value

def readBody (lib : Library) (self : Request) : HandlerM Bytes := do
  let length ← ofExcept (contentLength lib self)
  if length = 0 then pure [] else read length

def echoPayload (lib : Library) (self : Request) (method : String) : HandlerM Json := do
  let parsed ← ofExcept (lib.urlsplit self.path)
  let body ← readBody lib self
  let decodedBody := (String.fromUTF8? ⟨body.toArray⟩).getD (lib.b64encode body)
  return .dict [
    ("method", .str method),
    ("path", .str parsed.path),
    ("args", .dict ((lib.parseQs parsed.query).map fun x => (x.1, .str (x.2.1.getLast x.2.2)))),
    ("headers", .dict (dict (self.headers.map fun h => (h.1, .str h.2)))),
    ("body", .str decodedBody),
    ("body_length", .int body.length)]

/-- A response without a body that sends the client elsewhere. -/
def redirect (lib : Library) (status : ℤ) (location : String)
    (cookies : List (String × String) := []) : HandlerM Unit :=
  sendHead lib status (("Location", location) :: cookies) 0 []

/-- `qs.get("to", ["/echo"])[0]`. -/
def crossHostTarget (qs : List (String × Values)) : String :=
  ((get? qs "to").map fun values => values.1.head values.2).getD "/echo"

def setCookies (qs : List (String × Values)) : List (String × String) :=
  qs.map fun x => ("Set-Cookie", s!"{x.1}={x.2.1.getLast x.2.2}; Path=/")

/-- `qs.get("bytes", ["20000"])[0]`. -/
def largeBytes (qs : List (String × Values)) : String :=
  ((get? qs "bytes").map fun values => values.1.head values.2).getD "20000"

def basicAuth (lib : Library) (self : Request) (user pwd : String) : HandlerM Unit := do
  let auth := (self.header? "Authorization").getD ""
  let expected := "Basic " ++ lib.b64encode (utf8 s!"{user}:{pwd}")
  let _ ← readBody lib self
  if auth = expected then
    sendJson lib 200 (.dict [("authenticated", .bool true), ("user", .str user)])
  else
    sendJson lib 401 (.dict [("authenticated", .bool false)])
      [("WWW-Authenticate", "Basic realm=\"fake\"")]

def digestAuth (lib : Library) (self : Request) (method path user pwd : String) :
    HandlerM Unit := do
  let auth := (self.header? "Authorization").getD ""
  let _ ← readBody lib self
  if startswith (lower auth) "digest " then
    let fields := parseAuthorizationPairs auth
    let expected := expectedDigestResponse lib user pwd method ((get? fields "uri").getD path)
      ((get? fields "nc").getD "0") ((get? fields "cnonce").getD "")
    if get? fields "response" = some expected ∧ get? fields "username" = some user then
      sendJson lib 200 (.dict [("authenticated", .bool true), ("user", .str user)])
    else
      sendJson lib 401 (.dict [("authenticated", .bool false)])
  else
    sendJson lib 401 (.dict [("authenticated", .bool false)])
      [("WWW-Authenticate",
        s!"Digest realm=\"{digestRealm}\", nonce=\"{digestNonce}\", qop=\"auth\"")]

/-- The two parts of `path` after the name of the route, where there are two. -/
def credentials (path : String) : Except PyExc (String × String) :=
  match split path '/' with
  | [_, _, user, pwd] => .ok (user, pwd)
  | _ => .error (.other "ValueError")

def gzipPayload : Json := .dict [("gzipped", .bool true), ("content", .str "conteudo-original")]

/-- `b"x" * size`, for a size of at most `sys.maxsize`. -/
def repeatX (size : ℤ) : Except PyExc Bytes :=
  if size ≤ 0x7FFFFFFFFFFFFFFF then .ok (List.replicate size.toNat 120)
  else .error (.other "OverflowError")

def dispatch (lib : Library) (self : Request) (method : String) : HandlerM Unit := do
  let parsed ← ofExcept (lib.urlsplit self.path)
  let path := parsed.path
  let qs := lib.parseQs parsed.query
  if path = "/echo" then
    let payload ← echoPayload lib self method
    sendJson lib 200 payload
  else if startswith path "/status/" then
    let code ← ofExcept (lib.int (afterLast path '/'))
    let _ ← readBody lib self
    sendHead lib code [] 0 []
  else if startswith path "/redirect/" then
    let _ ← readBody lib self
    let n ← ofExcept (lib.int (afterLast path '/'))
    redirect lib 302 (if n > 1 then s!"/redirect/{n - 1}" else "/echo")
  else if path = "/redirect-303-see-other" then
    let _ ← readBody lib self
    redirect lib 303 "/echo"
  else if path = "/redirect-301-permanent" then
    let _ ← readBody lib self
    redirect lib 301 "/echo"
  else if path = "/redirect-307-temporary" then
    let _ ← readBody lib self
    redirect lib 307 "/echo"
  else if path = "/redirect-308-permanent-preserva" then
    let _ ← readBody lib self
    redirect lib 308 "/echo"
  else if path = "/redirect-cross-host" then
    let _ ← readBody lib self
    redirect lib 302 (crossHostTarget qs)
  else if path = "/cookies/set" then
    let _ ← readBody lib self
    redirect lib 302 "/cookies" (setCookies qs)
  else if path = "/cookies" then
    let cookieHeader := (self.header? "Cookie").getD ""
    sendJson lib 200 (.dict [("cookie_header_received", .str cookieHeader)])
  else if startswith path "/basic-auth/" then
    let (user, pwd) ← ofExcept (credentials path)
    basicAuth lib self user pwd
  else if startswith path "/digest-auth/" then
    let (user, pwd) ← ofExcept (credentials path)
    digestAuth lib self method path user pwd
  else if path = "/gzip" then
    let payload := utf8 (lib.dumps gzipPayload)
    let compressed := lib.compress (← clock) payload
    let _ ← readBody lib self
    sendHead lib 200 [("Content-Type", "application/json"), ("Content-Encoding", "gzip")]
      compressed.length []
    write compressed
  else if startswith path "/delay/" then
    let seconds ← ofExcept (lib.float (afterLast path '/'))
    let _ ← readBody lib self
    ofExcept (lib.sleep seconds)
    sendJson lib 200 (.dict [("delayed_seconds", .float seconds)])
  else if path = "/large" then
    let _ ← readBody lib self
    let size ← ofExcept (lib.int (largeBytes qs))
    let body ← ofExcept (repeatX size)
    sendHead lib 200 [("Content-Type", "application/octet-stream")] body.length []
    write body
  else
    let _ ← readBody lib self
    sendJson lib 404
      (.dict [("error", .str "rota nao mapeada no servidor de teste"), ("path", .str path)])

section
variable (lib : Library) (self : Request)

def doGET : HandlerM Unit := dispatch lib self "GET"

def doPOST : HandlerM Unit := dispatch lib self "POST"

def doPUT : HandlerM Unit := dispatch lib self "PUT"

def doPATCH : HandlerM Unit := dispatch lib self "PATCH"

def doDELETE : HandlerM Unit := dispatch lib self "DELETE"

def doOPTIONS : HandlerM Unit := dispatch lib self "OPTIONS"

def doHEAD : HandlerM Unit := dispatch lib self "HEAD"

/-- `getattr(self, "do_" + self.command)()`. -/
def doMethod : HandlerM Unit :=
  match self.command with
  | .get => doGET lib self
  | .post => doPOST lib self
  | .put => doPUT lib self
  | .patch => doPATCH lib self
  | .delete => doDELETE lib self
  | .options => doOPTIONS lib self
  | .head => doHEAD lib self

theorem doMethod_eq : doMethod lib self = dispatch lib self self.command.name := by
  unfold doMethod
  cases self.command <;> rfl

end

/-! ## `BaseHTTPRequestHandler` -/

/-- `handle_expect_100`, where the request asks for it. -/
def handleExpect100 (lib : Library) (self : Request) : HandlerM Unit :=
  if lower ((self.header? "Expect").getD "") = "100-continue" then do
    sendResponseOnly lib 100
    endHeaders
  else pure ()

/-- `parse_request`: nothing where the connection has ended, or where the request is malformed. -/
def readRequest (lib : Library) : HandlerM (Option Request) := fun c =>
  match lib.parseRequest c.rfile with
  | none => (.ok none, c)
  | some (self, rest) => (.ok (some self), { c with rfile := rest })

/-- At most `n` requests of a persistent connection. -/
def handle (lib : Library) : ℕ → HandlerM Unit
  | 0 => pure ()
  | n + 1 => do
    match ← readRequest lib with
    | none => pure ()
    | some self =>
      handleExpect100 lib self
      doMethod lib self
      handle lib n

end Handler

end MutationTest

import MutationTest.Handler
import MutationTest.Theory.Rewriting

/-! # The digest client

`HTTPDigestAuth` of Requests, with the functions that read a challenge, against the server of the
suite. One `exchange` is a request and its response; a `request` of a session makes one, or two
where the server challenges it. The state of the client is that of one thread. -/

namespace MutationTest.DigestAuth
open Exec (raise ofExcept)
open Rewriting (replaceAll)
open Handler (Library Command SplitResult lower strip isSpace partition split setItem get? utf8)
open Http (Bytes IsLatin1 OneLine fieldName fieldValue)

/-! ## Lists in header fields -/

/-- The loop of `parse_http_list`; `part` is the element that is being read. -/
def httpListLoop (escape quote : Bool) (part : List Char) : List Char → List (List Char)
  | [] => if part = [] then [] else [part]
  | cur :: s =>
    if escape then httpListLoop false quote (part ++ [cur]) s
    else if quote then
      if cur = '\\' then httpListLoop true quote part s
      else httpListLoop false (cur ≠ '"') (part ++ [cur]) s
    else if cur = ',' then part :: httpListLoop false false [] s
    else httpListLoop false (cur = '"') (part ++ [cur]) s

def parseHttpList (s : String) : List String :=
  (httpListLoop false false [] s.toList).map fun part => strip isSpace (String.ofList part)

/-- `value[:1] == value[-1:] == '"'`. -/
def isQuoted (value : List Char) : Bool := value.head? = some '"' ∧ value.getLast? = some '"'

/-- `value[1:-1]`. -/
def inner (value : List Char) : List Char := value.tail.dropLast

def unquoteHeaderValue (value : List Char) : List Char :=
  if isQuoted value then
    replaceAll ['\\', '"'] ['"'] (replaceAll ['\\', '\\'] ['\\'] (inner value))
  else value

/-- The value is `None` where there is no `=`. -/
def parseDictHeader (value : String) : List (String × Option String) :=
  (parseHttpList value).foldl (fun result item =>
    if '=' ∈ item.toList then
      let (name, value) := partition item '='
      let value := if isQuoted value.toList then
        String.ofList (unquoteHeaderValue (inner value.toList)) else value
      setItem result name (some value)
    else setItem result item none) []

/-! ## The library -/

/-- Functions of the library, beside those of the server. `ctime` and `urandom` are those of the
`k`-th call. -/
structure Env where
  lib : Library
  urlparse : String → Except PyExc SplitResult
  sha1 : Bytes → String
  sha256 : Bytes → String
  sha512 : Bytes → String
  ctime : ℕ → String
  urandom : ℕ → Bytes

/-- `s.upper()`, as far as a comparison with an ASCII text can see it. -/
def upper (s : String) : String :=
  String.ofList (s.toList.flatMap fun c =>
    if c = 'ß' then ['S', 'S'] else if c = 'ſ' then ['S'] else [c.toUpper])

/-- `f"{n:0{width}x}"`. -/
def hexText (width n : ℕ) : String :=
  let digits := Nat.toDigits 16 n
  String.ofList (List.replicate (width - digits.length) '0' ++ digits)

/-- `f"{n:08x}"`. -/
def hex8 (n : ℕ) : String := hexText 8 n

/-- `str(value)`. -/
def pyStr (value : Option String) : String := value.getD "None"

/-! ## State -/

structure HTTPDigestAuth where
  username : String
  password : String

/-- `_thread_local`. -/
structure ThreadLocal where
  lastNonce : String := ""
  nonceCount : ℕ := 0
  chal : List (String × Option String) := []
  num401Calls : Option ℕ := none
  deriving DecidableEq

structure PreparedRequest where
  method : Command
  url : String
  headers : List (String × String)
  body : Bytes

structure Response where
  statusCode : ℕ
  fields : List (List Char)
  request : PreparedRequest

/-- An exchange: the `Authorization` of the request, and the status of the response. -/
structure Exchange where
  authorization : Option String
  statusCode : ℕ
  deriving DecidableEq

/-- `time` counts responses of the server and `draws` calls of `urandom`. -/
structure State where
  threadLocal : ThreadLocal := {}
  time : ℕ := 0
  draws : ℕ := 0
  log : List Exchange := []

abbrev M := Exec State PyExc

def readLocal : M ThreadLocal := fun s => (.ok s.threadLocal, s)

def setLocal (l : ThreadLocal) : M Unit := fun s => (.ok (), { s with threadLocal := l })

/-- `headers[name] = value`. -/
def setHeader (headers : List (String × String)) (name value : String) : List (String × String) :=
  if headers.any fun h => lower h.1 = lower name then
    headers.map fun h => if lower h.1 = lower name then (name, value) else h
  else headers ++ [(name, value)]

def PreparedRequest.authorize (r : PreparedRequest) (digestAuth : Option String) :
    PreparedRequest :=
  match digestAuth with
  | none => r
  | some value => if value = "" then r else
    { r with headers := setHeader r.headers "Authorization" value }

/-- `response.headers.get(name)`; fields of one name are joined. -/
def Response.header? (r : Response) (name : String) : Option String :=
  match r.fields.filter fun line => fieldName line = name.toList.map Char.toLower with
  | [] => none
  | lines => some (", ".intercalate (lines.map fun line => String.ofList (fieldValue line)))

/-! ## `HTTPDigestAuth` -/

def hashUtf8 (env : Env) (algorithm : String) : Option (String → String) :=
  if algorithm = "MD5" ∨ algorithm = "MD5-SESS" then some fun x => env.lib.md5 (utf8 x)
  else if algorithm = "SHA" then some fun x => env.sha1 (utf8 x)
  else if algorithm = "SHA-256" then some fun x => env.sha256 (utf8 x)
  else if algorithm = "SHA-512" then some fun x => env.sha512 (utf8 x)
  else none

/-- The path and the query of a URL. -/
def requestUri (p : SplitResult) : String :=
  (if p.path = "" then "/" else p.path) ++ (if p.query = "" then "" else "?" ++ p.query)

/-- `chal[key]`. -/
def challenge (l : ThreadLocal) (key : String) : Except PyExc (Option String) :=
  match get? l.chal key with
  | some value => .ok value
  | none => .error (.other "KeyError")

def drawCnonce (env : Env) (nonceCount : ℕ) (nonce : String) : M String := fun s =>
  let bytes := utf8 (toString nonceCount) ++ utf8 nonce ++ utf8 (env.ctime s.draws) ++
    env.urandom s.draws
  (.ok (String.ofList ((env.sha1 bytes).toList.take 16)), { s with draws := s.draws + 1 })

/-- The header, from `base` on; `response` is `respdig`. -/
def digestHeader (username realm nonce path response : String)
    (opaqueValue algorithm qop : Option String) (ncvalue cnonce : String) : String :=
  let optional := fun (name : String) (value : Option String) =>
    value.elim "" fun text => if text = "" then "" else s!", {name}=\"{text}\""
  "Digest " ++ (s!"username=\"{username}\", realm=\"{realm}\", nonce=\"{nonce}\", " ++
    s!"uri=\"{path}\", response=\"{response}\"" ++ optional "opaque" opaqueValue ++
    optional "algorithm" algorithm ++ qop.elim "" fun text =>
      if text = "" then "" else s!", qop=\"auth\", nc={ncvalue}, cnonce=\"{cnonce}\"")

def buildDigestHeader (env : Env) (auth : HTTPDigestAuth) (method url : String) :
    M (Option String) := do
  let l ← readLocal
  let realm ← ofExcept (challenge l "realm")
  let nonce ← ofExcept (challenge l "nonce")
  let qop := (get? l.chal "qop").join
  let algorithm := (get? l.chal "algorithm").join
  let opaqueValue := (get? l.chal "opaque").join
  let upperAlgorithm := algorithm.elim "MD5" upper
  match hashUtf8 env upperAlgorithm with
  | none => return none
  | some hash =>
    let path := requestUri (← ofExcept (env.urlparse url))
    let ha1 := hash s!"{auth.username}:{pyStr realm}:{auth.password}"
    let ha2 := hash s!"{method}:{path}"
    let nonceCount := if nonce = some l.lastNonce then l.nonceCount + 1 else 1
    setLocal { l with nonceCount := nonceCount }
    match nonce with
    | none => raise (.other "AttributeError")
    | some nonce =>
      let cnonce ← drawCnonce env nonceCount nonce
      let ha1 := if upperAlgorithm = "MD5-SESS" then hash s!"{ha1}:{nonce}:{cnonce}" else ha1
      let ncvalue := hex8 nonceCount
      if qop = none ∨ qop = some "" then
        setLocal { l with nonceCount := nonceCount, lastNonce := nonce }
        return some (digestHeader auth.username (pyStr realm) nonce path
          (hash s!"{ha1}:{nonce}:{ha2}") opaqueValue algorithm qop ncvalue cnonce)
      else if qop = some "auth" ∨ "auth" ∈ split (pyStr qop) ',' then
        setLocal { l with nonceCount := nonceCount, lastNonce := nonce }
        return some (digestHeader auth.username (pyStr realm) nonce path
          (hash s!"{ha1}:{nonce}:{ncvalue}:{cnonce}:auth:{ha2}") opaqueValue algorithm qop ncvalue
          cnonce)
      else return none

/-- A request to the server of the suite on a connection of its own. -/
def exchange (env : Env) (prep : PreparedRequest) : M Response := fun s =>
  match env.lib.urlsplit prep.url with
  | .error e => raise e s
  | .ok p =>
    if ¬∀ h ∈ prep.headers, IsLatin1 h.2.toList then raise (.other "UnicodeEncodeError") s
    else if ¬∀ h ∈ prep.headers, OneLine h.2.toList then raise (.other "ValueError") s
    else
    let request : Handler.Request := ⟨prep.method, requestUri p, prep.headers⟩
    match Handler.doMethod env.lib request ⟨prep.body, [], [], s.time⟩ with
    | (.ok (), c) =>
      match Http.readMessage (prep.method = .head) c.wfile with
      | some (m, _) =>
        let status := (Http.status? m.start).getD 0
        (.ok ⟨status, m.fields, prep⟩, { s with
          time := c.clock
          log := s.log ++ [⟨request.header? "Authorization", status⟩] })
      | none => raise (.other "ConnectionError") s
    | _ => raise (.other "ConnectionError") s

/-- `re.compile(r"digest ", flags=re.IGNORECASE).sub("", s_auth, count=1)`, for the Latin-1 text of
a field. -/
def dropScheme : List Char → List Char
  | [] => []
  | c :: s =>
    if ((c :: s).take 7).map Char.toLower = "digest ".toList then (c :: s).drop 7
    else c :: dropScheme s

def handleRedirect (r : Response) : M Unit := do
  let l ← readLocal
  if r.header? "location" ≠ none ∧ r.statusCode ∈ [301, 302, 303, 307, 308] then
    setLocal { l with num401Calls := some 1 }

/-- The body is read to its end and the connection released, which has no effect here. -/
def handle401 (env : Env) (auth : HTTPDigestAuth) (r : Response) : M Response := do
  let l ← readLocal
  if ¬(400 ≤ r.statusCode ∧ r.statusCode < 500) then
    setLocal { l with num401Calls := some 1 }
    return r
  else
    let sAuth := (r.header? "www-authenticate").getD ""
    if "digest".toList <:+: (lower sAuth).toList then
      match l.num401Calls with
      | none => raise (.other "TypeError")
      | some calls =>
        if calls < 2 then
          setLocal { l with
            num401Calls := some (calls + 1)
            chal := parseDictHeader (String.ofList (dropScheme sAuth.toList)) }
          let digestAuth ← buildDigestHeader env auth r.request.method.name r.request.url
          exchange env (r.request.authorize digestAuth)
        else
          setLocal { l with num401Calls := some 1 }
          return r
    else
      setLocal { l with num401Calls := some 1 }
      return r

/-- `__call__`. -/
def call (env : Env) (auth : HTTPDigestAuth) (r : PreparedRequest) : M PreparedRequest := do
  let l ← readLocal
  let digestAuth ← if l.lastNonce ≠ "" then buildDigestHeader env auth r.method.name r.url
    else pure none
  let l ← readLocal
  setLocal { l with num401Calls := some 1 }
  return r.authorize digestAuth

/-! ## Sessions

A request of a session has one exchange before its hooks, and the hooks have at most one more.
Between exchanges, other threads may run; each has a `_thread_local` of its own. -/

structure Thread where
  threadLocal : ThreadLocal := {}
  todo : List PreparedRequest
  /-- A response that the hooks have not seen. -/
  received : Option Response := none
  responses : List Response := []
  log : List Exchange := []
  raised : Option PyExc := none

/-- The part of a request up to its first exchange, or the two hooks that `__call__` registers. -/
def Thread.advance (env : Env) (auth : HTTPDigestAuth) (t : Thread) : M Thread :=
  match t.received, t.todo with
  | some r, _ => do
    let r ← handle401 env auth r
    handleRedirect r
    return { t with received := none, responses := t.responses ++ [r] }
  | none, r :: todo => do
    let r ← exchange env (← call env auth r)
    return { t with received := some r, todo := todo }
  | none, [] => return t

/-- Threads that share one `HTTPDigestAuth`. -/
structure World (ι : Type) where
  threads : ι → Thread
  time : ℕ := 0
  draws : ℕ := 0

variable {ι : Type} [DecidableEq ι]

def World.step (env : Env) (auth : HTTPDigestAuth) (w : World ι) (i : ι) : World ι :=
  let t := w.threads i
  if t.raised ≠ none then w
  else
    let (result, s) := t.advance env auth ⟨t.threadLocal, w.time, w.draws, t.log⟩
    let t := match result with
      | .ok t => t
      | .raised e => { t with raised := some e }
      | .killed => t
    { threads := Function.update w.threads i { t with threadLocal := s.threadLocal, log := s.log }
      time := s.time
      draws := s.draws }

def World.run (env : Env) (auth : HTTPDigestAuth) (w : World ι) (schedule : List ι) : World ι :=
  schedule.foldl (World.step env auth) w

def World.start (todo : ι → List PreparedRequest) : World ι where
  threads i := { todo := todo i }

end MutationTest.DigestAuth

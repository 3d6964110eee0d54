import MutationTest.Verify.DigestHeader
import MutationTest.Verify.Routes

/-! # One exchange of the digest client

A request to the digest route of the server (`Login`) is challenged without a header
(`exchange_request`); with the header of the client, it is accepted where the server computes the
same response (`exchange_authorized`). The hooks of the client follow from there. -/

namespace MutationTest.DigestAuth
open Http Handler

/-! ## The server -/

/-- The challenge of the server. -/
def challengeText : String :=
  "Digest realm=\"suite-de-testes\", nonce=\"d1e9a7c6b5f4e3d2c1b0a9988776655\", qop=\"auth\""

theorem challengeText_eq :
    s!"Digest realm=\"{digestRealm}\", nonce=\"{digestNonce}\", qop=\"auth\"" = challengeText := by
  decide +kernel

theorem challengeText_spec : challengeText.toList.head? = some 'D' ∧
    challengeText.toList.getLast? = some '"' ∧ IsLatin1 challengeText.toList ∧
    OneLine challengeText.toList ∧
    ['d', 'i', 'g', 'e', 's', 't'] <+: challengeText.toList.map Char.toLower := by
  have hletters : challengeText.toList = _ := String.toList_ofList
  rw [hletters]
  decide +kernel

abbrev jsonType : List (String × String) := [("Content-Type", "application/json")]

section
variable {lib : Library} {self : Request} {body : Bytes} {t : ℕ} {method path user pwd : String}
  (hlength : contentLength lib self = .ok body.length)

theorem sendJson_eq {status : ℕ} {payload : Json} {after : List (String × String)}
    (hafter : ∀ x ∈ after, IsLatin1 (headerLine x)) :
    sendJson lib status payload after ⟨[], [], [], t⟩ =
      (.ok (), ⟨[], [], (response lib t status jsonType (utf8 (lib.dumps payload)) after).bytes,
        t + 1⟩) := by
  have htype : ∀ x ∈ jsonType, IsLatin1 (headerLine x) :=
    List.forall_mem_singleton.mpr (isLatin1_headerLine (by decide) (by decide))
  rw [sendJson, Exec.bind_ok (sendHead_eq status htype hafter (utf8 (lib.dumps payload)) [] [] t)]
  simp [write, Message.bytes, response]

include hlength

theorem readBody_whole : readBody lib self ⟨body, [], [], t⟩ = (.ok body, ⟨[], [], [], t⟩) := by
  have h := readBody_eq (r := ⟨[], self, body⟩) hlength [] [] [] t
  rwa [List.append_nil] at h

theorem digestAuth_absent (h : self.header? "Authorization" = none) :
    digestAuth lib self method path user pwd ⟨body, [], [], t⟩ =
      sendJson lib (401 : ℕ) (.dict [("authenticated", .bool false)])
        [("WWW-Authenticate", challengeText)] ⟨[], [], [], t⟩ := by
  rw [digestAuth, Exec.bind_ok (readBody_whole hlength), h, Option.getD_none,
    if_neg (by decide), challengeText_eq]
  rfl

theorem digestAuth_written {username uri reply nc cnonce : String}
    (h : self.header? "Authorization" =
      some ("Digest " ++ rendered (written username uri reply nc cnonce)))
    (husername : Clean username) (huri : Clean uri) (hreply : Clean reply) (hnc : IsHex nc)
    (hne : nc.toList ≠ []) (hcnonce : Clean cnonce) :
    digestAuth lib self method path user pwd ⟨body, [], [], t⟩ =
      if reply = expectedDigestResponse lib user pwd method uri nc cnonce ∧ username = user then
        sendJson lib (200 : ℕ) (.dict [("authenticated", .bool true), ("user", .str user)]) []
          ⟨[], [], [], t⟩
      else sendJson lib (401 : ℕ) (.dict [("authenticated", .bool false)]) [] ⟨[], [], [], t⟩ := by
  have hscheme : ∀ s : String, startswith (lower ("Digest " ++ s)) "digest " := by
    intro s
    simp [startswith, lower]
  rw [digestAuth, Exec.bind_ok (readBody_whole hlength), h, Option.getD_some, if_pos (hscheme _),
    parseAuthorizationPairs_written husername huri hreply hnc hne hcnonce]
  simp only [get?, List.find?]
  simp
  split <;> rfl

omit hlength in
/-- The request is led to the route, whatever else it is. -/
theorem doMethod_digest {parsed : SplitResult} (hurl : lib.urlsplit self.path = .ok parsed)
    (hroute : startswith parsed.path "/digest-auth/")
    (hcredentials : credentials parsed.path = .ok (user, pwd)) (c : Conn) :
    doMethod lib self c = digestAuth lib self self.command.name parsed.path user pwd c := by
  -- the routes before this one differ from it in the second character
  have hsecond : parsed.path.toList[1]? = some 'd' := by
    obtain ⟨rest, hrest⟩ := List.isPrefixOf_iff_prefix.mp hroute
    rw [← hrest]
    simp
  have hnot : ∀ {s : String}, s.toList[1]?.any (· ≠ 'd') → ¬startswith parsed.path s := by
    intro s hs h
    obtain ⟨c, hc, hd⟩ := (Option.any_eq_true _ _).mp hs
    obtain ⟨rest, hrest⟩ := List.isPrefixOf_iff_prefix.mp h
    rw [← hrest, List.getElem?_append_left (List.getElem?_eq_some_iff.mp hc).1, hc] at hsecond
    exact of_decide_eq_true hd (Option.some.inj hsecond)
  have hne : ∀ {s : String}, s.toList[1]?.any (· ≠ 'd') → parsed.path ≠ s := by
    intro s hs he
    exact hnot hs (he ▸ List.isPrefixOf_iff_prefix.mpr (List.prefix_refl _))
  rw [doMethod_eq, dispatch, hurl, Exec.ofExcept_ok, Exec.bind_ok (Exec.pure_apply _ _)]
  dsimp only
  rw [if_neg (hne (by simp)), if_neg (hnot (by simp)), if_neg (hnot (by simp)),
    if_neg (hne (by simp)), if_neg (hne (by simp)), if_neg (hne (by simp)), if_neg (hne (by simp)),
    if_neg (hne (by simp)), if_neg (hne (by simp)), if_neg (hne (by simp)),
    if_neg (hnot (by simp)), if_pos hroute, hcredentials, Exec.ofExcept_ok,
    Exec.bind_ok (Exec.pure_apply _ _)]

end

/-! ## One exchange -/

/-- The response of the server at time `t`. -/
def answer (lib : Library) (t status : ℕ) (payload : Json) (after : List (String × String)) :
    Message :=
  response lib t status jsonType (utf8 (lib.dumps payload)) after

/-- The headers can be sent. -/
def Sendable (headers : List (String × String)) : Prop :=
  ∀ h ∈ headers, IsLatin1 h.2.toList ∧ OneLine h.2.toList

section
variable {env : Env} {r : PreparedRequest} {s : State} {p : SplitResult} {status : ℕ}
  {payload : Json} {after : List (String × String)}

theorem answer_framed (hstatus : status = 200 ∨ status = 401)
    (hafter : ∀ x ∈ after, Safe x ∧ IsLatin1 (headerLine x)) (t : ℕ) :
    (answer env.lib t status payload after).Framed false := by
  have htype : ∀ x ∈ jsonType, Safe x ∧ IsLatin1 (headerLine x) :=
    List.forall_mem_singleton.mpr
      ⟨⟨by decide, by decide⟩, isLatin1_headerLine (by decide) (by decide)⟩
  rcases hstatus with rfl | rfl <;>
    exact response_framed (by decide) (by decide) htype hafter (by simp)

theorem status?_answer (hstatus : status = 200 ∨ status = 401) (t : ℕ) :
    status? (answer env.lib t status payload after).start = some status := by
  rcases hstatus with rfl | rfl <;> exact status?_response (by decide) (by decide)

theorem exchange_eq (hurl : env.lib.urlsplit r.url = .ok p) (hsend : Sendable r.headers)
    (hstatus : status = 200 ∨ status = 401)
    (hafter : ∀ x ∈ after, Safe x ∧ IsLatin1 (headerLine x))
    (hserve : doMethod env.lib ⟨r.method, requestUri p, r.headers⟩ ⟨r.body, [], [], s.time⟩ =
      sendJson env.lib status payload after ⟨[], [], [], s.time⟩) :
    exchange env r s =
      (.ok ⟨status, (answer env.lib s.time status payload after).fields, r⟩,
        { s with
          time := s.time + 1
          log := s.log ++ [⟨(⟨r.method, requestUri p, r.headers⟩ : Request).header? "Authorization",
            status⟩] }) := by
  have hlatin : ∀ h ∈ r.headers, IsLatin1 h.2.toList := fun h hh => (hsend h hh).1
  have hline : ∀ h ∈ r.headers, OneLine h.2.toList := fun h hh => (hsend h hh).2
  have hframed : (answer env.lib s.time status payload after).Framed false :=
    answer_framed hstatus hafter s.time
  have hread : ∃ body rest, readMessage (r.method = .head)
      (answer env.lib s.time status payload after).bytes =
        some (⟨(answer env.lib s.time status payload after).start,
          (answer env.lib s.time status payload after).fields, body⟩, rest) := by
    by_cases hhead : r.method = .head
    · have h := readMessage_head hframed []
      rw [List.append_nil] at h
      exact ⟨_, _, by rw [decide_eq_true hhead, h]⟩
    · have h := readMessage_append hframed []
      rw [List.append_nil] at h
      exact ⟨_, _, by rw [decide_eq_false hhead, h]⟩
  obtain ⟨body, rest, hread⟩ := hread
  have hsent : sendJson env.lib status payload after ⟨[], [], [], s.time⟩ = _ :=
    sendJson_eq fun x hx => (hafter x hx).2
  have hcode : status? (answer env.lib s.time status payload after).start = some status :=
    status?_answer hstatus s.time
  rw [exchange, hurl]
  simp only [if_neg (not_not.mpr hlatin), if_neg (not_not.mpr hline), hserve, hsent]
  rw [answer] at hread hcode
  simp only [hread, hcode]
  rfl

end

/-! ## The client -/

/-- What the client keeps of the challenge. -/
def keptChallenge : List (String × Option String) :=
  [("realm", some digestRealm), ("nonce", some digestNonce), ("qop", some "auth")]

theorem filter_fieldName {headers : List (String × String)}
    (h : ∀ x ∈ headers, x.1 ∈ "Content-Length" :: headerNames) (name : List Char) :
    (headers.map headerLine).filter (fun line => fieldName line = name) =
      (headers.filter fun x => x.1.toList.map Char.toLower = name).map headerLine := by
  rw [List.filter_map]
  refine congrArg (List.map headerLine) (List.filter_congr fun x hx => ?_)
  rw [Function.comp_apply, fieldName_headerLine (h x hx)]

section
variable {env : Env} {r : PreparedRequest} {payload : Json} {t status : ℕ}

theorem header?_challenge :
    Response.header?
      ⟨401, (answer env.lib t 401 payload [("WWW-Authenticate", challengeText)]).fields, r⟩
      "www-authenticate" = some challengeText := by
  obtain ⟨hhead, hlast, -⟩ := challengeText_spec
  have hvalue : fieldValue (headerLine ("WWW-Authenticate", challengeText)) =
      challengeText.toList :=
    fieldValue_field_of_ends (by simp)
      (fun c hc => by rw [← Option.some.inj (hhead.symm.trans hc)]; decide)
      fun c hc => by rw [← Option.some.inj (hlast.symm.trans hc)]; decide
  rw [Response.header?, answer, response, filter_fieldName (by simp [jsonType, headerNames])]
  simp [jsonType, hvalue]

theorem header?_plain :
    Response.header? ⟨status, (answer env.lib t status payload []).fields, r⟩ "www-authenticate" =
      none := by
  rw [Response.header?, answer, response, filter_fieldName (by simp [jsonType, headerNames])]
  simp [jsonType]

theorem parseDictHeader_challenge :
    parseDictHeader (String.ofList (dropScheme challengeText.toList)) = keptChallenge := by
  decide +kernel

end

section
variable {env : Env} {auth : HTTPDigestAuth} {method url : String} {q : SplitResult} {s : State}

/-- The client nonce of the next header. -/
def nextCnonce (env : Env) (nonceCount draws : ℕ) : String :=
  String.ofList ((env.sha1 (utf8 (toString nonceCount) ++ utf8 digestNonce ++
    utf8 (env.ctime draws) ++ env.urandom draws)).toList.take 16)

/-- The header with the `k`-th count for the nonce of the server. -/
def authorization (env : Env) (auth : HTTPDigestAuth) (method uri : String) (k draws : ℕ) :
    String :=
  "Digest " ++ rendered (written auth.username uri
    (expectedDigestResponse env.lib auth.username auth.password method uri (hex8 k)
      (nextCnonce env k draws)) (hex8 k) (nextCnonce env k draws))

def nextCount (l : ThreadLocal) : ℕ := if digestNonce = l.lastNonce then l.nonceCount + 1 else 1

theorem buildDigestHeader_eq (hchal : s.threadLocal.chal = keptChallenge)
    (hurl : env.urlparse url = .ok q) :
    buildDigestHeader env auth method url s =
      (.ok (some (authorization env auth method (requestUri q) (nextCount s.threadLocal) s.draws)),
        { s with
          threadLocal := { s.threadLocal with
            nonceCount := nextCount s.threadLocal
            lastNonce := digestNonce }
          draws := s.draws + 1 }) := by
  have hcount : (if digestNonce = s.threadLocal.lastNonce then s.threadLocal.nonceCount + 1
      else 1) = nextCount s.threadLocal := rfl
  simp only [authorization, ← digestHeader_eq, nextCnonce, expectedDigestResponse]
  simp [buildDigestHeader, Exec.bind_apply, readLocal, challenge, hchal, keptChallenge, get?,
    List.find?, hashUtf8, hurl, setLocal, drawCnonce, hcount, pyStr]

end

/-! ## Requests to the digest route -/

/-- A request that the server leads to its digest route, for the credentials `user` and `pwd`. -/
structure Login (env : Env) where
  request : PreparedRequest
  target : SplitResult
  parsed : SplitResult
  uri : SplitResult
  user : String
  pwd : String
  target_eq : env.lib.urlsplit request.url = .ok target
  parsed_eq : env.lib.urlsplit (requestUri target) = .ok parsed
  uri_eq : env.urlparse request.url = .ok uri
  clean : Clean (requestUri uri)
  route : startswith parsed.path "/digest-auth/"
  credentials_eq : credentials parsed.path = .ok (user, pwd)
  sendable : Sendable request.headers
  absent : (⟨request.method, requestUri target, request.headers⟩ : Request).header?
    "Authorization" = none
  length : contentLength env.lib ⟨request.method, requestUri target, request.headers⟩ =
    .ok request.body.length

/-- The digests of the library are written in hexadecimal. -/
structure Env.HexDigests (env : Env) : Prop where
  md5 : ∀ b, IsHex (env.lib.md5 b)
  sha1 : ∀ b, IsHex (env.sha1 b)

theorem Env.HexDigests.clean_nextCnonce {env : Env} (henv : env.HexDigests) (k draws : ℕ) :
    Clean (nextCnonce env k draws) := by
  refine IsHex.clean fun c hc => ?_
  rw [nextCnonce, String.toList_ofList] at hc
  exact henv.sha1 _ c (List.mem_of_mem_take hc)

section
variable {headers : List (String × String)} {name value : String}

theorem find?_setHeader_self :
    ((setHeader headers name value).find? fun h => lower h.1 = lower name).map (·.2) =
      some value := by
  unfold setHeader
  split
  next h =>
    induction headers with
    | nil => cases h
    | cons x headers ih =>
      by_cases hx : lower x.1 = lower name
      · simp [hx]
      · have htail := ih (by simpa [hx] using h)
        simpa [hx] using htail
  next h =>
    have hnone : headers.find? (fun h => lower h.1 = lower name) = none := by
      simpa using h
    rw [List.find?_append, hnone]
    simp

theorem find?_setHeader_ne {other : String} (hne : lower name ≠ lower other) :
    ((setHeader headers name value).find? fun h => lower h.1 = lower other).map (·.2) =
      (headers.find? fun h => lower h.1 = lower other).map (·.2) := by
  unfold setHeader
  split
  next h =>
    clear h
    induction headers with
    | nil => rfl
    | cons x headers ih =>
      by_cases hx : lower x.1 = lower name
      · simpa [hx, hne] using ih
      · by_cases hother : lower x.1 = lower other
        · rw [List.map_cons, if_neg hx, List.find?_cons_of_pos (by simpa using hother),
            List.find?_cons_of_pos (by simpa using hother)]
        · simpa [hx, hother] using ih
  next =>
    rw [List.find?_append]
    simp [hne]

theorem sendable_setHeader (h : Sendable headers)
    (hvalue : IsLatin1 value.toList ∧ OneLine value.toList) :
    Sendable (setHeader headers name value) := by
  intro x hx
  unfold setHeader at hx
  split at hx
  next =>
    obtain ⟨y, hy, rfl⟩ := List.mem_map.mp hx
    split
    next => exact hvalue
    next => exact h y hy
  next =>
    rcases List.mem_append.mp hx with hx | hx
    · exact h x hx
    · obtain rfl := List.mem_singleton.mp hx
      exact hvalue

end

theorem forall_rendered {P : Char → Prop} (hsep : P ',' ∧ P ' ') {pairs : List Pair}
    (h : ∀ x ∈ pairs, ∀ c ∈ x.text, P c) : ∀ c ∈ (rendered pairs).toList, P c := by
  rw [rendered, String.toList_ofList]
  induction pairs with
  | nil => simp
  | cons x pairs ih =>
    obtain ⟨hx, hpairs⟩ := List.forall_mem_cons.mp h
    cases pairs with
    | nil => simpa using hx
    | cons y pairs =>
      rw [List.map_cons, List.map_cons, List.intercalate_cons_cons, ← List.map_cons]
      refine List.forall_mem_append.mpr ⟨List.forall_mem_append.mpr ⟨hx, ?_⟩, ih hpairs⟩
      simpa using hsep

/-- The characters that may stand in a header. -/
def Visible (c : Char) : Prop := c.toNat < 256 ∧ c ≠ '\r' ∧ c ≠ '\n'

theorem visible_iff {l : List Char} : (∀ c ∈ l, Visible c) ↔ IsLatin1 l ∧ OneLine l :=
  ⟨fun h => ⟨fun c hc => (h c hc).1, fun hc => (h _ hc).2.1 rfl, fun hc => (h _ hc).2.2 rfl⟩,
    fun h c hc => ⟨h.1 c hc, fun he => h.2.1 (he ▸ hc), fun he => h.2.2 (he ▸ hc)⟩⟩

theorem Clean.visible_text {s : String} (h : Clean s) {name : List Char}
    (hname : ∀ c ∈ name, Visible c) : ∀ c ∈ Pair.text ⟨name, quoted s⟩, Visible c := by
  have hs : ∀ c ∈ s.toList, Visible c := visible_iff.mpr ⟨h.latin, h.line⟩
  refine List.forall_mem_append.mpr ⟨hname, List.forall_mem_cons.mpr ⟨by simp [Visible],
    List.forall_mem_cons.mpr ⟨by simp [Visible], List.forall_mem_append.mpr ⟨hs, ?_⟩⟩⟩⟩
  simp [Visible]

theorem visible_written {username path response nc cnonce : String} (husername : Clean username)
    (hpath : Clean path) (hresponse : Clean response) (hnc : Clean nc) (hcnonce : Clean cnonce) :
    IsLatin1 ("Digest " ++ rendered (written username path response nc cnonce)).toList ∧
      OneLine ("Digest " ++ rendered (written username path response nc cnonce)).toList := by
  rw [← visible_iff, String.toList_append, List.forall_mem_append]
  refine ⟨by simp [Visible], forall_rendered (by simp [Visible]) ?_⟩
  simp only [written, List.forall_mem_cons]
  refine ⟨husername.visible_text ?_, clean_digestRealm.visible_text ?_,
    clean_digestNonce.visible_text ?_, hpath.visible_text ?_, hresponse.visible_text ?_,
    clean_auth.visible_text ?_, List.forall_mem_append.mpr ⟨?_, List.forall_mem_cons.mpr ⟨?_,
      visible_iff.mpr ⟨hnc.latin, hnc.line⟩⟩⟩, hcnonce.visible_text ?_, by simp⟩
  all_goals simp [Visible]

namespace Login

variable {env : Env} (l : Login env) (auth : HTTPDigestAuth)

def header (k draws : ℕ) : String :=
  authorization env auth l.request.method.name (requestUri l.uri) k draws

/-- The request with a header. -/
def authorized (k draws : ℕ) : PreparedRequest :=
  { l.request with
    headers := setHeader l.request.headers "Authorization" (l.header auth k draws) }

theorem authorize_header (k draws : ℕ) :
    l.request.authorize (some (l.header auth k draws)) = l.authorized auth k draws := by
  have hne : l.header auth k draws ≠ "" := by
    intro he
    have hnil := congrArg String.toList he
    rw [header, authorization, String.toList_append] at hnil
    simp at hnil
  simp only [PreparedRequest.authorize, if_neg hne, authorized]

/-- The server computes the response of the client from its own credentials. -/
def Accepted (k draws : ℕ) : Prop :=
  expectedDigestResponse env.lib auth.username auth.password l.request.method.name
      (requestUri l.uri) (hex8 k) (nextCnonce env k draws) =
    expectedDigestResponse env.lib l.user l.pwd l.request.method.name (requestUri l.uri) (hex8 k)
      (nextCnonce env k draws) ∧ auth.username = l.user

instance decidableAccepted (k draws : ℕ) : Decidable (l.Accepted auth k draws) :=
  inferInstanceAs (Decidable (_ ∧ _))

def verdict (k draws : ℕ) : ℕ := if l.Accepted auth k draws then 200 else 401

theorem verdict_spec (k draws : ℕ) :
    l.verdict auth k draws = 200 ∨ l.verdict auth k draws = 401 := by
  unfold verdict
  split
  next => exact .inl rfl
  next => exact .inr rfl

theorem exchange_request (s : State) : ∃ payload,
    exchange env l.request s =
      (.ok ⟨401, (answer env.lib s.time 401 payload [("WWW-Authenticate", challengeText)]).fields,
        l.request⟩, { s with time := s.time + 1, log := s.log ++ [⟨none, 401⟩] }) := by
  have hafter : ∀ x ∈ [("WWW-Authenticate", challengeText)], Safe x ∧ IsLatin1 (headerLine x) :=
    List.forall_mem_singleton.mpr ⟨⟨by decide, challengeText_spec.2.2.2.1⟩,
      isLatin1_headerLine (by decide) challengeText_spec.2.2.1⟩
  have hserve := (doMethod_digest l.parsed_eq l.route l.credentials_eq
    ⟨l.request.body, [], [], s.time⟩).trans (digestAuth_absent l.length l.absent)
  have hsent := exchange_eq l.target_eq l.sendable (.inr rfl) hafter hserve
  rw [l.absent] at hsent
  exact ⟨_, hsent⟩

variable (henv : env.HexDigests) (hname : Clean auth.username)
include henv hname

theorem serve_authorized (k draws t : ℕ) : ∃ payload,
    doMethod env.lib ⟨l.request.method, requestUri l.target, (l.authorized auth k draws).headers⟩
      ⟨l.request.body, [], [], t⟩ =
      sendJson env.lib (l.verdict auth k draws) payload [] ⟨[], [], [], t⟩ := by
  have hlength : contentLength env.lib
      ⟨l.request.method, requestUri l.target, (l.authorized auth k draws).headers⟩ =
        .ok l.request.body.length := by
    rw [← l.length, contentLength, contentLength, Request.header?, Request.header?, authorized,
      find?_setHeader_ne (by simp [lower])]
  rw [doMethod_digest l.parsed_eq l.route l.credentials_eq,
    digestAuth_written hlength find?_setHeader_self hname l.clean (henv.md5 _).clean (isHex_hex8 k)
      (hex8_ne_nil k) (henv.clean_nextCnonce k draws), verdict]
  by_cases haccept : l.Accepted auth k draws
  · rw [if_pos haccept]
    exact ⟨_, if_pos haccept⟩
  · rw [if_neg haccept]
    exact ⟨_, if_neg haccept⟩

theorem exchange_authorized (k draws : ℕ) (s : State) : ∃ payload,
    exchange env (l.authorized auth k draws) s =
      (.ok ⟨l.verdict auth k draws,
        (answer env.lib s.time (l.verdict auth k draws) payload []).fields,
        l.authorized auth k draws⟩, { s with
          time := s.time + 1
          log := s.log ++ [⟨some (l.header auth k draws), l.verdict auth k draws⟩] }) := by
  obtain ⟨payload, hserve⟩ := l.serve_authorized auth henv hname k draws s.time
  have hsend : Sendable (l.authorized auth k draws).headers :=
    sendable_setHeader l.sendable (visible_written hname l.clean (henv.md5 _).clean
      (isHex_hex8 k).clean (henv.clean_nextCnonce k draws))
  have hsent := exchange_eq (r := l.authorized auth k draws) l.target_eq hsend
    (l.verdict_spec auth k draws) (by simp) hserve
  have hheader : Request.header? ⟨(l.authorized auth k draws).method, requestUri l.target,
      (l.authorized auth k draws).headers⟩ "Authorization" = some (l.header auth k draws) :=
    find?_setHeader_self
  exact ⟨payload, by rw [hsent, hheader]⟩

end Login

/-! ## The hooks -/

section
variable {env : Env} (auth : HTTPDigestAuth) {s : State}

theorem call_fresh (h : s.threadLocal.lastNonce = "") (r : PreparedRequest) :
    call env auth r s =
      (.ok r, { s with threadLocal := { s.threadLocal with num401Calls := some 1 } }) := by
  simp [call, Exec.bind_apply, readLocal, setLocal, h, PreparedRequest.authorize]

/-- With a nonce of the server, the challenge is skipped. -/
theorem call_known (l : Login env) (hnonce : s.threadLocal.lastNonce = digestNonce)
    (hchal : s.threadLocal.chal = keptChallenge) :
    call env auth l.request s =
      (.ok (l.authorized auth (s.threadLocal.nonceCount + 1) s.draws), { s with
        threadLocal := ⟨digestNonce, s.threadLocal.nonceCount + 1, keptChallenge, some 1⟩
        draws := s.draws + 1 }) := by
  have hcount : nextCount s.threadLocal = s.threadLocal.nonceCount + 1 := if_pos hnonce.symm
  have hbuild : buildDigestHeader env auth l.request.method.name l.request.url s = _ :=
    buildDigestHeader_eq hchal l.uri_eq
  have hne : digestNonce ≠ "" := by simp [digestNonce]
  rw [hcount] at hbuild
  rw [← Login.authorize_header, Login.header]
  simp [call, Exec.bind_apply, readLocal, setLocal, hnonce, hne, hbuild, hchal]

theorem handle401_challenge (l : Login env) (hnonce : s.threadLocal.lastNonce = "")
    (hcalls : s.threadLocal.num401Calls = some 1) {payload : Json} {t : ℕ} :
    handle401 env auth
      ⟨401, (answer env.lib t 401 payload [("WWW-Authenticate", challengeText)]).fields, l.request⟩
      s = exchange env (l.authorized auth 1 s.draws) { s with
        threadLocal := ⟨digestNonce, 1, keptChallenge, some 2⟩
        draws := s.draws + 1 } := by
  have hdigest : ['d', 'i', 'g', 'e', 's', 't'] <:+: (lower challengeText).toList := by
    rw [lower, String.toList_ofList]
    exact challengeText_spec.2.2.2.2.isInfix
  have hbuild : buildDigestHeader env auth l.request.method.name l.request.url { s with
      threadLocal := ⟨"", s.threadLocal.nonceCount, keptChallenge, some 2⟩ } = _ :=
    buildDigestHeader_eq rfl l.uri_eq
  have hcount : nextCount ⟨"", s.threadLocal.nonceCount, keptChallenge, some 2⟩ = 1 :=
    if_neg (by simp [digestNonce])
  rw [hcount] at hbuild
  rw [← Login.authorize_header, Login.header]
  simp [handle401, Exec.bind_apply, readLocal, setLocal, header?_challenge, hdigest, hcalls, hnonce,
    parseDictHeader_challenge, hbuild]

theorem handle401_settled {r : Response} (h : r.statusCode = 200 ∨ r.statusCode = 401)
    (hplain : r.header? "www-authenticate" = none) :
    handle401 env auth r s =
      (.ok r, { s with threadLocal := { s.threadLocal with num401Calls := some 1 } }) := by
  rcases h with h | h <;> simp [handle401, Exec.bind_apply, readLocal, setLocal, h, hplain, lower]

theorem handleRedirect_eq {r : Response} (h : r.statusCode = 200 ∨ r.statusCode = 401) :
    handleRedirect r s = (.ok (), s) := by
  rcases h with h | h <;> simp [handleRedirect, Exec.bind_apply, readLocal, h]

end

end MutationTest.DigestAuth

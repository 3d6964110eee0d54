import Mathlib.Data.List.Forall2
import MutationTest.Verify.DigestExchange
import MutationTest.Verify.InStep

/-! # The digest handshake

A thread of the client goes through the phases of the handshake whatever the other threads do
(`phase_run`). So the credentials decide about each response (`credentials_decide`), and no thread
sends a count for the nonce twice (`nonce_counts_up`). -/

namespace MutationTest.DigestAuth
open Http Handler

/-! ## The credentials decide -/

/-- Two different texts with one digest. -/
def Collide (lib : Library) (a b : String) : Prop := a ≠ b ∧ lib.md5 (utf8 a) = lib.md5 (utf8 b)

theorem md5_eq_iff {lib : Library} {a b : String} :
    lib.md5 (utf8 a) = lib.md5 (utf8 b) ↔ a = b ∨ Collide lib a b := by
  rcases eq_or_ne a b with h | h
  · simp [h]
  · simp [Collide, h]

/-- The text whose digest is `ha1`. -/
def secretText (username password : String) : String := s!"{username}:{digestRealm}:{password}"

/-- The text whose digest is the response. -/
def responseText (lib : Library) (username password method uri nc cnonce : String) : String :=
  let ha1 := lib.md5 (utf8 (secretText username password))
  let ha2 := lib.md5 (utf8 s!"{method}:{uri}")
  s!"{ha1}:{digestNonce}:{nc}:{cnonce}:auth:{ha2}"

theorem responseText_eq_iff {lib : Library}
    {username password password' method uri nc cnonce : String} :
    responseText lib username password method uri nc cnonce =
        responseText lib username password' method uri nc cnonce ↔
      password = password' ∨
        Collide lib (secretText username password) (secretText username password') := by
  have hsecret : secretText username password = secretText username password' ↔
      password = password' := String.append_right_inj _
  rw [← hsecret, ← md5_eq_iff]
  simp only [responseText, String.append_left_inj]
  exact Iff.rfl

/-- The text whose digest answers the challenge, in the request with the count `k`. -/
def Login.responseText {env : Env} (l : Login env) (username password : String) (k draws : ℕ) :
    String :=
  DigestAuth.responseText env.lib username password l.request.method.name (requestUri l.uri)
    (hex8 k) (nextCnonce env k draws)

/-- MD5 cannot tell the password from that of the route: it gives one digest to the two secrets, or
to the two texts that client and server make of the request with the count `k`. -/
def Login.Confused {env : Env} (l : Login env) (auth : HTTPDigestAuth) (k draws : ℕ) : Prop :=
  Collide env.lib (secretText auth.username auth.password) (secretText l.user l.pwd) ∨
    Collide env.lib (l.responseText auth.username auth.password k draws)
      (l.responseText l.user l.pwd k draws)

theorem Login.accepted_iff {env : Env} (l : Login env) (auth : HTTPDigestAuth) (k draws : ℕ) :
    l.Accepted auth k draws ↔
      auth.username = l.user ∧ (auth.password = l.pwd ∨ l.Confused auth k draws) := by
  rw [Accepted, and_comm]
  refine and_congr_right fun huser => ?_
  have hdigest : ∀ username password,
      expectedDigestResponse env.lib username password l.request.method.name (requestUri l.uri)
          (hex8 k) (nextCnonce env k draws) =
        env.lib.md5 (utf8 (l.responseText username password k draws)) := fun _ _ => rfl
  rw [hdigest, hdigest, md5_eq_iff, Confused, huser, or_assoc.symm]
  exact or_congr_left responseText_eq_iff

/-- What a thread finds out about its credentials, from the response to a request with a count. -/
def Decided {env : Env} (auth : HTTPDigestAuth) (l : Login env) (r : Response) : Prop :=
  ∃ k draws, r.request = l.authorized auth k draws ∧
    (r.statusCode = 200 ∨ r.statusCode = 401) ∧
    (r.statusCode = 200 ↔
      auth.username = l.user ∧ (auth.password = l.pwd ∨ l.Confused auth k draws))

theorem Login.decided {env : Env} (l : Login env) (auth : HTTPDigestAuth) (k draws : ℕ)
    {r : Response} (hrequest : r.request = l.authorized auth k draws)
    (hstatus : r.statusCode = l.verdict auth k draws) : Decided auth l r := by
  refine ⟨k, draws, hrequest, hstatus ▸ l.verdict_spec auth k draws, ?_⟩
  rw [hstatus, verdict, ← l.accepted_iff auth k draws]
  split
  next haccept => exact iff_of_true rfl haccept
  next haccept => exact iff_of_false (by decide) haccept

/-! ## Threads -/

/-- The count for the nonce, as the server reads it. -/
def Exchange.nonceCount? (e : Exchange) : Option String :=
  e.authorization.bind fun h => get? (parseAuthorizationPairs h) "nc"

/-- An exchange without a header, and `n` with one. -/
def counts (n : ℕ) : List (Option String) := none :: (List.range n).map fun k => some (hex8 (k + 1))

theorem counts_succ (n : ℕ) : counts (n + 1) = counts n ++ [some (hex8 (n + 1))] := by
  simp [counts, List.range_succ]

theorem counts_prefix (m k : ℕ) : counts m <+: counts (m + k) := by
  induction k with
  | zero => exact List.prefix_refl _
  | succ k ih =>
    rw [← Nat.add_assoc, counts_succ]
    exact ih.trans (List.prefix_append _ _)

def hexValue (text : List Char) : ℕ :=
  text.foldl (fun n c => 16 * n + if c.isDigit then c.toNat - 48 else c.toNat - 87) 0

theorem hexValue_toDigits (n : ℕ) : hexValue (Nat.toDigits 16 n) = n := by
  have hdigit : ∀ d < 16, (if (Nat.digitChar d).isDigit then (Nat.digitChar d).toNat - 48
      else (Nat.digitChar d).toNat - 87) = d := by decide
  induction n using Nat.strongRecOn with
  | ind n ih =>
    rw [Nat.toDigits_eq_if (by omega)]
    split
    next hlt => simpa [hexValue] using hdigit n hlt
    next hge =>
      have hdiv := ih _ (Nat.div_lt_self (k := 16) (by omega) (by omega))
      rw [hexValue] at hdiv ⊢
      rw [List.foldl_append, hdiv, List.foldl_cons, List.foldl_nil,
        hdigit _ (Nat.mod_lt n (by omega))]
      omega

theorem hex8_injective : Function.Injective hex8 := by
  have hvalue : ∀ n, hexValue (hex8 n).toList = n := by
    intro n
    have hzeros : ∀ k, (List.replicate k '0').foldl
        (fun n c => 16 * n + if Char.isDigit c then c.toNat - 48 else c.toNat - 87) 0 = 0 := by
      intro k
      induction k with
      | zero => rfl
      | succ k ih => exact ih
    rw [hex8, hexText, String.toList_ofList, hexValue, List.foldl_append, hzeros]
    exact hexValue_toDigits n
  intro m n h
  rw [← hvalue m, h, hvalue]

theorem counts_nodup (n : ℕ) : (counts n).Nodup := by
  refine List.nodup_cons.mpr ⟨by simp, List.nodup_range.map fun a b h => ?_⟩
  exact Nat.add_right_cancel (hex8_injective (Option.some.inj h))

/-- A thread that is to make the requests `ls`, after `c` steps. -/
inductive Phase {env : Env} (auth : HTTPDigestAuth) (ls : List (Login env)) : ℕ → Thread → Prop
  | fresh : Phase auth ls 0 { todo := ls.map Login.request }
  | challenged {l : Login env} {rest : List (Login env)} {payload : Json} {time : ℕ}
      (split : ls = l :: rest) : Phase auth ls 1
        { threadLocal := { num401Calls := some 1 }
          todo := rest.map Login.request
          received := some ⟨401,
            (answer env.lib time 401 payload [("WWW-Authenticate", challengeText)]).fields,
            l.request⟩
          log := [⟨none, 401⟩] }
  | settled {done rest : List (Login env)} {t : Thread} {calls : Option ℕ}
      (split : ls = done ++ rest) (todo : t.todo = rest.map Login.request)
      (received : t.received = none) (raised : t.raised = none)
      (threadLocal : t.threadLocal = ⟨digestNonce, done.length, keptChallenge, calls⟩)
      (log : t.log.map Exchange.nonceCount? = counts done.length)
      (responses : List.Forall₂ (Decided auth) done t.responses) :
      Phase auth ls (2 * done.length) t
  | answered {done rest : List (Login env)} {l : Login env} {r : Response} {t : Thread}
      (split : ls = done ++ l :: rest) (todo : t.todo = rest.map Login.request)
      (received : t.received = some r) (raised : t.raised = none)
      (threadLocal : t.threadLocal = ⟨digestNonce, done.length + 1, keptChallenge, some 1⟩)
      (log : t.log.map Exchange.nonceCount? = counts (done.length + 1))
      (responses : List.Forall₂ (Decided auth) done t.responses) (decided : Decided auth l r)
      (status : r.statusCode = 200 ∨ r.statusCode = 401)
      (plain : r.header? "www-authenticate" = none) :
      Phase auth ls (2 * done.length + 1) t

section
variable {env : Env} {auth : HTTPDigestAuth} {t : Thread} {s s₁ s₂ : State}

theorem advance_send {r r' : PreparedRequest} {todo : List PreparedRequest} {response : Response}
    (hreceived : t.received = none) (htodo : t.todo = r :: todo)
    (hcall : call env auth r s = (.ok r', s₁)) (hsent : exchange env r' s₁ = (.ok response, s₂)) :
    t.advance env auth s = (.ok { t with received := some response, todo := todo }, s₂) := by
  simp only [Thread.advance, hreceived, htodo, Exec.bind_ok hcall, Exec.bind_ok hsent]
  rfl

theorem advance_hooks {r r' : Response} (hreceived : t.received = some r)
    (h401 : handle401 env auth r s = (.ok r', s₁))
    (hstatus : r'.statusCode = 200 ∨ r'.statusCode = 401) :
    t.advance env auth s =
      (.ok { t with received := none, responses := t.responses ++ [r'] }, s₁) := by
  simp only [Thread.advance, hreceived, Exec.bind_ok h401, Exec.bind_ok (handleRedirect_eq hstatus)]
  rfl

theorem advance_done (hreceived : t.received = none) (htodo : t.todo = []) :
    t.advance env auth s = (.ok t, s) := by
  simp only [Thread.advance, hreceived, htodo]
  rfl

variable (henv : env.HexDigests) (hname : Clean auth.username)
include henv hname

theorem nonceCount?_header (l : Login env) (k draws status : ℕ) :
    (⟨some (l.header auth k draws), status⟩ : Exchange).nonceCount? = some (hex8 k) := by
  have hpairs : parseAuthorizationPairs (l.header auth k draws) = _ :=
    parseAuthorizationPairs_written hname l.clean (henv.md5 _).clean (isHex_hex8 k) (hex8_ne_nil k)
      (henv.clean_nextCnonce k draws)
  rw [Exchange.nonceCount?, Option.bind_some, hpairs]
  simp [get?, List.find?]

/-- One step of a thread. -/
theorem Phase.advance {ls : List (Login env)} {c : ℕ} (h : Phase auth ls c t) (time draws : ℕ) :
    ∃ t' s', t.advance env auth ⟨t.threadLocal, time, draws, t.log⟩ = (.ok t', s') ∧
      Phase auth ls (min (c + 1) (2 * ls.length))
        { t' with threadLocal := s'.threadLocal, log := s'.log } := by
  cases h with
  | fresh =>
    cases ls with
    | nil => exact ⟨_, _, rfl, .fresh⟩
    | cons l ls =>
      obtain ⟨payload, hsent⟩ := l.exchange_request ⟨{ num401Calls := some 1 }, time, draws, []⟩
      refine ⟨_, _, advance_send rfl rfl (call_fresh auth rfl _) hsent, ?_⟩
      have hsteps : min (0 + 1) (2 * (l :: ls).length) = 1 := by
        rw [List.length_cons]
        omega
      rw [hsteps]
      exact .challenged rfl
  | @challenged l rest payload time' split =>
    obtain ⟨payload', hsent⟩ := l.exchange_authorized auth henv hname 1 draws
      ⟨⟨digestNonce, 1, keptChallenge, some 2⟩, time, draws + 1, [⟨none, 401⟩]⟩
    refine ⟨_, _, advance_hooks rfl ((handle401_challenge auth l rfl rfl).trans hsent)
      (l.verdict_spec auth 1 draws), ?_⟩
    have hsteps : min (1 + 1) (2 * ls.length) = 2 * [l].length := by
      rw [split, List.length_cons, List.length_singleton]
      omega
    rw [hsteps]
    refine .settled (show ls = [l] ++ rest from split) rfl rfl rfl rfl ?_
      (.cons (l.decided auth 1 draws rfl rfl) .nil)
    rw [List.map_append, List.map_singleton, List.map_singleton, nonceCount?_header henv hname]
    rfl
  | @settled done rest _ calls split todo received raised threadLocal log responses =>
    cases rest with
    | nil =>
      refine ⟨_, _, advance_done received todo, ?_⟩
      have hsteps : min (2 * done.length + 1) (2 * ls.length) = 2 * done.length := by
        rw [split, List.append_nil]
        omega
      rw [hsteps]
      exact .settled split todo received raised threadLocal log responses
    | cons l rest =>
      obtain ⟨payload, hsent⟩ := l.exchange_authorized auth henv hname (done.length + 1) draws
        ⟨⟨digestNonce, done.length + 1, keptChallenge, some 1⟩, time, draws + 1, t.log⟩
      have hcall := call_known auth
        (s := ⟨⟨digestNonce, done.length, keptChallenge, calls⟩, time, draws, t.log⟩) l rfl rfl
      rw [threadLocal]
      refine ⟨_, _, advance_send received todo hcall hsent, ?_⟩
      have hsteps : min (2 * done.length + 1) (2 * ls.length) = 2 * done.length + 1 := by
        rw [split, List.length_append, List.length_cons]
        omega
      rw [hsteps]
      refine .answered split rfl rfl raised rfl ?_ responses (l.decided auth _ draws rfl rfl)
        (l.verdict_spec auth _ draws) header?_plain
      rw [List.map_append, List.map_singleton, nonceCount?_header henv hname, log, counts_succ]
  | @answered done rest l r _ split todo received raised threadLocal log responses decided status
      plain =>
    refine ⟨_, _, advance_hooks received (handle401_settled auth status plain) status, ?_⟩
    have hsteps : min (2 * done.length + 1 + 1) (2 * ls.length) = 2 * (done ++ [l]).length := by
      rw [split, List.length_append, List.length_append, List.length_cons, List.length_singleton]
      omega
    rw [hsteps]
    have hsplit : ls = done ++ [l] ++ rest := by simpa using split
    have hlocal : { t.threadLocal with num401Calls := some 1 } =
        (⟨digestNonce, (done ++ [l]).length, keptChallenge, some 1⟩ : ThreadLocal) := by
      rw [threadLocal, List.length_append, List.length_singleton]
    refine .settled hsplit todo rfl raised hlocal ?_
      (List.rel_append responses (.cons decided .nil))
    rw [List.length_append, List.length_singleton]
    exact log

end

/-! ## Schedules -/

/-- The thread `i`, after the steps of a schedule. -/
def threadAfter {ι : Type} [DecidableEq ι] (env : Env) (auth : HTTPDigestAuth)
    (todo : ι → List (Login env)) (schedule : List ι) (i : ι) : Thread :=
  ((World.start fun i => (todo i).map Login.request).run env auth schedule).threads i

section
variable {ι : Type} [DecidableEq ι] {env : Env} {auth : HTTPDigestAuth} {w : World ι} {i : ι}

theorem step_self {t' : Thread} {s' : State} (hraised : (w.threads i).raised = none)
    (h : (w.threads i).advance env auth
      ⟨(w.threads i).threadLocal, w.time, w.draws, (w.threads i).log⟩ = (.ok t', s')) :
    (w.step env auth i).threads i = { t' with threadLocal := s'.threadLocal, log := s'.log } := by
  simp [World.step, hraised, h]

theorem step_ne {j : ι} (hne : j ≠ i) : (w.step env auth i).threads j = w.threads j := by
  simp only [World.step]
  split
  next => rfl
  next => exact Function.update_of_ne hne _ _

theorem Phase.raised {ls : List (Login env)} {c : ℕ} {t : Thread} (h : Phase auth ls c t) :
    t.raised = none := by
  cases h with
  | fresh | challenged => rfl
  | settled _ _ _ raised | answered _ _ _ raised => exact raised

variable (henv : env.HexDigests) (hname : Clean auth.username) (todo : ι → List (Login env))
include henv hname

/-- Whatever the order of their steps, each thread is where its own steps lead. -/
theorem phase_run (schedule : List ι) (i : ι) :
    Phase auth (todo i) (min (schedule.count i) (2 * (todo i).length))
      (threadAfter env auth todo schedule i) := by
  induction schedule using List.reverseRecOn with
  | nil =>
    rw [List.count_nil, Nat.zero_min]
    exact .fresh
  | append_singleton schedule j ih =>
    rw [threadAfter, World.run, List.foldl_append, List.foldl_cons, List.foldl_nil,
      List.count_append]
    by_cases hij : i = j
    · subst hij
      obtain ⟨t', s', hadvance, hphase⟩ := Phase.advance henv hname ih _ _
      rw [← World.run, step_self ih.raised hadvance]
      have hsteps : min (min (schedule.count i) (2 * (todo i).length) + 1) (2 * (todo i).length) =
          min (schedule.count i + [i].count i) (2 * (todo i).length) := by
        rw [List.count_singleton_self]
        omega
      rwa [← hsteps]
    · rw [step_ne hij, List.count_singleton, if_neg (by simpa using Ne.symm hij)]
      exact ih

omit henv hname in
theorem Phase.decided {ls : List (Login env)} {c : ℕ} {t : Thread} (h : Phase auth ls c t) :
    List.Forall₂ (Decided auth) (ls.take (c / 2)) t.responses := by
  cases h with
  | fresh => exact .nil
  | challenged => exact .nil
  | settled split _ _ _ _ _ responses =>
    rw [split, Nat.mul_div_cancel_left _ (by omega), List.take_left]
    exact responses
  | answered split _ _ _ _ _ responses =>
    rw [split, Nat.mul_add_div (by omega), Nat.div_eq_of_lt (by omega), Nat.add_zero,
      List.take_left]
    exact responses

omit henv hname in
theorem Phase.counted {ls : List (Login env)} {c : ℕ} {t : Thread} (h : Phase auth ls c t) :
    t.log.map Exchange.nonceCount? <+: counts ls.length := by
  cases h with
  | fresh => exact List.nil_prefix
  | challenged => exact ⟨_, rfl⟩
  | settled split _ _ _ _ log =>
    rw [log, split, List.length_append]
    exact counts_prefix _ _
  | @answered done rest l _ _ split _ _ _ _ log =>
    rw [log, split, List.length_append, List.length_cons, Nat.add_comm rest.length, ← Nat.add_assoc]
    exact counts_prefix _ _

/-- The threads share one `HTTPDigestAuth`. Whatever the order of their steps, none raises, and
each response tells whether the credentials are those of its route, as far as MD5 can tell. -/
theorem credentials_decide (schedule : List ι) (i : ι) :
    (threadAfter env auth todo schedule i).raised = none ∧
      List.Forall₂ (Decided auth) ((todo i).take (schedule.count i / 2))
        (threadAfter env auth todo schedule i).responses := by
  have h := phase_run henv hname todo schedule i
  refine ⟨h.raised, ?_⟩
  have hsteps : (todo i).take (schedule.count i / 2) =
      (todo i).take (min (schedule.count i) (2 * (todo i).length) / 2) := by
    rw [List.take_eq_take_iff]
    omega
  rw [hsteps]
  exact h.decided

/-- The counts that a thread sends for the nonce go up from one, and it makes at most one exchange
more than it has requests. -/
theorem nonce_counts_up (schedule : List ι) (i : ι) :
    (threadAfter env auth todo schedule i).log.map Exchange.nonceCount? <+:
        counts (todo i).length ∧
      ((threadAfter env auth todo schedule i).log.map Exchange.nonceCount?).Nodup := by
  have h := (phase_run henv hname todo schedule i).counted
  exact ⟨h, h.sublist.nodup (counts_nodup _)⟩

end

/-! ## An example -/

/-- The MD5 digests of this example. -/
def sampleDigests : List (String × ℕ) :=
  [("user:suite-de-testes:passwd", 0xd6659ab02ef5b6e075ed00e68f0de75f),
    ("user:suite-de-testes:other", 0x9eacfa03342b929e526429ea43c1f773),
    ("GET:/digest-auth/user/passwd", 0x2a4ffaac1114ad1f98a580b115589c49),
    ("GET:/digest-auth/user/other", 0x685b1a9995abac2316ff6ead4e6627b5),
    ("d6659ab02ef5b6e075ed00e68f0de75f:d1e9a7c6b5f4e3d2c1b0a9988776655:00000001:" ++
      "b0af12a6186eb510:auth:2a4ffaac1114ad1f98a580b115589c49", 0x8ecda654e814d87fed776cd00683d9ff),
    ("d6659ab02ef5b6e075ed00e68f0de75f:d1e9a7c6b5f4e3d2c1b0a9988776655:00000002:" ++
      "0720893ad080bd32:auth:2a4ffaac1114ad1f98a580b115589c49", 0xcd469606f257e103a3e8a84f380bef91),
    ("d6659ab02ef5b6e075ed00e68f0de75f:d1e9a7c6b5f4e3d2c1b0a9988776655:00000001:" ++
      "b0af12a6186eb510:auth:685b1a9995abac2316ff6ead4e6627b5", 0x0415123aa2de568ad162e4cb7eb8e38b),
    ("9eacfa03342b929e526429ea43c1f773:d1e9a7c6b5f4e3d2c1b0a9988776655:00000001:" ++
      "b0af12a6186eb510:auth:685b1a9995abac2316ff6ead4e6627b5", 0x1b7e9adaf95e1d5116750b007a4dfdc7)]

def sampleMd5 (b : Bytes) : String :=
  hexText 32 (((sampleDigests.find? fun x => utf8 x.1 = b).map (·.2)).getD 0)

/-- The digest for the count 1 or 2. -/
def sampleSha1 (b : Bytes) : String :=
  hexText 40 (if b.head? = some '1'.toUInt8 then 0xb0af12a6186eb51002d69745414ca59e7aa290e4
    else 0x0720893ad080bd32f473e5204e04141b3852da4e)

/-- The path and the query of a URL, or of a request target. -/
def sampleSplit (url : String) : SplitResult :=
  let rest := if startswith url "http://localhost" then String.ofList (url.toList.drop 16) else url
  ⟨(partition rest '?').1, (partition rest '?').2⟩

def sampleEnv : Env where
  lib := { sampleLibrary with
    md5 := sampleMd5
    urlsplit := fun url => .ok (sampleSplit url) }
  urlparse url := .ok (sampleSplit url)
  sha1 := sampleSha1
  sha256 _ := ""
  sha512 _ := ""
  ctime _ := "Thu Jan  1 00:00:00 1970"
  urandom _ := List.replicate 8 0

theorem sampleEnv_hexDigests : sampleEnv.HexDigests where
  md5 _ := isHex_hexText _ _
  sha1 _ := isHex_hexText _ _

/-- A route of the server, for these credentials. -/
structure SampleRoute (path user pwd : String) : Prop where
  path_eq : sampleSplit path = ⟨path, ""⟩
  url_eq : sampleSplit ("http://localhost" ++ path) = ⟨path, ""⟩
  clean : Clean path
  route : startswith path "/digest-auth/"
  credentials_eq : credentials path = .ok (user, pwd)

theorem SampleRoute.requestUri_eq {path user pwd : String} (h : SampleRoute path user pwd) :
    requestUri ⟨path, ""⟩ = path := by
  have hne : path ≠ "" := by
    intro he
    have hroute := h.route
    rw [he] at hroute
    simp [startswith] at hroute
  simp [requestUri, hne]

def sampleLogin {path user pwd : String} (h : SampleRoute path user pwd) : Login sampleEnv where
  request := ⟨.get, "http://localhost" ++ path, [], []⟩
  target := ⟨path, ""⟩
  parsed := ⟨path, ""⟩
  uri := ⟨path, ""⟩
  user := user
  pwd := pwd
  target_eq := congrArg Except.ok h.url_eq
  parsed_eq := congrArg Except.ok (h.requestUri_eq.symm ▸ h.path_eq)
  uri_eq := congrArg Except.ok h.url_eq
  clean := h.requestUri_eq.symm ▸ h.clean
  route := h.route
  credentials_eq := h.credentials_eq
  sendable := by simp [Sendable]
  absent := rfl
  length := rfl

theorem sampleRoute_own : SampleRoute "/digest-auth/user/passwd" "user" "passwd" where
  path_eq := by simp [sampleSplit, startswith, partition]
  url_eq := by simp [sampleSplit, startswith, partition]
  clean := by constructor <;> simp [IsLatin1, OneLine]
  route := by simp [startswith]
  credentials_eq := by decide +kernel

theorem sampleRoute_other : SampleRoute "/digest-auth/user/other" "user" "other" where
  path_eq := by simp [sampleSplit, startswith, partition]
  url_eq := by simp [sampleSplit, startswith, partition]
  clean := by constructor <;> simp [IsLatin1, OneLine]
  route := by simp [startswith]
  credentials_eq := by decide +kernel

def ownLogin : Login sampleEnv := sampleLogin sampleRoute_own

def otherLogin : Login sampleEnv := sampleLogin sampleRoute_other

def sampleAuth : HTTPDigestAuth := ⟨"user", "passwd"⟩

theorem clean_sampleAuth : Clean sampleAuth.username := by
  constructor <;> simp [sampleAuth, IsLatin1, OneLine]

/-- Two threads. -/
def sampleTodo : Bool → List (Login sampleEnv)
  | true => [ownLogin, ownLogin]
  | false => [otherLogin]

def sampleSchedule : List Bool := [true, false, true, false, true, true]

theorem credentials_decide_own :
    (threadAfter sampleEnv sampleAuth sampleTodo sampleSchedule true).raised = none ∧
      List.Forall₂ (Decided sampleAuth) [ownLogin, ownLogin]
        (threadAfter sampleEnv sampleAuth sampleTodo sampleSchedule true).responses :=
  credentials_decide sampleEnv_hexDigests clean_sampleAuth sampleTodo sampleSchedule true

theorem nonce_counts_up_other :
    (threadAfter sampleEnv sampleAuth sampleTodo sampleSchedule false).log.map
        Exchange.nonceCount? <+: counts 1 ∧
      ((threadAfter sampleEnv sampleAuth sampleTodo sampleSchedule false).log.map
        Exchange.nonceCount?).Nodup :=
  nonce_counts_up sampleEnv_hexDigests clean_sampleAuth sampleTodo sampleSchedule false

end MutationTest.DigestAuth

import Mathlib.Tactic.MkIffOfInductiveProp
import MutationTest.Verify.Response

/-! # One call of the handler

Each route is followed once from the request to the response. A route that reads the body of its
request, and writes a body only where a client reads one, consumes exactly the one and sends exactly
the other (`Sent.delivers`); `KeepsStep` lists the requests on which a route does not. -/

namespace MutationTest.Handler
open Exec (Returns raise ofExcept)
open Http

/-! ## Requests -/

/-- A request as a client sends it. -/
structure Sent where
  head : Bytes
  request : Request
  body : Bytes

namespace Sent

def bytes (r : Sent) : Bytes := r.head ++ r.body

def isHead (r : Sent) : Bool := r.request.command = .head

/-- The bytes of the head are read as this request, and nothing after them is. -/
def Parsed (lib : Library) (r : Sent) : Prop :=
  ∀ rest, lib.parseRequest (r.head ++ rest) = some (r.request, rest)

/-- `Content-Length` is the length of the body; where there is none, the body is empty. -/
def Delimited (r : Sent) : Prop :=
  ((r.request.header? "Content-Length").elim (some 0) fun value => decimal? value.toList) =
    some r.body.length

/-- The handler does not raise at time `t`. -/
def Returns (lib : Library) (t : ℕ) (r : Sent) : Prop :=
  (doMethod lib r.request ⟨r.body, [], [], t⟩).1 = .ok ()

/-- At time `t`, whatever comes before and after it, the handler consumes the body and sends `m`,
which a client finds to be as long as it is. -/
structure Answered (lib : Library) (t : ℕ) (r : Sent) (m : Message) : Prop where
  call : ∀ rest out, doMethod lib r.request ⟨r.body ++ rest, [], out, t⟩ =
    (.ok (), ⟨rest, [], out ++ m.bytes, t + 1⟩)
  length : (status? m.start).bind (bodyLength? r.isHead · m.fields) = some m.body.length

instance (r : Sent) : Decidable r.Delimited :=
  inferInstanceAs (Decidable (_ = some r.body.length))

instance (lib : Library) (t : ℕ) (r : Sent) : Decidable (r.Returns lib t) :=
  inferInstanceAs (Decidable (_ = Exec.Outcome.ok ()))

end Sent

/-! ## Routes that keep step -/

/-- The routes that write no body. -/
def Bodyless (lib : Library) (parsed : SplitResult) : Prop :=
  startswith parsed.path "/status/" ∨ startswith parsed.path "/redirect/" ∨
    parsed.path ∈ ["/redirect-303-see-other", "/redirect-301-permanent", "/redirect-307-temporary",
      "/redirect-308-permanent-preserva", "/redirect-cross-host", "/cookies/set"] ∨
    parsed.path = "/large" ∧
      ∀ size, lib.int (largeBytes (lib.parseQs parsed.query)) = .ok size → size ≤ 0

/-- What a request must not ask for, if the connection is to stay in step. -/
@[mk_iff]
structure KeepsStep (lib : Library) (r : Sent) (parsed : SplitResult) : Prop where
  cookies : parsed.path = "/cookies" → r.body = []
  head : r.isHead → Bodyless lib parsed
  status : startswith parsed.path "/status/" →
    ∀ code, lib.int (afterLast parsed.path '/') = .ok code → 200 ≤ code ∧ code ≤ 999
  location : parsed.path = "/redirect-cross-host" →
    OneLine (crossHostTarget (lib.parseQs parsed.query)).toList
  setCookies : parsed.path = "/cookies/set" →
    ∀ h ∈ setCookies (lib.parseQs parsed.query), OneLine h.2.toList

instance decidableForallOk {α ε : Type} {x : Except ε α} {p : α → Prop} [DecidablePred p] :
    Decidable (∀ a, x = .ok a → p a) :=
  match x with
  | .ok a => decidable_of_iff (p a) ⟨fun h _ he => Except.ok.inj he ▸ h, fun h => h a rfl⟩
  | .error _ => isTrue fun _ he => nomatch he

instance (lib : Library) (parsed : SplitResult) : Decidable (Bodyless lib parsed) :=
  inferInstanceAs (Decidable (_ ∨ _ ∨ _ ∨ _ ∧ ∀ size, lib.int _ = .ok size → size ≤ 0))

instance (lib : Library) (r : Sent) (parsed : SplitResult) : Decidable (KeepsStep lib r parsed) :=
  decidable_of_iff' _ (keepsStep_iff lib r parsed)

/-! ## Reading the body -/

section
variable {lib : Library} {r : Sent}

theorem contentLength_eq (hint : lib.ReadsDecimals) (hr : r.Delimited) {length : ℤ}
    (h : contentLength lib r.request = .ok length) : length = r.body.length := by
  unfold contentLength at h
  unfold Sent.Delimited at hr
  cases hvalue : r.request.header? "Content-Length" with
  | none =>
    rw [hvalue, Option.elim_none, Option.some_inj] at hr
    rw [hvalue] at h
    cases h
    simp [← hr]
  | some value =>
    rw [hvalue, Option.elim_some] at hr
    rw [hvalue] at h
    simp only at h
    split at h
    next hempty =>
      rw [hempty] at hr
      exact absurd hr (by simp [decimal?])
    next => exact hint value _ _ hr h

theorem readBody_eq (h : contentLength lib r.request = .ok r.body.length) (rest out : Bytes)
    (buffer : List Bytes) (t : ℕ) : readBody lib r.request ⟨r.body ++ rest, buffer, out, t⟩ =
      (.ok r.body, ⟨rest, buffer, out, t⟩) := by
  rw [readBody, h, Exec.ofExcept_ok, Exec.bind_ok (Exec.pure_apply _ _)]
  split
  next hzero =>
    have hempty : r.body = [] := List.eq_nil_of_length_eq_zero (by exact_mod_cast hzero)
    rw [hempty]
    rfl
  next =>
    have hsize : ¬(r.body.length : ℤ) < 0 := by omega
    simp [read, hsize]

end

/-! ## One call of the handler -/

/-- Where it returns, `x` consumes `body` and sends one response. -/
def Delivers (head : Bool) (t : ℕ) (body : Bytes) (x : HandlerM Unit) : Prop :=
  ∀ c, x ⟨body, [], [], t⟩ = (.ok (), c) → ∃ m : Message, m.Framed head ∧ m.interim = false ∧
    ∀ rest out, x ⟨body ++ rest, [], out, t⟩ = (.ok (), ⟨rest, [], out ++ m.bytes, t + 1⟩)

namespace Delivers

variable {lib : Library} {α : Type} {head : Bool} {t : ℕ} {body : Bytes}
  {before after : List (String × String)}

theorem ite {c : Prop} [Decidable c] {x y : HandlerM Unit} (hx : c → Delivers head t body x)
    (hy : ¬c → Delivers head t body y) : Delivers head t body (if c then x else y) := by
  split
  next h => exact hx h
  next h => exact hy h

theorem ofExcept_bind {v : Except PyExc α} {f : α → HandlerM Unit}
    (h : ∀ a, v = .ok a → Delivers head t body (f a)) :
    Delivers head t body (ofExcept v >>= f) := by
  cases v with
  | ok a => exact h a rfl
  | error e => exact fun _ hret => nomatch hret

theorem pure_bind {a : α} {f : α → HandlerM Unit} (h : Delivers head t body (f a)) :
    Delivers head t body (pure a >>= f) := h

theorem clock_bind {f : ℕ → HandlerM Unit} (h : Delivers head t body (f t)) :
    Delivers head t body (clock >>= f) := h

theorem readBody_bind {r : Sent} (hint : lib.ReadsDecimals) (hr : r.Delimited)
    {f : Bytes → HandlerM Unit} (h : Delivers head t [] (f r.body)) :
    Delivers head t r.body (readBody lib r.request >>= f) := by
  intro c hret
  cases hlength : contentLength lib r.request with
  | error e =>
    rw [readBody, hlength] at hret
    cases hret
  | ok length =>
    rw [contentLength_eq hint hr hlength] at hlength
    have hread := readBody_eq (r := r) hlength
    have hnil := hread [] [] [] t
    rw [List.append_nil] at hnil
    rw [Exec.bind_ok hnil] at hret
    obtain ⟨m, hm, hfinal, hcall⟩ := h c hret
    refine ⟨m, hm, hfinal, fun rest out => ?_⟩
    rw [Exec.bind_ok (hread rest out [] t)]
    exact hcall rest out

theorem sendHead_write {status : ℤ} (h200 : 200 ≤ status) (h999 : status ≤ 999)
    (hbefore : ∀ x ∈ before, Safe x) (hafter : ∀ x ∈ after, Safe x)
    (hbody : head ∨ status = 204 ∨ status = 304 → body = []) :
    Delivers head t [] (do sendHead lib status before body.length after; write body) := by
  lift status to ℕ using by omega
  intro c hret
  have hlatin : (∀ x ∈ before, IsLatin1 (headerLine x)) ∧ ∀ x ∈ after, IsLatin1 (headerLine x) :=
    (sendHead_returns.bind fun _ _ h => fun _ _ _ => h) () c hret
  have h200 : 200 ≤ status := by omega
  have h999 : status ≤ 999 := by omega
  refine ⟨response lib t status before body after, ?_, ?_, fun rest out => ?_⟩
  · exact response_framed h200 h999 (fun x hx => ⟨hbefore x hx, hlatin.1 x hx⟩)
      (fun x hx => ⟨hafter x hx, hlatin.2 x hx⟩) fun h => hbody (h.imp_right fun h => by omega)
  · rw [Message.interim, status?_response h200 h999, Option.any_some]
    exact decide_eq_false (not_lt.mpr h200)
  · rw [List.nil_append, Exec.bind_ok (sendHead_eq status hlatin.1 hlatin.2 body rest out t)]
    simp [write, Message.bytes, response]

theorem sendHead {status : ℤ} (h200 : 200 ≤ status) (h999 : status ≤ 999)
    (hbefore : ∀ x ∈ before, Safe x) : Delivers head t [] (sendHead lib status before 0 []) := by
  have hwrite : ∀ x : HandlerM Unit, (do x; write []) = x := by
    intro x
    funext c
    rw [Exec.bind_apply]
    match x c with
    | (.ok (), _) => simp [write]
    | (.raised _, _) | (.killed, _) => rfl
  have hsend : Delivers head t []
      (do Handler.sendHead lib status before ([] : Bytes).length []; write []) :=
    sendHead_write h200 h999 hbefore (by simp) fun _ => rfl
  rwa [hwrite, List.length_nil] at hsend

theorem sendJson {status : ℤ} (hstatus : status ∈ [200, 401, 404]) {payload : Json}
    (hafter : ∀ x ∈ after, Safe x) : Delivers false t [] (sendJson lib status payload after) := by
  have hrange : 200 ≤ status ∧ status ≤ 999 ∧ status ≠ 204 ∧ status ≠ 304 := by
    simp only [List.mem_cons, List.not_mem_nil, or_false] at hstatus
    omega
  obtain ⟨h200, h999, h204, h304⟩ := hrange
  exact sendHead_write h200 h999 (List.forall_mem_singleton.mpr ⟨by decide, by decide⟩) hafter
    (by simp [h204, h304])

end Delivers

/-! ## The routes -/

section
variable {lib : Library} (hint : lib.ReadsDecimals) {r : Sent} (hr : r.Delimited) {t : ℕ}
include hint hr

theorem delivers_echo (method : String) :
    Delivers false t r.body
      (do let payload ← echoPayload lib r.request method; sendJson lib 200 payload) := by
  unfold echoPayload
  rw [Exec.bind_assoc]
  refine Delivers.ofExcept_bind fun parsed _ => ?_
  rw [Exec.bind_assoc]
  exact Delivers.readBody_bind hint hr
    (Delivers.pure_bind (Delivers.sendJson (by simp) (by simp)))

theorem delivers_basicAuth (user pwd : String) :
    Delivers false t r.body (basicAuth lib r.request user pwd) := by
  refine Delivers.readBody_bind hint hr (Delivers.ite (fun _ => ?_) fun _ => ?_)
  · exact Delivers.sendJson (by simp) (by simp)
  · exact Delivers.sendJson (by simp) (List.forall_mem_singleton.mpr ⟨by decide, by decide⟩)

theorem delivers_digestAuth (method path user pwd : String) :
    Delivers false t r.body (digestAuth lib r.request method path user pwd) := by
  refine Delivers.readBody_bind hint hr (Delivers.ite (fun _ => ?_) fun _ => ?_)
  · exact Delivers.ite (fun _ => Delivers.sendJson (by simp) (by simp)) fun _ =>
      Delivers.sendJson (by simp) (by simp)
  · exact Delivers.sendJson (by simp) (List.forall_mem_singleton.mpr ⟨by decide, by decide⟩)

end

theorem oneLine_redirectTarget (n : ℤ) :
    OneLine (if n > 1 then s!"/redirect/{n - 1}" else "/echo").toList := by
  split
  next h =>
    obtain ⟨k, hk⟩ := Int.eq_ofNat_of_zero_le (show 0 ≤ n - 1 by omega)
    rw [hk]
    have htext : s!"/redirect/{(k : ℤ)}".toList = "/redirect/".toList ++ (toString k).toList := by
      simp only [String.toList_append]
      rfl
    rw [htext]
    exact oneLine_append.mpr ⟨by decide, oneLine_toString k⟩
  next => decide

theorem repeatX_of_nonpos {size : ℤ} {body : Bytes} (h : repeatX size = .ok body)
    (hsize : size ≤ 0) : body = [] := by
  rw [repeatX, if_pos (by omega)] at h
  cases h
  rw [Int.toNat_of_nonpos hsize]
  rfl

/-- Behind the routes that write no body, only an empty `/large` writes none. -/
theorem Bodyless.large {lib : Library} {parsed : SplitResult} (h : Bodyless lib parsed)
    (hstatus : ¬startswith parsed.path "/status/")
    (hredirect : ¬startswith parsed.path "/redirect/")
    (hfixed : parsed.path ∉ ["/redirect-303-see-other", "/redirect-301-permanent",
      "/redirect-307-temporary", "/redirect-308-permanent-preserva", "/redirect-cross-host",
      "/cookies/set"]) : parsed.path = "/large" ∧
      ∀ size, lib.int (largeBytes (lib.parseQs parsed.query)) = .ok size → size ≤ 0 :=
  ((h.resolve_left hstatus).resolve_left hredirect).resolve_left hfixed

theorem Sent.delivers {lib : Library} (hint : lib.ReadsDecimals) {r : Sent} (hr : r.Delimited)
    (hkeeps : ∀ parsed, lib.urlsplit r.request.path = .ok parsed → KeepsStep lib r parsed) (t : ℕ) :
    Delivers r.isHead t r.body (doMethod lib r.request) := by
  rw [doMethod_eq]
  unfold dispatch
  refine Delivers.ofExcept_bind fun parsed hparsed => ?_
  have hk := hkeeps parsed hparsed
  have hjson : ∀ {body : Bytes} {x : HandlerM Unit}, ¬Bodyless lib parsed →
      Delivers false t body x → Delivers r.isHead t body x := by
    intro body x hnot hx
    rwa [Bool.eq_false_iff.mpr (mt hk.head hnot)]
  have hredirect : ∀ {status : ℤ} {location : String} {cookies : List (String × String)},
      status ∈ [301, 302, 303, 307, 308] → OneLine location.toList → (∀ x ∈ cookies, Safe x) →
      Delivers r.isHead t [] (redirect lib status location cookies) := by
    intro status location cookies hstatus hlocation hcookies
    simp only [List.mem_cons, List.not_mem_nil, or_false] at hstatus
    exact Delivers.sendHead (by omega) (by omega)
      (List.forall_mem_cons.mpr ⟨⟨show "Location" ∈ headerNames by decide, hlocation⟩, hcookies⟩)
  refine Delivers.ite (fun hroute => ?_) fun hecho => ?_
  · refine hjson (fun h => ?_) (delivers_echo hint hr _)
    have hlarge := h.large (by rw [hroute]; decide) (by rw [hroute]; decide)
      (by rw [hroute]; decide)
    exact absurd (hroute.symm.trans hlarge.1) (by decide)
  refine Delivers.ite (fun hroute => ?_) fun hstatus => ?_
  · refine Delivers.ofExcept_bind fun code hcode => Delivers.readBody_bind hint hr ?_
    have hrange := hk.status hroute code hcode
    exact Delivers.sendHead hrange.1 hrange.2 (by simp)
  refine Delivers.ite (fun hroute => ?_) fun hredirectN => ?_
  · refine Delivers.readBody_bind hint hr (Delivers.ofExcept_bind fun n _ => ?_)
    exact hredirect (by simp) (oneLine_redirectTarget n) (by simp)
  refine Delivers.ite (fun hroute => ?_) fun h303 => ?_
  · exact Delivers.readBody_bind hint hr (hredirect (by simp) (by decide) (by simp))
  refine Delivers.ite (fun hroute => ?_) fun h301 => ?_
  · exact Delivers.readBody_bind hint hr (hredirect (by simp) (by decide) (by simp))
  refine Delivers.ite (fun hroute => ?_) fun h307 => ?_
  · exact Delivers.readBody_bind hint hr (hredirect (by simp) (by decide) (by simp))
  refine Delivers.ite (fun hroute => ?_) fun h308 => ?_
  · exact Delivers.readBody_bind hint hr (hredirect (by simp) (by decide) (by simp))
  refine Delivers.ite (fun hroute => ?_) fun hcross => ?_
  · exact Delivers.readBody_bind hint hr (hredirect (by simp) (hk.location hroute) (by simp))
  refine Delivers.ite (fun hroute => ?_) fun hset => ?_
  · refine Delivers.readBody_bind hint hr (hredirect (by simp) (by decide) fun x hx => ?_)
    have hvalue := hk.setCookies hroute x hx
    obtain ⟨y, -, rfl⟩ := List.mem_map.mp hx
    exact ⟨show "Set-Cookie" ∈ headerNames by decide, hvalue⟩
  have hlarge := fun h : Bodyless lib parsed => h.large hstatus hredirectN
    (by simp [h303, h301, h307, h308, hcross, hset])
  -- all routes from here on write a body, `/large` alone possibly an empty one
  have hwrites : ∀ {body : Bytes} {x : HandlerM Unit}, parsed.path ≠ "/large" →
      Delivers false t body x → Delivers r.isHead t body x :=
    fun hne => hjson fun h => hne (hlarge h).1
  have hunder : ∀ {pre : String}, startswith parsed.path pre → startswith "/large" pre = false →
      parsed.path ≠ "/large" := by
    intro pre hpre hnot heq
    rw [heq, hnot] at hpre
    exact Bool.false_ne_true hpre
  refine Delivers.ite (fun hroute => ?_) fun _ => ?_
  · rw [hk.cookies hroute]
    exact hwrites (by simp [hroute]) (Delivers.sendJson (by simp) (by simp))
  refine Delivers.ite (fun hroute => ?_) fun _ => ?_
  · refine Delivers.ofExcept_bind fun ⟨user, pwd⟩ _ => ?_
    exact hwrites (hunder hroute (by decide)) (delivers_basicAuth hint hr user pwd)
  refine Delivers.ite (fun hroute => ?_) fun _ => ?_
  · refine Delivers.ofExcept_bind fun ⟨user, pwd⟩ _ => ?_
    exact hwrites (hunder hroute (by decide)) (delivers_digestAuth hint hr _ _ user pwd)
  refine Delivers.ite (fun hroute => ?_) fun _ => ?_
  · refine Delivers.clock_bind (hwrites (by simp [hroute]) (Delivers.readBody_bind hint hr ?_))
    refine Delivers.sendHead_write (by decide) (by decide) (fun x hx => ?_) (by simp) (by simp)
    rcases List.mem_pair.mp hx with rfl | rfl <;> exact ⟨by decide, by decide⟩
  refine Delivers.ite (fun hroute => ?_) fun _ => ?_
  · refine Delivers.ofExcept_bind fun seconds _ => hwrites (hunder hroute (by decide)) ?_
    exact Delivers.readBody_bind hint hr (Delivers.ofExcept_bind fun _ _ =>
      Delivers.sendJson (by simp) (by simp))
  refine Delivers.ite (fun hroute => ?_) fun hnotLarge => ?_
  · refine Delivers.readBody_bind hint hr (Delivers.ofExcept_bind fun size hsize =>
      Delivers.ofExcept_bind fun body hbody => ?_)
    refine Delivers.sendHead_write (by decide) (by decide)
      (List.forall_mem_singleton.mpr ⟨by decide, by decide⟩) (by simp) fun h => ?_
    exact repeatX_of_nonpos hbody ((hlarge (hk.head (h.resolve_right (by decide)))).2 size hsize)
  · exact hwrites hnotLarge (Delivers.readBody_bind hint hr
      (Delivers.sendJson (by simp) (by simp)))

end MutationTest.Handler

import MutationTest.Verify.Routes

/-! # Requests and responses in step

The run lemma of a connection: where every call consumes its request and sends one response, the
next request is read where it begins, and a client that pairs responses with requests by their order
pairs them right (`in_step`). One route that leaves a body behind, or writes one after `HEAD`, is
enough to pair all later ones wrong (`out_of_step`). -/

namespace MutationTest.Handler
open Http

/-! ## A connection -/

/-- The `k`-th request is handled at time `k`. -/
structure Admissible (lib : Library) (requests : List Sent) : Prop where
  parsed : ∀ r ∈ requests, r.Parsed lib
  delimited : ∀ r ∈ requests, r.Delimited
  returns : ∀ (k : ℕ) (r : Sent), requests[k]? = some r → r.Returns lib k

/-- On one connection, every request is consumed and the `k`-th response that the client reads is
the one that the handler sends for the `k`-th request. -/
def InStep (lib : Library) (requests : List Sent) : Prop :=
  ∃ (c : Conn) (responses : List Message),
    handle lib requests.length ⟨requests.flatMap Sent.bytes, [], [], 0⟩ = (.ok (), c) ∧
    c.rfile = [] ∧ readResponses (requests.map Sent.isHead) c.wfile = some (responses, []) ∧
    responses.length = requests.length ∧
    ∀ (k : ℕ) (r : Sent), requests[k]? = some r →
      ∃ m, responses[k]? = some m ∧ r.Answered lib k m

def continueResponse (lib : Library) : Message :=
  ⟨statusLine (toString 100).toList (lib.phrase 100).1.toList, [], []⟩

/-- What goes out before the handler is called. -/
def interims (lib : Library) (self : Request) : List Message :=
  if lower ((self.header? "Expect").getD "") = "100-continue" then [continueResponse lib] else []

section
variable {lib : Library} {r : Sent}

theorem status?_continueResponse (lib : Library) :
    status? (continueResponse lib).start = some 100 := by
  rw [continueResponse, toList_toString]
  exact status?_statusLine (by decide) (by decide) _

theorem interims_framed (head : Bool) :
    ∀ m ∈ interims lib r.request, m.Framed head ∧ m.interim := by
  intro m hm
  unfold interims at hm
  split at hm
  next =>
    obtain rfl := List.mem_singleton.mp hm
    refine ⟨⟨fun line hline => ?_, ?_⟩, ?_⟩
    · obtain rfl := List.mem_singleton.mp hline
      exact ⟨statusLine_ne_nil _ _, isLatin1_statusLine (isLatin1_toString _) (lib.phrase _).2.1,
        oneLine_statusLine (oneLine_toString _) (lib.phrase _).2.2⟩
    · rw [status?_continueResponse]
      simp [bodyLength?, continueResponse]
    · rw [Message.interim, status?_continueResponse]
      rfl
  next => cases hm

theorem handleExpect100_eq (rest out : Bytes) (t : ℕ) :
    handleExpect100 lib r.request ⟨rest, [], out, t⟩ =
      (.ok (), ⟨rest, [], out ++ (interims lib r.request).flatMap Message.bytes, t⟩) := by
  unfold handleExpect100 interims
  split
  next =>
    have hstart : sendResponseOnly lib 100 ⟨rest, [], out, t⟩ = (.ok (),
        ⟨rest, queued [(continueResponse lib).start], out, t⟩) := sendResponseOnly_queued 100
    rw [Exec.bind_ok hstart, endHeaders_queued]
    simp [Message.bytes, continueResponse]
  next => simp

/-- One request of a connection. -/
theorem handle_succ (hparse : r.Parsed lib) {t : ℕ} {m : Message} (hm : r.Answered lib t m) (n : ℕ)
    (rest out : Bytes) : handle lib (n + 1) ⟨r.bytes ++ rest, [], out, t⟩ =
      handle lib n ⟨rest, [], out ++ (Reply.mk (interims lib r.request) m).bytes, t + 1⟩ := by
  have hread : readRequest lib ⟨r.bytes ++ rest, [], out, t⟩ =
      (.ok (some r.request), ⟨r.body ++ rest, [], out, t⟩) := by
    rw [Sent.bytes, List.append_assoc, readRequest, hparse]
  rw [handle, Exec.bind_ok hread]
  dsimp only
  rw [Exec.bind_ok (handleExpect100_eq _ _ _), Exec.bind_ok (hm.call _ _), Reply.bytes,
    List.append_assoc]

/-- A run over the requests of a connection. -/
theorem handle_run {requests : List Sent} {t : ℕ} (hparse : ∀ r ∈ requests, r.Parsed lib)
    (hanswer : ∀ (k : ℕ) (r : Sent), requests[k]? = some r →
      ∃ m, r.Answered lib (t + k) m ∧ m.Framed r.isHead ∧ m.interim = false) (rest out : Bytes) :
    ∃ replies : List (Bool × Reply), replies.map (·.1) = requests.map Sent.isHead ∧
      (∀ x ∈ replies, x.2.Framed x.1) ∧
      (∀ (k : ℕ) (r : Sent), requests[k]? = some r →
        ∃ x, replies[k]? = some x ∧ r.Answered lib (t + k) x.2.final) ∧
      handle lib requests.length ⟨requests.flatMap Sent.bytes ++ rest, [], out, t⟩ =
        (.ok (), ⟨rest, [], out ++ replies.flatMap (·.2.bytes), t + requests.length⟩) := by
  induction requests generalizing t out with
  | nil => exact ⟨[], rfl, by simp, by simp, by simp [handle]⟩
  | cons r requests ih =>
    obtain ⟨m, hm, hframed, hfinal⟩ := hanswer 0 r rfl
    rw [Nat.add_zero] at hm
    obtain ⟨replies, hheads, hreplies, hcalls, hrun⟩ := ih (t := t + 1)
      (fun r hr => hparse r (List.mem_cons_of_mem _ hr))
      (fun k r hr => by
        have := hanswer (k + 1) r hr
        rwa [Nat.add_assoc, Nat.add_comm 1])
      (out ++ (Reply.mk (interims lib r.request) m).bytes)
    refine ⟨(r.isHead, ⟨interims lib r.request, m⟩) :: replies, ?_, ?_, ?_, ?_⟩
    · rw [List.map_cons, List.map_cons, hheads]
    · exact List.forall_mem_cons.mpr ⟨⟨interims_framed _, hframed, hfinal⟩, hreplies⟩
    · intro k r' hr'
      cases k with
      | zero =>
        obtain rfl : r = r' := Option.some.inj hr'
        exact ⟨_, rfl, hm⟩
      | succ k =>
        obtain ⟨x, hx, hcall⟩ := hcalls k r' hr'
        refine ⟨x, hx, ?_⟩
        rwa [Nat.add_assoc, Nat.add_comm 1] at hcall
    · rw [List.flatMap_cons, List.append_assoc, List.length_cons,
        handle_succ (hparse r List.mem_cons_self) hm, hrun]
      simp [Nat.add_assoc, Nat.add_comm 1]

end

/-- On any connection on which all requests keep step, the `k`-th response answers the `k`-th
request. -/
theorem in_step {lib : Library} (hint : lib.ReadsDecimals) {requests : List Sent}
    (h : Admissible lib requests)
    (hkeeps : ∀ r ∈ requests, ∀ parsed, lib.urlsplit r.request.path = .ok parsed →
      KeepsStep lib r parsed) : InStep lib requests := by
  have hanswer : ∀ (k : ℕ) (r : Sent), requests[k]? = some r →
      ∃ m, r.Answered lib (0 + k) m ∧ m.Framed r.isHead ∧ m.interim = false := by
    intro k r hr
    have hmem := List.mem_of_getElem? hr
    obtain ⟨m, hm, hfinal, hcall⟩ := Sent.delivers hint (h.delimited r hmem) (hkeeps r hmem) k _
      (Prod.ext (h.returns k r hr) rfl)
    rw [Nat.zero_add]
    exact ⟨m, ⟨hcall, hm.length⟩, hm, hfinal⟩
  obtain ⟨replies, hheads, hreplies, hcalls, hrun⟩ := handle_run h.parsed hanswer [] []
  rw [List.append_nil] at hrun
  refine ⟨_, replies.map (·.2.final), hrun, rfl, ?_, ?_, fun k r hr => ?_⟩
  · rw [← hheads]
    have hread := readResponses_append hreplies []
    rwa [List.append_nil] at hread
  · simpa using congrArg List.length hheads
  · obtain ⟨x, hx, hcall⟩ := hcalls k r hr
    rw [Nat.zero_add] at hcall
    exact ⟨_, by rw [List.getElem?_map, hx]; rfl, hcall⟩

/-! ## An example -/

def requestOf (lines : List (List Char)) : Option Request :=
  match (lines.headD []).splitOn ' ' with
  | [method, target, _] =>
    ([.get, .post, .put, .patch, .delete, .options, .head].find? fun command : Command =>
      command.name.toList = method).map fun command => ⟨command, String.ofList target,
        lines.tail.map fun line =>
          (String.ofList (line.takeWhile (· ≠ ':')), String.ofList (fieldValue line))⟩
  | _ => none

def samplePhrase (code : ℤ) : LineText :=
  if code = 100 then ⟨"Continue", by decide⟩
  else if code = 200 then ⟨"OK", by decide⟩
  else if code = 204 then ⟨"No Content", by decide⟩
  else if code = 302 then ⟨"Found", by decide⟩
  else if code = 404 then ⟨"Not Found", by decide⟩
  else ⟨"", by decide⟩

def dumpsScalar : Json → String
  | .str s => "\"" ++ s ++ "\""
  | .bool b => if b then "true" else "false"
  | .int n => toString n
  | _ => ""

def sampleDumps : Json → String
  | .dict items => "\x7b" ++ ", ".intercalate (items.map fun x =>
      "\"" ++ x.1 ++ "\": " ++ dumpsScalar x.2) ++ "\x7d"
  | value => dumpsScalar value

/-- The library, as far as the requests of this example need it. -/
def sampleLibrary : Library where
  parseRequest s := (readLines [] s).bind fun x => (requestOf x.1).map fun request => (request, x.2)
  phrase := samplePhrase
  server := ⟨"BaseHTTP/0.6", by decide⟩
  date _ := ⟨"Thu, 01 Jan 1970 00:00:00 GMT", by decide⟩
  urlsplit path := .ok ⟨(partition path '?').1, (partition path '?').2⟩
  parseQs _ := []
  int text := match decimal? text.toList with
    | some n => .ok n
    | none => .error (.other "ValueError")
  float _ := .error (.other "ValueError")
  sleep _ := .ok ()
  dumps := sampleDumps
  b64encode _ := ""
  md5 _ := ""
  compress _ payload := payload

theorem sampleLibrary_readsDecimals : sampleLibrary.ReadsDecimals := by
  intro text n k htext hint
  simp only [sampleLibrary, htext] at hint
  exact (Except.ok.inj hint).symm

/-- A request with the given lines in its head. -/
def sent (x : List String × String) : Option Sent :=
  (requestOf (x.1.map String.toList)).map fun request =>
    ⟨linesBytes (x.1.map String.toList), request, utf8 x.2⟩

theorem sample_admissible {xs : List (List String × String)}
    (hlines : ∀ x ∈ xs, ∀ line ∈ x.1, line.toList ≠ [] ∧ IsLatin1 line.toList ∧ OneLine line.toList)
    (hlength : ∀ r ∈ xs.filterMap sent, r.Delimited)
    (hreturns : ∀ x ∈ (xs.filterMap sent).zipIdx, x.1.Returns sampleLibrary x.2) :
    Admissible sampleLibrary (xs.filterMap sent) where
  parsed r hr rest := by
    obtain ⟨x, hx, hsent⟩ := List.mem_filterMap.mp hr
    obtain ⟨request, hrequest, rfl⟩ := Option.map_eq_some_iff.mp hsent
    have hread := readLines_linesBytes (List.forall_mem_map.mpr (hlines x hx)) rest
    show (readLines [] (linesBytes (x.1.map String.toList) ++ rest)).bind _ = _
    rw [hread, Option.bind_some, hrequest]
    rfl
  delimited := hlength
  returns k r hr := hreturns (r, k) (List.mem_zipIdx_iff_getElem?.mpr hr)

def sampleRequests : List Sent :=
  [(["POST /status/204 HTTP/1.1", "Host: localhost", "Content-Length: 2"], "hi"),
    (["HEAD /redirect/2 HTTP/1.1", "Host: localhost"], ""),
    (["GET /cookies HTTP/1.1", "Host: localhost"], ""),
    (["DELETE /other HTTP/1.1", "Host: localhost"], "")].filterMap sent

theorem in_step_sample : InStep sampleLibrary sampleRequests :=
  in_step sampleLibrary_readsDecimals
    (sample_admissible (by decide +kernel) (by decide +kernel) (by decide +kernel))
    (by decide +kernel)

/-- The first request carries a body that looks like a request. -/
def smuggledRequests : List Sent :=
  [(["POST /cookies HTTP/1.1", "Host: localhost", "Content-Length: 45"],
      "GET /status/404 HTTP/1.1\r\nHost: localhost\r\n\r\n"),
    (["GET /status/204 HTTP/1.1", "Host: localhost"], "")].filterMap sent

def headRequests : List Sent :=
  [(["HEAD /cookies HTTP/1.1", "Host: localhost"], ""),
    (["GET /status/204 HTTP/1.1", "Host: localhost"], "")].filterMap sent

/-- The bytes that the requests of a connection are answered with. -/
def answers (requests : List Sent) : Bytes :=
  (handle sampleLibrary requests.length ⟨requests.flatMap Sent.bytes, [], [], 0⟩).2.wfile

theorem InStep.read {requests : List Sent} (h : InStep sampleLibrary requests) :
    ∃ responses, readResponses (requests.map Sent.isHead) (answers requests) =
      some (responses, []) ∧ ∀ (k : ℕ) (r : Sent), requests[k]? = some r →
        ∃ m, responses[k]? = some m ∧ r.Answered sampleLibrary k m := by
  obtain ⟨c, responses, hrun, -, hread, -, hanswer⟩ := h
  refine ⟨responses, ?_, hanswer⟩
  rwa [answers, hrun]

/-- The client takes the response to the body of the first request for that to the second one; and
after a `HEAD` request, it takes the body of the first response for the head of the second one. -/
theorem out_of_step :
    (Admissible sampleLibrary smuggledRequests ∧ ¬InStep sampleLibrary smuggledRequests ∧
      (readResponses [false, false] (answers smuggledRequests)).map
        (fun x => x.1.map fun m => status? m.start) = some [some 200, some 404]) ∧
    Admissible sampleLibrary headRequests ∧ ¬InStep sampleLibrary headRequests ∧
      readResponses [true, false] (answers headRequests) = none := by
  have hhead : readResponses [true, false] (answers headRequests) = none := by decide +kernel
  refine ⟨⟨sample_admissible (by decide +kernel) (by decide +kernel) (by decide +kernel), ?_,
      by decide +kernel⟩,
    sample_admissible (by decide +kernel) (by decide +kernel) (by decide +kernel), ?_, hhead⟩
  · rintro ⟨c, responses, hrun, hconsumed, -⟩
    have hleft : (handle sampleLibrary 2 ⟨smuggledRequests.flatMap Sent.bytes, [], [], 0⟩).2.rfile ≠
        [] := by decide +kernel
    exact hleft (by rw [show (2 : ℕ) = smuggledRequests.length from rfl, hrun]; exact hconsumed)
  · intro h
    obtain ⟨responses, hread, -⟩ := h.read
    exact absurd (hhead.symm.trans hread) (by simp)

end MutationTest.Handler

import Sylar.Http.DoRequest
import Sylar.Http.ResponseWire
import Sylar.Http.Servlet

/-!
# `HttpServer::handleClient`

The server answers the requests of a connection one after the other. A response says whether the
connection is closed after it before the servlet has seen the request; whether it is closed is
asked of the request afterwards. What `sendResponse` returns is not looked at.

A client that sends a request only after it has received the response before it sees each side
read no further than one message.
-/

namespace Sylar.Http

open Sylar.Lib Sylar.Net

/-- A response with its `m_cookies`. -/
structure Reply where
  response : HttpResponse
  cookies : List Text
  deriving DecidableEq, Repr

def Reply.dump (p : Reply) : Text := p.response.dump p.cookies

/-- `Servlet::handle`: what it makes of the request and of the response. -/
abbrev Servlet := HttpRequest → Reply → HttpRequest × Reply

/-- `NotFoundServlet` with its `m_content`. -/
def notFoundServlet (name : Text) : Servlet := fun request reply =>
  let content :=
    ascii "<html><head><title>404 Not Found" ++
      ascii "</title></head><body><center><h1>404 Not Found</h1></center>" ++
      ascii "<hr><center>" ++ name ++ ascii "</center></body></html>"
  let response := { reply.response with status := 404 }
  let response := response.setHeader (ascii "Server") name
  let response := response.setHeader (ascii "Content-Type") (ascii "text/html")
  (request, { reply with response := { response with body := content } })

structure HttpServer where
  name : Text
  isKeepalive : Bool
  dispatch : ServletDispatch Servlet

/-- One answer of the server: the response, and the bytes that were sent. -/
structure SentReply where
  reply : Reply
  bytes : Text
  deriving DecidableEq, Repr

/-- A connection as the server sees it: the socket, the results of the writes of each response to
come, and the answers so far. -/
structure Client where
  socket : Socket
  sends : List (List SendResult)
  answers : List SentReply
  deriving DecidableEq, Repr

namespace HttpServer

def new (keepalive : Bool) : HttpServer where
  name := ascii "sylar/1.0.0"
  isKeepalive := keepalive
  dispatch := .new (notFoundServlet (ascii "sylar/1.0"))

def setName (v : Text) (server : HttpServer) : HttpServer :=
  { server with name := v, dispatch := server.dispatch.setDefault (notFoundServlet v) }

/-- A method of the session's stream. -/
def onSocket {α : Type} (x : Method Socket Fault α) : Method Client Fault α := do
  let c ← get
  let (r, s) := x.exec c.socket
  set { c with socket := s }
  Method.lift r

/-- `HttpSession::sendResponse`. -/
def sendResponse (reply : Reply) : Method Client Fault Int32 := do
  let c ← get
  let data := reply.dump
  match c.sends with
  | [] => throw .outOfRounds
  | results :: sends =>
      match writeFixSize (.ofNat data.length) results with
      | none => throw .outOfRounds
      | some (rt, written) =>
          match written.mapM (data[·]?) with
          | none => throw .outsideBuffer
          | some bytes =>
              set { c with sends := sends, answers := c.answers ++ [SentReply.mk reply bytes] }
              return rt

variable (fnmatch : Text → Text → Bool) (env : RequestEnv) (server : HttpServer)

/-- The response that the loop makes, and what the servlet makes of it and of the request. -/
def respond (request : HttpRequest) : HttpRequest × Reply :=
  let rsp := { HttpResponse.new with
    version := request.version, close := request.close || !server.isKeepalive }
  let rsp := rsp.setHeader (ascii "Server") server.name
  server.dispatch.getMatchedServlet request.path fnmatch request ⟨rsp, []⟩

/-- The loop of `handleClient`. -/
def handleLoop : Nat → Method Client Fault Unit
  | 0 => throw .outOfRounds
  | rounds + 1 => do
      match ← onSocket (HttpSession.recvRequest env) with
      | none => return
      | some req =>
          let handled := server.respond fnmatch req
          let _ ← sendResponse handled.2
          if !server.isKeepalive || handled.1.close then
            return
          else
            handleLoop rounds

/-- `HttpServer::handleClient`. Every round but the last receives a byte that was sent, so that
many rounds are enough. -/
def handleClient : Method Client Fault Unit := do
  let c ← get
  handleLoop fnmatch env server (c.socket.pending.flatten.length + 1)
  onSocket Socket.close

end HttpServer

section Writes

/-- Every write takes something, and there are results for `n` writes. -/
def Prompt (n : Nat) (results : List SendResult) : Prop :=
  n ≤ results.length ∧ ∀ r ∈ results, ∃ k, r = .takes k ∧ 0 < k.val

/-- Each write takes at least one byte, so the loop ends. -/
theorem writeFixSizeLoop_isSome {length : UInt64} {results : List SendResult}
    {offset left : UInt64} (henough : left.toNat ≤ results.length)
    (hsends : ∀ r ∈ results, ∃ n, r = .takes n ∧ 0 < n.val) :
    (writeFixSizeLoop length results offset left).isSome := by
  induction results generalizing offset left with
  | nil =>
      have hleft : left = 0 := UInt64.toNat_inj.mp (Nat.le_zero.mp henough)
      rw [writeFixSizeLoop, if_pos hleft]
      rfl
  | cons r results ih =>
      obtain ⟨n, rfl, hn⟩ := hsends r List.mem_cons_self
      have htoNat : ((SendResult.takes n).len left).toNat = _ := SendResult.toNat_len n
      rw [writeFixSizeLoop]
      split
      · rfl
      · next hleft =>
          have hpos : 0 < left.toNat := by
            rw [Nat.pos_iff_ne_zero]
            exact fun hzero => hleft (UInt64.toNat_inj.mp hzero)
          split
          · rfl
          · have hsub : (left - (SendResult.takes n).len left).toNat =
                left.toNat - min n.val left.toNat := by
              rw [UInt64.toNat_sub_of_le, htoNat]
              rw [UInt64.le_iff_toNat_le, htoNat]
              exact Nat.min_le_right _ _
            rw [Option.isSome_map]
            refine ih ?_ fun r hr => hsends r (List.mem_cons_of_mem _ hr)
            rw [List.length_cons] at henough
            omega

theorem writeFixSize_of_prompt {n : Nat} {results : List SendResult} (h : Prompt n results)
    (hlt : n < 2 ^ 64) : ∃ rt, writeFixSize (.ofNat n) results = some (rt, List.range n) := by
  have htoNat : (UInt64.ofNat n).toNat = n := UInt64.toNat_ofNat_of_lt' hlt
  have hsome : (writeFixSizeLoop (.ofNat n) results 0 (.ofNat n)).isSome :=
    writeFixSizeLoop_isSome (by rw [htoNat]; exact h.1) h.2
  obtain ⟨⟨rt, written⟩, hloop⟩ := Option.isSome_iff_exists.mp hsome
  obtain ⟨-, hwritten⟩ := writeFixSizeLoop_eq (Nat.zero_add _) h.2 hloop
  refine ⟨rt, ?_⟩
  rw [writeFixSize, hloop, hwritten, htoNat]
  simp

/-- The bytes at all offsets are the text. -/
theorem mapM_getElem?_range (data : Text) :
    (List.range data.length).mapM (data[·]?) = some data := by
  have hfrom : ∀ u v : Text, (List.range' u.length v.length).mapM ((u ++ v)[·]?) = some v := by
    intro u v
    induction v generalizing u with
    | nil => rfl
    | cons b v ih =>
        have hfirst : (u ++ b :: v)[u.length]? = some b := by simp
        have hrest := ih (u ++ [b])
        simp only [List.length_append, List.length_singleton, List.append_assoc,
          List.singleton_append] at hrest
        rw [List.length_cons, List.range'_succ, List.mapM_cons, hfirst, hrest]
        rfl
  rw [List.range_eq_range']
  exact hfrom [] data

end Writes

section Run

variable {fnmatch : Text → Text → Bool} {env : RequestEnv} {server : HttpServer}

theorem HttpServer.exec_onSocket {α : Type} (x : Method Socket Fault α) (c : Client) :
    (HttpServer.onSocket x).exec c =
      ((x.exec c.socket).1, { c with socket := (x.exec c.socket).2 }) := by
  rw [HttpServer.onSocket, Method.exec_bind_ok (Method.exec_get c),
    Method.exec_bind_ok (Method.exec_set _ c), Method.exec_lift]

/-- A response whose writes take something is sent as a whole. -/
theorem HttpServer.exec_sendResponse {reply : Reply} {results : List SendResult}
    (hprompt : Prompt reply.dump.length results) (hlt : reply.dump.length < 2 ^ 64) (s : Socket)
    (sends : List (List SendResult)) (answers : List SentReply) :
    ∃ rt, (HttpServer.sendResponse reply).exec ⟨s, results :: sends, answers⟩ =
      (.ok rt, ⟨s, sends, answers ++ [⟨reply, reply.dump⟩]⟩) := by
  obtain ⟨rt, hwrite⟩ := writeFixSize_of_prompt hprompt hlt
  refine ⟨rt, ?_⟩
  rw [HttpServer.sendResponse, Method.exec_bind_ok (Method.exec_get _)]
  simp only [hwrite, mapM_getElem?_range]
  rfl

/-- What a call of `sendResponse` that returns leaves. -/
theorem HttpServer.sendResponse_spec {reply : Reply} {c t : Client} {rt : Int32}
    (h : (HttpServer.sendResponse reply).exec c = (.ok rt, t)) :
    ∃ bytes, t.answers = c.answers ++ [⟨reply, bytes⟩] := by
  rw [HttpServer.sendResponse, Method.exec_bind_ok (Method.exec_get _)] at h
  simp only at h
  split at h
  · cases h
  · split at h
    · cases h
    · split at h
      · cases h
      · next bytes _ =>
          cases h
          exact ⟨bytes, rfl⟩

end Run

section Cuts

/-- The pieces in which a message arrives, its head with the first read. -/
structure Cut (buffSize : Nat) (head whole : Text) (pieces : List Text) : Prop where
  head_ne : head ≠ []
  pieces_ne : ∀ piece ∈ pieces, piece ≠ []
  flatten_eq : pieces.flatten = whole
  head_le : head.length ≤ (Socket.recv buffSize pieces).1.length

variable {buffSize : Nat} {head whole : Text} {pieces later : List Text}

theorem Cut.ne_nil (h : Cut buffSize head whole pieces) : pieces ≠ [] := by
  rintro rfl
  exact h.head_ne (List.length_eq_zero_iff.mp (Nat.le_zero.mp h.head_le))

theorem Cut.append_ne (h : Cut buffSize head whole pieces)
    (hlater : ∀ piece ∈ later, piece ≠ []) : ∀ piece ∈ pieces ++ later, piece ≠ [] := by
  intro piece hpiece
  obtain hpiece | hpiece := List.mem_append.mp hpiece
  · exact h.pieces_ne piece hpiece
  · exact hlater piece hpiece

/-- A read does not look behind the first piece. -/
theorem Cut.recv_append (h : Cut buffSize head whole pieces) (later : List Text) :
    (Socket.recv buffSize (pieces ++ later)).1 = (Socket.recv buffSize pieces).1 := by
  obtain ⟨piece, rest, hsplit⟩ := List.exists_cons_of_ne_nil h.ne_nil
  rw [hsplit, List.cons_append, Socket.recv, Socket.recv]
  split
  · rfl
  · rfl

theorem skip_append (pieces : List Text) (hlater : ∀ piece ∈ later, piece ≠ []) :
    Pieces.skip pieces.flatten.length (pieces ++ later) = later := by
  induction pieces with
  | nil => exact Pieces.skip_zero hlater
  | cons piece pieces ih =>
      rw [List.cons_append, Pieces.skip, List.flatten_cons, List.length_append,
        if_neg (by omega), Nat.add_sub_cancel_left]
      exact ih

/-- A call takes the message off the pieces, and nothing of what follows. -/
theorem Cut.skip_append (h : Cut buffSize head whole pieces)
    (hlater : ∀ piece ∈ later, piece ≠ []) :
    Pieces.skip (max whole.length (Socket.recv buffSize (pieces ++ later)).1.length)
      (pieces ++ later) = later := by
  have hshort : (Socket.recv buffSize pieces).1.length ≤ pieces.flatten.length := by
    rw [← Socket.recv_append_flatten buffSize pieces, List.length_append]
    exact Nat.le_add_right _ _
  rw [h.recv_append, ← h.flatten_eq, Nat.max_eq_left hshort]
  exact Http.skip_append pieces hlater

/-- Messages one after the other arrive in pieces that are not empty. -/
theorem Cut.flatten_ne {α : Type} {size : Nat} {heads wholes : α → Text} {ms : List α}
    {cuts : List (List Text)} {P : α → List Text → Prop} (h : List.Forall₂ P ms cuts)
    (hcut : ∀ m pieces, P m pieces → Cut size (heads m) (wholes m) pieces)
    (hlater : ∀ piece ∈ later, piece ≠ []) : ∀ piece ∈ cuts.flatten ++ later, piece ≠ [] := by
  induction h with
  | nil => exact hlater
  | cons hfirst _ ih =>
      rw [List.flatten_cons, List.append_assoc]
      exact (hcut _ _ hfirst).append_ne ih

end Cuts

section Order

/-- A request that arrives in these pieces. -/
structure Delivered (env : RequestEnv) (r : HttpRequest) (pieces : List Text) : Prop where
  sendable : r.Sendable env.relaxed
  body_lt : r.body.length < 2 ^ 63
  cut : Cut env.buffer.length r.head r.dump pieces

variable {fnmatch : Text → Text → Bool} {env : RequestEnv} {server : HttpServer}

/-- A request is received and nothing of what follows. -/
theorem Delivered.exec_recvRequest {r : HttpRequest} {pieces later : List Text}
    (h : Delivered env r pieces) (hcast : CastsLengths env.cast)
    (hlater : ∀ piece ∈ later, piece ≠ []) :
    (HttpSession.recvRequest env).exec ⟨pieces ++ later, false⟩ =
      (.ok (some r.received), ⟨later, false⟩) := by
  have hbytes : (pieces ++ later).flatten = r.dump ++ later.flatten := by
    rw [List.flatten_append, h.cut.flatten_eq]
  have hfirst : r.head.length ≤ (firstRead env (pieces ++ later)).length := by
    rw [firstRead, h.cut.recv_append]
    exact h.cut.head_le
  rw [h.sendable.exec_recvRequest hcast h.body_lt (h.cut.append_ne hlater) hbytes hfirst,
    firstRead, h.cut.skip_append hlater]

/-- The reply to a request that was sent. -/
def HttpServer.replyTo (fnmatch : Text → Text → Bool) (server : HttpServer) (r : HttpRequest) :
    Reply :=
  (server.respond fnmatch r.received).2

/-- The server goes on after a request that was sent. -/
def HttpServer.goesOn (fnmatch : Text → Text → Bool) (server : HttpServer) (r : HttpRequest) :
    Bool :=
  server.isKeepalive && !(server.respond fnmatch r.received).1.close

theorem exec_recvRequest_nil :
    (HttpSession.recvRequest env).exec ⟨[], false⟩ = (.ok none, ⟨[], true⟩) := rfl

/-- The answer to a request that was sent, as a whole. -/
def HttpServer.answerTo (fnmatch : Text → Text → Bool) (server : HttpServer) (r : HttpRequest) :
    SentReply :=
  ⟨server.replyTo fnmatch r, (server.replyTo fnmatch r).dump⟩

/-- Writes that can send the answer to a request. -/
def HttpServer.Writes (fnmatch : Text → Text → Bool) (server : HttpServer) (r : HttpRequest)
    (results : List SendResult) : Prop :=
  (server.replyTo fnmatch r).dump.length < 2 ^ 64 ∧
    Prompt (server.replyTo fnmatch r).dump.length results

/-- One round of the loop. -/
theorem HttpServer.exec_handleLoop_succ {r : HttpRequest} {pieces later : List Text}
    (h : Delivered env r pieces) (hcast : CastsLengths env.cast)
    (hlater : ∀ piece ∈ later, piece ≠ []) {results : List SendResult}
    (hwrites : server.Writes fnmatch r results) (rounds : Nat) (sends : List (List SendResult))
    (answers : List SentReply) :
    (server.handleLoop fnmatch env (rounds + 1)).exec
        ⟨⟨pieces ++ later, false⟩, results :: sends, answers⟩ =
      (if server.goesOn fnmatch r then server.handleLoop fnmatch env rounds else pure ()).exec
        ⟨⟨later, false⟩, sends, answers ++ [server.answerTo fnmatch r]⟩ := by
  obtain ⟨rt, hsend⟩ := exec_sendResponse hwrites.2 hwrites.1 ⟨later, false⟩ sends answers
  have hreceive : (onSocket (HttpSession.recvRequest env)).exec
      ⟨⟨pieces ++ later, false⟩, results :: sends, answers⟩ =
        (.ok (some r.received), ⟨⟨later, false⟩, results :: sends, answers⟩) := by
    rw [exec_onSocket, h.exec_recvRequest hcast hlater]
  have hreply : (server.respond fnmatch r.received).2 = server.replyTo fnmatch r := rfl
  rw [HttpServer.handleLoop, Method.exec_bind_ok hreceive]
  simp only [hreply]
  rw [Method.exec_bind_ok hsend, goesOn]
  cases server.isKeepalive <;> cases (server.respond fnmatch r.received).1.close <;> rfl

/-- The loop over requests after which the server goes on, and a last one. -/
theorem HttpServer.exec_handleLoop {rs : List HttpRequest} {cuts : List (List Text)}
    (h : List.Forall₂ (Delivered env) rs cuts) (hcast : CastsLengths env.cast) {later : List Text}
    (hlater : ∀ piece ∈ later, piece ≠ []) {writes : List (List SendResult)}
    (hwrites : List.Forall₂ (server.Writes fnmatch) rs writes)
    (hopen : ∀ r ∈ rs.dropLast, server.goesOn fnmatch r)
    (hend : (∃ r ∈ rs.getLast?, server.goesOn fnmatch r = false) ∨ later = []) {rounds : Nat}
    (hrounds : rs.length < rounds) (sends : List (List SendResult)) (answers : List SentReply) :
    ∃ closed, (server.handleLoop fnmatch env rounds).exec
        ⟨⟨cuts.flatten ++ later, false⟩, writes ++ sends, answers⟩ =
      (.ok (), ⟨⟨later, closed⟩, sends, answers ++ rs.map (server.answerTo fnmatch)⟩) := by
  induction h generalizing writes rounds answers with
  | nil =>
      obtain ⟨rounds, rfl⟩ := Nat.exists_eq_succ_of_ne_zero (Nat.ne_zero_of_lt hrounds)
      cases hwrites
      obtain ⟨r, hr, -⟩ | rfl := hend
      · cases hr
      · have hreceive : (onSocket (HttpSession.recvRequest env)).exec
            ⟨⟨[], false⟩, sends, answers⟩ = (.ok none, ⟨⟨[], true⟩, sends, answers⟩) := rfl
        refine ⟨true, ?_⟩
        show (server.handleLoop fnmatch env (rounds + 1)).exec ⟨⟨[], false⟩, sends, answers⟩ = _
        rw [HttpServer.handleLoop, Method.exec_bind_ok hreceive, List.map_nil, List.append_nil]
        rfl
  | @cons r pieces rs cuts hfirst hrest ih =>
      obtain ⟨rounds, rfl⟩ := Nat.exists_eq_succ_of_ne_zero (Nat.ne_zero_of_lt hrounds)
      cases hwrites with
      | @cons _ results _ writes hwrite hwrites =>
          have hnext := Cut.flatten_ne hrest (fun _ _ h => h.cut) hlater
          have hround := exec_handleLoop_succ hfirst hcast hnext hwrite rounds (writes ++ sends)
            answers
          rw [List.flatten_cons, List.append_assoc, List.cons_append, hround]
          by_cases hgo : server.goesOn fnmatch r
          · have hend' : (∃ r ∈ rs.getLast?, server.goesOn fnmatch r = false) ∨ later = [] := by
              refine hend.imp_left ?_
              rintro ⟨last, hlast, hstop⟩
              cases rs with
              | nil =>
                  cases hlast
                  exact absurd hgo (Bool.eq_false_iff.mp hstop)
              | cons r' rs => exact ⟨last, hlast, hstop⟩
            have hopen' : ∀ r ∈ rs.dropLast, server.goesOn fnmatch r := by
              intro r' hr'
              cases rs with
              | nil => cases hr'
              | cons r'' rs => exact hopen r' (List.mem_cons_of_mem _ hr')
            have hrun := ih hwrites hopen' hend' (Nat.lt_of_succ_lt_succ hrounds)
              (answers ++ [server.answerTo fnmatch r])
            rw [List.append_assoc] at hrun
            rw [if_pos hgo]
            exact hrun
          · -- the server stops, so this request is the last one
            cases rs with
            | nil =>
                cases hrest
                cases hwrites
                exact ⟨false, by rw [if_neg hgo]; rfl⟩
            | cons r' rs => exact absurd (hopen r List.mem_cons_self) hgo

theorem Delivered.length_le {rs : List HttpRequest} {cuts : List (List Text)}
    (h : List.Forall₂ (Delivered env) rs cuts) : rs.length ≤ cuts.flatten.flatten.length := by
  induction h with
  | nil => exact Nat.le_refl 0
  | @cons r pieces rs cuts hfirst _ ih =>
      have hpos : 0 < r.dump.length := by
        rw [HttpRequest.dump_eq, List.length_append, HttpRequest.length_head]
        omega
      rw [List.flatten_cons, List.flatten_append, hfirst.cut.flatten_eq, List.length_append,
        List.length_cons]
      omega

theorem HttpServer.exec_handleClient {rs : List HttpRequest} {cuts : List (List Text)}
    (h : List.Forall₂ (Delivered env) rs cuts) (hcast : CastsLengths env.cast) {later : List Text}
    (hlater : ∀ piece ∈ later, piece ≠ []) {writes : List (List SendResult)}
    (hwrites : List.Forall₂ (server.Writes fnmatch) rs writes)
    (hopen : ∀ r ∈ rs.dropLast, server.goesOn fnmatch r)
    (hend : (∃ r ∈ rs.getLast?, server.goesOn fnmatch r = false) ∨ later = []) :
    (server.handleClient fnmatch env).exec ⟨⟨cuts.flatten ++ later, false⟩, writes, []⟩ =
      (.ok (), ⟨⟨later, true⟩, [], rs.map (server.answerTo fnmatch)⟩) := by
  have hrounds : rs.length < (cuts.flatten ++ later).flatten.length + 1 := by
    have hle := Delivered.length_le h
    rw [List.flatten_append, List.length_append]
    omega
  obtain ⟨closed, hloop⟩ :=
    exec_handleLoop h hcast hlater hwrites hopen hend hrounds [] []
  rw [List.append_nil] at hloop
  rw [handleClient, Method.exec_bind_ok (Method.exec_get _), Method.exec_bind_ok hloop,
    exec_onSocket]
  rfl

/-- A server that has no page. -/
def emptyServer : HttpServer := .new true

/-- A request that closes the connection. -/
def lastRequest : HttpRequest :=
  { postRequest with method := .GET, close := true, path := ascii "/b", body := [] }

theorem lastRequest_sendable : lastRequest.Sendable false :=
  { postRequest_sendable with
    method := by decide
    path := ⟨by decide, by decide, by decide +kernel⟩ }

/-- Two requests, the first in three pieces. -/
def twoCuts : List (List Text) := [[postRequest.head, ascii "hel", ascii "lo"], [lastRequest.dump]]

theorem twoCuts_delivered :
    List.Forall₂ (Delivered numeralEnv) [postRequest, lastRequest] twoCuts := by
  refine .cons ⟨postRequest_sendable, by decide, ?_⟩
    (.cons ⟨lastRequest_sendable, by decide, ?_⟩ .nil)
  · constructor <;> decide +kernel
  · constructor <;> decide +kernel

/-- Writes that take a hundred bytes each. -/
def hundreds : List SendResult := List.replicate 300 (.takes ⟨100, by decide⟩)

/-- The two requests are not found. -/
theorem emptyServer_replies :
    ∀ r ∈ [postRequest, lastRequest],
      let p := emptyServer.replyTo (fun _ _ => false) r
      emptyServer.goesOn (fun _ _ => false) r = !r.close ∧ p.dump.length ≤ 300 ∧ p.dump ≠ [] ∧
        p.cookies = [] ∧ p.response.version = 0x11 ∧ p.response.status = 404 ∧
        p.response.close = r.close ∧ p.response.reason = [] ∧ p.response.body.length < 2 ^ 63 ∧
        p.response.headers = [(ascii "Content-Type", ascii "text/html"),
          (ascii "Server", ascii "sylar/1.0")] ∧
        (p.response.head p.cookies).length ≤
          (Socket.recv numeralResponseEnv.buffSize [p.dump]).1.length := by
  decide +kernel

theorem hundreds_writes :
    List.Forall₂ (emptyServer.Writes fun _ _ => false) [postRequest, lastRequest]
      [hundreds, hundreds] := by
  have htakes : ∀ r ∈ hundreds, ∃ k, r = .takes k ∧ 0 < k.val := by
    intro r hr
    exact ⟨100, List.eq_of_mem_replicate hr, by decide⟩
  have hwrites : ∀ r ∈ [postRequest, lastRequest],
      emptyServer.Writes (fun _ _ => false) r hundreds := by
    intro r hr
    obtain ⟨-, hle, -⟩ := emptyServer_replies r hr
    exact ⟨by omega, by rw [hundreds, List.length_replicate]; exact hle, htakes⟩
  exact .cons (hwrites _ (by simp)) (.cons (hwrites _ (by simp)) .nil)

theorem emptyServer_goesOn :
    ∀ r ∈ [postRequest, lastRequest].dropLast, emptyServer.goesOn (fun _ _ => false) r := by
  intro r hr
  obtain rfl := List.mem_singleton.mp hr
  exact (emptyServer_replies postRequest (by simp)).1

end Order

section Manners

/-- A servlet that leaves alone what the request and the response say of the connection. -/
def Servlet.Polite (servlet : Servlet) : Prop :=
  ∀ request reply, (servlet request reply).1.close = request.close ∧
    (servlet request reply).2.response.close = reply.response.close

/-- Every servlet that a path can lead to is one. -/
def HttpServer.Polite (fnmatch : Text → Text → Bool) (server : HttpServer) : Prop :=
  ∀ path, (server.dispatch.getMatchedServlet path fnmatch).Polite

variable {fnmatch : Text → Text → Bool} {env : RequestEnv} {server : HttpServer}

theorem HttpServer.Polite.respond (h : server.Polite fnmatch) (request : HttpRequest) :
    (server.respond fnmatch request).1.close = request.close ∧
      (server.respond fnmatch request).2.response.close =
        (request.close || !server.isKeepalive) :=
  h request.path request _

/-- What the loop adds to the answers. -/
theorem HttpServer.Polite.handleLoop (h : server.Polite fnmatch) {rounds : Nat} {c t : Client}
    (hrun : (server.handleLoop fnmatch env rounds).exec c = (.ok (), t)) :
    ∃ added, t.answers = c.answers ++ added ∧
      (∀ a ∈ added.dropLast, a.reply.response.close = false) ∧
      (server.isKeepalive = false → added.length ≤ 1 ∧
        ∀ a ∈ added, a.reply.response.close = true) := by
  induction rounds generalizing c with
  | zero => cases hrun
  | succ rounds ih =>
      obtain ⟨received, c', hreceive, hrun⟩ := Method.exec_bind_eq_ok hrun
      have hsame : c'.answers = c.answers := by
        rw [HttpServer.exec_onSocket] at hreceive
        exact (congrArg (fun p => p.2.answers) hreceive).symm
      cases received with
      | none =>
          cases hrun
          exact ⟨[], by rw [hsame, List.append_nil], by simp, by simp⟩
      | some req =>
          obtain ⟨rt, c'', hsend, hrun⟩ := Method.exec_bind_eq_ok hrun
          obtain ⟨bytes, hanswers⟩ := HttpServer.sendResponse_spec hsend
          obtain ⟨hrequest, hresponse⟩ := h.respond req
          rw [hsame] at hanswers
          rw [hrequest] at hrun
          by_cases hstop : (!server.isKeepalive || req.close) = true
          · rw [if_pos hstop] at hrun
            cases hrun
            refine ⟨[⟨_, bytes⟩], hanswers, by simp, fun hclosed => ⟨Nat.le_refl _, ?_⟩⟩
            intro a ha
            rw [List.mem_singleton.mp ha, hresponse, hclosed, Bool.not_false, Bool.or_true]
          · rw [if_neg hstop] at hrun
            simp only [Bool.or_eq_true, Bool.not_eq_true', not_or, Bool.not_eq_false,
              Bool.not_eq_true] at hstop
            obtain ⟨hkeep, hopen⟩ := hstop
            obtain ⟨added, hadded, hfirst, -⟩ := ih hrun
            refine ⟨⟨(server.respond fnmatch req).2, bytes⟩ :: added, ?_, ?_, fun hclosed => ?_⟩
            · rw [hadded, hanswers, List.append_assoc]
              rfl
            · intro a ha
              cases added with
              | nil => cases ha
              | cons b added =>
                  obtain rfl | ha := List.mem_cons.mp ha
                  · rw [hresponse, hopen, hkeep]
                    rfl
                  · exact hfirst a ha
            · rw [hkeep] at hclosed
              cases hclosed

/-- Whatever arrives on the connection: a server whose servlets leave the connection alone sends
nothing behind a response that says that the connection is closed, and closes the connection when
it returns. Without keep-alive it answers once and says so. -/
theorem only_last_answer_closes (h : server.Polite fnmatch) {c t : Client}
    (hrun : (server.handleClient fnmatch env).exec c = (.ok (), t)) :
    t.socket.closed = true ∧
      ∃ added, t.answers = c.answers ++ added ∧
        (∀ a ∈ added.dropLast, a.reply.response.close = false) ∧
        (server.isKeepalive = false → added.length ≤ 1 ∧
          ∀ a ∈ added, a.reply.response.close = true) := by
  obtain ⟨_, c', hget, hrun⟩ := Method.exec_bind_eq_ok hrun
  cases hget
  obtain ⟨_, c'', hloop, hclose⟩ := Method.exec_bind_eq_ok hrun
  rw [HttpServer.exec_onSocket] at hclose
  cases hclose
  have hadded := h.handleLoop hloop
  exact ⟨rfl, hadded⟩

theorem emptyServer_polite : emptyServer.Polite fun _ _ => false :=
  fun _ _ _ => ⟨rfl, rfl⟩

theorem only_last_answer_closes_twice :
    ∃ t, (emptyServer.handleClient (fun _ _ => false) numeralEnv).exec
        ⟨⟨twoCuts.flatten ++ [], false⟩, [hundreds, hundreds], []⟩ = (.ok (), t) ∧
      t.socket.closed = true ∧ ∀ a ∈ t.answers.dropLast, a.reply.response.close = false := by
  have hrun : (emptyServer.handleClient (fun _ _ => false) numeralEnv).exec
      ⟨⟨twoCuts.flatten ++ [], false⟩, [hundreds, hundreds], []⟩ = _ :=
    HttpServer.exec_handleClient twoCuts_delivered castsLengths_numeralEnv (by decide)
      hundreds_writes emptyServer_goesOn (.inr rfl)
  obtain ⟨hclosed, added, hadded, hfirst, -⟩ := only_last_answer_closes emptyServer_polite hrun
  refine ⟨_, hrun, hclosed, ?_⟩
  rw [hadded]
  exact hfirst

end Manners

section Conversation

/-- A reply that arrives in these pieces. -/
structure Returned (env : ResponseEnv) (p : Reply) (pieces : List Text) : Prop where
  sendable : p.response.Sendable p.cookies
  body_lt : p.response.body.length < 2 ^ 63
  cut : Cut env.buffSize (p.response.head p.cookies) p.dump pieces

/-- The client receives one response after the other. -/
def recvResponses (env : ResponseEnv) : Nat → Method Socket Fault (List HttpResponse)
  | 0 => return []
  | n + 1 => do
      match ← HttpConnection.recvResponse env with
      | none => return []
      | some response =>
          let rest ← recvResponses env n
          return response :: rest

/-- The client has the response that the server made; only the fields are more. -/
structure Arrived (p : Reply) (got : HttpResponse) : Prop where
  status : got.status = p.response.status
  version : got.version = p.response.version
  close : got.close = p.response.close
  body : got.body = p.response.body
  reason : p.response.reason ≠ [] → got.reason = p.response.reason
  fields : ∀ key, (∀ added ∈ [ascii "connection", ascii "content-length", ascii "set-cookie"],
    sameIgnoringCase added key = false) →
      HeaderMap.find key got.headers = HeaderMap.find key p.response.headers

variable {env : ResponseEnv}

theorem Returned.arrived {p : Reply} {pieces : List Text} (h : Returned env p pieces) :
    Arrived p (p.response.received p.cookies) where
  status := rfl
  version := rfl
  close := rfl
  body := rfl
  reason hne := if_neg hne
  fields key hkey := by
    have hconnection := hkey (ascii "connection") (by simp)
    have hlength := hkey (ascii "content-length") (by simp)
    have hcookie := hkey (ascii "set-cookie") (by simp)
    rw [find_responseFields h.sendable, hconnection, hlength, hcookie]
    simp

theorem Returned.exec_recvResponse {p : Reply} {pieces later : List Text}
    (h : Returned env p pieces) (hcast : CastsLengths env.cast)
    (hlater : ∀ piece ∈ later, piece ≠ []) :
    (HttpConnection.recvResponse env).exec ⟨pieces ++ later, false⟩ =
      (.ok (some (p.response.received p.cookies)), ⟨later, false⟩) := by
  have hbytes : (pieces ++ later).flatten = p.response.dump p.cookies ++ later.flatten := by
    rw [List.flatten_append, h.cut.flatten_eq]
    rfl
  have hfirst : (p.response.head p.cookies).length ≤
      (Socket.recv env.buffSize (pieces ++ later)).1.length := by
    rw [h.cut.recv_append]
    exact h.cut.head_le
  have hskip := h.cut.skip_append hlater
  rw [Reply.dump] at hskip
  rw [Http.exec_recvResponse h.sendable hcast h.body_lt (h.cut.append_ne hlater) hbytes hfirst,
    hskip]

/-- The client gets the responses in order. -/
theorem exec_recvResponses {ps : List Reply} {cuts : List (List Text)}
    (h : List.Forall₂ (Returned env) ps cuts) (hcast : CastsLengths env.cast) :
    (recvResponses env ps.length).exec ⟨cuts.flatten, false⟩ =
      (.ok (ps.map fun p => p.response.received p.cookies), ⟨[], false⟩) := by
  induction h with
  | nil => rfl
  | @cons p pieces ps cuts hfirst hrest ih =>
      have hlater : ∀ piece ∈ cuts.flatten ++ [], piece ≠ [] :=
        Cut.flatten_ne hrest (fun _ _ h => h.cut) (by simp)
      rw [List.append_nil] at hlater
      rw [List.length_cons, recvResponses, List.flatten_cons,
        Method.exec_bind_ok (hfirst.exec_recvResponse hcast hlater)]
      simp only
      rw [Method.exec_bind_ok ih]
      rfl

theorem Returned.arrived_all {ps : List Reply} {cuts : List (List Text)}
    (h : List.Forall₂ (Returned env) ps cuts) :
    List.Forall₂ Arrived ps (ps.map fun p => p.response.received p.cookies) := by
  induction h with
  | nil => exact .nil
  | cons hfirst _ ih => exact .cons hfirst.arrived ih

theorem Returned.flatMap_dump {ps : List Reply} {cuts : List (List Text)}
    (h : List.Forall₂ (Returned env) ps cuts) : ps.flatMap Reply.dump = cuts.flatten.flatten := by
  induction h with
  | nil => rfl
  | cons hfirst _ ih =>
      rw [List.flatMap_cons, List.flatten_cons, List.flatten_append, hfirst.cut.flatten_eq, ih]

/-- The replies to the two requests. -/
def twoAnswers : List (List Text) :=
  [postRequest, lastRequest].map fun r => [(emptyServer.replyTo (fun _ _ => false) r).dump]

theorem emptyServer_returned {r : HttpRequest} (hr : r ∈ [postRequest, lastRequest]) :
    Returned numeralResponseEnv (emptyServer.replyTo (fun _ _ => false) r)
      [(emptyServer.replyTo (fun _ _ => false) r).dump] := by
  obtain ⟨-, -, hdump, hcookies, hversion, hstatus, -, hreason, hbody, hheaders, hhead⟩ :=
    emptyServer_replies r hr
  refine ⟨⟨.inr hversion, by rw [hstatus]; decide, by simp [hreason], ?_, ?_, ?_, ?_, ?_, ?_⟩,
    hbody, ⟨?_, by simpa using hdump, List.append_nil _, hhead⟩⟩
  · rw [hheaders]
    intro i hi
    obtain rfl | hi := List.mem_cons.mp hi
    · constructor <;> decide +kernel
    · obtain rfl := List.mem_singleton.mp hi
      constructor <;> decide +kernel
  · rw [hheaders]
    decide +kernel
  · rw [hheaders]
    decide +kernel
  · rw [hheaders]
    unfold HeaderMap.Sorted
    decide +kernel
  · simp [hcookies]
  · have hnone : HeaderMap.find (ascii "content-encoding") [(ascii "Content-Type",
        ascii "text/html"), (ascii "Server", ascii "sylar/1.0")] = none := by decide +kernel
    rw [hheaders, hnone]
    nofun
  · rw [← List.length_pos_iff]
    exact Nat.lt_of_lt_of_le (by decide) (HttpResponse.two_le_length_head _ _)

end Conversation

end Sylar.Http

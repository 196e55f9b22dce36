import Sylar.Http.Connection

/-!
# A request on a connection of the pool

`doRequest` sends the request with `writeFixSize` and receives the response with
`recvResponse`. The results of the writes are given. `writeFixSize` keeps the result
of a write in a `size_t`: a result of -1 is not taken for an error, it moves the
offset back by one and makes one byte more to be written.
-/

namespace Sylar.Http

open Sylar.Lib Sylar.Net

/-- What a write does: it fails with -1, or it takes some of the bytes, or none. -/
inductive SendResult where
  | error
  | takes (n : Fin (2 ^ 31))
  deriving DecidableEq, Repr

/-- How many bytes a write of `left` bytes takes. -/
def SendResult.taken (left : UInt64) : SendResult → Nat
  | .error => 0
  | .takes n => min n.val left.toNat

/-- The value that `size_t len = write(…)` gets. -/
def SendResult.len (left : UInt64) : SendResult → UInt64
  | .error => -1
  | .takes n => .ofNat (min n.val left.toNat)

/-- The loop of `Stream::writeFixSize`: the value returned, and the offsets of the
bytes written in the order in which they were written. It is `none` while more
writes are needed than there are results. -/
def writeFixSizeLoop (length : UInt64) :
    List SendResult → UInt64 → UInt64 → Option (Int32 × List Nat)
  | [], _, left => if left = 0 then some (.ofNat length.toNat, []) else none
  | r :: results, offset, left =>
      if left = 0 then some (.ofNat length.toNat, [])
      else if r.len left = 0 then some (0, [])
      else
        (writeFixSizeLoop length results (offset + r.len left) (left - r.len left)).map
          fun (rt, written) =>
            (rt, (List.range (r.taken left)).map (offset.toNat + ·) ++ written)

/-- `Stream::writeFixSize`. -/
def writeFixSize (length : UInt64) (results : List SendResult) : Option (Int32 × List Nat) :=
  writeFixSizeLoop length results 0 length

/-- The codes of `HttpResult::Error` with which `doRequest` returns after it has got a
connection. -/
inductive HttpResultError where
  | ok
  | sendCloseByPeer
  | sendSocketError
  | timeout
  deriving DecidableEq, Repr

/-- One request: the bytes of the request, the results of the writes, and what
arrives in answer to it. -/
structure Exchange where
  data : Text
  sends : List SendResult
  env : ResponseEnv
  answer : List Text
  data_ne : data ≠ []
  data_lt : data.length < 2 ^ 64
  answer_ne : ∀ piece ∈ answer, piece ≠ []

namespace Exchange

/-- `doRequest` on its connection: the result, the socket and the offsets of the bytes
that were sent. A fault is an exception that leaves `doRequest`. -/
def doRequest (x : Exchange) (s : Socket) :
    Option (Except Fault HttpResultError × Socket × List Nat) :=
  match writeFixSize (.ofNat x.data.length) x.sends with
  | none => none
  | some (rt, written) =>
      let s := { s with pending := s.pending ++ x.answer }
      if rt = 0 then some (.ok .sendCloseByPeer, s, written)
      else if rt < 0 then some (.ok .sendSocketError, s, written)
      else
        match (HttpConnection.recvResponse x.env).exec s with
        | (.ok none, t) => some (.ok .timeout, t, written)
        | (.ok (some _), t) => some (.ok .ok, t, written)
        | (.error f, t) => some (.error f, t, written)

/-- The whole request was sent, a response was returned, and nothing of the answer is
left to be received. -/
def finished (x : Exchange) (result : Except Fault HttpResultError) (t : Socket)
    (written : List Nat) : Bool :=
  result = .ok .ok && written = List.range x.data.length && t.pending = []

end Exchange

section Writes

theorem SendResult.toNat_len {left : UInt64} (n : Fin (2 ^ 31)) :
    ((SendResult.takes n).len left).toNat = min n.val left.toNat := by
  have hlt := left.toNat_lt
  rw [SendResult.len, UInt64.toNat_ofNat_of_lt']
  exact Nat.lt_of_le_of_lt (Nat.min_le_right _ _) hlt

/-- Writes that all take something send the bytes in order, each once. -/
theorem writeFixSizeLoop_eq {length : UInt64} {results : List SendResult} {offset left : UInt64}
    {rt : Int32} {written : List Nat} (hlen : offset.toNat + left.toNat = length.toNat)
    (hsends : ∀ r ∈ results, ∃ n, r = .takes n ∧ 0 < n.val)
    (h : writeFixSizeLoop length results offset left = some (rt, written)) :
    rt = .ofNat length.toNat ∧ written = (List.range left.toNat).map (offset.toNat + ·) := by
  have hlt := length.toNat_lt
  induction results generalizing offset left written with
  | nil =>
      rw [writeFixSizeLoop] at h
      split at h
      · next hleft =>
          cases h
          rw [hleft]
          exact ⟨rfl, rfl⟩
      · cases h
  | cons r results ih =>
      obtain ⟨n, rfl, hn⟩ := hsends r List.mem_cons_self
      have hrest : ∀ r ∈ results, ∃ n, r = .takes n ∧ 0 < n.val :=
        fun r hr => hsends r (List.mem_cons_of_mem _ hr)
      rw [writeFixSizeLoop] at h
      split at h
      · next hleft =>
          cases h
          rw [hleft]
          exact ⟨rfl, rfl⟩
      · next hleft =>
          have hpos : 0 < left.toNat := by
            rw [Nat.pos_iff_ne_zero]
            intro hzero
            exact hleft (UInt64.toNat_inj.mp hzero)
          have htoNat : ((SendResult.takes n).len left).toNat = _ := SendResult.toNat_len n
          split at h
          · next hzero =>
              rw [hzero] at htoNat
              change 0 = _ at htoNat
              omega
          · obtain ⟨⟨rt', written'⟩, hloop, heq⟩ := Option.map_eq_some_iff.mp h
            cases heq
            have hoffset : (offset + (SendResult.takes n).len left).toNat =
                offset.toNat + min n.val left.toNat := by
              rw [UInt64.toNat_add, htoNat]
              exact Nat.mod_eq_of_lt (by omega)
            have hsub : (left - (SendResult.takes n).len left).toNat =
                left.toNat - min n.val left.toNat := by
              rw [UInt64.toNat_sub_of_le, htoNat]
              rw [UInt64.le_iff_toNat_le, htoNat]
              exact Nat.min_le_right _ _
            obtain ⟨hrt, hwritten⟩ := ih (by omega) hrest hloop
            refine ⟨hrt, ?_⟩
            have hsplit : List.range left.toNat = List.range (min n.val left.toNat) ++
                (List.range (left.toNat - min n.val left.toNat)).map
                  (min n.val left.toNat + ·) := by
              rw [← List.range_add]
              congr 1
              omega
            rw [hwritten, hoffset, hsub, hsplit, List.map_append, List.map_map]
            simp only [SendResult.taken, Function.comp_def, Nat.add_assoc]

/-- A request of less than 2 GiB whose writes all take something is sent as a whole. -/
theorem writeFixSize_eq {length : Nat} {results : List SendResult} {rt : Int32}
    {written : List Nat} (hpos : 0 < length) (hlt : length < 2 ^ 31)
    (hsends : ∀ r ∈ results, ∃ n, r = .takes n ∧ 0 < n.val)
    (h : writeFixSize (.ofNat length) results = some (rt, written)) :
    ¬ rt = 0 ∧ ¬ rt < 0 ∧ written = List.range length := by
  have htoNat : (UInt64.ofNat length).toNat = length :=
    UInt64.toNat_ofNat_of_lt' (Nat.lt_trans hlt (by decide))
  obtain ⟨hrt, hwritten⟩ := writeFixSizeLoop_eq (Nat.zero_add _) hsends h
  rw [htoNat] at hrt hwritten
  have hint : rt.toInt = length := by
    rw [hrt]
    exact Int32.toInt_ofNat_of_lt hlt
  refine ⟨?_, ?_, ?_⟩
  · rintro rfl
    change (0 : Int) = _ at hint
    omega
  · rw [Int32.lt_iff_toInt_lt, hint]
    change ¬ (length : Int) < 0
    omega
  · simpa using hwritten

end Writes

section Exits

/-- The socket is closed if the result is null. -/
def ClosedIfNone {α : Type} (r : Option α) (t : Socket) : Prop := r = none → t.closed = true

theorem post_close_none {α : Type} :
    Method.Post (do Socket.close; return none : Method Socket Fault (Option α)) ClosedIfNone := by
  rintro s a t ⟨⟩ -
  rfl

theorem post_some {α : Type} (a : α) :
    Method.Post (return some a : Method Socket Fault (Option α)) ClosedIfNone :=
  .pure fun _ => nofun

/-- After a call that closes the socket with a null result, nothing more has to be done. -/
theorem post_pass {α β : Type} {x : Method Socket Fault (Option α)}
    {f : Option α → Method Socket Fault (Option β)} (hx : Method.Post x ClosedIfNone)
    (hnone : f none = return none) (hsome : ∀ a, Method.Post (f (some a)) ClosedIfNone) :
    Method.Post (x >>= f) ClosedIfNone := by
  refine hx.bind ?_
  rintro (_ | a) s b t hclosed hexec
  · rw [hnone] at hexec
    cases hexec
    intro _
    exact hclosed rfl
  · exact hsome a s b t hexec

namespace HttpConnection

variable (env : ResponseEnv)

theorem post_recvHead (rounds : Nat) (parser : HttpResponseParser) (data : Text) (offset : Nat) :
    Method.Post (recvHead env rounds parser data offset) ClosedIfNone := by
  induction rounds generalizing parser data offset with
  | zero => exact .throw _
  | succ rounds ih =>
      rw [recvHead]
      apply Method.Post.then
      intro bytes
      split
      · exact post_close_none
      · apply Method.Post.then
        rintro ⟨nparse, data, parser⟩
        dsimp only
        split
        · exact post_close_none
        · split
          · exact post_close_none
          · split
            · exact post_some _
            · exact ih _ _ _

theorem post_recvChunkSize (rounds : Nat) (parser : HttpResponseParser) (data : Text) (len : Nat)
    (begin : Bool) :
    Method.Post (recvChunkSize env rounds parser data len begin) ClosedIfNone := by
  induction rounds generalizing parser data len begin with
  | zero => exact .throw _
  | succ rounds ih =>
      rw [recvChunkSize]
      apply Method.Post.then
      rintro (_ | ⟨data, len⟩)
      · exact post_close_none
      · apply Method.Post.then
        rintro ⟨nparse, data, parser⟩
        dsimp only
        split
        · exact post_close_none
        · split
          · exact post_close_none
          · split
            · exact post_some _
            · exact ih _ _ _ _

theorem post_readLeft (rounds : Nat) (body data : Text) (left : Nat) :
    Method.Post (readLeft env rounds body data left) ClosedIfNone := by
  induction rounds generalizing body data left with
  | zero =>
      cases left with
      | zero => exact post_some _
      | succ left => exact .throw _
  | succ rounds ih =>
      cases left with
      | zero => exact post_some _
      | succ left =>
          rw [readLeft]
          apply Method.Post.then
          intro bytes
          split
          · exact post_close_none
          · exact ih _ _ _

theorem post_recvChunkData (size : Int) (body data : Text) (len : Nat) :
    Method.Post (recvChunkData env size body data len) ClosedIfNone := by
  rw [recvChunkData]
  split
  · exact .throw _
  · split
    · apply Method.Post.then
      intro text
      exact post_some _
    · refine post_pass (post_readLeft env _ _ _ _) rfl ?_
      rintro ⟨body, data⟩
      dsimp only
      split
      · exact Method.Post.then fun _ => post_some _
      · exact post_some _

theorem post_recvChunks (rounds : Nat) (parser : HttpResponseParser) (body data : Text)
    (len : Nat) : Method.Post (recvChunks env rounds parser body data len) ClosedIfNone := by
  induction rounds generalizing parser body data len with
  | zero => exact .throw _
  | succ rounds ih =>
      rw [recvChunks]
      apply Method.Post.then
      intro s
      refine post_pass (post_recvChunkSize env _ _ _ _ _) rfl ?_
      rintro ⟨parser, data, len⟩
      refine post_pass (post_recvChunkData env _ _ _ _) rfl ?_
      rintro ⟨body, data, len⟩
      dsimp only
      split
      · exact post_some _
      · exact ih _ _ _ _

theorem post_recvPlain (parser : HttpResponseParser) (data : Text) (offset : Nat) :
    Method.Post (recvPlain env parser data offset) ClosedIfNone := by
  rw [recvPlain]
  dsimp only
  split
  · split
    · apply Method.Post.then
      rintro (_ | bytes)
      · exact post_close_none
      · exact post_some _
    · exact post_some _
  · exact post_some _

theorem post_recvBody (parser : HttpResponseParser) (data : Text) (offset : Nat) :
    Method.Post (recvBody env parser data offset) ClosedIfNone := by
  rw [recvBody]
  apply Method.Post.then
  intro s
  dsimp only
  split
  · refine post_pass (post_recvChunks env _ _ _ _ _) rfl ?_
    rintro ⟨parser, body⟩
    dsimp only
    split
    · exact post_some _
    · exact post_some _
  · refine post_pass (post_recvPlain env _ _ _) rfl ?_
    rintro ⟨parser, body⟩
    dsimp only
    split
    · exact post_some _
    · exact post_some _

/-- Every exit of `recvResponse` without a response closes the socket. -/
theorem post_recvResponse : Method.Post (recvResponse env) ClosedIfNone := by
  rw [recvResponse]
  apply Method.Post.then
  intro s
  refine post_pass (post_recvHead env _ _ _ _) rfl ?_
  rintro ⟨parser, data, offset⟩
  exact post_recvBody env parser data offset

end HttpConnection

end Exits

/-- No write fails or takes nothing, the request has less than 2 GiB, `recvResponse` does
not throw, and the answer is one message: a response that is returned leaves nothing
of it unread. -/
structure Exchange.Proper (x : Exchange) : Prop where
  sends : ∀ r ∈ x.sends, ∃ n, r = .takes n ∧ 0 < n.val
  data_lt : x.data.length < 2 ^ 31
  returns : ∀ f t, (HttpConnection.recvResponse x.env).exec ⟨x.answer, false⟩ ≠ (.error f, t)
  message : ∀ response t, (HttpConnection.recvResponse x.env).exec ⟨x.answer, false⟩ =
    (.ok (some response), t) → t.pending = []

/-- After such an exchange on a clean connection the socket is closed or the exchange
is finished. -/
theorem Exchange.Proper.closed_or_finished {x : Exchange} (h : x.Proper)
    {result : Except Fault HttpResultError} {t : Socket} {written : List Nat}
    (hrun : x.doRequest ⟨[], false⟩ = some (result, t, written)) :
    t.closed = true ∨ x.finished result t written = true := by
  rw [doRequest] at hrun
  split at hrun
  · cases hrun
  · next rt sent hwrite =>
      obtain ⟨hne, hnonneg, hwhole⟩ :=
        writeFixSize_eq (List.length_pos_iff.mpr x.data_ne) h.data_lt h.sends hwrite
      simp only [if_neg hne, if_neg hnonneg, List.nil_append] at hrun
      rcases hrecv : (HttpConnection.recvResponse x.env).exec ⟨x.answer, false⟩ with ⟨r, u⟩
      rw [hrecv] at hrun
      match r with
      | .error f => exact absurd hrecv (h.returns f u)
      | .ok none =>
          cases hrun
          exact Or.inl (HttpConnection.post_recvResponse x.env _ _ _ hrecv rfl)
      | .ok (some response) =>
          cases hrun
          right
          have hread : t.pending = [] := h.message response t hrecv
          simp [finished, hwhole, hread]

end Sylar.Http

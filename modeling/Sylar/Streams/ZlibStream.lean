import Sylar.Net.ReadBuffers

/-!
# `ZlibStream`

What is written goes through `deflate` or `inflate` into a list of buffers of one size. zlib is
not modelled: each of its calls is answered by a value that says how much input it took, what
it wrote and what it returned, and the results hold for all answers. A list of answers ends
somewhere, and a call that needs one more has not returned yet; the behaviour of zlib over a
whole run is seen through all its finite beginnings.
-/

namespace Sylar.Streams

open Sylar.Net Sylar.Lib

/-- What `deflate` and `inflate` return. -/
inductive Ret
  | ok
  | streamEnd
  | bufError
  | dataError
  | memError
  | streamError
  deriving DecidableEq, Repr

inductive Flush
  | noFlush
  | finish
  deriving DecidableEq, Repr

inductive Coder
  | deflate
  | inflate
  deriving DecidableEq, Repr

/-- What one call of `deflate` or `inflate` does. Of `consumed` and `output` it can only use
what fits into the input and the space that it is given. -/
structure Answer where
  consumed : Nat
  output : List UInt8
  ret : Ret
  deriving DecidableEq, Repr

/-- An output buffer: its memory, of which the first `len` bytes are in use. -/
structure Iovec where
  base : List UInt8
  len : Nat
  deriving DecidableEq, Repr

/-- The fields of `z_stream` that outlive a call. -/
structure ZStream where
  nextIn : List UInt8
  availIn : Nat
  availOut : Nat
  ended : Option Coder
  deriving DecidableEq, Repr

/-- A call as zlib saw it: `next_out` is the byte `offset` of the buffer number `buffer`. -/
structure Call where
  coder : Coder
  flush : Flush
  nextIn : List UInt8
  availIn : Nat
  buffer : Nat
  offset : Nat
  availOut : Nat
  written : List UInt8
  ret : Ret
  deriving DecidableEq, Repr

/-- The stream, with the calls of zlib made so far. -/
structure ZlibStream where
  zstream : ZStream
  buffSize : Nat
  isEncode : Bool
  buffs : List Iovec
  calls : List Call
  deriving DecidableEq, Repr

/-- Why a method has not returned: zlib has not answered yet, or a `ByteArray` is broken. -/
inductive Stop
  | pending
  | failure (e : Failure)
  deriving DecidableEq, Repr

/-- The two `write` methods. -/
inductive Write
  | raw (buffer : List UInt8)
  | array (ba : Net.ByteArray) (length : Nat)
  deriving DecidableEq, Repr

inductive Operation
  | write (w : Write)
  | flush
  deriving DecidableEq, Repr

namespace ZlibStream

variable (fresh : Nat → Nat → UInt8)

/-- The constructor, with the memory that `init` clears. -/
def new (encode : Bool) (buffSize : Nat) : ZlibStream where
  zstream := ⟨[], 0, 0, none⟩
  buffSize := buffSize
  isEncode := encode
  buffs := []
  calls := []

/-- `malloc(m_buffSize)` for the buffer number `k`: the memory holds what it held. -/
def malloc (buffSize k : Nat) : Iovec := ⟨(List.range buffSize).map (fresh k), 0⟩

/-- `ivc`, the buffer to write to, and the buffers before it. -/
def pick (s : ZlibStream) : List Iovec × Iovec :=
  match s.buffs.getLast? with
  | some ivc =>
      if ivc.len ≠ s.buffSize then (s.buffs.dropLast, ivc)
      else (s.buffs, malloc fresh s.buffSize s.buffs.length)
  | none => (s.buffs, malloc fresh s.buffSize s.buffs.length)

/-- The body of the `do` loop. -/
def iterate (coder : Coder) (flush : Flush) (a : Answer) (s : ZlibStream) : ZlibStream :=
  let (before, ivc) := s.pick fresh
  let availOut := s.buffSize - ivc.len
  let written := a.output.take availOut
  let consumed := min a.consumed s.zstream.availIn
  let left := availOut - written.length
  -- after `Z_STREAM_ERROR` the length of the buffer is not brought up to date
  let len := if a.ret = .streamError then ivc.len else s.buffSize - left
  { s with
    zstream :=
      { s.zstream with
        nextIn := s.zstream.nextIn.drop consumed
        availIn := s.zstream.availIn - consumed
        availOut := left }
    buffs := before ++ [⟨Blocks.overwrite ivc.base ivc.len written, len⟩]
    calls := s.calls ++
      [⟨coder, flush, s.zstream.nextIn, s.zstream.availIn, before.length, ivc.len, availOut,
        written, a.ret⟩] }

/-- The `do` loop for one piece of input: the value that it returns from the method, if it
does, and the answers that are left. -/
def codeLoop (coder : Coder) (flush : Flush) :
    List Answer → ZlibStream → Except Stop (Option Ret) × List Answer × ZlibStream
  | [], s => (.error .pending, [], s)
  | a :: as, s =>
      let s := s.iterate fresh coder flush a
      if a.ret = .streamError then (.ok (some a.ret), as, s)
      else if s.zstream.availOut = 0 then codeLoop coder flush as s
      else (.ok none, as, s)

/-- `avail_in` is an `unsigned int`. -/
def setInput (v : List UInt8) (s : ZlibStream) : ZlibStream :=
  { s with zstream := { s.zstream with nextIn := v, availIn := v.length % 2 ^ 32 } }

/-- `deflateEnd` and `inflateEnd`. -/
def endStream (coder : Coder) (s : ZlibStream) : ZlibStream :=
  { s with zstream := { s.zstream with ended := some coder } }

/-- The loop over the pieces, which `encode` and `decode` share. The argument `flush` is that of
the piece before. -/
def code (coder : Coder) (finish : Bool) :
    List (List UInt8) → Flush → List Answer → ZlibStream →
      Except Stop Ret × List Answer × ZlibStream
  | [], flush, as, s => (.ok .ok, as, if flush = .finish then s.endStream coder else s)
  | v :: vs, _, as, s =>
      let flush := if finish then (if vs.isEmpty then .finish else .noFlush) else .noFlush
      match codeLoop fresh coder flush as (s.setInput v) with
      | (.error e, as, s) => (.error e, as, s)
      | (.ok (some ret), as, s) => (.ok ret, as, s)
      | (.ok none, as, s) => code coder finish vs flush as s

def encode (v : List (List UInt8)) (finish : Bool) (as : List Answer) (s : ZlibStream) :
    Except Stop Ret × List Answer × ZlibStream :=
  code fresh .deflate finish v .noFlush as s

def decode (v : List (List UInt8)) (finish : Bool) (as : List Answer) (s : ZlibStream) :
    Except Stop Ret × List Answer × ZlibStream :=
  code fresh .inflate finish v .noFlush as s

/-- The pieces that a `write` hands on. -/
def pieces : Write → Except Failure (List (List UInt8))
  | .raw buffer => .ok [buffer]
  | .array ba length => do
      let (_, sps) ← ba.getReadBuffers length
      sps.mapM (Net.ByteArray.load ba.nodes)

def write (w : Write) (as : List Answer) (s : ZlibStream) :
    Except Stop Ret × List Answer × ZlibStream :=
  match pieces w with
  | .error e => (.error (.failure e), as, s)
  | .ok v => if s.isEncode then encode fresh v false as s else decode fresh v false as s

def flush (as : List Answer) (s : ZlibStream) : Except Stop Ret × List Answer × ZlibStream :=
  if s.isEncode then encode fresh [[]] true as s else decode fresh [[]] true as s

def perform : Operation → List Answer → ZlibStream → Except Stop Ret × List Answer × ZlibStream
  | .write w => write fresh w
  | .flush => flush fresh

/-- The operations one after the other: what they have returned, and the stream. -/
def run : List Operation → List Answer → ZlibStream → List Ret × ZlibStream
  | [], _, s => ([], s)
  | op :: ops, as, s =>
      match perform fresh op as s with
      | (.error _, _, s) => ([], s)
      | (.ok ret, as, s) => (ret :: (run ops as s).1, (run ops as s).2)

/-- An operation fails on its input, or is one run of the loops. -/
theorem perform_cases (op : Operation) (as : List Answer) (s : ZlibStream) :
    (∃ e, perform fresh op as s = (.error e, as, s)) ∨
      ∃ coder finish v, perform fresh op as s = code fresh coder finish v .noFlush as s := by
  rcases op with w | _
  · simp only [perform, write]
    split
    · exact Or.inl ⟨_, rfl⟩
    · split_ifs
      · exact Or.inr ⟨.deflate, false, _, rfl⟩
      · exact Or.inr ⟨.inflate, false, _, rfl⟩
  · simp only [perform, flush]
    split_ifs
    · exact Or.inr ⟨.deflate, true, _, rfl⟩
    · exact Or.inr ⟨.inflate, true, _, rfl⟩

/-! ### What holds over a run -/

section Run

variable {P : ZlibStream → Prop} {p : Answer → Prop}

/-- What every iteration keeps, and the input and the end of the stream do not touch. -/
structure Kept (p : Answer → Prop) (P : ZlibStream → Prop) : Prop where
  iterate : ∀ coder flush a s, p a → P s → P (s.iterate fresh coder flush a)
  setInput : ∀ v s, P s → P (s.setInput v)
  endStream : ∀ coder s, P s → P (s.endStream coder)

variable {fresh} (h : Kept fresh p P)
include h

theorem Kept.codeLoop (coder : Coder) (flush : Flush) {as : List Answer}
    (has : ∀ a ∈ as, p a) {s : ZlibStream} (hs : P s) :
    P (ZlibStream.codeLoop fresh coder flush as s).2.2 ∧
      ∀ a ∈ (ZlibStream.codeLoop fresh coder flush as s).2.1, p a := by
  induction as generalizing s with
  | nil => exact ⟨hs, has⟩
  | cons a as ih =>
      have hstep := h.iterate coder flush a s (has a List.mem_cons_self) hs
      have hrest : ∀ b ∈ as, p b := fun b hb => has b (List.mem_cons_of_mem _ hb)
      simp only [ZlibStream.codeLoop]
      split_ifs
      · exact ⟨hstep, hrest⟩
      · exact ih hrest hstep
      · exact ⟨hstep, hrest⟩

theorem Kept.code (coder : Coder) (finish : Bool) (v : List (List UInt8)) (flush : Flush)
    {as : List Answer} (has : ∀ a ∈ as, p a) {s : ZlibStream} (hs : P s) :
    P (ZlibStream.code fresh coder finish v flush as s).2.2 ∧
      ∀ a ∈ (ZlibStream.code fresh coder finish v flush as s).2.1, p a := by
  induction v generalizing flush as s with
  | nil =>
      refine ⟨?_, has⟩
      simp only [ZlibStream.code]
      split_ifs
      · exact h.endStream coder s hs
      · exact hs
  | cons x v ih =>
      simp only [ZlibStream.code]
      generalize (if finish then (if v.isEmpty then Flush.finish else .noFlush) else .noFlush) = fl
      have hloop := h.codeLoop coder fl has (h.setInput x s hs)
      rcases hres : ZlibStream.codeLoop fresh coder fl as (s.setInput x) with ⟨res, as', s'⟩
      rw [hres] at hloop
      rcases res with e | ret | ret
      · exact hloop
      · exact ih fl hloop.2 hloop.1
      · exact hloop

theorem Kept.perform (op : Operation) {as : List Answer} (has : ∀ a ∈ as, p a) {s : ZlibStream}
    (hs : P s) :
    P (ZlibStream.perform fresh op as s).2.2 ∧
      ∀ a ∈ (ZlibStream.perform fresh op as s).2.1, p a := by
  rcases perform_cases fresh op as s with ⟨e, heq⟩ | ⟨coder, finish, v, heq⟩
  · rw [heq]
    exact ⟨hs, has⟩
  · rw [heq]
    exact h.code coder finish v .noFlush has hs

theorem Kept.run (ops : List Operation) {as : List Answer} (has : ∀ a ∈ as, p a)
    {s : ZlibStream} (hs : P s) : P (ZlibStream.run fresh ops as s).2 := by
  induction ops generalizing as s with
  | nil => exact hs
  | cons op ops ih =>
      have hstep := h.perform op has hs
      rcases hres : ZlibStream.perform fresh op as s with ⟨e | ret, as', s'⟩
      · rw [hres] at hstep
        simpa only [ZlibStream.run, hres] using hstep.1
      · rw [hres] at hstep
        simpa only [ZlibStream.run, hres] using ih hstep.2 hstep.1

end Run

/-! ### Which errors are reported -/

section Errors

/-- zlib has answered with this result. -/
def Answered (s : ZlibStream) (ret : Ret) : Prop := ∃ c ∈ s.calls, c.ret = ret

instance (s : ZlibStream) (ret : Ret) : Decidable (s.Answered ret) :=
  inferInstanceAs (Decidable (∃ c ∈ s.calls, c.ret = ret))

theorem answered_iterate (coder : Coder) (fl : Flush) (a : Answer) (s : ZlibStream) (ret : Ret) :
    (s.iterate fresh coder fl a).Answered ret ↔ s.Answered ret ∨ a.ret = ret := by
  simp [Answered, iterate]

/-- zlib has answered only with what the answers hold. -/
theorem not_answered_run (ops : List Operation) {as : List Answer} {ret : Ret}
    (has : ∀ a ∈ as, a.ret ≠ ret) {s : ZlibStream} (hs : ¬ s.Answered ret) :
    ¬ (run fresh ops as s).2.Answered ret := by
  have hkept : Kept fresh (fun a => a.ret ≠ ret) (fun s => ¬ s.Answered ret) :=
    { iterate := by
        intro coder fl a s ha hs
        rw [answered_iterate, not_or]
        exact ⟨hs, ha⟩
      setInput := fun _ _ hs => hs
      endStream := fun _ _ hs => hs }
  exact hkept.run ops has hs

/-- The loop returns from the method for `Z_STREAM_ERROR` and for nothing else. -/
theorem codeLoop_returns (coder : Coder) (fl : Flush) (as : List Answer) (s : ZlibStream) :
    ((codeLoop fresh coder fl as s).2.2.Answered .streamError ↔
      s.Answered .streamError ∨ (codeLoop fresh coder fl as s).1 = .ok (some .streamError)) ∧
    ∀ ret, (codeLoop fresh coder fl as s).1 = .ok (some ret) → ret = .streamError := by
  induction as generalizing s with
  | nil => simp [codeLoop]
  | cons a as ih =>
      have hstep := answered_iterate fresh coder fl a s .streamError
      simp only [codeLoop]
      split_ifs with herror hfull
      · simp [hstep, herror]
      · simpa [hstep, herror] using ih (s.iterate fresh coder fl a)
      · simp [hstep, herror]

theorem code_returns (coder : Coder) (finish : Bool) (v : List (List UInt8)) (fl : Flush)
    (as : List Answer) (s : ZlibStream) :
    ((code fresh coder finish v fl as s).2.2.Answered .streamError ↔
      s.Answered .streamError ∨ (code fresh coder finish v fl as s).1 = .ok .streamError) ∧
    ∀ ret, (code fresh coder finish v fl as s).1 = .ok ret → ret = .ok ∨ ret = .streamError := by
  induction v generalizing fl as s with
  | nil =>
      simp only [code]
      split_ifs <;> simp [Answered, endStream, eq_comm]
  | cons x v ih =>
      simp only [code]
      generalize (if finish then (if v.isEmpty then Flush.finish else .noFlush) else .noFlush) = fl
      have hloop := codeLoop_returns fresh coder fl as (s.setInput x)
      have hinput : (s.setInput x).Answered .streamError ↔ s.Answered .streamError := Iff.rfl
      rcases hres : codeLoop fresh coder fl as (s.setInput x) with ⟨res, as', s'⟩
      rw [hres, hinput] at hloop
      rcases res with e | ret | ret
      · simpa using hloop.1
      · have hsame : s'.Answered .streamError ↔ s.Answered .streamError := by simpa using hloop.1
        rw [← hsame]
        exact ih fl as' s'
      · have hret := hloop.2 ret rfl
        subst hret
        refine ⟨by simpa using hloop.1, fun ret hok => ?_⟩
        exact Or.inr (Except.ok.inj hok).symm

theorem perform_returns (op : Operation) (as : List Answer) (s : ZlibStream) :
    ((perform fresh op as s).2.2.Answered .streamError ↔
      s.Answered .streamError ∨ (perform fresh op as s).1 = .ok .streamError) ∧
    ∀ ret, (perform fresh op as s).1 = .ok ret → ret = .ok ∨ ret = .streamError := by
  rcases perform_cases fresh op as s with ⟨e, heq⟩ | ⟨coder, finish, v, heq⟩
  · simp [heq]
  · rw [heq]
    exact code_returns fresh coder finish v .noFlush as s

/-- Some operation reports an error if and only if zlib has answered `Z_STREAM_ERROR`. -/
theorem run_returns (ops : List Operation) (as : List Answer) (s : ZlibStream) :
    (run fresh ops as s).2.Answered .streamError ↔
      s.Answered .streamError ∨ ∃ ret ∈ (run fresh ops as s).1, ret ≠ .ok := by
  induction ops generalizing as s with
  | nil => simp [run]
  | cons op ops ih =>
      have hstep := perform_returns fresh op as s
      rcases hres : perform fresh op as s with ⟨e | ret, as', s'⟩
      · rw [hres] at hstep
        simpa [run, hres] using hstep.1
      · rw [hres] at hstep
        have hret : ret ≠ .ok ↔ ret = .streamError := by
          rcases hstep.2 ret rfl with rfl | rfl <;> decide
        have hfirst : s'.Answered .streamError ↔ s.Answered .streamError ∨ ret ≠ .ok := by
          rw [hret]
          simpa using hstep.1
        simp only [run, hres, ih, hfirst, List.mem_cons, or_and_right, exists_or,
          exists_eq_left, or_assoc]

variable (writes : List Write) (buffSize : Nat)

/-- A decoding stream after the writes and the flush, as far as it gets with the first `n`
answers of `inflate`. -/
def decoded (inflate : Nat → Answer) (n : Nat) : List Ret × ZlibStream :=
  run fresh (writes.map .write ++ [.flush]) ((List.range n).map inflate) (new false buffSize)

/-- An error of `inflate`, or an input that ends too early, is seen in some result. -/
def ReportsCorrupt (inflate : Nat → Answer) : Prop :=
  ((∃ n, ∃ ret ∈ [Ret.dataError, .memError, .streamError],
      (decoded fresh writes buffSize inflate n).2.Answered ret) ∨
    ∀ n, ¬ (decoded fresh writes buffSize inflate n).2.Answered .streamEnd) →
  ∃ n, ∃ ret ∈ (decoded fresh writes buffSize inflate n).1, ret ≠ .ok

theorem decoded_returns (inflate : Nat → Answer) (n : Nat) :
    (∃ ret ∈ (decoded fresh writes buffSize inflate n).1, ret ≠ .ok) ↔
      (decoded fresh writes buffSize inflate n).2.Answered .streamError := by
  have hnew : ¬ (new false buffSize).Answered .streamError := by simp [Answered, new]
  rw [decoded, run_returns, or_iff_right hnew]

/-- Corrupt input is reported if and only if `inflate` answers `Z_STREAM_ERROR` at some time, or
neither `Z_DATA_ERROR` nor `Z_MEM_ERROR` and it reaches the end of the stream. -/
theorem reportsCorrupt_iff (inflate : Nat → Answer) :
    ReportsCorrupt fresh writes buffSize inflate ↔
      (∃ n, (decoded fresh writes buffSize inflate n).2.Answered .streamError) ∨
        ((∀ n, ¬ (decoded fresh writes buffSize inflate n).2.Answered .dataError ∧
            ¬ (decoded fresh writes buffSize inflate n).2.Answered .memError) ∧
          ∃ n, (decoded fresh writes buffSize inflate n).2.Answered .streamEnd) := by
  simp only [ReportsCorrupt, decoded_returns]
  constructor
  · intro h
    by_cases herror : ∃ n, (decoded fresh writes buffSize inflate n).2.Answered .streamError
    · exact Or.inl herror
    · refine Or.inr ⟨fun n => ⟨fun hdata => herror (h (Or.inl ⟨n, _, by simp, hdata⟩)),
        fun hmem => herror (h (Or.inl ⟨n, _, by simp, hmem⟩))⟩, ?_⟩
      by_contra hend
      exact herror (h (Or.inr fun n hn => hend ⟨n, hn⟩))
  · rintro (herror | ⟨hnone, n, hend⟩) hcorrupt
    · exact herror
    · rcases hcorrupt with ⟨m, ret, hret, hm⟩ | hnever
      · simp only [List.mem_cons, List.not_mem_nil, or_false] at hret
        rcases hret with rfl | rfl | rfl
        · exact absurd hm (hnone m).1
        · exact absurd hm (hnone m).2
        · exact ⟨m, hm⟩
      · exact absurd hend (hnever n)

/-- `inflate` finds the data broken in the write and in the flush, and both return `Z_OK`. -/
theorem data_error_unreported :
    let inflate : Nat → Answer := fun _ => ⟨0, [], .dataError⟩
    (decoded (fun _ _ => 0) [.raw [1]] 4 inflate 2).1 = [.ok, .ok] ∧
      (decoded (fun _ _ => 0) [.raw [1]] 4 inflate 2).2.calls.map Call.ret =
        [.dataError, .dataError] ∧
      ¬ ReportsCorrupt (fun _ _ => 0) [.raw [1]] 4 inflate := by
  intro inflate
  refine ⟨by decide, by decide, fun h => ?_⟩
  obtain ⟨n, hn⟩ := h (Or.inl ⟨2, .dataError, by decide, by decide⟩)
  rw [decoded_returns] at hn
  have hinflate : ∀ a ∈ (List.range n).map inflate, a.ret ≠ .streamError := by simp [inflate]
  exact not_answered_run _ _ hinflate (by simp [Answered, new]) hn

end Errors

end ZlibStream

end Sylar.Streams

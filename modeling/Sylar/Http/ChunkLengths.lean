import Sylar.Http.Connection

/-!
# The lengths in the copy of a chunk

The size of a chunk is a `long` that is stored in an `int`, and the lengths of the copy are
computed from it and from how many bytes the buffer holds. A size of 2 GiB or more becomes
another number, which may be negative or zero.
-/

namespace Sylar.Http

open Sylar.Lib Sylar.Lib.Numerals Sylar.Net

/-- The lengths that are computed for a chunk. Either the buffer holds all of it, or it is
taken as a whole and more is read. -/
inductive ChunkCopy where
  /-- Of `body.append` and of `memmove`. -/
  | buffered (append move : Int)
  /-- Of `body.append`, and `left`. -/
  | split (append left : Int)
  deriving DecidableEq, Repr

/-- The two branches for a buffer that holds `len` bytes. -/
def chunkCopy (contentLen : Int) (len : Nat) : ChunkCopy :=
  if contentLen + 2 ≤ len then .buffered contentLen (len - contentLen - 2)
  else .split len (contentLen - len + 2)

namespace ChunkCopy

/-- The lengths are between 0 and that of the buffer. -/
def Bounded (len : Nat) : ChunkCopy → Prop
  | .buffered append move => (0 ≤ append ∧ append ≤ len) ∧ 0 ≤ move ∧ move ≤ len
  | .split append _ => 0 ≤ append ∧ append ≤ len

/-- `left` is what the buffer does not hold of the chunk and its line end. -/
def Outstanding (value len : Nat) : ChunkCopy → Prop
  | .buffered _ _ => True
  | .split _ left => left = value + 2 - len

/-- Where two bytes are taken off the body, at least two were appended. -/
def Resizes : ChunkCopy → Prop
  | .buffered _ _ => True
  | .split append left => 2 ≤ append + max left 0

end ChunkCopy

/-- The arithmetic of a chunk whose size line has the given value. -/
structure ChunkInRange (value : Nat) (c : HttpclientParser) (len : Nat) : Prop where
  sum : c.contentLen + 2 < 2 ^ 31
  bounded : (chunkCopy c.contentLen len).Bounded len
  outstanding : (chunkCopy c.contentLen len).Outstanding value len
  resizes : (chunkCopy c.contentLen len).Resizes
  last : c.chunksDone = true → value = 0

section Copy

variable {env : ResponseEnv} {body data : Text} {len : Nat} {size : Int}

/-- The copy from the buffer appends and moves by the lengths of the first branch. -/
theorem recvChunkData_buffered {append move : Int} (hsum : size + 2 < 2 ^ 31)
    (hcopy : chunkCopy size len = .buffered append move) (happend : 0 ≤ append)
    (hlen : len < data.length) (s : Socket) :
    ∃ data', (HttpConnection.recvChunkData env size body data len).exec s =
      (.ok (some (body ++ data.take append.toNat, data', move.toNat)), s) := by
  rw [chunkCopy] at hcopy
  split at hcopy
  · next hle =>
      cases hcopy
      have htext : textAt data 0 size = .ok (data.take size.toNat) := by
        rw [textAt, if_neg (by omega), if_neg (by omega), List.drop_zero]
      have hlift : (Method.lift (textAt data 0 size) : Method Socket Fault Text).exec s =
          (.ok (data.take size.toNat), s) := by
        rw [Method.exec_lift, htext]
      have hrest : ((data.take len).drop (size.toNat + 2)).length = (len - size - 2).toNat := by
        rw [List.length_drop, List.length_take]
        omega
      rw [HttpConnection.recvChunkData, if_neg (by omega), if_pos hle, Method.exec_bind_ok hlift]
      simp only [Method.exec_pure, hrest]
      exact ⟨_, rfl⟩
  · cases hcopy

/-- With a negative length `body.append` throws. -/
theorem recvChunkData_negative {append move : Int}
    (hcopy : chunkCopy size len = .buffered append move) (happend : append < 0) (s : Socket) :
    (HttpConnection.recvChunkData env size body data len).exec s = (.error .lengthError, s) := by
  rw [chunkCopy] at hcopy
  split at hcopy
  · next hle =>
      cases hcopy
      have hlift : (Method.lift (textAt data 0 size) : Method Socket Fault Text).exec s =
          (.error .lengthError, s) := by
        rw [Method.exec_lift, textAt, if_pos happend]
      rw [HttpConnection.recvChunkData, if_neg (by omega), if_pos hle,
        Method.exec_bind_error hlift]
  · cases hcopy

end Copy

section Lengths

variable {value : Nat} {c : HttpclientParser}

/-- Where the size is stored as it is, and two more fit, everything is in range. -/
theorem chunkInRange_of_eq (hlt : value + 2 < 2 ^ 31) (hvalue : c.contentLen = value)
    (hdone : c.chunksDone = decide (c.contentLen ≤ 0)) (len : Nat) : ChunkInRange value c len := by
  rw [hvalue, decide_eq_decide.mpr (by omega : (value : Int) ≤ 0 ↔ value = 0)] at hdone
  refine ⟨by omega, ?_, ?_, ?_, ?_⟩
  · rw [hvalue, chunkCopy]
    split
    · unfold ChunkCopy.Bounded
      omega
    · unfold ChunkCopy.Bounded
      omega
  · rw [hvalue, chunkCopy]
    split
    · trivial
    · unfold ChunkCopy.Outstanding
      omega
  · rw [hvalue, chunkCopy]
    split
    · trivial
    · unfold ChunkCopy.Resizes
      omega
  · intro htrue
    rw [hdone, decide_eq_true_iff] at htrue
    exact htrue

/-- No negative size is in range where the buffer seems to hold the chunk. -/
theorem ChunkInRange.not_neg {len : Nat} (h : ChunkInRange value c len)
    (hle : c.contentLen + 2 ≤ len) : ¬c.contentLen < 0 := by
  have hbounded := h.bounded
  rw [chunkCopy, if_pos hle] at hbounded
  exact Int.not_lt.mpr hbounded.1.1

/-- Before any byte is buffered, all but a chunk of size zero is outstanding. -/
theorem ChunkInRange.eq_of_empty (h : ChunkInRange value c 0)
    (hdone : c.chunksDone = decide (c.contentLen ≤ 0)) :
    value = 0 ∨ c.contentLen = value := by
  by_cases hle : c.contentLen ≤ 0
  · left
    exact h.last (hdone.trans (decide_eq_true hle))
  · right
    have hleft := h.outstanding
    rw [chunkCopy, if_neg (by omega)] at hleft
    unfold ChunkCopy.Outstanding at hleft
    omega

end Lengths

/-- The arithmetic of a chunk is in range, whatever the buffer holds, exactly if the value of
its size line and two more are an `int`. -/
theorem chunk_lengths_iff {buffer digits rest : Text} {b : UInt8} {p buffSize : Nat}
    {parser : HttpResponseParser} (hdigits : IsNumeral 16 digits) (hb : digit 16 b = none)
    (hx : b ≠ 120 ∧ b ≠ 88) (hline : buffer.drop parser.parser.mark = digits ++ b :: rest)
    (hsize : 0 < buffSize) :
    (∃ parser', parser.action buffer .chunkSize p = .ok parser' ∧
      ∀ len < buffSize, ChunkInRange (numeral 16 0 digits) parser'.parser len) ↔
    numeral 16 0 digits + 2 < 2 ^ 31 := by
  have hstored := strtol_numeral_eq (u := rest) hdigits hb hx
  rw [← hline] at hstored
  constructor
  · rintro ⟨parser', haction, hrange⟩
    cases haction
    have hempty := hrange 0 hsize
    have hsum := hempty.sum
    obtain hzero | heq := hempty.eq_of_empty rfl
    · omega
    · rw [heq] at hsum
      omega
  · intro hlt
    refine ⟨_, rfl, fun len _ => chunkInRange_of_eq hlt ?_ rfl len⟩
    have hlong : strtol 16 (buffer.drop parser.parser.mark) = numeral 16 0 digits := by
      rw [hstored]
      omega
    change toInt (strtol 16 (buffer.drop parser.parser.mark)) = _
    rw [hlong, toInt_of_lt (by omega)]

/-- A chunk of 26 bytes. -/
theorem chunk_lengths_iff_small :
    ∃ parser', (HttpResponseParser.new 0).action (ascii "1a\r\n") .chunkSize 2 = .ok parser' ∧
      ∀ len < 4096, ChunkInRange 26 parser'.parser len :=
  (@chunk_lengths_iff (ascii "1a\r\n") (ascii "1a") [10] 13 2 4096 (.new 0) (by decide +kernel)
    (by decide) (by decide) rfl (by decide)).mpr (by decide)

/-- For the size line `ffffffff` and five bytes in the buffer the length of `append` is
negative, for `7fffffff` the sum overflows, and `100000000` is taken for the last chunk. -/
theorem sizes_out_of_range :
    (∃ parser', (HttpResponseParser.new 0).action (ascii "ffffffff\r\n") .chunkSize 8 =
        .ok parser' ∧ chunkCopy parser'.parser.contentLen 5 = .buffered (-1) 4 ∧
        ¬ChunkInRange (2 ^ 32 - 1) parser'.parser 5) ∧
    (∃ parser', (HttpResponseParser.new 0).action (ascii "7fffffff\r\n") .chunkSize 8 =
        .ok parser' ∧ parser'.parser.contentLen + 2 = 2 ^ 31 + 1 ∧
        ¬ChunkInRange (2 ^ 31 - 1) parser'.parser 5) ∧
    ∃ parser', (HttpResponseParser.new 0).action (ascii "100000000\r\n") .chunkSize 9 =
        .ok parser' ∧ parser'.parser.chunksDone = true ∧
        ¬ChunkInRange (2 ^ 32) parser'.parser 5 := by
  refine ⟨⟨_, rfl, ?_, fun h => ?_⟩, ⟨_, rfl, ?_, fun h => ?_⟩, ⟨_, rfl, ?_, fun h => ?_⟩⟩
  · decide +kernel
  · exact h.not_neg (by decide +kernel) (by decide +kernel)
  · decide +kernel
  · exact absurd h.sum (by decide +kernel)
  · decide +kernel
  · exact absurd (h.last (by decide +kernel)) (by decide)

end Sylar.Http

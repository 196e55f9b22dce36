import Sylar.Lib.Method
import Sylar.Lib.Pieces

/-!
# A connected socket as a stream

What the peer sends arrives in pieces. A `recv` returns the next piece, or as
much of it as fits, and 0 once nothing is left and the peer has closed. The
model has no `recv` that fails with -1.
-/

namespace Sylar.Net

open Sylar.Lib

/-- The pieces that are still to be received, and whether this side has closed. -/
structure Socket where
  pending : List (List UInt8)
  closed : Bool
  deriving DecidableEq, Repr

namespace Socket

variable {ε : Type}

/-- What `recv` returns for a buffer of `n` bytes, and the pieces left. -/
def recv (n : Nat) : List (List UInt8) → List UInt8 × List (List UInt8)
  | [] => ([], [])
  | piece :: rest =>
      if piece.length ≤ n then (piece, rest) else (piece.take n, piece.drop n :: rest)

/-- `SocketStream::read`; the empty list stands for a result of at most 0. -/
def read (n : Nat) : Method Socket ε (List UInt8) := do
  let s ← get
  if s.closed then
    return []
  let (bytes, rest) := recv n s.pending
  set { s with pending := rest }
  return bytes

def close : Method Socket ε Unit := modify fun s => { s with closed := true }

/-- `Stream::readFixSize`: the bytes, or `none` where it returns at most 0. Every
round but the last reads at least one byte, so `left` rounds are enough. -/
def readFixSizeLoop : Nat → Nat → Method Socket ε (Option (List UInt8))
  | _, 0 => return some []
  | 0, _ + 1 => return none
  | rounds + 1, left + 1 => do
      let bytes ← read (left + 1)
      if bytes = [] then
        return none
      let rest ← readFixSizeLoop rounds (left + 1 - bytes.length)
      return rest.map (bytes ++ ·)

def readFixSize (length : Nat) : Method Socket ε (Option (List UInt8)) :=
  readFixSizeLoop length length

theorem exec_read (n : Nat) (pending : List (List UInt8)) :
    (read n : Method Socket ε _).exec ⟨pending, false⟩ =
      (.ok (recv n pending).1, ⟨(recv n pending).2, false⟩) := rfl

theorem length_recv_le (n : Nat) (pending : List (List UInt8)) :
    (recv n pending).1.length ≤ n := by
  cases pending with
  | nil => exact Nat.zero_le n
  | cons piece rest =>
      rw [recv]
      split
      · next hfit => exact hfit
      · exact List.length_take_le n piece

/-- A read returns no more bytes than it was asked for. -/
theorem length_read_le {n : Nat} {s t : Socket} {bytes : List UInt8}
    (h : (read n : Method Socket ε _).exec s = (.ok bytes, t)) : bytes.length ≤ n := by
  obtain ⟨pending, closed⟩ := s
  cases closed with
  | true =>
      cases h
      exact Nat.zero_le n
  | false =>
      cases h
      exact length_recv_le n pending

theorem recv_append_flatten (n : Nat) (pending : List (List UInt8)) :
    (recv n pending).1 ++ (recv n pending).2.flatten = pending.flatten := by
  cases pending with
  | nil => rfl
  | cons piece rest =>
      rw [recv]
      split
      · rfl
      · rw [List.flatten_cons, ← List.append_assoc, List.take_append_drop, List.flatten_cons]

/-- A `recv` on pieces that are not empty takes at least one byte off their
concatenation and leaves pieces that are not empty. -/
theorem recv_spec {n : Nat} (hn : 0 < n) {pending : List (List UInt8)}
    (hne : ∀ piece ∈ pending, piece ≠ []) (hsome : pending ≠ []) :
    (recv n pending).1 ≠ [] ∧ (recv n pending).1.length ≤ n ∧
      (recv n pending).1 ++ (recv n pending).2.flatten = pending.flatten ∧
      ∀ piece ∈ (recv n pending).2, piece ≠ [] := by
  cases pending with
  | nil => exact absurd rfl hsome
  | cons piece rest =>
      have hpiece : piece ≠ [] := hne piece List.mem_cons_self
      have hrest : ∀ q ∈ rest, q ≠ [] := fun q hq => hne q (List.mem_cons_of_mem _ hq)
      refine ⟨?_, length_recv_le n _, recv_append_flatten n _, ?_⟩
      · by_cases hfit : piece.length ≤ n
        · rw [recv, if_pos hfit]
          exact hpiece
        · rw [recv, if_neg hfit, ne_eq, List.take_eq_nil_iff, not_or]
          exact ⟨Nat.pos_iff_ne_zero.mp hn, hpiece⟩
      · intro q hq
        by_cases hfit : piece.length ≤ n
        · rw [recv, if_pos hfit] at hq
          exact hrest q hq
        · rw [recv, if_neg hfit] at hq
          obtain rfl | hq := List.mem_cons.mp hq
          · rw [ne_eq, List.drop_eq_nil_iff]
            exact hfit
          · exact hrest q hq

/-- A `recv` takes the bytes it returns off the pieces. -/
theorem recv_snd (n : Nat) {pending : List (List UInt8)} (hne : ∀ piece ∈ pending, piece ≠ []) :
    (recv n pending).2 = Pieces.skip (recv n pending).1.length pending := by
  cases pending with
  | nil => rfl
  | cons piece rest =>
      rw [recv]
      split
      · rw [Pieces.skip, if_neg (Nat.lt_irrefl _), Nat.sub_self]
        exact (Pieces.skip_zero fun q hq => hne q (List.mem_cons_of_mem _ hq)).symm
      · next hlong =>
          have hlen : (piece.take n).length = n := by
            rw [List.length_take]
            omega
          rw [hlen, Pieces.skip, if_pos (by omega)]

/-- `readFixSize` returns the next bytes, across pieces, where enough of them come,
and takes them off the pieces. Where too few come they are all gone. -/
theorem exec_readFixSizeLoop (rounds left : Nat) (hrounds : left ≤ rounds)
    (pending : List (List UInt8)) (hne : ∀ piece ∈ pending, piece ≠ []) :
    (readFixSizeLoop rounds left : Method Socket ε _).exec ⟨pending, false⟩ =
      (.ok (if left ≤ pending.flatten.length then some (pending.flatten.take left) else none),
        ⟨Pieces.skip left pending, false⟩) := by
  induction rounds generalizing left pending with
  | zero =>
      obtain rfl : left = 0 := Nat.le_zero.mp hrounds
      rw [Pieces.skip_zero hne]
      rfl
  | succ rounds ih =>
      cases left with
      | zero =>
          rw [Pieces.skip_zero hne]
          rfl
      | succ left =>
          by_cases hsome : pending = []
          · subst hsome
            rfl
          · obtain ⟨hpos, hle, hsplit, hleft⟩ :=
              recv_spec (n := left + 1) (Nat.succ_pos left) hne hsome
            have hlen := congrArg List.length hsplit
            rw [List.length_append] at hlen
            have hbytes : 0 < (recv (left + 1) pending).1.length := List.length_pos_iff.mpr hpos
            have hnext := ih (left + 1 - (recv (left + 1) pending).1.length) (by omega)
              (recv (left + 1) pending).2 hleft
            have hskip : Pieces.skip (left + 1 - (recv (left + 1) pending).1.length)
                (recv (left + 1) pending).2 = Pieces.skip (left + 1) pending := by
              rw [recv_snd _ hne, Pieces.skip_skip]
              congr 1
              omega
            have htake : (recv (left + 1) pending).1 ++
                (recv (left + 1) pending).2.flatten.take
                  (left + 1 - (recv (left + 1) pending).1.length) =
                  pending.flatten.take (left + 1) := by
              rw [← hsplit, List.take_append, List.take_of_length_le hle]
            rw [readFixSizeLoop, Method.exec_bind_ok (exec_read _ _), if_neg hpos,
              Method.exec_bind_ok hnext, Method.exec_pure, hskip]
            by_cases henough : left + 1 ≤ pending.flatten.length
            · rw [if_pos henough, if_pos (by omega), Option.map_some, htake]
            · rw [if_neg henough, if_neg (by omega), Option.map_none]

end Socket

end Sylar.Net

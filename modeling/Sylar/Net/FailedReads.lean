import Sylar.Net.ReadBuffers
import Sylar.Net.Strings

/-!
# Typed reads that throw

`read` leaves the object alone when it throws. The readers of groups call it once a
byte, and the readers of strings once for the length and once for the payload, so what
the earlier calls took stays taken when a later one throws.

That a `std::string` of the length in front of a payload can be allocated is assumed.
-/

namespace Sylar.Net

open Sylar.Lib

namespace ByteArray

/-- The bytes between the position and the size. -/
def unread (s : ByteArray) : List UInt8 := s.content.drop s.position

/-- If the call throws `std::out_of_range`, the object is as it was. -/
def Retryable {α : Type} (x : Method ByteArray Failure α) (s : ByteArray) : Prop :=
  ∀ what t, x.exec s = (.error (.outOfRange what), t) → t = s

/-- The value in front of a byte list and the bytes behind it, as the loop over the
shifts takes it; `none` if the bytes end inside it. -/
def vint {w : Nat} : List Nat → BitVec w → List UInt8 → Option (BitVec w × List UInt8)
  | [], result, bs => some (result, bs)
  | _ :: _, _, [] => none
  | i :: is, result, b :: bs =>
      if b < 0x80 then some (result ||| b.toBitVec.setWidth w <<< i, bs)
      else vint is (result ||| (b &&& 0x7f).toBitVec.setWidth w <<< i) bs

/-- The value that a fixed-width reader makes of the bytes, with the byte order `e` set. -/
def fixedValue (host order e : Endian) (n : Nat) (bs : List UInt8) : BitVec (8 * n) :=
  if e = order then ofMemory host n bs else byteswap (ofMemory host n bs)

section Runs

variable {e : Endian} {before after : List UInt8} {s : ByteArray}

theorem WellFormed.at_unread (h : s.WellFormed) :
    At s.endian (s.content.take s.position) s.unread s := by
  have hlength : s.content.length = s.size := by
    rw [content, List.length_take, h.length_bytes, Nat.min_eq_left h.size_le]
  have hle := h.position_le
  refine ⟨h, rfl, ?_, ?_, ?_⟩
  · rw [List.length_take, hlength, Nat.min_eq_left hle]
  · rw [← List.length_append, unread, List.take_append_drop, hlength]
  · rw [unread, List.take_append_drop, content]

theorem At.getReadSize_eq (h : At e before after s) : s.getReadSize = after.length := by
  rw [getReadSize, h.size_eq, h.position_eq, Nat.add_sub_cancel_left]

/-- The length of the front part is the position. -/
theorem At.eq_nil_of_same {used rest : List UInt8} (h : At e before after s)
    (h' : At e (before ++ used) rest s) : used = [] := by
  have hposition := h.position_eq.symm.trans h'.position_eq
  rw [List.length_append] at hposition
  exact List.length_eq_zero_iff.mp (by omega)

/-- Only a read of more than the unread bytes throws `std::out_of_range`. -/
theorem At.read_ne_outOfRange (h : At e before after s) {n : Nat} (hn : n ≤ after.length)
    (what : String) (t : ByteArray) : (read n).exec s ≠ (.error (.outOfRange what), t) := by
  rw [← h.getReadSize_eq] at hn
  intro hrun
  obtain rfl | hpos := Nat.eq_zero_or_pos n
  · rw [exec_read_zero h.wellFormed] at hrun
    split at hrun <;> cases hrun
  · obtain ⟨u, hread, -⟩ := read_spec h.wellFormed hpos hn
    rw [hread] at hrun
    cases hrun

theorem At.read_throws (h : At e before after s) {n : Nat} (hn : after.length < n) :
    (read n).exec s = (.error (.outOfRange "not enougth len"), s) :=
  ByteArray.read_throws (h.getReadSize_eq ▸ hn)

section Retry

variable {α β : Type} {x : Method ByteArray Failure α} {t : ByteArray}

theorem retryable_map (f : α → β) : Retryable (f <$> x) s ↔ Retryable x s := by
  unfold Retryable
  rw [Method.exec_map]
  rcases x.exec s with ⟨r, t⟩
  cases r with
  | error e =>
      constructor
      · rintro h what u ⟨⟩
        exact h what t rfl
      · rintro h what u ⟨⟩
        exact h what t rfl
  | ok a =>
      apply iff_of_true
      · rintro what u ⟨⟩
      · rintro what u ⟨⟩

theorem retryable_of_ok {a : α} (h : x.exec s = (.ok a, t)) : Retryable x s := by
  intro what u hrun
  rw [h] at hrun
  cases hrun

theorem retryable_iff_of_throws {what : String}
    (h : x.exec s = (.error (.outOfRange what), t)) : Retryable x s ↔ t = s := by
  constructor
  · exact fun hretry => hretry what t h
  · rintro rfl what' u hrun
    rw [h] at hrun
    cases hrun
    rfl

end Retry

/-! ### Values of a fixed width -/

section Fixed

variable (host order : Endian) {n : Nat}

theorem readFixed_consumes {bs : List UInt8} (hne : bs ≠ []) :
    Consumes e (readFixed host order bs.length) bs (fixedValue host order e bs.length bs) := by
  intro before after s hs
  obtain ⟨t, hrun, ht⟩ := read_consumes hne before after s hs
  refine ⟨t, ?_, ht⟩
  rw [readFixed, Method.exec_bind_ok hrun, Method.exec_bind_ok (Method.exec_get t), ht.endian_eq,
    fixedValue]
  split <;> rfl

theorem readFixed_throws (h : At e before after s) (hn : after.length < n) :
    (readFixed host order n).exec s = (.error (.outOfRange "not enougth len"), s) :=
  Method.exec_bind_error (h.read_throws hn)

theorem readFixed_returns (h : At e before after s) (hpos : 0 < n) (hn : n ≤ after.length) :
    ∃ t, (readFixed host order n).exec s =
        (.ok (fixedValue host order e n (after.take n)), t) ∧
      At e (before ++ after.take n) (after.drop n) t := by
  have hlength : (after.take n).length = n := by
    rw [List.length_take, Nat.min_eq_left hn]
  have hne : after.take n ≠ [] := List.ne_nil_of_length_pos (hpos.trans_eq hlength.symm)
  have hread := readFixed_consumes (e := e) host order hne before (after.drop n) s
    (by rwa [List.take_append_drop])
  rwa [hlength] at hread

theorem readFixed_retryable (h : s.WellFormed) (hpos : 0 < n) :
    Retryable (readFixed host order n) s := by
  obtain hn | hn := Nat.lt_or_ge s.unread.length n
  · exact (retryable_iff_of_throws (readFixed_throws host order h.at_unread hn)).mpr rfl
  · obtain ⟨t, hrun, -⟩ := readFixed_returns host order h.at_unread hpos hn
    exact retryable_of_ok hrun

theorem readByte_retryable (h : s.WellFormed) : Retryable (readByte host) s := by
  intro what t hrun
  rw [readByte, Method.exec_map] at hrun
  obtain hn | hn := Nat.lt_or_ge s.unread.length 1
  · rw [h.at_unread.read_throws hn] at hrun
    cases hrun
    rfl
  · obtain ⟨u, hread, -⟩ := read_spec h Nat.one_pos (h.at_unread.getReadSize_eq ▸ hn)
    rw [hread] at hrun
    cases hrun

end Fixed

/-! ### Groups of seven bits -/

section Groups

variable {w : Nat}

/-- The value ends within the bytes if they are as many as the loop takes at most, or one of
them ends a value. -/
theorem isSome_vint_iff (is : List Nat) (result : BitVec w) (bs : List UInt8) :
    (vint is result bs).isSome ↔ is.length ≤ bs.length ∨ ∃ b ∈ bs, b < 0x80 := by
  induction is generalizing result bs with
  | nil => exact iff_of_true rfl (.inl (Nat.zero_le _))
  | cons i is ih =>
      cases bs with
      | nil => simp [vint]
      | cons b bs =>
          rw [vint]
          split
          · next hb => exact iff_of_true rfl (.inr ⟨b, List.mem_cons_self, hb⟩)
          · next hb => simp [ih, hb]

variable {next : Method ByteArray Failure UInt8}

section Loop

variable (hnext : ∀ b, Consumes e next [b] b)
  (hthrows : ∀ s, s.getReadSize = 0 → next.exec s = (.error (.outOfRange "not enougth len"), s))

include hnext

theorem readGroups_of_vint {is : List Nat} {result v : BitVec w} {bs rest : List UInt8}
    (h : vint is result bs = some (v, rest)) :
    ∃ used, bs = used ++ rest ∧ Consumes e (readGroups next is result) used v ∧
      (is ≠ [] → used ≠ []) := by
  induction is generalizing result bs with
  | nil =>
      cases h
      exact ⟨[], rfl, consumes_pure _, fun hne => absurd rfl hne⟩
  | cons i is ih =>
      cases bs with
      | nil => cases h
      | cons b bs =>
          rw [vint] at h
          split at h
          · next hb =>
              cases h
              refine ⟨[b] ++ [], rfl, (hnext b).bind ?_, fun _ => List.cons_ne_nil _ _⟩
              rw [if_pos hb]
              exact consumes_pure _
          · next hb =>
              obtain ⟨used, rfl, hused, -⟩ := ih h
              refine ⟨[b] ++ used, rfl, (hnext b).bind ?_, fun _ => List.cons_ne_nil _ _⟩
              rw [if_neg hb]
              exact hused

include hthrows

/-- A value that does not end takes all bytes before the reader throws. -/
theorem readGroups_exhausts {is : List Nat} {result : BitVec w}
    (h : vint is result after = none) (hs : At e before after s) :
    ∃ t, (readGroups next is result).exec s = (.error (.outOfRange "not enougth len"), t) ∧
      At e (before ++ after) [] t ∧ (after = [] → t = s) := by
  induction is generalizing result before after s with
  | nil => cases h
  | cons i is ih =>
      cases after with
      | nil =>
          refine ⟨s, Method.exec_bind_error (hthrows s hs.getReadSize_eq), ?_, fun _ => rfl⟩
          rwa [List.append_nil]
      | cons b bs =>
          rw [vint] at h
          split at h
          · cases h
          · next hb =>
              obtain ⟨t, hrun, ht⟩ := hnext b before bs s hs
              obtain ⟨u, hrest, hu, -⟩ := ih h ht
              refine ⟨u, ?_, by rwa [List.append_assoc] at hu, nofun⟩
              rw [readGroups, Method.exec_bind_ok hrun, if_neg hb, hrest]

theorem readGroups_throws {is : List Nat} {result : BitVec w}
    (h : vint is result after = none) (hs : At e before after s) :
    ∃ t, (readGroups next is result).exec s = (.error (.outOfRange "not enougth len"), t) ∧
      (t = s ↔ after = []) := by
  obtain ⟨t, hrun, ht, hsame⟩ := readGroups_exhausts hnext hthrows h hs
  refine ⟨t, hrun, ?_, hsame⟩
  rintro rfl
  exact hs.eq_nil_of_same ht

theorem readGroups_retryable_iff (hs : At e before after s) (is : List Nat)
    (result : BitVec w) :
    Retryable (readGroups next is result) s ↔ after = [] ∨ (vint is result after).isSome := by
  cases hvint : vint is result after with
  | some p =>
      obtain ⟨used, rfl, hused, -⟩ := readGroups_of_vint hnext hvint
      obtain ⟨t, hrun, -⟩ := hused before p.2 s hs
      exact iff_of_true (retryable_of_ok hrun) (.inr rfl)
  | none =>
      obtain ⟨t, hrun, hsame⟩ := readGroups_throws hnext hthrows hvint hs
      rw [retryable_iff_of_throws hrun, hsame, Option.isSome_none,
        or_iff_left Bool.false_ne_true]

end Loop

variable (host : Endian)

theorem readByte_throws (h : s.getReadSize = 0) :
    (readByte host).exec s = (.error (.outOfRange "not enougth len"), s) := by
  rw [readByte, Method.exec_map, ByteArray.read_throws (h ▸ Nat.one_pos)]
  rfl

theorem readFuint8_throws (s : ByteArray) (h : s.getReadSize = 0) :
    (readFuint8 host).exec s = (.error (.outOfRange "not enougth len"), s) := by
  rw [readFuint8, Method.exec_map, readByte_throws host h]
  rfl

theorem readSigned_throws (s : ByteArray) (h : s.getReadSize = 0) :
    ((fun b : Int8 => UInt8.ofBitVec b.toBitVec) <$> readFint8 host).exec s =
      (.error (.outOfRange "not enougth len"), s) := by
  rw [Method.exec_map, readFint8, Method.exec_map, readByte_throws host h]
  rfl

theorem readUint32_retryable_iff (h : s.WellFormed) :
    Retryable (readUint32 host) s ↔
      s.unread = [] ∨ 5 ≤ s.unread.length ∨ ∃ b ∈ s.unread, b < 0x80 := by
  have hnext : ∀ b, Consumes s.endian (readFuint8 host) [b] b :=
    fun b => (readByte_consumes host b).map UInt8.ofBitVec
  rw [readUint32, retryable_map, readGroups_retryable_iff hnext (readFuint8_throws host)
    h.at_unread, isSome_vint_iff]
  rfl

theorem readUint64_retryable_iff (h : s.WellFormed) :
    Retryable (readUint64 host) s ↔
      s.unread = [] ∨ 10 ≤ s.unread.length ∨ ∃ b ∈ s.unread, b < 0x80 := by
  rw [readUint64, retryable_map, readGroups_retryable_iff (readSigned_consumes host)
    (readSigned_throws host) h.at_unread, isSome_vint_iff]
  rfl

end Groups

/-! ### Strings -/

section Strings

variable {y : Method ByteArray Failure Nat}

/-- With its length taken, a string is retried only if its payload is there. -/
theorem readString_retryable_iff {used rest : List UInt8} {t : ByteArray} {len : Nat}
    (hs : At e before after s) (hy : y.exec s = (.ok len, t)) (ht : At e (before ++ used) rest t)
    (hne : used ≠ []) : Retryable (readString y) s ↔ len ≤ rest.length := by
  have hrun : (readString y).exec s = (read len).exec t := Method.exec_bind_ok hy
  obtain hlen | hlen := Nat.lt_or_ge rest.length len
  · rw [ht.read_throws hlen] at hrun
    rw [retryable_iff_of_throws hrun]
    apply iff_of_false _ (Nat.not_le.mpr hlen)
    rintro rfl
    exact hne (hs.eq_nil_of_same ht)
  · apply iff_of_true _ hlen
    intro what u hthrow
    exact absurd (hrun.symm.trans hthrow) (ht.read_ne_outOfRange hlen what u)

/-- Without its length, a string is retried if reading the length is. -/
theorem readString_retryable_of_throws {t : ByteArray} {what : String}
    (hy : y.exec s = (.error (.outOfRange what), t)) :
    Retryable (readString y) s ↔ t = s :=
  retryable_iff_of_throws (Method.exec_bind_error hy)

end Strings

end Runs

end ByteArray

open Sylar.Net.ByteArray

/-- The most groups that the reader takes; `none` if the width is fixed. -/
def ScalarType.groups : ScalarType → Option Nat
  | .int32 | .uint32 => some 5
  | .int64 | .uint64 => some 10
  | .fint8 | .fuint8 | .fint16 | .fuint16 | .fint32 | .fuint32 | .fint64 | .fuint64
  | .float | .double => none

/-- The length in front of the bytes, and the bytes behind it. -/
def StringFormat.length? (host order e : Endian) (bs : List UInt8) :
    StringFormat → Option (Nat × List UInt8)
  | .F16 => fixed 2
  | .F32 => fixed 4
  | .F64 => fixed 8
  | .Vint => (vint (shifts 64) 0#64 bs).map fun p => (p.1.toNat, p.2)
where
  fixed (n : Nat) : Option (Nat × List UInt8) :=
    if n ≤ bs.length then some ((fixedValue host order e n (bs.take n)).toNat, bs.drop n)
    else none

/-- The typed readers. -/
inductive TypedReader where
  | scalar (type : ScalarType)
  | string (format : StringFormat)
  deriving DecidableEq

namespace TypedReader

variable (host order : Endian)

def read : TypedReader → Method ByteArray Failure (Scalar ⊕ List UInt8)
  | .scalar type => Sum.inl <$> type.read host order
  | .string format => Sum.inr <$> format.read host order

/-- No part of a value that goes on behind the bytes is in front of them: groups end within
the bytes or there is no byte, and a string is there with its payload, or no byte of its length
is taken. -/
def Whole (e : Endian) (bs : List UInt8) : TypedReader → Prop
  | .scalar type =>
      match type.groups with
      | none => True
      | some room => bs = [] ∨ room ≤ bs.length ∨ ∃ b ∈ bs, b < 0x80
  | .string format =>
      match format.length? host order e bs with
      | some (len, rest) => len ≤ rest.length
      | none => format = .Vint → bs = []

end TypedReader

section Whole

variable {s : ByteArray} (host order : Endian)

theorem ScalarType.retryable_iff (h : s.WellFormed) (type : ScalarType) :
    Retryable (type.read host order) s ↔
      (TypedReader.scalar type).Whole host order s.endian s.unread := by
  have hfixed : ∀ n, 0 < n → Retryable (readFixed host order n) s :=
    fun n => readFixed_retryable host order h
  cases type with
  | fint8 =>
      rw [ScalarType.read, retryable_map, readFint8, retryable_map]
      exact iff_of_true (readByte_retryable host h) trivial
  | fuint8 =>
      rw [ScalarType.read, retryable_map, readFuint8, retryable_map]
      exact iff_of_true (readByte_retryable host h) trivial
  | fint16 =>
      rw [ScalarType.read, retryable_map, readFint16, retryable_map]
      exact iff_of_true (hfixed 2 (by decide)) trivial
  | fuint16 =>
      rw [ScalarType.read, retryable_map, readFuint16, retryable_map]
      exact iff_of_true (hfixed 2 (by decide)) trivial
  | fint32 =>
      rw [ScalarType.read, retryable_map, readFint32, retryable_map]
      exact iff_of_true (hfixed 4 (by decide)) trivial
  | fuint32 =>
      rw [ScalarType.read, retryable_map, readFuint32, retryable_map]
      exact iff_of_true (hfixed 4 (by decide)) trivial
  | fint64 =>
      rw [ScalarType.read, retryable_map, readFint64, retryable_map]
      exact iff_of_true (hfixed 8 (by decide)) trivial
  | fuint64 =>
      rw [ScalarType.read, retryable_map, readFuint64, retryable_map]
      exact iff_of_true (hfixed 8 (by decide)) trivial
  | int32 =>
      rw [ScalarType.read, retryable_map, readInt32, retryable_map]
      exact readUint32_retryable_iff host h
  | uint32 =>
      rw [ScalarType.read, retryable_map]
      exact readUint32_retryable_iff host h
  | int64 =>
      rw [ScalarType.read, retryable_map, readInt64, retryable_map]
      exact readUint64_retryable_iff host h
  | uint64 =>
      rw [ScalarType.read, retryable_map]
      exact readUint64_retryable_iff host h
  | float =>
      rw [ScalarType.read, retryable_map, readFloat, readFuint32, retryable_map]
      exact iff_of_true (hfixed 4 (by decide)) trivial
  | double =>
      rw [ScalarType.read, retryable_map, readDouble, readFuint64, retryable_map]
      exact iff_of_true (hfixed 8 (by decide)) trivial

/-- A string whose length has a fixed width. -/
theorem readString_fixed_retryable_iff (h : s.WellFormed) {n : Nat} (hpos : 0 < n) {α : Type}
    (of : BitVec (8 * n) → α) (toNat : α → Nat) (hof : ∀ v, toNat (of v) = v.toNat) {Q : Prop}
    (hQ : Q) :
    Retryable (readString (toNat <$> of <$> readFixed host order n)) s ↔
      match StringFormat.length?.fixed host order s.endian s.unread n with
      | some (len, rest) => len ≤ rest.length
      | none => Q := by
  rw [StringFormat.length?.fixed]
  obtain hn | hn := Nat.lt_or_ge s.unread.length n
  · have hy : (toNat <$> of <$> readFixed host order n).exec s =
        (.error (.outOfRange "not enougth len"), s) := by
      rw [Method.exec_map, Method.exec_map, readFixed_throws host order h.at_unread hn]
      rfl
    rw [if_neg (Nat.not_le.mpr hn)]
    exact iff_of_true ((readString_retryable_of_throws hy).mpr rfl) hQ
  · obtain ⟨t, hrun, ht⟩ := readFixed_returns host order h.at_unread hpos hn
    have hy : (toNat <$> of <$> readFixed host order n).exec s =
        (.ok (fixedValue host order s.endian n (s.unread.take n)).toNat, t) := by
      rw [Method.exec_map, Method.exec_map, hrun, ← hof]
      rfl
    have hne : s.unread.take n ≠ [] := by
      apply List.ne_nil_of_length_pos
      rwa [List.length_take, Nat.min_eq_left hn]
    rw [if_pos hn]
    exact readString_retryable_iff h.at_unread hy ht hne

theorem readStringVint_retryable_iff (h : s.WellFormed) :
    Retryable (readStringVint host) s ↔
      match (vint (shifts 64) 0#64 s.unread).map fun p => (p.1.toNat, p.2) with
      | some (len, rest) => len ≤ rest.length
      | none => s.unread = [] := by
  cases hvint : vint (shifts 64) 0#64 s.unread with
  | some p =>
      obtain ⟨used, hsplit, hused, hne⟩ := readGroups_of_vint (readSigned_consumes host) hvint
      obtain ⟨t, hrun, ht⟩ := hused _ p.2 s (hsplit ▸ h.at_unread)
      have hy : (UInt64.toNat <$> readUint64 host).exec s = (.ok p.1.toNat, t) := by
        rw [readUint64, Method.exec_map, Method.exec_map, hrun]
        rfl
      exact readString_retryable_iff h.at_unread hy ht (hne (by decide))
  | none =>
      obtain ⟨t, hrun, hsame⟩ :=
        readGroups_throws (readSigned_consumes host) (readSigned_throws host) hvint h.at_unread
      have hy : (UInt64.toNat <$> readUint64 host).exec s =
          (.error (.outOfRange "not enougth len"), t) := by
        rw [readUint64, Method.exec_map, Method.exec_map, hrun]
        rfl
      exact (readString_retryable_of_throws hy).trans hsame

theorem StringFormat.retryable_iff (h : s.WellFormed) (format : StringFormat) :
    Retryable (format.read host order) s ↔
      (TypedReader.string format).Whole host order s.endian s.unread := by
  cases format with
  | F16 =>
      exact readString_fixed_retryable_iff host order h (n := 2) (by decide) UInt16.ofBitVec
        UInt16.toNat (fun _ => rfl) nofun
  | F32 =>
      exact readString_fixed_retryable_iff host order h (n := 4) (by decide) UInt32.ofBitVec
        UInt32.toNat (fun _ => rfl) nofun
  | F64 =>
      exact readString_fixed_retryable_iff host order h (n := 8) (by decide) UInt64.ofBitVec
        UInt64.toNat (fun _ => rfl) nofun
  | Vint =>
      rw [StringFormat.read, readStringVint_retryable_iff host h]
      simp only [TypedReader.Whole, StringFormat.length?, forall_const]

/-- A typed read that throws `std::out_of_range` leaves the object as it was exactly if no
part of an unfinished value is in front of the position. -/
theorem failed_reads_retryable_iff (h : s.WellFormed) (reader : TypedReader) :
    Retryable (reader.read host order) s ↔ reader.Whole host order s.endian s.unread := by
  cases reader with
  | scalar type =>
      rw [TypedReader.read, retryable_map]
      exact type.retryable_iff host order h
  | string format =>
      rw [TypedReader.read, retryable_map]
      exact format.retryable_iff host order h

end Whole

/-- Four bytes are too few for eight, and none is taken. -/
theorem failed_reads_retryable_iff_double :
    twoBlocks.WellFormed ∧
      ((TypedReader.scalar .double).read .little .little).exec twoBlocks =
        (.error (.outOfRange "not enougth len"), twoBlocks) ∧
      Retryable ((TypedReader.scalar .double).read .little .little) twoBlocks :=
  ⟨twoBlocks_wellFormed, by decide,
    (failed_reads_retryable_iff .little .little twoBlocks_wellFormed _).mpr trivial⟩

/-- The bytes `01 02 03 04` begin with the length 258 of a string, of which two bytes are
there: the length stays taken. -/
theorem failed_read_takes_length :
    twoBlocks.WellFormed ∧ twoBlocks.unread = [1, 2, 3, 4] ∧
      ((TypedReader.string .F16).read .little .little).exec twoBlocks =
        (.error (.outOfRange "not enougth len"), { twoBlocks with position := 2, cur := some 1 }) ∧
      ¬ Retryable ((TypedReader.string .F16).read .little .little) twoBlocks := by
  have hrun : ((TypedReader.string .F16).read .little .little).exec twoBlocks =
      (.error (.outOfRange "not enougth len"),
        { twoBlocks with position := 2, cur := some 1 }) := by
    decide
  refine ⟨twoBlocks_wellFormed, by decide, hrun, ?_⟩
  rw [retryable_iff_of_throws hrun]
  decide

end Sylar.Net

import Sylar.Lib.Varints
import Sylar.Net.FailedReads

/-!
# Bounds of the groups of seven bits

The writers fill a local array of 5 or 10 bytes, the readers shift by 7 bits more in every
round. Neither 32 nor 64 is a multiple of 7, so the last byte of a full array holds fewer bits
than the others, and a reader may be given more bits there than the word has.
-/

namespace Sylar.Net

open Sylar.Lib Sylar.Lib.Varints

/-- Bytes that fit into the array, end a number and have no shorter form. -/
structure ShortCode (room n : Nat) (tmp : List UInt8) : Prop where
  fits : tmp.length ≤ room
  ends : ∃ more last, tmp = more ++ [last] ∧ (∀ b ∈ more, 0x80 ≤ b) ∧ last < 0x80 ∧
    (last = 0 → n = 0)
  shortest : ∀ bs, IsVarint bs → value bs = n → tmp.length ≤ bs.length

namespace ByteArray

/-- The reader returns or throws `std::out_of_range`, and has taken at most `room` bytes. -/
def Takes {α : Type} (room : Nat) (load : Method ByteArray Failure α) (s : ByteArray) : Prop :=
  ∃ used rest t, s.unread = used ++ rest ∧ used.length ≤ room ∧
    ((∃ a, load.exec s = (.ok a, t)) ∨ ∃ what, load.exec s = (.error (.outOfRange what), t)) ∧
    t.WellFormed ∧ t.unread = rest ∧ t.position = s.position + used.length

/-- What holds of a writer with an array of `room` bytes and of its reader. -/
structure CodecBounds {α : Type} {w : Nat} (fresh : Nat → Nat → UInt8) (room : Nat)
    (bits : α → BitVec w) (store : α → Method ByteArray Failure Unit)
    (load : Method ByteArray Failure α) : Prop where
  stored : ∀ a, ∃ tmp, groups room (bits a) = some tmp ∧
    (∀ s, (store a).exec s = (write fresh tmp).exec s) ∧ ShortCode room (bits a).toNat tmp
  prefixFree : ∀ a b tmp tmp', groups room (bits a) = some tmp →
    groups room (bits b) = some tmp' → tmp <+: tmp' → tmp = tmp'
  shiftsFit : ∀ i ∈ shifts w, i < w
  terminates : ∀ s, s.WellFormed → Takes room load s
  takesCode : ∀ a tmp rest s, groups room (bits a) = some tmp → s.WellFormed →
    s.unread = tmp ++ rest → ∃ t, load.exec s = (.ok a, t) ∧ t.WellFormed ∧ t.unread = rest ∧
      t.position = s.position + tmp.length

section Groups

variable {w room : Nat}

/-- The loop of the writers stores the digits in base 128. -/
theorem groups_eq_encode (hw : 8 ≤ w) {value : BitVec w} (h : value.toNat < 128 ^ (room + 1)) :
    groups (room + 1) value = some (encode value.toNat) := by
  induction room generalizing value with
  | zero =>
      have hlast : value.toNat < 128 := by simpa using h
      rw [groups_last hw 0 hlast, encode_of_lt hlast]
      congr 2
      apply UInt8.toNat_inj.mp
      rw [toNat_lastByte hlast, toNat_ofNat_of_lt (by omega)]
  | succ room ih =>
      by_cases hlast : value.toNat < 128
      · rw [groups_last hw _ hlast, encode_of_lt hlast]
        congr 2
        apply UInt8.toNat_inj.mp
        rw [toNat_lastByte hlast, toNat_ofNat_of_lt (by omega)]
      · have hge : 128 ≤ value.toNat := Nat.not_lt.mp hlast
        have hshift : (value >>> 7).toNat = value.toNat / 128 := by
          rw [BitVec.toNat_ushiftRight, Nat.shiftRight_eq_div_pow]
        have hrest : (value >>> 7).toNat < 128 ^ (room + 1) := by
          rw [hshift, Nat.div_lt_iff_lt_mul (by decide), ← Nat.pow_succ]
          exact h
        have hbyte : moreByte value = UInt8.ofNat (value.toNat % 128 + 128) := by
          apply UInt8.toNat_inj.mp
          rw [toNat_moreByte hw, toNat_ofNat_of_lt (by omega)]
        rw [groups_more hw _ hge, ih hrest, hshift, hbyte, encode_of_ge hge]
        rfl

/-- An array of `⌈w / 7⌉` bytes has room for every value. -/
theorem toNat_lt_pow (hroom : (w + 6) / 7 = room + 1) (value : BitVec w) :
    value.toNat < 128 ^ (room + 1) := by
  calc
    value.toNat < 2 ^ w := value.isLt
    _ ≤ 2 ^ (7 * (room + 1)) := Nat.pow_le_pow_right (by decide) (by omega)
    _ = 128 ^ (room + 1) := by rw [Nat.pow_mul]

theorem shortCode_encode {n : Nat} (h : n < 128 ^ (room + 1)) :
    ShortCode (room + 1) n (encode n) := by
  obtain ⟨more, last, heq, hmore, hlast, hzero⟩ := encode_eq_concat n
  constructor
  · exact length_encode_le h
  · refine ⟨more, last, heq, ?_, ?_, ?_⟩
    · intro b hb
      exact UInt8.le_iff_toNat_le.mpr (hmore b hb)
    · exact UInt8.lt_iff_toNat_lt.mpr hlast
    · rintro rfl
      exact hzero rfl
  · rintro bs hbs rfl
    exact length_encode_value_le hbs

theorem lt_of_mem_shifts {i : Nat} (h : i ∈ shifts w) : i < w := by
  simp only [shifts, List.mem_range'] at h
  obtain ⟨k, hk, rfl⟩ := h
  omega

theorem length_shifts (w : Nat) : (shifts w).length = (w + 6) / 7 := List.length_range'

end Groups

section Reads

variable {w : Nat} {e : Endian} {before after rest : List UInt8} {s : ByteArray}

theorem At.unread_eq (h : At e before after s) : s.unread = after := by
  rw [unread, ByteArray.content, h.content, h.position_eq, List.drop_left]

/-- The position behind the bytes taken. -/
theorem At.position_add {t : ByteArray} {used : List UInt8} (hs : s.WellFormed)
    (ht : At e (s.content.take s.position ++ used) rest t) :
    t.position = s.position + used.length := by
  calc
    t.position = (s.content.take s.position ++ used).length := ht.position_eq
    _ = (s.content.take s.position).length + used.length := List.length_append
    _ = s.position + used.length := congrArg (· + used.length) hs.at_unread.position_eq.symm

/-- The loop takes at most one byte in every round. -/
theorem length_le_of_vint {is : List Nat} {result v : BitVec w} {bs : List UInt8}
    (h : vint is result bs = some (v, rest)) : bs.length ≤ is.length + rest.length := by
  induction is generalizing result bs with
  | nil =>
      cases h
      exact Nat.le_add_left _ _
  | cons i is ih =>
      cases bs with
      | nil => exact Nat.zero_le _
      | cons b bs =>
          rw [vint] at h
          split at h
          · cases h
            simp only [List.length_cons]
            omega
          · have hrest := ih h
            simp only [List.length_cons]
            omega

theorem takes_readGroups {next : Method ByteArray Failure UInt8}
    (hnext : ∀ e b, Consumes e next [b] b)
    (hthrows : ∀ s, s.getReadSize = 0 → next.exec s = (.error (.outOfRange "not enougth len"), s))
    (is : List Nat) (result : BitVec w) (hs : s.WellFormed) :
    Takes is.length (readGroups next is result) s := by
  have hat := hs.at_unread
  cases hvint : vint is result s.unread with
  | some p =>
      obtain ⟨v, rest⟩ := p
      obtain ⟨used, hsplit, hused, -⟩ := readGroups_of_vint (hnext s.endian) hvint
      obtain ⟨t, hrun, ht⟩ := hused _ rest s (hsplit ▸ hat)
      have hle := length_le_of_vint hvint
      rw [hsplit, List.length_append] at hle
      exact ⟨used, rest, t, hsplit, by omega, .inl ⟨v, hrun⟩, ht.wellFormed, ht.unread_eq,
        ht.position_add hs⟩
  | none =>
      obtain ⟨t, hrun, ht, -⟩ := readGroups_exhausts (hnext s.endian) hthrows hvint hat
      have hshort : ¬ is.length ≤ s.unread.length := by
        intro hle
        have hsome := (isSome_vint_iff is result s.unread).mpr (.inl hle)
        rw [hvint] at hsome
        cases hsome
      exact ⟨s.unread, [], t, (List.append_nil _).symm, by omega, .inr ⟨_, hrun⟩,
        ht.wellFormed, ht.unread_eq, ht.position_add hs⟩

theorem Takes.map {α β : Type} {room : Nat} {load : Method ByteArray Failure α} (f : α → β)
    (h : Takes room load s) : Takes room (f <$> load) s := by
  obtain ⟨used, rest, t, hsplit, hlen, hrun, ht⟩ := h
  refine ⟨used, rest, t, hsplit, hlen, ?_, ht⟩
  rcases hrun with ⟨a, hrun⟩ | ⟨what, hrun⟩
  · exact .inl ⟨f a, by rw [Method.exec_map, hrun]; rfl⟩
  · exact .inr ⟨what, by rw [Method.exec_map, hrun]; rfl⟩

theorem Consumes.takes {α : Type} {load : Method ByteArray Failure α} {bs : List UInt8} {a : α}
    (h : ∀ e, Consumes e load bs a) (hs : s.WellFormed) (hsplit : s.unread = bs ++ rest) :
    ∃ t, load.exec s = (.ok a, t) ∧ t.WellFormed ∧ t.unread = rest ∧
      t.position = s.position + bs.length := by
  obtain ⟨t, hrun, ht⟩ := h s.endian _ rest s (hsplit ▸ hs.at_unread)
  exact ⟨t, hrun, ht.wellFormed, ht.unread_eq, ht.position_add hs⟩

/-- The bounds of a pair of loops over words of `w` bits. -/
theorem codecBounds_groups {α : Type} {room : Nat} (fresh : Nat → Nat → UInt8) (hw : 8 ≤ w)
    (hroom : (w + 6) / 7 = room + 1) {next : Method ByteArray Failure UInt8}
    (hnext : ∀ e b, Consumes e next [b] b)
    (hthrows : ∀ s, s.getReadSize = 0 → next.exec s = (.error (.outOfRange "not enougth len"), s))
    {bits : α → BitVec w} {of : BitVec w → α} (hof : ∀ a, of (bits a) = a) :
    CodecBounds fresh (room + 1) bits (fun a => writeGroups fresh (room + 1) (bits a))
      (of <$> readGroups next (shifts w) 0#w) := by
  have hgroups : ∀ a, groups (room + 1) (bits a) = some (encode (bits a).toNat) :=
    fun a => groups_eq_encode hw (toNat_lt_pow hroom (bits a))
  constructor
  · intro a
    refine ⟨_, hgroups a, ?_, shortCode_encode (toNat_lt_pow hroom (bits a))⟩
    intro s
    rw [writeGroups, hgroups a]
  · intro a b tmp tmp' ha hb hprefix
    rw [hgroups] at ha hb
    cases ha
    cases hb
    exact (isVarint_encode _).prefix_eq (isVarint_encode _) hprefix
  · exact fun i => lt_of_mem_shifts
  · intro s hs
    have htakes := takes_readGroups hnext hthrows (shifts w) 0#w hs
    rw [length_shifts, hroom] at htakes
    exact htakes.map of
  · intro a tmp rest s htmp hs hsplit
    refine Consumes.takes (fun e => ?_) hs hsplit
    obtain ⟨bs, hbs, -, hread⟩ := groups_stores fresh hw hroom (hnext e) (bits a)
    rw [htmp] at hbs
    cases hbs
    exact (hread.map of).congr (hof a)

end Reads

/-- The bounds of `writeUint32` and `readUint32`, and of `writeUint64` and `readUint64`. -/
theorem varint_bounds (fresh : Nat → Nat → UInt8) (host : Endian) :
    CodecBounds fresh 5 UInt32.toBitVec (writeUint32 fresh) (readUint32 host) ∧
      CodecBounds fresh 10 UInt64.toBitVec (writeUint64 fresh) (readUint64 host) := by
  constructor
  · exact codecBounds_groups fresh (by decide) (by decide)
      (fun _ b => (readByte_consumes host b).map UInt8.ofBitVec) (readFuint8_throws host)
      fun _ => rfl
  · exact codecBounds_groups fresh (by decide) (by decide)
      (fun _ => readSigned_consumes host) (readSigned_throws host) fun _ => rfl

end ByteArray

end Sylar.Net

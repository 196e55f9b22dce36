import Sylar.Net.Content
import Sylar.Net.Serialize

/-!
# Strings in a `ByteArray`

A string is stored as its length and its bytes. The length goes through the type
of the format, and what does not fit is cut off. The payload may be empty: nothing
is written then, but `read` looks at the current node before it knows that there is
nothing to read.
-/

namespace Sylar.Net

open Sylar.Lib

namespace ByteArray

section Methods

variable (fresh : Nat → Nat → UInt8) (host order : Endian)

/-- The body of the string writers. -/
def writeString (writeLength : Method ByteArray Failure Unit) (value : List UInt8) :
    Method ByteArray Failure Unit := do
  writeLength
  write fresh value

/-- The body of the string readers. -/
def readString (readLength : Method ByteArray Failure Nat) :
    Method ByteArray Failure (List UInt8) := do
  let len ← readLength
  read len

def writeStringF16 (value : List UInt8) : Method ByteArray Failure Unit :=
  writeString fresh (writeFuint16 fresh host order (UInt16.ofNat value.length)) value

def writeStringF32 (value : List UInt8) : Method ByteArray Failure Unit :=
  writeString fresh (writeFuint32 fresh host order (UInt32.ofNat value.length)) value

def writeStringF64 (value : List UInt8) : Method ByteArray Failure Unit :=
  writeString fresh (writeFuint64 fresh host order (UInt64.ofNat value.length)) value

def writeStringVint (value : List UInt8) : Method ByteArray Failure Unit :=
  writeString fresh (writeUint64 fresh (UInt64.ofNat value.length)) value

def readStringF16 : Method ByteArray Failure (List UInt8) :=
  readString (UInt16.toNat <$> readFuint16 host order)

def readStringF32 : Method ByteArray Failure (List UInt8) :=
  readString (UInt32.toNat <$> readFuint32 host order)

def readStringF64 : Method ByteArray Failure (List UInt8) :=
  readString (UInt64.toNat <$> readFuint64 host order)

def readStringVint : Method ByteArray Failure (List UInt8) :=
  readString (UInt64.toNat <$> readUint64 host)

end Methods

end ByteArray

/-- The four formats. -/
inductive StringFormat where
  | F16
  | F32
  | F64
  | Vint
  deriving DecidableEq, Repr

namespace StringFormat

/-- The bits of the type of the length. -/
def bits : StringFormat → Nat
  | .F16 => 16
  | .F32 => 32
  | .F64 => 64
  | .Vint => 64

/-- How many bytes the length of an empty string takes. -/
def emptyLength : StringFormat → Nat
  | .F16 => 2
  | .F32 => 4
  | .F64 => 8
  | .Vint => 1

variable (fresh : Nat → Nat → UInt8) (host order : Endian)

open Sylar.Net.ByteArray

def write : StringFormat → List UInt8 → Method ByteArray Failure Unit
  | .F16 => writeStringF16 fresh host order
  | .F32 => writeStringF32 fresh host order
  | .F64 => writeStringF64 fresh host order
  | .Vint => writeStringVint fresh

def read : StringFormat → Method ByteArray Failure (List UInt8)
  | .F16 => readStringF16 host order
  | .F32 => readStringF32 host order
  | .F64 => readStringF64 host order
  | .Vint => readStringVint host

/-- The string comes back, and what was written is consumed. -/
def RoundTrips (fmt : StringFormat) (value : List UInt8) (s : ByteArray) : Prop :=
  ∃ u t, (fmt.write fresh host order value).exec s = (.ok (), u) ∧
    (do setPosition s.position; fmt.read host order).exec u = (.ok value, t) ∧
    t.position = u.position

end StringFormat

namespace ByteArray

/-! ### Reading keeps the capacity -/

/-- The method leaves the capacity as it is. -/
def KeepsCapacity {α : Type} (x : Method ByteArray Failure α) : Prop :=
  ∀ s, (x.exec s).2.capacity = s.capacity

section Keeps

variable {α β : Type}

theorem keepsCapacity_pure (a : α) : KeepsCapacity (pure a) := fun _ => rfl

theorem KeepsCapacity.bind {x : Method ByteArray Failure α} {f : α → Method ByteArray Failure β}
    (hx : KeepsCapacity x) (hf : ∀ a, KeepsCapacity (f a)) : KeepsCapacity (x >>= f) := by
  intro s
  have hs := hx s
  rw [Method.exec_bind]
  rcases hexec : x.exec s with ⟨r, t⟩
  rw [hexec] at hs
  cases r with
  | error e => exact hs
  | ok a => exact (hf a t).trans hs

theorem KeepsCapacity.map {x : Method ByteArray Failure α} (hx : KeepsCapacity x) (f : α → β) :
    KeepsCapacity (f <$> x) := by
  intro s
  rw [Method.exec_map]
  exact hx s

theorem read_keepsCapacity (n : Nat) : KeepsCapacity (read n) := by
  intro s
  rw [read, Method.exec_bind_ok (Method.exec_get s)]
  split
  · rfl
  · cases hwalk : s.walk s.cur s.position n with
    | error e => rfl
    | ok r =>
        cases hload : loadAll s.nodes r.1 with
        | error e =>
            simp only [Method.exec_bind, Method.exec_lift, hload]
        | ok bs =>
            simp only [Method.exec_bind, Method.exec_lift, hload, Method.exec_set,
              Method.exec_pure]

theorem readFixed_keepsCapacity (host order : Endian) (n : Nat) :
    KeepsCapacity (readFixed host order n) := by
  apply (read_keepsCapacity n).bind
  intro bs s
  rw [Method.exec_bind_ok (Method.exec_get s)]
  split <;> rfl

theorem readGroups_keepsCapacity {w : Nat} {next : Method ByteArray Failure UInt8}
    (hnext : KeepsCapacity next) (is : List Nat) (result : BitVec w) :
    KeepsCapacity (readGroups next is result) := by
  induction is generalizing result with
  | nil => exact keepsCapacity_pure result
  | cons i is ih =>
      apply hnext.bind
      intro b
      split
      · exact keepsCapacity_pure _
      · exact ih _

end Keeps

/-! ### The length -/

section Length

variable (fresh : Nat → Nat → UInt8) {e : Endian}

/-- The bytes that hold a length, and what the reader makes of them. -/
structure LengthCodec (e : Endian) (x : Method ByteArray Failure Unit)
    (y : Method ByteArray Failure Nat) (bs : List UInt8) (len : Nat) : Prop where
  stores : Stores fresh e x bs
  consumes : Consumes e y bs len
  keeps : KeepsCapacity y

theorem fixed_lengthCodec (host order : Endian) {n : Nat} (hn : 0 < n) (value : BitVec (8 * n))
    {α : Type} (of : BitVec (8 * n) → α) (toNat : α → Nat) :
    ∃ bs, bs.length = n ∧
      LengthCodec fresh e (writeFixed fresh host order value)
        (toNat <$> of <$> readFixed host order n) bs (toNat (of value)) := by
  obtain ⟨bs, hlength, hstores, hconsumes⟩ := fixed_stores (e := e) fresh host order hn value
  refine ⟨bs, hlength, hstores, (hconsumes.map of).map toNat, ?_⟩
  exact ((readFixed_keepsCapacity host order n).map of).map toNat

theorem vint_lengthCodec (host : Endian) (value : UInt64) :
    ∃ bs, groups 10 value.toBitVec = some bs ∧
      LengthCodec fresh e (writeUint64 fresh value) (UInt64.toNat <$> readUint64 host) bs
        value.toNat := by
  obtain ⟨bs, hbs, hstores, hconsumes⟩ :=
    groups_stores (e := e) fresh (by decide) (rfl : (64 + 6) / 7 = 9 + 1)
      (readSigned_consumes host) value.toBitVec
  refine ⟨bs, hbs, hstores, (hconsumes.map UInt64.ofBitVec).map UInt64.toNat, ?_⟩
  have hbyte : KeepsCapacity (readFint8 host) := ((read_keepsCapacity 1).map _).map _
  exact ((readGroups_keepsCapacity (hbyte.map _) _ _).map _).map _

end Length

/-! ### The payload -/

section Payload

variable (fresh : Nat → Nat → UInt8) {s : ByteArray} {x : Method ByteArray Failure Unit}
  {y : Method ByteArray Failure Nat} {bs : List UInt8} {len : Nat}

/-- A string is written in one piece. -/
theorem exec_writeString (h : s.WellFormed) (hx : Stores fresh s.endian x bs)
    (value : List UInt8) :
    (writeString fresh x value).exec s = (write fresh (bs ++ value)).exec s := by
  rw [← write_append fresh h, writeString, Method.exec_bind, Method.exec_bind, hx s rfl]

/-- Back at the start of what was written, the bytes are in front of the position. -/
theorem setPosition_back {buf : List UInt8} {u : ByteArray} (h : s.WellFormed)
    (hu : Written buf s u) :
    ∃ v rest, (setPosition s.position).exec u = (.ok (), v) ∧
      At s.endian (s.bytes.take s.position) (buf ++ rest) v ∧ v.capacity = u.capacity := by
  have hle : s.position ≤ u.capacity :=
    le_trans (by rw [hu.position_eq]; omega) hu.wellFormed.position_le_capacity
  obtain ⟨v, hrun, hv, -, hend, hflat⟩ := setPosition_spec hu.wellFormed hle
  have hbytes : v.bytes = u.bytes := congrArg Flat.data hflat
  have hsize : v.size = u.size := by
    have hmax : v.size = max u.size s.position := congrArg Flat.size hflat
    have husize := hu.size_eq
    omega
  have hprior : (s.bytes.take s.position).length = s.position := by
    rw [List.length_take, h.length_bytes, Nat.min_eq_left h.position_le_capacity]
  have hfit : s.position + buf.length ≤ u.size := by
    rw [hu.size_eq]
    exact Nat.le_max_right _ _
  have hcontent : u.bytes.take u.size = s.bytes.take s.position ++
      (buf ++ (u.bytes.take u.size).drop (s.position + buf.length)) := by
    have hfront := hu.content
    rw [← List.append_assoc, ← hfront, ← Nat.min_eq_left hfit, ← List.take_take,
      Nat.min_eq_left hfit, List.take_append_drop]
  have hlength : (u.bytes.take u.size).length = u.size := by
    rw [List.length_take, hu.wellFormed.length_bytes, Nat.min_eq_left hu.wellFormed.size_le]
  refine ⟨v, (u.bytes.take u.size).drop (s.position + buf.length), hrun,
    ⟨hv, hend.trans hu.endian_eq, ?_, ?_, ?_⟩, ?_⟩
  · rw [hprior]
    exact congrArg Flat.position hflat
  · rw [hsize, ← List.length_append, ← hcontent, hlength]
  · rw [hbytes, hsize]
    exact hcontent
  · rw [← hv.length_bytes, hbytes, hu.wellFormed.length_bytes]

/-- Reading nothing needs a current node. -/
theorem exec_read_zero (h : s.WellFormed) :
    (read 0).exec s =
      if s.position = s.capacity then (.error .nullNode, s) else (.ok [], s) := by
  have hwalk := h.walk_zero s.position
  rw [read, Method.exec_bind_ok (Method.exec_get s), if_neg (Nat.not_lt_zero _)]
  by_cases hfull : s.position = s.capacity
  · rw [if_pos hfull] at hwalk
    rw [if_pos hfull, Method.exec_bind_error (t := s) (e := .nullNode)]
    rw [Method.exec_lift, hwalk]
  · rw [if_neg hfull] at hwalk
    rw [if_neg hfull]
    simp only [Method.exec_bind, Method.exec_lift, hwalk, loadAll, Method.exec_set,
      Method.exec_pure, Nat.add_zero]

/-- A read that returns, returns as many bytes as it was asked for. -/
theorem length_of_exec_read (h : s.WellFormed) {n : Nat} {r : List UInt8} {t : ByteArray}
    (hrun : (read n).exec s = (.ok r, t)) : r.length = n := by
  by_cases hn : n ≤ s.getReadSize
  · obtain rfl | hpos := Nat.eq_zero_or_pos n
    · rw [exec_read_zero h] at hrun
      split at hrun
      · cases hrun
      · cases hrun
        rfl
    · obtain ⟨u, hread, -⟩ := read_spec h hpos hn
      rw [hread] at hrun
      cases hrun
      have hsize := h.size_le
      rw [getReadSize] at hn
      rw [List.length_take, List.length_drop, h.length_bytes]
      omega
  · rw [read_throws (Nat.not_le.1 hn)] at hrun
    cases hrun

end Payload

end ByteArray

open Sylar.Net.ByteArray

section RoundTrip

variable (fresh : Nat → Nat → UInt8) (host order : Endian)

/-- Every format stores the length modulo the range of its type. -/
theorem StringFormat.lengthCodec (fmt : StringFormat) (e : Endian) (n : Nat) :
    ∃ x y bs, (∀ value, value.length = n → fmt.write fresh host order value =
        writeString fresh x value) ∧
      fmt.read host order = readString y ∧
      LengthCodec fresh e x y bs (n % 2 ^ fmt.bits) ∧ (n = 0 → bs.length = fmt.emptyLength) := by
  cases fmt with
  | F16 =>
      obtain ⟨bs, hlength, hcodec⟩ := fixed_lengthCodec fresh (e := e) host order (n := 2)
        (by decide) (UInt16.ofNat n).toBitVec UInt16.ofBitVec UInt16.toNat
      rw [UInt16.ofBitVec_toBitVec, UInt16.toNat_ofNat'] at hcodec
      exact ⟨_, _, bs, by rintro value rfl; rfl, rfl, hcodec, fun _ => hlength⟩
  | F32 =>
      obtain ⟨bs, hlength, hcodec⟩ := fixed_lengthCodec fresh (e := e) host order (n := 4)
        (by decide) (UInt32.ofNat n).toBitVec UInt32.ofBitVec UInt32.toNat
      rw [UInt32.ofBitVec_toBitVec, UInt32.toNat_ofNat'] at hcodec
      exact ⟨_, _, bs, by rintro value rfl; rfl, rfl, hcodec, fun _ => hlength⟩
  | F64 =>
      obtain ⟨bs, hlength, hcodec⟩ := fixed_lengthCodec fresh (e := e) host order (n := 8)
        (by decide) (UInt64.ofNat n).toBitVec UInt64.ofBitVec UInt64.toNat
      rw [UInt64.ofBitVec_toBitVec, UInt64.toNat_ofNat'] at hcodec
      exact ⟨_, _, bs, by rintro value rfl; rfl, rfl, hcodec, fun _ => hlength⟩
  | Vint =>
      obtain ⟨bs, hbs, hcodec⟩ := vint_lengthCodec fresh (e := e) host (UInt64.ofNat n)
      rw [UInt64.toNat_ofNat'] at hcodec
      refine ⟨_, _, bs, by rintro value rfl; rfl, rfl, hcodec, ?_⟩
      rintro rfl
      have hzero : groups 10 (UInt64.ofNat 0).toBitVec = some [0] := by decide
      rw [hzero] at hbs
      cases hbs
      rfl

/-- What writing the string, going back and reading it does, up to the payload. -/
theorem exec_reread {s : ByteArray} (h : s.WellFormed) {x : Method ByteArray Failure Unit}
    {y : Method ByteArray Failure Nat} {bs : List UInt8} {len : Nat}
    (hcodec : LengthCodec fresh s.endian x y bs len) (value : List UInt8) :
    ∃ u t rest, (writeString fresh x value).exec s = (.ok (), u) ∧ Written (bs ++ value) s u ∧
      (do setPosition s.position; readString y).exec u = (read len).exec t ∧
      At s.endian (s.bytes.take s.position ++ bs) (value ++ rest) t ∧
      t.position + value.length = u.position ∧ t.capacity = u.capacity := by
  obtain ⟨u, hwrite, hu⟩ := write_written fresh h (bs ++ value)
  obtain ⟨v, rest, hback, hv, hcap⟩ := setPosition_back h hu
  rw [List.append_assoc] at hv
  obtain ⟨t, hread, ht⟩ := hcodec.consumes _ _ v hv
  have hprior : (s.bytes.take s.position).length = s.position := by
    rw [List.length_take, h.length_bytes, Nat.min_eq_left h.position_le_capacity]
  refine ⟨u, t, rest, ?_, hu, ?_, ht, ?_, ?_⟩
  · rw [exec_writeString fresh h hcodec.stores, hwrite]
  · rw [Method.exec_bind_ok hback, readString, Method.exec_bind_ok hread]
  · rw [ht.position_eq, hu.position_eq, List.length_append, List.length_append, hprior]
    omega
  · have hkeeps := hcodec.keeps v
    rw [hread] at hkeeps
    exact hkeeps.trans hcap

/-- A string comes back exactly if its length fits into the type of the format and it is not
empty, or its length does not fill the capacity to the end. -/
theorem string_round_trips_iff (fmt : StringFormat) {s : ByteArray} (h : s.WellFormed)
    (value : List UInt8) :
    fmt.RoundTrips fresh host order value s ↔
      value.length < 2 ^ fmt.bits ∧
        (value = [] → ¬ (s.capacity ≤ s.position + fmt.emptyLength ∧
          s.baseSize ∣ s.position + fmt.emptyLength)) := by
  obtain ⟨x, y, bs, hformat, hreader, hcodec, hempty⟩ :=
    fmt.lengthCodec fresh host order s.endian value.length
  obtain ⟨u, t, rest, hwrite, hu, hread, ht, hposition, hcapacity⟩ :=
    exec_reread fresh h hcodec value
  have hiff : fmt.RoundTrips fresh host order value s ↔
      ∃ r, (read (value.length % 2 ^ fmt.bits)).exec t = (.ok value, r) ∧
        r.position = u.position := by
    unfold StringFormat.RoundTrips
    rw [hformat value rfl, hreader, hwrite]
    constructor
    · rintro ⟨u', r, hu', hr, hpos⟩
      cases hu'
      exact ⟨r, hread ▸ hr, hpos⟩
    · rintro ⟨r, hr, hpos⟩
      exact ⟨u, r, rfl, hread.trans hr, hpos⟩
  rw [hiff]
  by_cases hfits : value.length < 2 ^ fmt.bits
  · rw [and_iff_right hfits, Nat.mod_eq_of_lt hfits]
    by_cases hnil : value = []
    · -- The payload is empty, and the position is behind the length.
      subst hnil
      rw [List.length_nil, Nat.add_zero] at hposition
      have hfull : t.position = t.capacity ↔ s.capacity ≤ s.position + fmt.emptyLength ∧
          s.baseSize ∣ s.position + fmt.emptyLength := by
        rw [hposition, hcapacity, hu.position_eq, hu.capacity_eq, List.append_nil, hempty rfl]
        exact end_eq_grown_iff h.base_pos ⟨_, h.capacity_eq.trans (Nat.mul_comm _ _)⟩
          h.position_le_capacity
      rw [List.length_nil, exec_read_zero ht.wellFormed, ← hfull]
      split
      · next hend =>
          apply iff_of_false
          · rintro ⟨r, hr, -⟩
            cases hr
          · exact fun hnot => hnot rfl hend
      · next hend => exact iff_of_true ⟨t, rfl, hposition⟩ fun _ => hend
    · obtain ⟨r, hr, hrat⟩ := read_consumes hnil _ _ t ht
      apply iff_of_true _ fun hempty => absurd hempty hnil
      refine ⟨r, hr, ?_⟩
      rw [hrat.position_eq, List.length_append, ← hposition, ht.position_eq]
  · apply iff_of_false
    · rintro ⟨r, hr, -⟩
      have hlength := length_of_exec_read ht.wellFormed hr
      have hmod := Nat.mod_lt value.length (Nat.two_pow_pos fmt.bits)
      omega
    · exact fun hand => hfits hand.1

/-- An empty string in a block of three bytes. -/
theorem string_round_trips_iff_vint :
    StringFormat.RoundTrips (fun _ _ => 0) .little .little .Vint []
      (ByteArray.new (fun _ _ => 0) 3) := by
  have h : (ByteArray.new (fun _ _ => 0) 3).WellFormed := (new_represents _ (by decide)).1
  exact (string_round_trips_iff _ _ _ .Vint h []).2 ⟨by decide, fun _ => by decide⟩

/-- An empty string whose length fills the only block: the reader follows a null pointer. -/
theorem empty_string_follows_null :
    (do StringFormat.F16.write (fun _ _ => 0) .little .little []
        setPosition 0
        StringFormat.F16.read .little .little).exec (ByteArray.new (fun _ _ => 0) 2) =
      (.error .nullNode, { ByteArray.new (fun _ _ => 0) 2 with
        position := 2, size := 2, cur := none }) ∧
    ¬ StringFormat.F16.RoundTrips (fun _ _ => 0) .little .little []
      (ByteArray.new (fun _ _ => 0) 2) := by
  have hrun :
      (do StringFormat.F16.write (fun _ _ => 0) .little .little []
          setPosition 0
          StringFormat.F16.read .little .little).exec (ByteArray.new (fun _ _ => 0) 2) =
        (.error .nullNode, { ByteArray.new (fun _ _ => 0) 2 with
          position := 2, size := 2, cur := none }) := by decide
  refine ⟨hrun, ?_⟩
  rintro ⟨u, t, hwrite, hread, -⟩
  change (do setPosition 0; StringFormat.F16.read .little .little).exec u = (.ok [], t) at hread
  rw [Method.exec_bind_ok hwrite, hread] at hrun
  cases hrun

end RoundTrip

end Sylar.Net

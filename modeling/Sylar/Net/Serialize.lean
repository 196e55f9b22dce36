import Sylar.Lib.Words
import Sylar.Net.FlatBuffer

/-!
# Typed values in a `ByteArray`

The fixed-width writers store the memory of a value, after a `byteswap` where
the byte order set on the object is not `SYLAR_BYTE_ORDER`. The variable-width
writers store seven bits a byte, and signed values go through a zigzag map
first. A `float` or a `double` is its bit pattern.

The memory order of the machine and the value of `SYLAR_BYTE_ORDER` are two
parameters: the header falls back to `SYLAR_BIG_ENDIAN` where `BYTE_ORDER` is
not defined, whatever the machine is.
-/

namespace Sylar.Net

open Sylar.Lib Sylar.Lib.Words

/-- A byte list, least significant byte first, in the order of the memory. -/
def Endian.layout (host : Endian) (bs : List UInt8) : List UInt8 :=
  match host with
  | .little => bs
  | .big => bs.reverse

@[simp] theorem Endian.layout_layout (host : Endian) (bs : List UInt8) :
    host.layout (host.layout bs) = bs := by
  cases host <;> simp [Endian.layout]

@[simp] theorem Endian.length_layout (host : Endian) (bs : List UInt8) :
    (host.layout bs).length = bs.length := by
  cases host <;> simp [Endian.layout]

/-- `byteswap`: `bswap_16`, `bswap_32` and `bswap_64` reverse the bytes. -/
def byteswap {n : Nat} (value : BitVec (8 * n)) : BitVec (8 * n) := swap value

/-- The memory of a variable that holds the value. -/
def memory (host : Endian) {n : Nat} (value : BitVec (8 * n)) : List UInt8 :=
  host.layout (bytes value)

/-- The value of a variable with the given memory. -/
def ofMemory (host : Endian) (n : Nat) (bs : List UInt8) : BitVec (8 * n) :=
  word n (host.layout bs)

@[simp] theorem length_memory (host : Endian) {n : Nat} (value : BitVec (8 * n)) :
    (memory host value).length = n := by
  simp [memory]

@[simp] theorem ofMemory_memory (host : Endian) {n : Nat} (value : BitVec (8 * n)) :
    ofMemory host n (memory host value) = value := by
  simp [memory, ofMemory]

/-- `EncodeZigzag`, with the wrap-around of the machine at every step. -/
def encodeZigzag {w : Nat} (v : BitVec w) : BitVec w :=
  if v.slt 0#w then -v * 2#w - 1#w else v * 2#w

/-- `DecodeZigzag`. -/
def decodeZigzag {w : Nat} (v : BitVec w) : BitVec w :=
  (v >>> 1) ^^^ -(v &&& 1#w)

/-- `(value & 0x7F) | 0x80`, cut to a byte. -/
def moreByte {w : Nat} (value : BitVec w) : UInt8 :=
  UInt8.ofBitVec (((value &&& 0x7F#w) ||| 0x80#w).setWidth 8)

/-- The loop that fills `tmp` with groups of seven bits, where `room` elements of
the array are left. `none` is a store past the end of the array. -/
def groups {w : Nat} : Nat → BitVec w → Option (List UInt8)
  | 0, _ => none
  | room + 1, value =>
      if value ≥ 0x80#w then
        (groups room (value >>> 7)).map (moreByte value :: ·)
      else
        some [UInt8.ofBitVec (value.setWidth 8)]

/-- For a value below half the range the low bit is clear and the mask is zero. -/
theorem decodeZigzag_double {w : Nat} {x : BitVec w} (h : 2 * x.toNat < 2 ^ w) :
    decodeZigzag (x * 2#w) = x := by
  cases w with
  | zero => exact Subsingleton.elim _ _
  | succ w =>
      have hval : (x * 2#(w + 1)).toNat = 2 * x.toNat := by
        rw [BitVec.toNat_mul, BitVec.toNat_ofNat, Nat.mul_mod_mod, Nat.mul_comm,
          Nat.mod_eq_of_lt h]
      have hbit : x * 2#(w + 1) &&& 1#(w + 1) = 0#(w + 1) := by
        apply BitVec.eq_of_toNat_eq
        rw [BitVec.toNat_and, hval, BitVec.toNat_ofNat, BitVec.toNat_ofNat, Nat.zero_mod,
          Nat.mod_eq_of_lt (Nat.one_lt_two_pow (Nat.succ_ne_zero w)), Nat.and_one_is_mod]
        omega
      have hshift : (x * 2#(w + 1)) >>> 1 = x := by
        apply BitVec.eq_of_toNat_eq
        rw [BitVec.toNat_ushiftRight, hval, Nat.shiftRight_eq_div_pow]
        omega
      rw [decodeZigzag, hbit, hshift, BitVec.neg_zero, BitVec.xor_zero]

/-- For `2 * y - 1` the low bit is set and the mask is all ones. -/
theorem decodeZigzag_double_sub_one {w : Nat} {y : BitVec w} (hpos : 0 < y.toNat)
    (h : 2 * y.toNat ≤ 2 ^ w) : decodeZigzag (y * 2#w - 1#w) = -y := by
  cases w with
  | zero => exact Subsingleton.elim _ _
  | succ w =>
      have hone : (1#(w + 1)).toNat = 1 := by
        rw [BitVec.toNat_ofNat, Nat.mod_eq_of_lt (Nat.one_lt_two_pow (Nat.succ_ne_zero w))]
      have hval : (y * 2#(w + 1) - 1#(w + 1)).toNat = 2 * y.toNat - 1 := by
        rw [BitVec.toNat_sub, hone, BitVec.toNat_mul, BitVec.toNat_ofNat, Nat.mul_mod_mod,
          Nat.add_mod_mod]
        have hsum : 2 ^ (w + 1) - 1 + y.toNat * 2 = 2 * y.toNat - 1 + 2 ^ (w + 1) := by omega
        rw [hsum, Nat.add_mod_right, Nat.mod_eq_of_lt (by omega)]
      have hbit : (y * 2#(w + 1) - 1#(w + 1)) &&& 1#(w + 1) = 1#(w + 1) := by
        apply BitVec.eq_of_toNat_eq
        rw [BitVec.toNat_and, hval, hone, Nat.and_one_is_mod]
        omega
      have hpred : (y - 1#(w + 1)).toNat = y.toNat - 1 := by
        have hsum : 2 ^ (w + 1) - 1 + y.toNat = y.toNat - 1 + 2 ^ (w + 1) := by omega
        rw [BitVec.toNat_sub, hone, hsum, Nat.add_mod_right, Nat.mod_eq_of_lt (by omega)]
      have hshift : (y * 2#(w + 1) - 1#(w + 1)) >>> 1 = y - 1#(w + 1) := by
        apply BitVec.eq_of_toNat_eq
        rw [BitVec.toNat_ushiftRight, hval, Nat.shiftRight_eq_div_pow, hpred]
        omega
      rw [decodeZigzag, hbit, hshift, BitVec.neg_one_eq_allOnes, BitVec.xor_allOnes]
      apply BitVec.eq_of_toNat_eq
      rw [BitVec.toNat_not, hpred, BitVec.toNat_neg, Nat.mod_eq_of_lt (by omega)]
      omega

theorem decodeZigzag_encodeZigzag {w : Nat} (v : BitVec w) :
    decodeZigzag (encodeZigzag v) = v := by
  rw [encodeZigzag]
  split
  · next h =>
      rw [BitVec.slt_zero_eq_msb, BitVec.msb_eq_true_iff_two_mul_ge] at h
      have hlt := v.isLt
      have hneg : (-v).toNat = 2 ^ w - v.toNat := by
        have hpow := Nat.two_pow_pos w
        rw [BitVec.toNat_neg, Nat.mod_eq_of_lt (by omega)]
      rw [decodeZigzag_double_sub_one (by omega) (by omega), BitVec.neg_neg]
  · next h =>
      rw [BitVec.slt_zero_eq_msb, Bool.not_eq_true, BitVec.msb_eq_false_iff_two_mul_lt] at h
      exact decodeZigzag_double h
theorem toNat_or_shiftLeft {w i : Nat} {r x : BitVec w} (hr : r.toNat < 2 ^ i)
    (hx : x.toNat * 2 ^ i < 2 ^ w) : (r ||| x <<< i).toNat = r.toNat + x.toNat * 2 ^ i := by
  have hshift : (x <<< i).toNat = x.toNat <<< i := by
    rw [BitVec.toNat_shiftLeft, Nat.shiftLeft_eq, Nat.mod_eq_of_lt hx]
  rw [BitVec.toNat_or, hshift, Nat.or_comm, ← Nat.shiftLeft_add_eq_or_of_lt hr,
    Nat.shiftLeft_eq, Nat.add_comm]

theorem toNat_constant {w k : Nat} (hw : 8 ≤ w) (hk : k < 256) : (BitVec.ofNat w k).toNat = k := by
  have hpow : 2 ^ 8 ≤ 2 ^ w := Nat.pow_le_pow_right (by decide) hw
  rw [BitVec.toNat_ofNat, Nat.mod_eq_of_lt (by omega)]

theorem toNat_moreByte {w : Nat} (hw : 8 ≤ w) (value : BitVec w) :
    (moreByte value).toNat = value.toNat % 128 + 128 := by
  have hlow : value.toNat % 2 ^ 7 < 2 ^ 7 := Nat.mod_lt _ (by decide)
  have hor := Nat.two_pow_add_eq_or_of_lt hlow 1
  rw [Nat.mul_one] at hor
  rw [moreByte, UInt8.toNat_ofBitVec, BitVec.toNat_setWidth, BitVec.toNat_or, BitVec.toNat_and,
    toNat_constant hw (by decide), toNat_constant hw (by decide)]
  rw [Nat.and_two_pow_sub_one_eq_mod value.toNat 7, Nat.or_comm, ← hor]
  omega

theorem toNat_lastByte {w : Nat} {value : BitVec w} (h : value.toNat < 128) :
    (UInt8.ofBitVec (value.setWidth 8)).toNat = value.toNat := by
  rw [UInt8.toNat_ofBitVec, BitVec.toNat_setWidth]
  omega

theorem groups_last {w : Nat} (hw : 8 ≤ w) (room : Nat) {value : BitVec w}
    (h : value.toNat < 128) :
    groups (room + 1) value = some [UInt8.ofBitVec (value.setWidth 8)] := by
  have hlt : ¬ value ≥ 0x80#w := by
    rw [ge_iff_le, BitVec.le_def, toNat_constant hw (by decide)]
    exact Nat.not_le.mpr h
  rw [groups, if_neg hlt]

theorem groups_more {w : Nat} (hw : 8 ≤ w) (room : Nat) {value : BitVec w}
    (h : 128 ≤ value.toNat) :
    groups (room + 1) value = (groups room (value >>> 7)).map (moreByte value :: ·) := by
  have hge : value ≥ 0x80#w := by
    rw [ge_iff_le, BitVec.le_def, toNat_constant hw (by decide)]
    exact h
  rw [groups, if_pos hge]

namespace ByteArray

variable (fresh : Nat → Nat → UInt8) (host order : Endian)

/-- The body of the fixed-width writers wider than a byte. -/
def writeFixed {n : Nat} (value : BitVec (8 * n)) : Method ByteArray Failure Unit := do
  let s ← get
  write fresh (memory host (if s.endian ≠ order then byteswap value else value))

/-- The macro `XX`: the body of the fixed-width readers wider than a byte. -/
def readFixed (n : Nat) : Method ByteArray Failure (BitVec (8 * n)) := do
  let bs ← read n
  let s ← get
  if s.endian = order then return ofMemory host n bs
  else return byteswap (ofMemory host n bs)

def writeFint8 (value : Int8) : Method ByteArray Failure Unit :=
  write fresh (memory host (n := 1) value.toBitVec)

def writeFuint8 (value : UInt8) : Method ByteArray Failure Unit :=
  write fresh (memory host (n := 1) value.toBitVec)

def writeFint16 (value : Int16) : Method ByteArray Failure Unit :=
  writeFixed fresh host order (n := 2) value.toBitVec

def writeFuint16 (value : UInt16) : Method ByteArray Failure Unit :=
  writeFixed fresh host order (n := 2) value.toBitVec

def writeFint32 (value : Int32) : Method ByteArray Failure Unit :=
  writeFixed fresh host order (n := 4) value.toBitVec

def writeFuint32 (value : UInt32) : Method ByteArray Failure Unit :=
  writeFixed fresh host order (n := 4) value.toBitVec

def writeFint64 (value : Int64) : Method ByteArray Failure Unit :=
  writeFixed fresh host order (n := 8) value.toBitVec

def writeFuint64 (value : UInt64) : Method ByteArray Failure Unit :=
  writeFixed fresh host order (n := 8) value.toBitVec

/-- The body of `writeUint32` and `writeUint64`, with a local array of `room` bytes. -/
def writeGroups {w : Nat} (room : Nat) (value : BitVec w) : Method ByteArray Failure Unit :=
  match groups room value with
  | some tmp => write fresh tmp
  | none => throw .outsideArray

def writeUint32 (value : UInt32) : Method ByteArray Failure Unit :=
  writeGroups fresh 5 value.toBitVec

def writeInt32 (value : Int32) : Method ByteArray Failure Unit :=
  writeUint32 fresh (UInt32.ofBitVec (encodeZigzag value.toBitVec))

def writeUint64 (value : UInt64) : Method ByteArray Failure Unit :=
  writeGroups fresh 10 value.toBitVec

def writeInt64 (value : Int64) : Method ByteArray Failure Unit :=
  writeUint64 fresh (UInt64.ofBitVec (encodeZigzag value.toBitVec))

/-- `writeFloat` on the bit pattern of the value. -/
def writeFloat (value : UInt32) : Method ByteArray Failure Unit :=
  writeFuint32 fresh host order value

/-- `writeDouble` on the bit pattern of the value. -/
def writeDouble (value : UInt64) : Method ByteArray Failure Unit :=
  writeFint64 fresh host order (Int64.ofBitVec value.toBitVec)

/-- The body of the one-byte readers. -/
def readByte : Method ByteArray Failure (BitVec (8 * 1)) :=
  ofMemory host 1 <$> read 1

def readFint8 : Method ByteArray Failure Int8 :=
  Int8.ofBitVec <$> readByte host

def readFuint8 : Method ByteArray Failure UInt8 :=
  UInt8.ofBitVec <$> readByte host

def readFint16 : Method ByteArray Failure Int16 :=
  Int16.ofBitVec <$> readFixed host order 2

def readFuint16 : Method ByteArray Failure UInt16 :=
  UInt16.ofBitVec <$> readFixed host order 2

def readFint32 : Method ByteArray Failure Int32 :=
  Int32.ofBitVec <$> readFixed host order 4

def readFuint32 : Method ByteArray Failure UInt32 :=
  UInt32.ofBitVec <$> readFixed host order 4

def readFint64 : Method ByteArray Failure Int64 :=
  Int64.ofBitVec <$> readFixed host order 8

def readFuint64 : Method ByteArray Failure UInt64 :=
  UInt64.ofBitVec <$> readFixed host order 8

/-- The shifts of `for (i = 0; i < w; i += 7)`. -/
def shifts (w : Nat) : List Nat := List.range' 0 ((w + 6) / 7) 7

/-- The loop of `readUint32` and `readUint64` over the shifts that are left. -/
def readGroups {w : Nat} (next : Method ByteArray Failure UInt8) :
    List Nat → BitVec w → Method ByteArray Failure (BitVec w)
  | [], result => return result
  | i :: is, result => do
      let b ← next
      if b < 0x80 then
        return result ||| b.toBitVec.setWidth w <<< i
      else
        readGroups next is (result ||| (b &&& 0x7f).toBitVec.setWidth w <<< i)

def readUint32 : Method ByteArray Failure UInt32 :=
  UInt32.ofBitVec <$> readGroups (readFuint8 host) (shifts 32) 0#32

def readInt32 : Method ByteArray Failure Int32 :=
  (fun v => Int32.ofBitVec (decodeZigzag v.toBitVec)) <$> readUint32 host

/-- `readUint64` takes its bytes with `readFint8`, converted to `uint8_t`. -/
def readUint64 : Method ByteArray Failure UInt64 :=
  UInt64.ofBitVec <$>
    readGroups ((fun b => UInt8.ofBitVec b.toBitVec) <$> readFint8 host) (shifts 64) 0#64

def readInt64 : Method ByteArray Failure Int64 :=
  (fun v => Int64.ofBitVec (decodeZigzag v.toBitVec)) <$> readUint64 host

def readFloat : Method ByteArray Failure UInt32 := readFuint32 host order

def readDouble : Method ByteArray Failure UInt64 := readFuint64 host order

/-- The content is `before ++ after` and the position is between the two parts. -/
structure At (e : Endian) (before after : List UInt8) (s : ByteArray) : Prop where
  wellFormed : s.WellFormed
  endian_eq : s.endian = e
  position_eq : s.position = before.length
  size_eq : s.size = before.length + after.length
  content : s.bytes.take s.size = before ++ after

/-- At the end of the content, the method appends the bytes. -/
def Appends (e : Endian) (x : Method ByteArray Failure Unit) (bs : List UInt8) : Prop :=
  ∀ before s, At e before [] s →
    ∃ t, x.exec s = (.ok (), t) ∧ At e (before ++ bs) [] t

/-- In front of the bytes, the method consumes them and returns the value. -/
def Consumes {α : Type} (e : Endian) (x : Method ByteArray Failure α) (bs : List UInt8)
    (a : α) : Prop :=
  ∀ before after s, At e before (bs ++ after) s →
    ∃ t, x.exec s = (.ok a, t) ∧ At e (before ++ bs) after t

/-- In the given byte order, the method writes the bytes wherever the position is. -/
def Stores (e : Endian) (x : Method ByteArray Failure Unit) (bs : List UInt8) : Prop :=
  ∀ s, s.endian = e → x.exec s = (write fresh bs).exec s

section Codec

variable {e : Endian}

theorem new_at {baseSize : Nat} (hb : 1 ≤ baseSize) :
    At .big [] [] (new fresh baseSize) :=
  ⟨(new_represents fresh hb).1, rfl, rfl, rfl, rfl⟩

theorem write_appends (buf : List UInt8) : Appends e (write fresh buf) buf := by
  intro before s h
  obtain ⟨t, hrun, ht, _, hend, hwrite⟩ := write_spec fresh h.wellFormed buf
  obtain ⟨more, allocated, hexec⟩ := Flat.exec_write fresh s.baseSize s.flat buf
  have hflat := (Prod.mk.inj (hwrite.symm.trans hexec)).2
  have hbytes : t.bytes = Blocks.overwrite (s.bytes ++ more) s.position buf :=
    congrArg Flat.data hflat
  have htpos : t.position = s.position + buf.length := congrArg Flat.position hflat
  have htsize : t.size = max s.size (s.position + buf.length) := congrArg Flat.size hflat
  have hsize : s.size = before.length := h.size_eq
  have hcontent : s.bytes.take before.length = before := by
    rw [← hsize, h.content, List.append_nil]
  have hlen : before.length ≤ s.bytes.length := by
    rw [h.wellFormed.length_bytes, ← hsize]
    exact h.wellFormed.size_le
  rw [h.position_eq] at hbytes htpos htsize
  rw [hsize, Nat.max_eq_right (Nat.le_add_right _ _)] at htsize
  refine ⟨t, hrun, ht, hend.trans h.endian_eq, ?_, ?_, ?_⟩
  · rw [htpos, List.length_append]
  · rw [htsize, List.length_append, List.length_nil, Nat.add_zero]
  · have hle : before.length ≤ (s.bytes ++ more).length := by
      rw [List.length_append]
      exact Nat.le_add_right_of_le hlen
    rw [htsize, hbytes, Blocks.take_overwrite hle, List.take_append_of_le_length hlen, hcontent,
      List.append_nil]

theorem Stores.appends {x : Method ByteArray Failure Unit} {bs : List UInt8}
    (h : Stores fresh e x bs) : Appends e x bs := by
  intro before s hs
  rw [h s hs.endian_eq]
  exact write_appends fresh bs before s hs

theorem read_consumes {bs : List UInt8} (hne : bs ≠ []) :
    Consumes e (read bs.length) bs bs := by
  intro before after s h
  have hpos : 0 < bs.length := List.length_pos_iff.mpr hne
  have hsize := h.size_eq
  have hposition := h.position_eq
  rw [List.length_append] at hsize
  have hn : bs.length ≤ s.getReadSize := by
    rw [getReadSize]
    omega
  obtain ⟨t, hrun, ht, _, hend, hflat⟩ := read_spec h.wellFormed hpos hn
  have hbytes : t.bytes = s.bytes := congrArg Flat.data hflat
  have htsize : t.size = s.size := congrArg Flat.size hflat
  have htpos : t.position = s.position + bs.length := congrArg Flat.position hflat
  have hread : (s.bytes.drop s.position).take bs.length = bs := by
    have hcontent := congrArg (fun l => (l.drop before.length).take bs.length) h.content
    simp only [List.drop_left, List.take_left, List.drop_take, List.take_take] at hcontent
    rw [Nat.min_eq_left (by omega), ← hposition] at hcontent
    exact hcontent
  refine ⟨t, ?_, ht, hend.trans h.endian_eq, ?_, ?_, ?_⟩
  · rw [hrun, hread]
  · rw [htpos, List.length_append, hposition]
  · rw [htsize, hsize, List.length_append, Nat.add_assoc]
  · rw [hbytes, htsize, h.content, List.append_assoc]

theorem setPosition_zero_at {before after : List UInt8} {s : ByteArray}
    (h : At e before after s) :
    ∃ t, (setPosition 0).exec s = (.ok (), t) ∧ At e [] (before ++ after) t := by
  obtain ⟨t, hrun, ht, _, hend, hflat⟩ := setPosition_spec h.wellFormed (Nat.zero_le _)
  have hbytes : t.bytes = s.bytes := congrArg Flat.data hflat
  have htsize : t.size = s.size := (congrArg Flat.size hflat).trans (Nat.max_zero _)
  have htpos : t.position = 0 := congrArg Flat.position hflat
  refine ⟨t, hrun, ht, hend.trans h.endian_eq, htpos, ?_, ?_⟩
  · rw [htsize, h.size_eq, List.length_append, List.length_nil, Nat.zero_add]
  · rw [hbytes, htsize, h.content, List.nil_append]

theorem setIsLittleEndian_at {before after : List UInt8} {s : ByteArray} (val : Bool)
    (h : At e before after s) :
    ∃ t, (setIsLittleEndian val).exec s = (.ok (), t) ∧
      At (if val then .little else .big) before after t := by
  obtain ⟨hwf, _, hposition, hsize, hcontent⟩ := h
  refine ⟨_, rfl, ?_, rfl, hposition, hsize, hcontent⟩
  obtain ⟨h₁, h₂, h₃, h₄, h₅, h₆, h₇, h₈⟩ := hwf
  exact ⟨h₁, h₂, h₃, h₄, h₅, h₆, h₇, h₈⟩

theorem Consumes.map {α β : Type} {x : Method ByteArray Failure α} {bs : List UInt8} {a : α}
    (h : Consumes e x bs a) (f : α → β) : Consumes e (f <$> x) bs (f a) := by
  intro before after s hs
  obtain ⟨t, hrun, ht⟩ := h before after s hs
  refine ⟨t, ?_, ht⟩
  rw [Method.exec_map, hrun]
  rfl

theorem Consumes.bind {α β : Type} {x : Method ByteArray Failure α}
    {f : α → Method ByteArray Failure β} {bs cs : List UInt8} {a : α} {b : β}
    (hx : Consumes e x bs a) (hf : Consumes e (f a) cs b) :
    Consumes e (x >>= f) (bs ++ cs) b := by
  intro before after s hs
  rw [List.append_assoc] at hs
  obtain ⟨t, hrun, ht⟩ := hx before (cs ++ after) s hs
  obtain ⟨u, hrun', hu⟩ := hf (before ++ bs) after t ht
  refine ⟨u, ?_, ?_⟩
  · rw [Method.exec_bind_ok hrun, hrun']
  · rw [← List.append_assoc]
    exact hu

theorem Consumes.congr {α : Type} {x : Method ByteArray Failure α} {bs : List UInt8} {a b : α}
    (h : Consumes e x bs a) (hab : a = b) : Consumes e x bs b := hab ▸ h

theorem consumes_pure {α : Type} (a : α) :
    Consumes e (pure a : Method ByteArray Failure α) [] a := by
  intro before after s hs
  exact ⟨s, rfl, by rwa [List.append_nil]⟩

section Groups

variable {w : Nat} {next : Method ByteArray Failure UInt8}
  (hnext : ∀ b, Consumes e next [b] b)

include hnext

theorem readGroups_last {i : Nat} (is : List Nat) {value result : BitVec w}
    (hlast : value.toNat < 128) (hresult : result.toNat < 2 ^ i)
    (hfit : value.toNat * 2 ^ i < 2 ^ w) :
    Consumes e (readGroups next (i :: is) result) [UInt8.ofBitVec (value.setWidth 8)]
      (BitVec.ofNat w (result.toNat + value.toNat * 2 ^ i)) := by
  let b := UInt8.ofBitVec (value.setWidth 8)
  have hlt : b < 0x80 := by
    rw [UInt8.lt_iff_toNat_lt, toNat_lastByte hlast]
    exact hlast
  have hword : b.toBitVec.setWidth w = value := by
    apply BitVec.eq_of_toNat_eq
    have hb : b.toBitVec.toNat = value.toNat := toNat_lastByte hlast
    rw [BitVec.toNat_setWidth, hb, Nat.mod_eq_of_lt value.isLt]
  have hstep : Consumes e (readGroups next (i :: is) result) ([b] ++ [])
      (result ||| b.toBitVec.setWidth w <<< i) := by
    rw [readGroups]
    refine (hnext b).bind ?_
    rw [if_pos hlt]
    exact consumes_pure _
  refine hstep.congr ?_
  apply BitVec.eq_of_toNat_eq
  rw [hword, toNat_or_shiftLeft hresult hfit, BitVec.toNat_ofNat, Nat.mod_eq_of_lt]
  rw [← toNat_or_shiftLeft hresult hfit]
  exact BitVec.isLt _

theorem readGroups_more (hw : 8 ≤ w) {i : Nat} {is : List Nat} {value result r : BitVec w}
    {bs : List UInt8}
    (hrest : Consumes e
      (readGroups next is (result ||| (BitVec.ofNat w (value.toNat % 128)) <<< i)) bs r) :
    Consumes e (readGroups next (i :: is) result) (moreByte value :: bs) r := by
  have hge : ¬ moreByte value < 0x80 := by
    rw [UInt8.lt_iff_toNat_lt, toNat_moreByte hw]
    exact Nat.not_lt.mpr (Nat.le_add_left 128 _)
  have hlow : (moreByte value &&& 0x7f).toBitVec.setWidth w =
      BitVec.ofNat w (value.toNat % 128) := by
    apply BitVec.eq_of_toNat_eq
    have hand : (moreByte value &&& 0x7f).toBitVec.toNat = value.toNat % 128 := by
      have hmod := Nat.and_two_pow_sub_one_eq_mod (moreByte value).toNat 7
      change (moreByte value &&& 0x7f).toNat = _
      rw [UInt8.toNat_and]
      change _ &&& (2 ^ 7 - 1) = _
      rw [hmod, toNat_moreByte hw]
      omega
    rw [BitVec.toNat_setWidth, hand, BitVec.toNat_ofNat]
  rw [readGroups]
  apply (hnext (moreByte value)).bind
  rw [if_neg hge, hlow]
  exact hrest

/-- The reader's loop consumes what the writer's loop stored and puts the value
above the bits it already has. -/
theorem readGroups_groups (hw : 8 ≤ w) (room i : Nat) (value result : BitVec w)
    (hroom : value.toNat < 128 ^ (room + 1)) (hresult : result.toNat < 2 ^ i)
    (hfit : value.toNat * 2 ^ i < 2 ^ w) :
    ∃ bs, groups (room + 1) value = some bs ∧
      Consumes e (readGroups next (List.range' i (room + 1) 7) result) bs
        (BitVec.ofNat w (result.toNat + value.toNat * 2 ^ i)) := by
  induction room generalizing i value result with
  | zero =>
      have hlast : value.toNat < 128 := by simpa using hroom
      exact ⟨_, groups_last hw 0 hlast, readGroups_last hnext [] hlast hresult hfit⟩
  | succ room ih =>
      by_cases hlast : value.toNat < 128
      · exact ⟨_, groups_last hw _ hlast, readGroups_last hnext _ hlast hresult hfit⟩
      · have hge : 128 ≤ value.toNat := Nat.not_lt.mp hlast
        have hshift : (value >>> 7).toNat = value.toNat / 128 := by
          rw [BitVec.toNat_ushiftRight, Nat.shiftRight_eq_div_pow]
        have hsplit : value.toNat % 128 * 2 ^ i + value.toNat / 128 * 2 ^ (i + 7) =
            value.toNat * 2 ^ i := by
          rw [Nat.pow_add, Nat.mul_comm (2 ^ i), ← Nat.mul_assoc, ← Nat.add_mul]
          congr 1
          omega
        have hlow : (BitVec.ofNat w (value.toNat % 128)).toNat = value.toNat % 128 :=
          toNat_constant hw (by omega)
        have hpart : (BitVec.ofNat w (value.toNat % 128)).toNat * 2 ^ i < 2 ^ w := by
          rw [hlow]
          omega
        have hsum := toNat_or_shiftLeft hresult hpart
        rw [hlow] at hsum
        have hnew : (result ||| BitVec.ofNat w (value.toNat % 128) <<< i).toNat < 2 ^ (i + 7) := by
          have hmul : value.toNat % 128 * 2 ^ i ≤ 127 * 2 ^ i :=
            Nat.mul_le_mul_right _ (by omega)
          rw [hsum, Nat.pow_add]
          omega
        obtain ⟨bs, hbs, hread⟩ := ih (i + 7) (value >>> 7) _
          (by rw [hshift, Nat.div_lt_iff_lt_mul (by decide)]; rwa [Nat.pow_succ] at hroom)
          hnew (by rw [hshift]; omega)
        refine ⟨moreByte value :: bs, ?_, ?_⟩
        · rw [groups_more hw _ hge, hbs]
          rfl
        · refine readGroups_more hnext hw (hread.congr ?_)
          rw [hsum, hshift, Nat.add_assoc, hsplit]

end Groups
/-- What `x` appends, `y` consumes and reads as `a`. -/
def Codec {α : Type} (e : Endian) (x : Method ByteArray Failure Unit)
    (y : Method ByteArray Failure α) (a : α) : Prop :=
  ∃ bs, Appends e x bs ∧ Consumes e y bs a

theorem Codec.map {α β : Type} {x : Method ByteArray Failure Unit}
    {y : Method ByteArray Failure α} {a : α} (h : Codec e x y a) (f : α → β) :
    Codec e x (f <$> y) (f a) := by
  obtain ⟨bs, hx, hy⟩ := h
  exact ⟨bs, hx, hy.map f⟩

theorem Codec.congr {α : Type} {x : Method ByteArray Failure Unit}
    {y : Method ByteArray Failure α} {a b : α} (h : Codec e x y a) (hab : a = b) :
    Codec e x y b := hab ▸ h

theorem read_memory {n : Nat} (hn : 0 < n) (value : BitVec (8 * n)) :
    Consumes e (read n) (memory host value) (memory host value) := by
  have hne : memory host value ≠ [] := by
    apply List.ne_nil_of_length_pos
    rwa [length_memory]
  have hread := read_consumes (e := e) hne
  rwa [length_memory] at hread

theorem byte_codec (value : BitVec (8 * 1)) :
    Codec e (write fresh (memory host value)) (readByte host) value := by
  refine ⟨memory host value, write_appends fresh _, ?_⟩
  exact ((read_memory host Nat.one_pos value).map _).congr (ofMemory_memory host value)

/-- The memory of the value, swapped if the byte orders differ. -/
theorem fixed_stores {n : Nat} (hn : 0 < n) (value : BitVec (8 * n)) :
    ∃ bs, bs.length = n ∧ Stores fresh e (writeFixed fresh host order value) bs ∧
      Consumes e (readFixed host order n) bs value := by
  by_cases he : e = order
  · refine ⟨memory host value, length_memory host value, ?_, ?_⟩
    · intro s hs
      rw [writeFixed, Method.exec_bind_ok (Method.exec_get s)]
      rw [if_neg (not_not.mpr (hs.trans he))]
    · intro before after s hs
      obtain ⟨t, hrun, ht⟩ := read_memory host hn value before after s hs
      refine ⟨t, ?_, ht⟩
      rw [readFixed, Method.exec_bind_ok hrun, Method.exec_bind_ok (Method.exec_get t),
        if_pos (ht.endian_eq.trans he), Method.exec_pure, ofMemory_memory]
  · refine ⟨memory host (byteswap value), length_memory host _, ?_, ?_⟩
    · intro s hs
      rw [writeFixed, Method.exec_bind_ok (Method.exec_get s)]
      rw [if_pos (hs ▸ he)]
    · intro before after s hs
      obtain ⟨t, hrun, ht⟩ := read_memory host hn (byteswap value) before after s hs
      refine ⟨t, ?_, ht⟩
      rw [readFixed, Method.exec_bind_ok hrun, Method.exec_bind_ok (Method.exec_get t),
        if_neg (ht.endian_eq ▸ he), Method.exec_pure, ofMemory_memory, byteswap, byteswap,
        swap_swap]

theorem fixed_codec {n : Nat} (hn : 0 < n) (value : BitVec (8 * n)) :
    Codec e (writeFixed fresh host order value) (readFixed host order n) value := by
  obtain ⟨bs, -, hstores, hconsumes⟩ := fixed_stores (e := e) fresh host order hn value
  exact ⟨bs, hstores.appends, hconsumes⟩

theorem readByte_consumes (b : UInt8) : Consumes e (readByte host) [b] b.toBitVec := by
  have hmem : memory host (n := 1) b.toBitVec = [b] := by
    have hbytes : Words.bytes (n := 1) b.toBitVec = [b] :=
      congrArg (fun c => [c]) (UInt8.ofNat_toNat (x := b))
    rw [memory, hbytes]
    cases host <;> rfl
  have hread := (read_memory (e := e) host (n := 1) Nat.one_pos b.toBitVec).map (ofMemory host 1)
  rwa [ofMemory_memory, hmem] at hread

/-- The array of `⌈w / 7⌉` bytes is long enough, and the reader takes as many bytes. -/
theorem groups_stores {w room : Nat} (hw : 8 ≤ w) (hroom : (w + 6) / 7 = room + 1)
    {next : Method ByteArray Failure UInt8} (hnext : ∀ b, Consumes e next [b] b)
    (value : BitVec w) :
    ∃ bs, groups (room + 1) value = some bs ∧
      Stores fresh e (writeGroups fresh (room + 1) value) bs ∧
      Consumes e (readGroups next (shifts w) 0#w) bs value := by
  have hbits : value.toNat < 128 ^ (room + 1) := by
    have hle : 2 ^ w ≤ 2 ^ (7 * (room + 1)) := Nat.pow_le_pow_right (by decide) (by omega)
    rw [Nat.pow_mul] at hle
    exact Nat.lt_of_lt_of_le value.isLt hle
  obtain ⟨bs, hbs, hread⟩ := readGroups_groups hnext hw room 0 value 0#w hbits
    (by simp) (by simpa using value.isLt)
  refine ⟨bs, hbs, ?_, ?_⟩
  · intro s _
    rw [writeGroups, hbs]
  · rw [shifts, hroom]
    refine hread.congr ?_
    simp

theorem groups_codec {w room : Nat} (hw : 8 ≤ w) (hroom : (w + 6) / 7 = room + 1)
    {next : Method ByteArray Failure UInt8} (hnext : ∀ b, Consumes e next [b] b)
    (value : BitVec w) :
    Codec e (writeGroups fresh (room + 1) value) (readGroups next (shifts w) 0#w) value := by
  obtain ⟨bs, -, hstores, hconsumes⟩ := groups_stores (e := e) fresh hw hroom hnext value
  exact ⟨bs, hstores.appends, hconsumes⟩

theorem uint32_codec (value : UInt32) :
    Codec e (writeUint32 fresh value) (readUint32 host) value :=
  (groups_codec fresh (by decide) (by decide)
    (fun b => (readByte_consumes host b).map UInt8.ofBitVec) value.toBitVec).map UInt32.ofBitVec

theorem int32_codec (value : Int32) :
    Codec e (writeInt32 fresh value) (readInt32 host) value := by
  have h := (uint32_codec (e := e) fresh host
    (UInt32.ofBitVec (encodeZigzag value.toBitVec))).map
      fun v => Int32.ofBitVec (decodeZigzag v.toBitVec)
  rwa [UInt32.toBitVec_ofBitVec, decodeZigzag_encodeZigzag, Int32.ofBitVec_toBitVec] at h

theorem readSigned_consumes (b : UInt8) :
    Consumes e ((fun b : Int8 => UInt8.ofBitVec b.toBitVec) <$> readFint8 host) [b] b :=
  ((readByte_consumes host b).map Int8.ofBitVec).map _

theorem uint64_codec (value : UInt64) :
    Codec e (writeUint64 fresh value) (readUint64 host) value :=
  (groups_codec fresh (by decide) (by decide) (readSigned_consumes host)
    value.toBitVec).map UInt64.ofBitVec

theorem int64_codec (value : Int64) :
    Codec e (writeInt64 fresh value) (readInt64 host) value := by
  have h := (uint64_codec (e := e) fresh host
    (UInt64.ofBitVec (encodeZigzag value.toBitVec))).map
      fun v => Int64.ofBitVec (decodeZigzag v.toBitVec)
  rwa [UInt64.toBitVec_ofBitVec, decodeZigzag_encodeZigzag, Int64.ofBitVec_toBitVec] at h

end Codec

end ByteArray

/-- The values a run can write, by the writer that takes them. -/
inductive Scalar where
  | fint8 (value : Int8)
  | fuint8 (value : UInt8)
  | fint16 (value : Int16)
  | fuint16 (value : UInt16)
  | fint32 (value : Int32)
  | fuint32 (value : UInt32)
  | fint64 (value : Int64)
  | fuint64 (value : UInt64)
  | int32 (value : Int32)
  | uint32 (value : UInt32)
  | int64 (value : Int64)
  | uint64 (value : UInt64)
  | float (bits : UInt32)
  | double (bits : UInt64)
  deriving DecidableEq

/-- The matching readers. -/
inductive ScalarType where
  | fint8 | fuint8 | fint16 | fuint16 | fint32 | fuint32 | fint64 | fuint64
  | int32 | uint32 | int64 | uint64 | float | double
  deriving DecidableEq

def Scalar.type : Scalar → ScalarType
  | .fint8 _ => .fint8
  | .fuint8 _ => .fuint8
  | .fint16 _ => .fint16
  | .fuint16 _ => .fuint16
  | .fint32 _ => .fint32
  | .fuint32 _ => .fuint32
  | .fint64 _ => .fint64
  | .fuint64 _ => .fuint64
  | .int32 _ => .int32
  | .uint32 _ => .uint32
  | .int64 _ => .int64
  | .uint64 _ => .uint64
  | .float _ => .float
  | .double _ => .double

section Scalars

variable (fresh : Nat → Nat → UInt8) (host order : Endian)

open Sylar.Net.ByteArray

def Scalar.write : Scalar → Method ByteArray Failure Unit
  | .fint8 value => writeFint8 fresh host value
  | .fuint8 value => writeFuint8 fresh host value
  | .fint16 value => writeFint16 fresh host order value
  | .fuint16 value => writeFuint16 fresh host order value
  | .fint32 value => writeFint32 fresh host order value
  | .fuint32 value => writeFuint32 fresh host order value
  | .fint64 value => writeFint64 fresh host order value
  | .fuint64 value => writeFuint64 fresh host order value
  | .int32 value => writeInt32 fresh value
  | .uint32 value => writeUint32 fresh value
  | .int64 value => writeInt64 fresh value
  | .uint64 value => writeUint64 fresh value
  | .float bits => writeFloat fresh host order bits
  | .double bits => writeDouble fresh host order bits

def ScalarType.read : ScalarType → Method ByteArray Failure Scalar
  | .fint8 => .fint8 <$> readFint8 host
  | .fuint8 => .fuint8 <$> readFuint8 host
  | .fint16 => .fint16 <$> readFint16 host order
  | .fuint16 => .fuint16 <$> readFuint16 host order
  | .fint32 => .fint32 <$> readFint32 host order
  | .fuint32 => .fuint32 <$> readFuint32 host order
  | .fint64 => .fint64 <$> readFint64 host order
  | .fuint64 => .fuint64 <$> readFuint64 host order
  | .int32 => .int32 <$> readInt32 host
  | .uint32 => .uint32 <$> readUint32 host
  | .int64 => .int64 <$> readInt64 host
  | .uint64 => .uint64 <$> readUint64 host
  | .float => .float <$> readFloat host order
  | .double => .double <$> readDouble host order

/-- Every reader takes back what the matching writer stored, in either byte order. -/
theorem Scalar.codec (e : Endian) (v : Scalar) :
    Codec e (v.write fresh host order) (v.type.read host order) v := by
  cases v with
  | fint8 value => exact ((byte_codec fresh host value.toBitVec).map Int8.ofBitVec).map _
  | fuint8 value => exact ((byte_codec fresh host value.toBitVec).map UInt8.ofBitVec).map _
  | fint16 value =>
      have h := fixed_codec (e := e) fresh host order (n := 2) (by decide) value.toBitVec
      exact (h.map Int16.ofBitVec).map _
  | fuint16 value =>
      have h := fixed_codec (e := e) fresh host order (n := 2) (by decide) value.toBitVec
      exact (h.map UInt16.ofBitVec).map _
  | fint32 value =>
      have h := fixed_codec (e := e) fresh host order (n := 4) (by decide) value.toBitVec
      exact (h.map Int32.ofBitVec).map _
  | fuint32 value =>
      have h := fixed_codec (e := e) fresh host order (n := 4) (by decide) value.toBitVec
      exact (h.map UInt32.ofBitVec).map _
  | fint64 value =>
      have h := fixed_codec (e := e) fresh host order (n := 8) (by decide) value.toBitVec
      exact (h.map Int64.ofBitVec).map _
  | fuint64 value =>
      have h := fixed_codec (e := e) fresh host order (n := 8) (by decide) value.toBitVec
      exact (h.map UInt64.ofBitVec).map _
  | int32 value => exact (int32_codec fresh host value).map _
  | uint32 value => exact (uint32_codec fresh host value).map _
  | int64 value => exact (int64_codec fresh host value).map _
  | uint64 value => exact (uint64_codec fresh host value).map _
  | float bits =>
      have h := fixed_codec (e := e) fresh host order (n := 4) (by decide) bits.toBitVec
      exact (h.map UInt32.ofBitVec).map _
  | double bits =>
      have h := fixed_codec (e := e) fresh host order (n := 8) (by decide) bits.toBitVec
      exact (h.map UInt64.ofBitVec).map _

/-- The values written one after the other are read back one after the other. -/
theorem scalars_codec (e : Endian) (vs : List Scalar) :
    Codec e (forM vs (Scalar.write fresh host order))
      ((vs.map Scalar.type).mapM (ScalarType.read host order)) vs := by
  induction vs with
  | nil =>
      refine ⟨[], ?_, ?_⟩
      · intro before s hs
        exact ⟨s, rfl, by rwa [List.append_nil]⟩
      · exact consumes_pure []
  | cons v vs ih =>
      obtain ⟨bs, hwrite, hread⟩ := v.codec fresh host order e
      obtain ⟨cs, hwrites, hreads⟩ := ih
      refine ⟨bs ++ cs, ?_, ?_⟩
      · intro before s hs
        obtain ⟨t, hrun, ht⟩ := hwrite before s hs
        obtain ⟨u, hrun', hu⟩ := hwrites (before ++ bs) t ht
        refine ⟨u, ?_, ?_⟩
        · rw [List.forM_cons, Method.exec_bind_ok hrun, hrun']
        · rwa [← List.append_assoc]
      · rw [List.map_cons, List.mapM_cons]
        refine hread.bind ?_
        rw [← List.append_nil cs]
        exact hreads.bind (consumes_pure _)

/-- Choose the byte order, write the values, go back to the start and read them. -/
def writeThenRead (little : Bool) (vs : List Scalar) :
    Method ByteArray Failure (List Scalar) := do
  setIsLittleEndian little
  forM vs (Scalar.write fresh host order)
  setPosition 0
  (vs.map Scalar.type).mapM (ScalarType.read host order)

/-- On a new `ByteArray` the values come back exactly, nothing throws and no
byte is left to read. -/
theorem writeThenRead_returns {baseSize : Nat} (hb : 1 ≤ baseSize) (little : Bool)
    (vs : List Scalar) :
    ∃ t, (writeThenRead fresh host order little vs).exec (ByteArray.new fresh baseSize) =
        (.ok vs, t) ∧
      t.getReadSize = 0 := by
  obtain ⟨s₁, hset, h₁⟩ := setIsLittleEndian_at little (new_at fresh hb)
  obtain ⟨bs, hwrite, hread⟩ := scalars_codec fresh host order _ vs
  obtain ⟨s₂, hrun₂, h₂⟩ := hwrite [] s₁ h₁
  obtain ⟨s₃, hrun₃, h₃⟩ := setPosition_zero_at h₂
  rw [List.nil_append] at h₃
  obtain ⟨s₄, hrun₄, h₄⟩ := hread [] [] s₃ h₃
  refine ⟨s₄, ?_, ?_⟩
  · rw [writeThenRead, Method.exec_bind_ok hset, Method.exec_bind_ok hrun₂,
      Method.exec_bind_ok hrun₃, hrun₄]
  · rw [getReadSize, h₄.size_eq, h₄.position_eq, List.length_nil, Nat.add_zero, Nat.sub_self]

/-- The corner values of the zigzag map and a ten-byte group sequence, over
three-byte nodes. -/
theorem writeThenRead_returns_corners :
    1 ≤ 3 ∧ ∃ t, (writeThenRead (fun _ _ => 0) .little .little false
        [.int32 Int32.minValue, .int64 Int64.minValue, .uint64 0xffffffffffffffff,
          .fint16 (-2), .double 0x7ff8000000000000]).exec (ByteArray.new (fun _ _ => 0) 3) =
        (.ok [.int32 Int32.minValue, .int64 Int64.minValue, .uint64 0xffffffffffffffff,
          .fint16 (-2), .double 0x7ff8000000000000], t) ∧
      t.getReadSize = 0 :=
  ⟨by decide, writeThenRead_returns _ _ _ (by decide) _ _⟩

end Scalars

end Sylar.Net

import Sylar.Net.Address

/-!
# Prefix lengths of an `IPv6Address`

The three functions treat the byte with index `prefix_len / 8` on its own and the bytes before
or behind it in a loop. For the longest prefix that index is 16, and there is no range check.
A store outside the 16 bytes is a failure of the model.
-/

namespace Sylar.Net

open Sylar.Lib Sylar.Lib.Words

/-- The fields of `sockaddr_in6`, in network byte order. -/
structure SockaddrIn6 where
  sin6Family : BitVec 16
  sin6Port : BitVec (8 * 2)
  sin6Flowinfo : BitVec (8 * 4)
  u6Addr8 : Vector UInt8 16
  sin6ScopeId : BitVec (8 * 4)
  deriving DecidableEq, Repr

/-- `AF_INET6`. -/
def afInet6 : BitVec 16 := 10

/-- What the language leaves undefined in the three functions. -/
inductive Ipv6Fault where
  | mask (what : Undefined)
  | outside (index : Nat)
  deriving DecidableEq, Repr

/-- The `int` that `CreateMask` computes for a type of `size` bytes. -/
def maskInt (size : Nat) (wraps : Bool) (bits : Nat) : Except Undefined (BitVec (8 * 4)) :=
  let count := (18446744073709551616 + 8 * size - bits) % 18446744073709551616
  if 32 ≤ count then .error .shiftCount
  else if (power count).toInt - 1 < -2147483648 ∧ !wraps then .error .signedOverflow
  else .ok (~~~(power count - 1#(8 * 4)))

theorem createMask_eq_maskInt (wraps : Bool) (bits : Nat) :
    createMask wraps bits = maskInt 4 wraps bits := rfl

/-- `CreateMask<uint8_t>`. -/
def createMask8 (wraps : Bool) (bits : Nat) : Except Ipv6Fault UInt8 :=
  match maskInt 1 wraps bits with
  | .error what => .error (.mask what)
  | .ok value => .ok (UInt8.ofBitVec (value.setWidth 8))

/-- `b[i] = f(b[i])`. -/
def modifyByte (b : Vector UInt8 16) (i : Nat) (f : UInt8 → UInt8) :
    Except Ipv6Fault (Vector UInt8 16) :=
  if h : i < 16 then .ok (b.set i (f (b.get ⟨i, h⟩))) else .error (.outside i)

/-- The loops that store one value at the given indices. -/
def fillBytes (v : UInt8) : List Nat → Vector UInt8 16 → Except Ipv6Fault (Vector UInt8 16)
  | [], b => .ok b
  | i :: is, b => do
      let b ← modifyByte b i fun _ => v
      fillBytes v is b

namespace SockaddrIn6

section Addresses

variable (wraps : Bool) (addr : SockaddrIn6) (prefixLen : Nat)

def broadcastAddress : Except Ipv6Fault SockaddrIn6 := do
  let mask ← createMask8 wraps (prefixLen % 8)
  let b ← modifyByte addr.u6Addr8 (prefixLen / 8) (· ||| ~~~mask)
  let b ← fillBytes 0xff (List.range' (prefixLen / 8 + 1) (16 - (prefixLen / 8 + 1))) b
  return { addr with u6Addr8 := b }

def networkAddress : Except Ipv6Fault SockaddrIn6 := do
  let mask ← createMask8 wraps (prefixLen % 8)
  let b ← modifyByte addr.u6Addr8 (prefixLen / 8) (· &&& mask)
  let b ← fillBytes 0x00 (List.range' (prefixLen / 8 + 1) (16 - (prefixLen / 8 + 1))) b
  return { addr with u6Addr8 := b }

/-- The bound of the loop is a quotient of signed numbers. -/
def subnetMask : Except Ipv6Fault SockaddrIn6 := do
  let mask ← createMask8 wraps (prefixLen % 8)
  let b ← modifyByte (Vector.replicate 16 0) (prefixLen / 8) fun _ => mask
  let b ← fillBytes 0xff (List.range ((BitVec.ofNat 32 prefixLen).toInt.tdiv 8).toNat) b
  return ⟨afInet6, 0, 0, b, 0⟩

end Addresses

def byte (addr : SockaddrIn6) (i : Fin 16) : UInt8 := addr.u6Addr8.get i

/-- A bit of the address, counted from the most significant one. -/
def bit (addr : SockaddrIn6) (j : Fin 128) : Bool :=
  (addr.byte ⟨j.val / 8, by omega⟩).toBitVec.getMsbD (j.val % 8)

/-- What the three addresses are for a prefix. -/
structure IsPrefixOf (addr subnet network broadcast : SockaddrIn6) (prefixLen : Nat) : Prop where
  subnetBit : ∀ j, subnet.bit j = decide (j.val < prefixLen)
  networkBit : ∀ j, network.bit j = if j.val < prefixLen then addr.bit j else false
  broadcastBit : ∀ j, broadcast.bit j = if j.val < prefixLen then addr.bit j else true
  networkByte : ∀ i, network.byte i = addr.byte i &&& subnet.byte i
  broadcastByte : ∀ i, broadcast.byte i = addr.byte i ||| ~~~subnet.byte i

/-- No byte outside the address is touched, and the addresses are returned. -/
def PrefixArithmetic (wraps : Bool) (addr : SockaddrIn6) (prefixLen : Nat) : Prop :=
  ∃ subnet network broadcast,
    subnetMask wraps prefixLen = .ok subnet ∧
    networkAddress wraps addr prefixLen = .ok network ∧
    broadcastAddress wraps addr prefixLen = .ok broadcast ∧
    IsPrefixOf addr subnet network broadcast prefixLen

end SockaddrIn6

/-- The mask of the byte in which the prefix ends. -/
def partialMask (bits : Nat) : UInt8 :=
  UInt8.ofBitVec ((~~~(power (8 - bits) - 1#(8 * 4))).setWidth 8)

/-- The byte `i` of the mask of a prefix. -/
def maskByte (prefixLen i : Nat) : UInt8 :=
  if i < prefixLen / 8 then 0xff
  else if i = prefixLen / 8 then partialMask (prefixLen % 8)
  else 0

theorem createMask8_eq : ∀ bits < 8, ∀ wraps, createMask8 wraps bits = .ok (partialMask bits) := by
  decide +kernel

theorem getMsbD_partialMask : ∀ bits < 8, ∀ k < 8,
    (partialMask bits).toBitVec.getMsbD k = decide (k < bits) := by
  decide +kernel

/-- The mask has exactly the bits of the prefix. -/
theorem getMsbD_maskByte (prefixLen i : Nat) {k : Nat} (hk : k < 8) :
    (maskByte prefixLen i).toBitVec.getMsbD k = decide (8 * i + k < prefixLen) := by
  have hones : ∀ k < 8, (0xff : UInt8).toBitVec.getMsbD k = true := by decide
  have hzeros : ∀ k < 8, (0 : UInt8).toBitVec.getMsbD k = false := by decide
  have hsplit := Nat.div_add_mod prefixLen 8
  rw [maskByte]
  split
  · rw [hones k hk, eq_comm, decide_eq_true_iff]
    omega
  · split
    · next heq =>
        rw [getMsbD_partialMask _ (Nat.mod_lt _ (by decide)) k hk]
        apply decide_eq_decide.mpr
        omega
    · rw [hzeros k hk, eq_comm, decide_eq_false_iff_not]
      omega

theorem modifyByte_of_lt {b : Vector UInt8 16} {i : Nat} (h : i < 16) (f : UInt8 → UInt8) :
    modifyByte b i f = .ok (b.set i (f (b.get ⟨i, h⟩))) := by
  rw [modifyByte, dif_pos h]

theorem get_set {b : Vector UInt8 16} {i : Nat} (h : i < 16) (v : UInt8) (j : Fin 16) :
    (b.set i v).get j = if j.val = i then v else b.get j := by
  change (b.set i v)[j.val] = if j.val = i then v else b[j.val]
  rw [Vector.getElem_set]
  simp only [eq_comm]

/-- A loop of stores inside the address, by the bytes it leaves. -/
theorem fillBytes_spec (v : UInt8) {is : List Nat} (h : ∀ i ∈ is, i < 16) (b : Vector UInt8 16) :
    ∃ b', fillBytes v is b = .ok b' ∧ ∀ j, b'.get j = if j.val ∈ is then v else b.get j := by
  induction is generalizing b with
  | nil => exact ⟨b, rfl, fun j => by simp⟩
  | cons i is ih =>
      have hi : i < 16 := h i List.mem_cons_self
      obtain ⟨b', hrun, hget⟩ := ih (fun j hj => h j (List.mem_cons_of_mem _ hj)) (b.set i v)
      refine ⟨b', ?_, ?_⟩
      · rw [fillBytes, modifyByte_of_lt hi]
        exact hrun
      · intro j
        rw [hget, get_set hi]
        by_cases hj : j.val = i <;> simp [hj]

namespace SockaddrIn6

section Masks

variable {wraps : Bool} {prefixLen : Nat}

/-- The bytes in front of a prefix that ends in the byte `q`, that byte, and those behind it. -/
theorem exists_bytes (addr : SockaddrIn6) {q : Nat} (hq : q < 16) (f : UInt8 → UInt8) (v : UInt8) :
    ∃ b b', modifyByte addr.u6Addr8 q f = .ok b ∧
      fillBytes v (List.range' (q + 1) (16 - (q + 1))) b = .ok b' ∧
      ∀ i : Fin 16, b'.get i =
        if i.val < q then addr.byte i else if i.val = q then f (addr.byte i) else v := by
  have hrange : ∀ i ∈ List.range' (q + 1) (16 - (q + 1)), i < 16 := by
    intro i hi
    rw [List.mem_range'_1] at hi
    omega
  obtain ⟨b', hfill, hget⟩ :=
    fillBytes_spec v hrange (addr.u6Addr8.set q (f (addr.u6Addr8.get ⟨q, hq⟩)))
  refine ⟨_, b', modifyByte_of_lt hq f, hfill, ?_⟩
  intro i
  have hmem : i.val ∈ List.range' (q + 1) (16 - (q + 1)) ↔ q < i.val := by
    rw [List.mem_range'_1]
    omega
  rw [hget, get_set hq]
  simp only [hmem]
  rcases Nat.lt_trichotomy i.val q with hlt | heq | hgt
  · rw [if_neg (by omega), if_neg (by omega), if_pos hlt]
    rfl
  · have hbyte : addr.u6Addr8.get ⟨q, hq⟩ = addr.byte i := by
      rw [byte]
      congr 1
      exact Fin.ext heq.symm
    rw [if_neg (by omega), if_pos heq, if_neg (by omega), if_pos heq, hbyte]
  · rw [if_pos hgt, if_neg (by omega), if_neg (by omega)]

theorem networkAddress_eq (addr : SockaddrIn6) (h : prefixLen < 128) :
    ∃ network, networkAddress wraps addr prefixLen = .ok network ∧
      ∀ i, network.byte i = addr.byte i &&& maskByte prefixLen i := by
  have hmask := createMask8_eq (prefixLen % 8) (Nat.mod_lt _ (by decide)) wraps
  obtain ⟨b, b', hstore, hfill, hget⟩ :=
    exists_bytes addr (show prefixLen / 8 < 16 by omega) (· &&& partialMask (prefixLen % 8)) 0x00
  refine ⟨{ addr with u6Addr8 := b' }, ?_, ?_⟩
  · rw [networkAddress]
    exact bind_of_ok hmask (bind_of_ok hstore (bind_of_ok hfill rfl))
  · intro i
    refine (hget i).trans ?_
    rw [maskByte]
    split
    · exact (UInt8.and_neg_one).symm
    · split
      · rfl
      · exact UInt8.and_zero.symm

theorem broadcastAddress_eq (addr : SockaddrIn6) (h : prefixLen < 128) :
    ∃ broadcast, broadcastAddress wraps addr prefixLen = .ok broadcast ∧
      ∀ i, broadcast.byte i = addr.byte i ||| ~~~maskByte prefixLen i := by
  have hmask := createMask8_eq (prefixLen % 8) (Nat.mod_lt _ (by decide)) wraps
  obtain ⟨b, b', hstore, hfill, hget⟩ :=
    exists_bytes addr (show prefixLen / 8 < 16 by omega) (· ||| ~~~partialMask (prefixLen % 8))
      0xff
  refine ⟨{ addr with u6Addr8 := b' }, ?_, ?_⟩
  · rw [broadcastAddress]
    exact bind_of_ok hmask (bind_of_ok hstore (bind_of_ok hfill rfl))
  · intro i
    refine (hget i).trans ?_
    rw [maskByte]
    split
    · exact UInt8.or_zero.symm
    · split
      · rfl
      · exact UInt8.or_neg_one.symm

theorem subnetMask_eq (h : prefixLen < 128) :
    ∃ subnet, subnetMask wraps prefixLen = .ok subnet ∧
      ∀ i : Fin 16, subnet.byte i = maskByte prefixLen i := by
  have hmask := createMask8_eq (prefixLen % 8) (Nat.mod_lt _ (by decide)) wraps
  have hq : prefixLen / 8 < 16 := by omega
  have hbound : ((BitVec.ofNat 32 prefixLen).toInt.tdiv 8).toNat = prefixLen / 8 := by
    have hnat : (BitVec.ofNat 32 prefixLen).toNat = prefixLen := by
      rw [BitVec.toNat_ofNat]
      omega
    have hint : (BitVec.ofNat 32 prefixLen).toInt = prefixLen := by
      rw [BitVec.toInt_eq_toNat_of_lt (by omega), hnat]
    rw [hint]
    exact congrArg Int.toNat (Int.ofNat_tdiv prefixLen 8).symm
  have hrange : ∀ i ∈ List.range (prefixLen / 8), i < 16 := by
    intro i hi
    exact (List.mem_range.mp hi).trans hq
  obtain ⟨b', hfill, hget⟩ := fillBytes_spec 0xff hrange
    ((Vector.replicate 16 0).set (prefixLen / 8) (partialMask (prefixLen % 8)))
  refine ⟨⟨afInet6, 0, 0, b', 0⟩, ?_, ?_⟩
  · rw [subnetMask, hbound]
    exact bind_of_ok hmask (bind_of_ok (modifyByte_of_lt hq _) (bind_of_ok hfill rfl))
  · intro i
    refine (hget i).trans ?_
    simp only [maskByte, List.mem_range, get_set hq]
    split
    · rfl
    · split
      · rfl
      · exact Vector.getElem_replicate i.isLt

/-- The whole address as a prefix ends behind the last byte. -/
theorem subnetMask_whole (wraps : Bool) : subnetMask wraps 128 = .error (.outside 16) :=
  bind_of_ok (createMask8_eq 0 (by decide) wraps) rfl

end Masks

section Bits

variable {addr subnet network broadcast : SockaddrIn6} {prefixLen : Nat}

theorem isPrefixOf_of_bytes (hsubnet : ∀ i : Fin 16, subnet.byte i = maskByte prefixLen i)
    (hnetwork : ∀ i, network.byte i = addr.byte i &&& maskByte prefixLen i)
    (hbroadcast : ∀ i, broadcast.byte i = addr.byte i ||| ~~~maskByte prefixLen i) :
    IsPrefixOf addr subnet network broadcast prefixLen := by
  have hmask : ∀ j : Fin 128, (maskByte prefixLen (j.val / 8)).toBitVec.getMsbD (j.val % 8) =
      decide (j.val < prefixLen) := by
    intro j
    rw [getMsbD_maskByte _ _ (Nat.mod_lt _ (by decide)), Nat.div_add_mod]
  constructor
  · intro j
    rw [bit, hsubnet, hmask]
  · intro j
    rw [bit, hnetwork, UInt8.toBitVec_and, BitVec.getMsbD_and, hmask, bit]
    by_cases hj : j.val < prefixLen <;> simp [hj]
  · intro j
    have hlt : j.val % 8 < 8 := Nat.mod_lt _ (by decide)
    rw [bit, hbroadcast, UInt8.toBitVec_or, UInt8.toBitVec_not, BitVec.getMsbD_or,
      BitVec.getMsbD_not, hmask, bit]
    by_cases hj : j.val < prefixLen <;> simp [hj, hlt]
  · intro i
    rw [hnetwork, hsubnet]
  · intro i
    rw [hbroadcast, hsubnet]

end Bits

/-- The prefix arithmetic is that of masks if and only if the prefix is not the whole address. -/
theorem prefix_arithmetic6_iff (wraps : Bool) (addr : SockaddrIn6) (prefixLen : Nat)
    (h : prefixLen ≤ 128) : PrefixArithmetic wraps addr prefixLen ↔ prefixLen ≠ 128 := by
  constructor
  · rintro ⟨subnet, -, -, hsubnet, -⟩ rfl
    rw [subnetMask_whole] at hsubnet
    cases hsubnet
  · intro hne
    have hlt : prefixLen < 128 := by omega
    obtain ⟨subnet, hsubnet, hsubnetByte⟩ := subnetMask_eq hlt
    obtain ⟨network, hnetwork, hnetworkByte⟩ := networkAddress_eq addr hlt
    obtain ⟨broadcast, hbroadcast, hbroadcastByte⟩ := broadcastAddress_eq addr hlt
    exact ⟨subnet, network, broadcast, hsubnet, hnetwork, hbroadcast,
      isPrefixOf_of_bytes hsubnetByte hnetworkByte hbroadcastByte⟩

theorem prefix_arithmetic6_iff_61 :
    PrefixArithmetic false
      ⟨afInet6, 0, 0, #v[0x20, 1, 0xd, 0xb8, 0, 0, 0xff, 0xff, 0, 0, 0, 0, 0, 0, 0, 1], 0⟩ 61 :=
  (prefix_arithmetic6_iff false _ 61 (by decide)).mpr (by decide)

/-- For a prefix of 128 bits the byte behind the address is read and written, which is the first
one of `sin6_scope_id`. -/
theorem whole_prefix_leaves_address :
    subnetMask false 128 = .error (.outside 16) ∧
      networkAddress false ⟨afInet6, 0, 0, Vector.replicate 16 1, 0⟩ 128 =
        .error (.outside 16) ∧
      broadcastAddress false ⟨afInet6, 0, 0, Vector.replicate 16 1, 0⟩ 128 =
        .error (.outside 16) ∧
      ¬ PrefixArithmetic false ⟨afInet6, 0, 0, Vector.replicate 16 1, 0⟩ 128 := by
  have hnetwork : networkAddress false ⟨afInet6, 0, 0, Vector.replicate 16 1, 0⟩ 128 =
      .error (.outside 16) := by decide +kernel
  refine ⟨by decide +kernel, hnetwork, by decide +kernel, ?_⟩
  rintro ⟨subnet, network, broadcast, -, hreturned, -⟩
  rw [hnetwork] at hreturned
  cases hreturned

end SockaddrIn6

end Sylar.Net

import Sylar.Net.Serialize

/-!
# Prefix lengths of an `IPv4Address`

`CreateMask` computes with `int`: the shift is not defined for a count of 32, and a subtraction
that leaves the range of `int` is not defined unless the compiler lets it wrap around. The host is
little endian, so that `byteswapOnLittleEndian` is `byteswap`.
-/

namespace Sylar.Net

open Sylar.Lib Sylar.Lib.Words

/-- What the language leaves undefined in `CreateMask`. -/
inductive Undefined where
  | shiftCount
  | signedOverflow
  deriving DecidableEq, Repr

/-- The fields of `sockaddr_in`, in network byte order. -/
structure SockaddrIn where
  sinFamily : BitVec 16
  sinPort : BitVec 16
  sAddr : BitVec (8 * 4)
  deriving DecidableEq, Repr

/-- The address in host byte order. -/
def SockaddrIn.host (addr : SockaddrIn) : BitVec (8 * 4) := byteswap addr.sAddr

/-- `AF_INET`. -/
def afInet : BitVec 16 := 2

/-- `sizeof(T) * 8 - bits` for `uint32_t`, a difference in `size_t`. -/
def shiftCount (bits : Nat) : Nat := (18446744073709551616 + 32 - bits) % 18446744073709551616

/-- `1 << k`; the highest power is converted to the least `int`. -/
def power (k : Nat) : BitVec (8 * 4) := 1#(8 * 4) <<< k

/-- `CreateMask<uint32_t>`. -/
def createMask (wraps : Bool) (bits : Nat) : Except Undefined (BitVec (8 * 4)) :=
  if 32 ≤ shiftCount bits then .error .shiftCount
  else if (power (shiftCount bits)).toInt - 1 < -2147483648 ∧ !wraps then .error .signedOverflow
  else .ok (~~~(power (shiftCount bits) - 1#(8 * 4)))

section Addresses

variable (wraps : Bool) (addr : SockaddrIn) (prefixLen : Nat)

/-- `none` is `nullptr`. -/
def broadcastAddress : Except Undefined (Option SockaddrIn) :=
  if prefixLen > 32 then .ok none
  else do
    let mask ← createMask wraps prefixLen
    return some { addr with sAddr := addr.sAddr ||| ~~~byteswap mask }

def networkAddress : Except Undefined (Option SockaddrIn) :=
  if prefixLen > 32 then .ok none
  else do
    let mask ← createMask wraps prefixLen
    return some { addr with sAddr := addr.sAddr &&& byteswap mask }

def subnetMask : Except Undefined SockaddrIn := do
  let mask ← createMask wraps prefixLen
  return { sinFamily := afInet, sinPort := 0, sAddr := byteswap mask }

/-- What the three addresses are for a prefix. -/
structure IsSubnet (subnet network broadcast : SockaddrIn) : Prop where
  mask : ∀ i < 32, subnet.host.getLsbD i = decide (32 - prefixLen ≤ i)
  networkHost : network.host = addr.host &&& subnet.host
  broadcastHost : broadcast.host = addr.host ||| ~~~subnet.host
  networkKeeps : network.sinPort = addr.sinPort ∧ network.sinFamily = addr.sinFamily
  broadcastKeeps : broadcast.sinPort = addr.sinPort ∧ broadcast.sinFamily = addr.sinFamily
  between : network.host.toNat ≤ addr.host.toNat ∧ addr.host.toNat ≤ broadcast.host.toNat
  sameNetwork : ∀ other network', networkAddress wraps other prefixLen = .ok (some network') →
    (network.host = network'.host ↔
      ∀ i < 32, 32 - prefixLen ≤ i → addr.host.getLsbD i = other.host.getLsbD i)

/-- The shift is defined, and the addresses are returned. -/
def PrefixArithmetic : Prop :=
  32 - prefixLen < 32 ∧ ∃ subnet network broadcast,
    subnetMask wraps prefixLen = .ok subnet ∧
    networkAddress wraps addr prefixLen = .ok (some network) ∧
    broadcastAddress wraps addr prefixLen = .ok (some broadcast) ∧
    IsSubnet wraps addr prefixLen subnet network broadcast

end Addresses

theorem not_power_sub_one : ∀ k < 32,
    ~~~(power k - 1#(8 * 4)) = BitVec.allOnes (8 * 4) <<< k := by decide +kernel

/-- Only the highest power leaves the range of `int`. -/
theorem overflow_iff : ∀ k < 32, (power k).toInt - 1 < -2147483648 ↔ k = 31 := by decide +kernel

section Masks

variable {wraps : Bool} {addr : SockaddrIn} {prefixLen : Nat}

theorem shiftCount_eq (h : prefixLen ≤ 32) : shiftCount prefixLen = 32 - prefixLen := by
  rw [shiftCount]
  omega

theorem createMask_eq (h : prefixLen ≤ 32) (hzero : prefixLen ≠ 0)
    (hone : prefixLen = 1 → wraps = true) :
    createMask wraps prefixLen = .ok (BitVec.allOnes (8 * 4) <<< (32 - prefixLen)) := by
  have hlt : 32 - prefixLen < 32 := by omega
  have hover : ¬ ((power (32 - prefixLen)).toInt - 1 < -2147483648 ∧ (!wraps) = true) := by
    rw [overflow_iff _ hlt]
    rintro ⟨hk, hwraps⟩
    rw [hone (by omega)] at hwraps
    cases hwraps
  rw [createMask, shiftCount_eq h, if_neg (Nat.not_le.2 hlt), if_neg hover, not_power_sub_one _ hlt]

theorem createMask_one : createMask false 1 = .error .signedOverflow := by decide +kernel

theorem getLsbD_mask {i : Nat} (hi : i < 32) (k : Nat) :
    (BitVec.allOnes (8 * 4) <<< k).getLsbD i = decide (k ≤ i) := by
  have hsub : i - k < 8 * 4 := by omega
  rw [BitVec.getLsbD_shiftLeft, BitVec.getLsbD_allOnes, decide_eq_true hsub, decide_eq_true hi,
    Bool.true_and, Bool.and_true, ← decide_not]
  exact decide_eq_decide.2 Nat.not_lt

/-- Two words agree under a mask if and only if they agree on its bits. -/
theorem and_mask_eq_iff {u v : BitVec (8 * 4)} {k : Nat} :
    u &&& BitVec.allOnes (8 * 4) <<< k = v &&& BitVec.allOnes (8 * 4) <<< k ↔
      ∀ i < 32, k ≤ i → u.getLsbD i = v.getLsbD i := by
  constructor
  · intro h i hi hk
    have hbit := congrArg (fun w => BitVec.getLsbD w i) h
    simpa only [BitVec.getLsbD_and, getLsbD_mask hi, hk, decide_true, Bool.and_true] using hbit
  · intro h
    apply BitVec.eq_of_getLsbD_eq
    intro i hi
    rw [BitVec.getLsbD_and, BitVec.getLsbD_and, getLsbD_mask hi]
    by_cases hk : k ≤ i
    · rw [h i hi hk]
    · rw [decide_eq_false hk, Bool.and_false, Bool.and_false]

variable {mask : BitVec (8 * 4)}

theorem host_and (addr : SockaddrIn) (mask : BitVec (8 * 4)) :
    SockaddrIn.host { addr with sAddr := addr.sAddr &&& byteswap mask } = addr.host &&& mask := by
  rw [SockaddrIn.host, SockaddrIn.host, byteswap, byteswap, byteswap, swap_and, swap_swap]

theorem host_or (addr : SockaddrIn) (mask : BitVec (8 * 4)) :
    SockaddrIn.host { addr with sAddr := addr.sAddr ||| ~~~byteswap mask } =
      addr.host ||| ~~~mask := by
  rw [SockaddrIn.host, SockaddrIn.host, byteswap, byteswap, byteswap, swap_or, swap_not, swap_swap]

theorem subnetMask_eq (hmask : createMask wraps prefixLen = .ok mask) :
    subnetMask wraps prefixLen =
      .ok { sinFamily := afInet, sinPort := 0, sAddr := byteswap mask } := by
  rw [subnetMask, hmask]
  rfl

theorem networkAddress_eq (h : prefixLen ≤ 32) (hmask : createMask wraps prefixLen = .ok mask)
    (addr : SockaddrIn) :
    networkAddress wraps addr prefixLen =
      .ok (some { addr with sAddr := addr.sAddr &&& byteswap mask }) := by
  rw [networkAddress, if_neg (Nat.not_lt.2 h), hmask]
  rfl

theorem broadcastAddress_eq (h : prefixLen ≤ 32) (hmask : createMask wraps prefixLen = .ok mask)
    (addr : SockaddrIn) :
    broadcastAddress wraps addr prefixLen =
      .ok (some { addr with sAddr := addr.sAddr ||| ~~~byteswap mask }) := by
  rw [broadcastAddress, if_neg (Nat.not_lt.2 h), hmask]
  rfl

theorem prefixArithmetic_of_createMask (h : prefixLen ≤ 32) (hzero : prefixLen ≠ 0)
    (hmask : createMask wraps prefixLen = .ok (BitVec.allOnes (8 * 4) <<< (32 - prefixLen)))
    (addr : SockaddrIn) : PrefixArithmetic wraps addr prefixLen := by
  refine ⟨by omega, _, _, _, subnetMask_eq hmask, networkAddress_eq h hmask addr,
    broadcastAddress_eq h hmask addr, ?_⟩
  have hsubnet : SockaddrIn.host
      ⟨afInet, 0, byteswap (BitVec.allOnes (8 * 4) <<< (32 - prefixLen))⟩ =
        BitVec.allOnes (8 * 4) <<< (32 - prefixLen) := swap_swap _
  constructor
  · intro i hi
    rw [hsubnet, getLsbD_mask hi]
  · rw [hsubnet, host_and]
  · rw [hsubnet, host_or]
  · exact ⟨rfl, rfl⟩
  · exact ⟨rfl, rfl⟩
  · rw [host_and, host_or, BitVec.toNat_and, BitVec.toNat_or]
    exact ⟨Nat.and_le_left, Nat.left_le_or⟩
  · intro other network' hother
    rw [networkAddress_eq h hmask] at hother
    cases hother
    rw [host_and, host_and, and_mask_eq_iff]

end Masks

/-- The prefix arithmetic is that of masks if and only if the prefix is not empty, and a prefix
of one bit does not meet an overflow that is undefined. -/
theorem prefix_arithmetic_iff (wraps : Bool) (addr : SockaddrIn) (prefixLen : Nat)
    (h : prefixLen ≤ 32) :
    PrefixArithmetic wraps addr prefixLen ↔ prefixLen ≠ 0 ∧ (prefixLen = 1 → wraps = true) := by
  constructor
  · rintro ⟨hshift, subnet, -, -, hsubnet, -⟩
    refine ⟨by omega, ?_⟩
    rintro rfl
    cases wraps with
    | true => rfl
    | false =>
        rw [subnetMask, createMask_one] at hsubnet
        cases hsubnet
  · rintro ⟨hzero, hone⟩
    exact prefixArithmetic_of_createMask h hzero (createMask_eq h hzero hone) addr

theorem prefix_arithmetic_iff_24 :
    PrefixArithmetic false ⟨afInet, 80, byteswap 0x7050f84b#(8 * 4)⟩ 24 :=
  (prefix_arithmetic_iff false _ 24 (by decide)).2 ⟨by decide, by decide⟩

/-- For the empty prefix `1` is shifted by 32. -/
theorem empty_prefix_shifts_by_width :
    subnetMask true 0 = .error .shiftCount ∧
      ¬ PrefixArithmetic true ⟨afInet, 80, byteswap 0x7050f84b#(8 * 4)⟩ 0 := by
  refine ⟨by decide +kernel, ?_⟩
  rintro ⟨hshift, -⟩
  exact absurd hshift (by decide)

end Sylar.Net

import Sylar.Lib.Narrowing
import Sylar.Lib.Transition
import Mathlib.Algebra.GroupWithZero.Nat

/-!
# The indices of the descriptor tables

`IOManager` and `FdManager` keep vectors that are indexed with a descriptor. The
guards compare the descriptor, an `int`, with the size narrowed to `int`, and only
from above. A table that is too small grows to one and a half times the
descriptor, under a lock that was not held at the test.

An access outside of the vector and the conversion of a negative number to a size
are faults. What stands in the vectors does not matter here.
-/

namespace Sylar.Io

open Sylar.Lib

namespace TableIndex

inductive Fault where
  | outOfRange (index : Int) (size : Nat)
  | conversion (fd : Int32)
  deriving DecidableEq, Repr

/-- `(int)v.size()`. -/
def sizeInt (size : Nat) : Int32 := narrow (UInt64.ofNat size)

/-- `v[fd]`. -/
def access (fd : Int32) (size : Nat) : Except Fault Unit :=
  if 0 ≤ fd.toInt ∧ fd.toInt < size then .ok () else .error (.outOfRange fd.toInt size)

/-- `fd * 1.5` as a size. The product is exact, and cut off towards zero. -/
def scaled (fd : Int32) : Except Fault Nat :=
  if 0 ≤ fd.toInt then .ok (fd.toInt.toNat * 3 / 2) else .error (.conversion fd)

/-! ### `IOManager` -/

/-- `addEvent` under the read lock: whether it found the context. -/
def addEventLookup (fd : Int32) (size : Nat) : Except Fault Bool :=
  if sizeInt size > fd then do
    access fd size
    return true
  else return false

/-- `addEvent` under the write lock: the new size, whatever the size was. -/
def addEventResize (fd : Int32) : Except Fault Nat := do
  let size ← scaled fd
  access fd size
  return size

def addEvent (fd : Int32) (size : Nat) : Except Fault Unit := do
  if ← addEventLookup fd size then return ()
  else
    let _ ← addEventResize fd
    return ()

/-- The lookup of the other calls. -/
def lookup (fd : Int32) (size : Nat) : Except Fault Unit :=
  if sizeInt size ≤ fd then return () else access fd size

def delEvent (fd : Int32) (size : Nat) : Except Fault Unit := lookup fd size

def cancelEvent (fd : Int32) (size : Nat) : Except Fault Unit := lookup fd size

def cancelAll (fd : Int32) (size : Nat) : Except Fault Unit := lookup fd size

/-! ### `FdManager` -/

/-- `get` under the read lock: whether it is done. `occupied` says that there is a context. -/
def getLookup (fd : Int32) (autoCreate occupied : Bool) (size : Nat) : Except Fault Bool :=
  if fd = -1 then return true
  else if sizeInt size ≤ fd then return !autoCreate
  else do
    access fd size
    if occupied || !autoCreate then do
      access fd size
      return true
    else return false

/-- `get` under the write lock: the size afterwards. -/
def getStore (fd : Int32) (size : Nat) : Except Fault Nat := do
  let size ← if fd ≥ sizeInt size then scaled fd else pure size
  access fd size
  return size

/-- `get`, with the size that each of its two sections finds. -/
def get (fd : Int32) (autoCreate occupied : Bool) (size size' : Nat) : Except Fault Unit := do
  if ← getLookup fd autoCreate occupied size then return ()
  else
    let _ ← getStore fd size'
    return ()

def del (fd : Int32) (size : Nat) : Except Fault Unit := lookup fd size

/-! ### Runs -/

/-- The size of a table, and the descriptors of the calls between their two sections. -/
structure Table where
  size : Nat
  waiting : List Int32
  deriving DecidableEq, Repr

/-- A section of a call that goes on, or one that changes the size. -/
inductive Section where
  | first (fd : Int32)
  | second (fd : Int32)
  deriving DecidableEq, Repr

inductive IoStep : Table → Section → Table → Prop
  | lookup {t : Table} {fd : Int32} (h : addEventLookup fd t.size = .ok false) :
      IoStep t (.first fd) ⟨t.size, fd :: t.waiting⟩
  | resize {t : Table} {fd : Int32} {size : Nat} (hfd : fd ∈ t.waiting)
      (h : addEventResize fd = .ok size) :
      IoStep t (.second fd) ⟨size, t.waiting.erase fd⟩

inductive FdStep : Table → Section → Table → Prop
  | lookup {t : Table} {fd : Int32} {occupied : Bool}
      (h : getLookup fd true occupied t.size = .ok false) :
      FdStep t (.first fd) ⟨t.size, fd :: t.waiting⟩
  | store {t : Table} {fd : Int32} {size : Nat} (hfd : fd ∈ t.waiting)
      (h : getStore fd t.size = .ok size) :
      FdStep t (.second fd) ⟨size, t.waiting.erase fd⟩

/-- The table after the constructor of `IOManager`. -/
def ioInit : Table := ⟨32, []⟩

/-- The table after the constructor of `FdManager`. -/
def fdInit : Table := ⟨64, []⟩

variable {fd : Int32} {size size' : Nat}

/-! ### The accesses -/

theorem access_bind {α : Type} (rest : Except Fault α) :
    (access fd size >>= fun _ => rest) =
      if 0 ≤ fd.toInt ∧ fd.toInt < size then rest
      else .error (.outOfRange fd.toInt size) := by
  unfold access
  split <;> rfl

theorem access_ok_iff : (access fd size).isOk = true ↔ 0 ≤ fd.toInt ∧ fd.toInt < size := by
  unfold access
  split
  · next h => exact iff_of_true rfl h
  · next h => exact iff_of_false Bool.false_ne_true h

/-- A size of 2³¹ and more is negative as an `int`. -/
theorem toInt_sizeInt (h : size < 2 ^ 32) :
    (sizeInt size).toInt = if size < 2 ^ 31 then (size : Int) else size - 2 ^ 32 := by
  have hnat : (UInt64.ofNat size).toNat = size :=
    UInt64.toNat_ofNat_of_lt' (Nat.lt_trans h (by decide))
  rw [sizeInt, toInt_narrow, hnat, Int.bmod_def]
  split <;> omega

/-- The guards are right about a descriptor that is not negative. -/
theorem toInt_sizeInt_le (h : size < 2 ^ 32) : (sizeInt size).toInt ≤ size := by
  rw [toInt_sizeInt h]
  split <;> omega

/-- A table that grew to one and a half times the descriptor has a place for it, from 2 on. -/
theorem addEventResize_eq (fd : Int32) :
    addEventResize fd =
      if 2 ≤ fd.toInt then .ok (fd.toInt.toNat * 3 / 2)
      else if 0 ≤ fd.toInt then .error (.outOfRange fd.toInt (fd.toInt.toNat * 3 / 2))
      else .error (.conversion fd) := by
  unfold addEventResize scaled
  by_cases hfd : 0 ≤ fd.toInt
  · rw [if_pos hfd, if_pos hfd]
    change (access fd _ >>= fun _ => _) = _
    rw [access_bind]
    by_cases htwo : 2 ≤ fd.toInt
    · rw [if_pos htwo, if_pos (by omega)]
      rfl
    · rw [if_neg htwo, if_neg (by omega)]
  · rw [if_neg hfd, if_neg hfd, if_neg (by omega)]
    rfl

theorem addEventResize_ok (h : addEventResize fd = .ok size) :
    2 ≤ fd.toInt ∧ size = fd.toInt.toNat * 3 / 2 := by
  rw [addEventResize_eq] at h
  split at h
  · next htwo =>
      cases h
      exact ⟨htwo, rfl⟩
  · split at h <;> cases h

/-- The write lock of `get` does what that of `addEvent` does, if the guard finds the table too
small. -/
theorem getStore_eq (fd : Int32) (size : Nat) :
    getStore fd size =
      if sizeInt size ≤ fd then addEventResize fd
      else if 0 ≤ fd.toInt ∧ fd.toInt < size then .ok size
      else .error (.outOfRange fd.toInt size) := by
  unfold getStore
  by_cases hsmall : sizeInt size ≤ fd
  · rw [if_pos hsmall, if_pos hsmall]
    rfl
  · rw [if_neg hsmall, if_neg hsmall]
    change (access fd size >>= fun _ => _) = _
    rw [access_bind]
    rfl

/-! ### The sizes -/

/-- What every table of a run satisfies. -/
def Bounded (size : Nat) : Prop := 3 ≤ size ∧ size < 2 ^ 32

theorem Bounded.of_resize (h : addEventResize fd = .ok size) : Bounded size := by
  obtain ⟨htwo, rfl⟩ := addEventResize_ok h
  have hlt := fd.toInt_lt
  unfold Bounded
  omega

theorem IoStep.bounded {t t' : Table} {a : Section} (h : IoStep t a t') (ht : Bounded t.size) :
    Bounded t'.size := by
  cases h with
  | lookup _ => exact ht
  | resize _ h => exact .of_resize h

theorem FdStep.bounded {t t' : Table} {a : Section} (h : FdStep t a t') (ht : Bounded t.size) :
    Bounded t'.size := by
  cases h with
  | lookup _ => exact ht
  | store _ h =>
      rw [getStore_eq] at h
      split at h
      · exact .of_resize h
      · split at h
        · cases h
          exact ht
        · cases h

theorem bounded_of_io {t : Table} {as : List Section} (h : Transition.Run IoStep ioInit as t) :
    Bounded t.size :=
  h.invariant (P := fun t => Bounded t.size) (fun _ _ _ ht hs => hs.bounded ht)
    ⟨by decide, by decide⟩

theorem bounded_of_fd {t t' : Table} {as : List Section} (h : Transition.Run FdStep t as t')
    (ht : Bounded t.size) : Bounded t'.size :=
  h.invariant (P := fun t => Bounded t.size) (fun _ _ _ ht hs => hs.bounded ht) ht

/-! ### The calls -/

theorem lookup_ok_iff (h : size < 2 ^ 32) :
    (lookup fd size).isOk = true ↔ 0 ≤ fd.toInt ∨ sizeInt size ≤ fd := by
  have hle := toInt_sizeInt_le h
  unfold lookup
  by_cases hguard : sizeInt size ≤ fd
  · rw [if_pos hguard]
    exact iff_of_true rfl (.inr hguard)
  · rw [if_neg hguard, access_ok_iff, or_iff_left hguard]
    rw [Int32.le_iff_toInt_le] at hguard
    omega

/-- A descriptor that is not negative has a place, or gets one, unless the size is negative as an
`int` and the place is one of the first two. -/
def Placed (fd : Int32) (size : Nat) : Prop := 0 ≤ fd.toInt ∧ (size < 2 ^ 31 ∨ 2 ≤ fd.toInt)

theorem getStore_ok_iff (h : Bounded size) :
    (getStore fd size).isOk = true ↔ Placed fd size := by
  have hint := toInt_sizeInt h.2
  obtain ⟨hthree, hlt⟩ := h
  unfold Placed
  rw [getStore_eq, addEventResize_eq]
  by_cases hsmall : sizeInt size ≤ fd
  · rw [if_pos hsmall]
    rw [Int32.le_iff_toInt_le, hint] at hsmall
    by_cases htwo : 2 ≤ fd.toInt
    · rw [if_pos htwo]
      exact iff_of_true rfl ⟨by omega, .inr htwo⟩
    · rw [if_neg htwo]
      apply iff_of_false
      · split <;> exact Bool.false_ne_true
      · split at hsmall <;> omega
  · rw [if_neg hsmall]
    rw [Int32.le_iff_toInt_le, hint] at hsmall
    by_cases hfd : 0 ≤ fd.toInt ∧ fd.toInt < size
    · rw [if_pos hfd]
      apply iff_of_true rfl
      split at hsmall <;> omega
    · rw [if_neg hfd]
      apply iff_of_false Bool.false_ne_true
      split at hsmall <;> omega

theorem addEvent_ok_iff (h : Bounded size) : (addEvent fd size).isOk = true ↔ Placed fd size := by
  have heq : addEvent fd size = (getStore fd size).map fun _ => () := by
    rw [getStore_eq]
    unfold addEvent addEventLookup
    by_cases hsmall : sizeInt size ≤ fd
    · rw [if_pos hsmall, if_neg (Int32.not_lt.2 hsmall)]
      change (addEventResize fd >>= fun _ => _) = _
      cases addEventResize fd <;> rfl
    · rw [if_neg hsmall, if_pos (Int32.not_le.1 hsmall)]
      change ((access fd size >>= fun _ => _) >>= fun _ => _) = _
      rw [access_bind]
      split <;> rfl
  rw [heq, ← getStore_ok_iff h]
  cases getStore fd size <;> rfl

/-- A call of `get` that may create needs a place in the table that its second section finds,
unless the first one finds a context. -/
theorem get_ok_iff (h : Bounded size) (h' : Bounded size') (autoCreate occupied : Bool) :
    (get fd autoCreate occupied size size').isOk = true ↔
      fd = -1 ∨ (autoCreate = false ∧ (0 ≤ fd.toInt ∨ sizeInt size ≤ fd)) ∨
        (autoCreate = true ∧
          ((0 ≤ fd.toInt ∧ fd < sizeInt size ∧ occupied = true) ∨ Placed fd size')) := by
  have hle := toInt_sizeInt_le h.2
  have hstore : ∀ r : Except Fault Nat, (do let _ ← r; return () : Except Fault Unit).isOk = r.isOk
    | .ok _ | .error _ => rfl
  unfold get getLookup
  by_cases hminus : fd = -1
  · rw [if_pos hminus]
    exact iff_of_true rfl (.inl hminus)
  rw [if_neg hminus, or_iff_right hminus]
  by_cases hsmall : sizeInt size ≤ fd
  · rw [if_pos hsmall]
    cases autoCreate with
    | false => exact iff_of_true rfl (.inl ⟨rfl, .inr hsmall⟩)
    | true =>
        have hnot : ¬ fd < sizeInt size := Int32.not_lt.2 hsmall
        change (do let _ ← getStore fd size'; return () : Except Fault Unit).isOk = true ↔ _
        rw [hstore, getStore_ok_iff h']
        simp [hnot]
  · have hbelow : fd < sizeInt size := Int32.not_le.1 hsmall
    have hlt := Int32.lt_iff_toInt_lt.1 hbelow
    rw [if_neg hsmall, access_bind]
    by_cases hneg : 0 ≤ fd.toInt
    · rw [if_pos ⟨hneg, by omega⟩]
      cases autoCreate with
      | false =>
          apply iff_of_true _ (.inl ⟨rfl, .inl hneg⟩)
          rw [Bool.not_false, Bool.or_true, if_pos rfl, access_bind, if_pos ⟨hneg, by omega⟩]
          rfl
      | true =>
          cases occupied with
          | true =>
              apply iff_of_true _ (.inr ⟨rfl, .inl ⟨hneg, hbelow, rfl⟩⟩)
              rw [Bool.true_or, if_pos rfl, access_bind, if_pos ⟨hneg, by omega⟩]
              rfl
          | false =>
              change (do let _ ← getStore fd size'; return () : Except Fault Unit).isOk = true ↔ _
              rw [hstore, getStore_ok_iff h']
              simp
    · rw [if_neg fun hin => hneg hin.1]
      apply iff_of_false Bool.false_ne_true
      rintro (⟨-, hor⟩ | ⟨-, hin | hplaced⟩)
      · exact hor.elim hneg hsmall
      · exact hneg hin.1
      · exact hneg hplaced.1

end TableIndex

open TableIndex

/-- For every descriptor and every table of a run, which calls stay in the tables: `addEvent` and
a `get` that creates need a descriptor from 0 on, or from 2 on if the size is negative as an `int`;
the others need one from 0 on, or one that the guard rejects. -/
theorem table_indices_in_range_iff {io fds fds' : Table} {as bs cs : List Section}
    (hio : Transition.Run IoStep ioInit as io) (hfds : Transition.Run FdStep fdInit bs fds)
    (hlater : Transition.Run FdStep fds cs fds') (fd : Int32) :
    ((addEvent fd io.size).isOk = true ↔ Placed fd io.size) ∧
    ((delEvent fd io.size).isOk = true ↔ 0 ≤ fd.toInt ∨ sizeInt io.size ≤ fd) ∧
    ((cancelEvent fd io.size).isOk = true ↔ 0 ≤ fd.toInt ∨ sizeInt io.size ≤ fd) ∧
    ((cancelAll fd io.size).isOk = true ↔ 0 ≤ fd.toInt ∨ sizeInt io.size ≤ fd) ∧
    (∀ autoCreate occupied, (get fd autoCreate occupied fds.size fds'.size).isOk = true ↔
      fd = -1 ∨ (autoCreate = false ∧ (0 ≤ fd.toInt ∨ sizeInt fds.size ≤ fd)) ∨
        (autoCreate = true ∧
          ((0 ≤ fd.toInt ∧ fd < sizeInt fds.size ∧ occupied = true) ∨ Placed fd fds'.size))) ∧
    ((del fd fds.size).isOk = true ↔ 0 ≤ fd.toInt ∨ sizeInt fds.size ≤ fd) := by
  have hsize := bounded_of_io hio
  have hfirst : Bounded fds.size := bounded_of_fd hfds ⟨by decide, by decide⟩
  have hsecond : Bounded fds'.size := bounded_of_fd hlater hfirst
  exact ⟨addEvent_ok_iff hsize, lookup_ok_iff hsize.2, lookup_ok_iff hsize.2,
    lookup_ok_iff hsize.2, get_ok_iff hfirst hsecond, lookup_ok_iff hfirst.2⟩

/-- A table that two threads have resized, the second to a smaller size. -/
theorem table_indices_in_range_iff_shrunk :
    ∃ io : Table,
      Transition.Run IoStep ioInit [.first 40, .first 100, .second 100, .second 40] io ∧
      io.size = 60 ∧ (addEvent 70 io.size).isOk = true ∧ (cancelAll 70 io.size).isOk = true ∧
      (get 70 true false 64 64).isOk = true := by
  have hio : Transition.Run IoStep ioInit [.first 40, .first 100, .second 100, .second 40]
      ⟨60, []⟩ := by
    have hlarge : addEventResize 100 = .ok 150 := by decide
    have hsmall : addEventResize 40 = .ok 60 := by decide
    exact .cons (.lookup (by decide)) (.cons (.lookup (by decide))
      (.cons (.resize (by decide) hlarge) (.cons (.resize (by decide) hsmall) (.nil _))))
  obtain ⟨hadd, -, -, hall, hget, -⟩ :=
    table_indices_in_range_iff hio (.nil fdInit) (.nil fdInit) 70
  refine ⟨_, hio, rfl, hadd.2 ⟨by decide, .inl (by decide)⟩, hall.2 (.inl (by decide)), ?_⟩
  exact (hget true false).2 (.inr (.inr ⟨rfl, .inr ⟨by decide, .inl (by decide)⟩⟩))

/-- A socket that was closed is cancelled: the descriptor is -1. -/
theorem cancel_after_close_out_of_range :
    Transition.Run IoStep ioInit [] ioInit ∧
      cancelEvent (-1) ioInit.size = .error (.outOfRange (-1) 32) ∧
      cancelAll (-1) ioInit.size = .error (.outOfRange (-1) 32) ∧
      delEvent (-1) ioInit.size = .error (.outOfRange (-1) 32) ∧
      addEvent (-1) ioInit.size = .error (.outOfRange (-1) 32) ∧
      del (-1) fdInit.size = .error (.outOfRange (-1) 64) :=
  ⟨.nil _, by decide, by decide, by decide, by decide, by decide⟩

end Sylar.Io

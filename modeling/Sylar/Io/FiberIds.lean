import Mathlib.Algebra.GroupWithZero.Nat
import Sylar.Lib.Transition

/-!
# Ids of fibers

A fiber with a callback takes as its id the number of fibers there are, which a
destruction lowers again. The counter `s_fiber_id` is never used. The fibers of threads
have the id 0 and are counted too; here their number does not change.
-/

namespace Sylar.Io

open Sylar.Lib

/-- `s_fiber_count`, and the ids of the live fibers with a callback, the youngest first. -/
structure FiberCount where
  count : UInt64
  live : List UInt64
  deriving DecidableEq, Repr

namespace FiberCount

/-- Only fibers of threads are there. -/
def init (roots : UInt64) : FiberCount := ⟨roots, []⟩

/-- `Fiber::Fiber(cb, …)`. -/
def create (s : FiberCount) : FiberCount := ⟨s.count + 1, s.count :: s.live⟩

/-- `Fiber::~Fiber` of the fiber at a place. -/
def destroy (s : FiberCount) (i : Nat) : FiberCount := ⟨s.count - 1, s.live.eraseIdx i⟩

inductive Act where
  | create
  | destroy (i : Nat)
  deriving DecidableEq, Repr

def Step (s : FiberCount) : Act → FiberCount → Prop
  | .create, s' => s' = s.create
  | .destroy i, s' => i < s.live.length ∧ s' = s.destroy i

/-- The ids of the live fibers differ, and none is that of the fiber of a thread. -/
def Unique (s : FiberCount) : Prop := s.live.Nodup ∧ 0 ∉ s.live

instance (s : FiberCount) : Decidable s.Unique := by
  unfold Unique
  infer_instance

/-- A step that destroys no fiber but the youngest, and does not let the counter wrap. -/
def OrderlyStep (s : FiberCount) (a : Act) (s' : FiberCount) : Prop :=
  s.Step a s' ∧
    match a with
    | .create => s.count.toNat + 1 < 2 ^ 64
    | .destroy i => i = 0

/-- The ids count down from the counter to the fibers of threads. -/
def Stacked (roots : UInt64) : UInt64 → List UInt64 → Prop
  | count, [] => count = roots
  | count, id :: live => count.toNat = id.toNat + 1 ∧ Stacked roots id live

variable {roots count id : UInt64} {live : List UInt64} {s s' : FiberCount}

theorem Stacked.bounds (h : Stacked roots count live) (hid : id ∈ live) :
    roots.toNat ≤ id.toNat ∧ id.toNat < count.toNat := by
  have hroots : ∀ {live : List UInt64} {count}, Stacked roots count live →
      roots.toNat ≤ count.toNat := by
    intro live
    induction live with
    | nil =>
        rintro count rfl
        exact Nat.le_refl _
    | cons id live ih =>
        rintro count ⟨hcount, hrest⟩
        have := ih hrest
        omega
  induction live generalizing count with
  | nil => cases hid
  | cons top live ih =>
      obtain ⟨hcount, hrest⟩ := h
      obtain rfl | hid := List.mem_cons.mp hid
      · have := hroots hrest
        omega
      · have := ih hrest hid
        omega

theorem Stacked.nodup (h : Stacked roots count live) : live.Nodup := by
  induction live generalizing count with
  | nil => exact List.nodup_nil
  | cons id live ih =>
      refine List.nodup_cons.mpr ⟨fun hmem => ?_, ih h.2⟩
      exact absurd (h.2.bounds hmem).2 (Nat.lt_irrefl _)

/-- The youngest fiber has the id below the counter. -/
theorem Stacked.sub_one (h : Stacked roots count (id :: live)) : count - 1 = id := by
  have hlt := count.toNat_lt
  have hcount : count = id + 1 := by
    rw [← UInt64.toNat_inj, UInt64.toNat_add, UInt64.toNat_one, ← h.1, Nat.mod_eq_of_lt hlt]
  rw [hcount, UInt64.add_sub_cancel]

theorem Stacked.step {a : Act} (h : Stacked roots s.count s.live) (hstep : s.OrderlyStep a s') :
    Stacked roots s'.count s'.live := by
  obtain ⟨hstep, horder⟩ := hstep
  cases a with
  | create =>
      obtain rfl := hstep
      refine ⟨?_, h⟩
      exact (UInt64.toNat_add s.count 1).trans (Nat.mod_eq_of_lt horder)
  | destroy i =>
      obtain ⟨hlt, rfl⟩ := hstep
      obtain rfl : i = 0 := horder
      obtain ⟨count, live⟩ := s
      cases live with
      | nil => cases hlt
      | cons top live =>
          obtain ⟨hcount, hrest⟩ := h
          have htop : count - 1 = top := Stacked.sub_one ⟨hcount, hrest⟩
          simpa [destroy, htop] using hrest

/-- A fiber that is not the youngest is destroyed, and the next one that is created gets the
id of the youngest. -/
theorem Stacked.not_unique_of_destroy {i : Nat} (h : Stacked roots s.count s.live) (hi : 0 < i) :
    i < s.live.length → ¬(s.destroy i).create.Unique := by
  intro hlt hunique
  obtain ⟨count, live⟩ := s
  cases live with
  | nil => cases hlt
  | cons top live =>
      have htop : count - 1 = top := Stacked.sub_one h
      obtain ⟨j, rfl⟩ := Nat.exists_eq_add_one_of_ne_zero (Nat.pos_iff_ne_zero.mp hi)
      have hhead := (List.nodup_cons.mp hunique.1).1
      rw [destroy, List.eraseIdx_cons_succ, htop] at hhead
      exact hhead List.mem_cons_self

/-- In every run that begins with the fiber of a thread and destroys only the youngest fiber,
the ids are unique in every state. To destroy any other fiber breaks this at the next
creation. -/
theorem orderly_runs_unique {acts : List Act} (hroots : roots ≠ 0)
    (hrun : Transition.Run OrderlyStep (init roots) acts s) :
    s.Unique ∧ ∀ i, 0 < i → i < s.live.length → ¬(s.destroy i).create.Unique := by
  have hinit : Stacked roots (init roots).count (init roots).live := rfl
  have hstacked : Stacked roots s.count s.live := by
    refine hrun.invariant (P := fun t => Stacked roots t.count t.live) ?_ hinit
    intro t a t' ht hstep
    exact ht.step hstep
  refine ⟨⟨hstacked.nodup, fun hzero => ?_⟩, fun i hi => hstacked.not_unique_of_destroy hi⟩
  have hle := (hstacked.bounds hzero).1
  rw [UInt64.toNat_zero, Nat.le_zero] at hle
  exact hroots (UInt64.toNat_inj.mp hle)

/-- Two fibers are created, the second is destroyed and another one created. -/
theorem orderly_runs_unique_three :
    ∃ s, Transition.Run OrderlyStep (init 1) [.create, .create, .destroy 0, .create] s ∧
      s = ⟨3, [2, 1]⟩ ∧ s.Unique := by
  have hrun : Transition.Run OrderlyStep (init 1) [.create, .create, .destroy 0, .create]
      ⟨3, [2, 1]⟩ :=
    .cons ⟨rfl, by decide⟩ (.cons ⟨rfl, by decide⟩
      (.cons ⟨⟨by decide, rfl⟩, rfl⟩ (.cons ⟨rfl, by decide⟩ (.nil _))))
  exact ⟨_, hrun, rfl, (orderly_runs_unique (by decide) hrun).1⟩

/-- With one fiber of a thread, the older of two fibers is destroyed, and the third has the
id of the second. Without one, the first fiber has the id 0. -/
theorem ids_collide :
    (∃ s, Transition.Run Step (init 1) [.create, .create, .destroy 1, .create] s ∧
      s.live = [2, 2] ∧ ¬s.Unique) ∧
    ∃ s, Transition.Run Step (init 0) [.create] s ∧ s.live = [0] ∧ ¬s.Unique := by
  refine ⟨⟨⟨3, [2, 2]⟩, ?_, rfl, by decide⟩, ⟨⟨1, [0]⟩, ?_, rfl, by decide⟩⟩
  · exact .cons rfl (.cons rfl (.cons ⟨by decide, rfl⟩ (.cons rfl (.nil _))))
  · exact .cons rfl (.nil _)

end FiberCount

end Sylar.Io

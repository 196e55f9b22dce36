import Sylar.Lib.Transition

/-!
# `FdManager`

The contexts of the descriptors stand in a vector that grows on demand. A call of `get`
that may create looks the descriptor up under the read lock, and creates the context
under the write lock without looking again. Here both are steps, so the calls of several
threads may come in between.
-/

namespace Sylar.Io

open Sylar.Lib

/-- `FdManager`, over what stands for a context. The constructor makes 64 places. -/
structure FdManager (α : Type) where
  datas : List (Option α)
  size : 64 ≤ datas.length

namespace FdManager

variable {α : Type}

def new : FdManager α := ⟨List.replicate 64 none, Nat.le_refl 64⟩

/-- `m_datas[fd]`, and null outside of the vector. -/
def ctxAt (m : FdManager α) (fd : Nat) : Option α := m.datas[fd]?.join

/-- The part of `get` under the read lock; `none` if the call goes on to create. -/
def lookup (m : FdManager α) (fd : Nat) (autoCreate : Bool) : Option (Option α) :=
  if m.datas.length ≤ fd then
    if autoCreate = false then some none else none
  else if (m.ctxAt fd).isSome || !autoCreate then some (m.ctxAt fd)
  else none

/-- `get(fd)`. -/
def get (m : FdManager α) (fd : Nat) : Option α := (m.lookup fd false).join

/-- `m_datas.resize(fd * 1.5)` if the descriptor is outside of the vector. -/
def grow (m : FdManager α) (fd : Nat) : FdManager α :=
  if m.datas.length ≤ fd then
    ⟨m.datas ++ List.replicate (fd * 3 / 2 - m.datas.length) none,
      Nat.le_trans m.size (by rw [List.length_append]; exact Nat.le_add_right _ _)⟩
  else m

/-- The part of `get` under the write lock. -/
def store (m : FdManager α) (fd : Nat) (ctx : α) : FdManager α :=
  ⟨(m.grow fd).datas.set fd (some ctx), by rw [List.length_set]; exact (m.grow fd).size⟩

def del (m : FdManager α) (fd : Nat) : FdManager α :=
  if m.datas.length ≤ fd then m
  else ⟨m.datas.set fd none, by rw [List.length_set]; exact m.size⟩

@[simp] theorem ctxAt_new (fd : Nat) : (new : FdManager α).ctxAt fd = none := by
  rw [new, FdManager.ctxAt, List.getElem?_replicate]
  split
  · rfl
  · rfl

/-- A call goes on to create if it may and there is no context. -/
theorem lookup_eq (m : FdManager α) (fd : Nat) (autoCreate : Bool) :
    m.lookup fd autoCreate =
      if autoCreate = true ∧ m.ctxAt fd = none then none else some (m.ctxAt fd) := by
  unfold lookup
  split
  · next hout =>
      have hnone : m.ctxAt fd = none := by
        rw [FdManager.ctxAt, List.getElem?_eq_none hout]
        rfl
      cases autoCreate with
      | true => simp [hnone]
      | false => simp [hnone]
  · cases autoCreate with
    | true => cases m.ctxAt fd <;> simp
    | false => simp

@[simp] theorem get_eq (m : FdManager α) (fd : Nat) : m.get fd = m.ctxAt fd := by
  rw [get, lookup_eq, if_neg (by simp)]
  rfl

theorem ctxAt_grow (m : FdManager α) (fd i : Nat) : (m.grow fd).ctxAt i = m.ctxAt i := by
  unfold grow
  split
  · unfold FdManager.ctxAt
    dsimp only
    by_cases hi : i < m.datas.length
    · rw [List.getElem?_append_left hi]
    · rw [List.getElem?_append_right (Nat.le_of_not_lt hi), List.getElem?_replicate,
        List.getElem?_eq_none (Nat.le_of_not_lt hi)]
      split
      · rfl
      · rfl
  · rfl

/-- The vector has room for the descriptor, as `fd * 1.5` is above it. -/
theorem lt_length_grow (m : FdManager α) (fd : Nat) : fd < (m.grow fd).datas.length := by
  have hsize := m.size
  unfold grow
  split
  · rw [List.length_append, List.length_replicate]
    omega
  · omega

theorem ctxAt_store (m : FdManager α) (fd i : Nat) (ctx : α) :
    (m.store fd ctx).ctxAt i = if i = fd then some ctx else m.ctxAt i := by
  have hlt := m.lt_length_grow fd
  rw [store, FdManager.ctxAt]
  dsimp only
  split
  · next heq =>
      subst heq
      rw [List.getElem?_set_self hlt]
      rfl
  · next hne =>
      rw [List.getElem?_set_ne (Ne.symm hne)]
      exact m.ctxAt_grow fd i

theorem ctxAt_del (m : FdManager α) (fd i : Nat) :
    (m.del fd).ctxAt i = if i = fd then none else m.ctxAt i := by
  unfold del
  split
  · next hout =>
      split
      · next heq =>
          subst heq
          rw [FdManager.ctxAt, List.getElem?_eq_none hout]
          rfl
      · rfl
  · next hin =>
      unfold FdManager.ctxAt
      split
      · next heq =>
          subst heq
          rw [List.getElem?_set_self (Nat.lt_of_not_le hin)]
          rfl
      · next hne => rw [List.getElem?_set_ne (Ne.symm hne)]

end FdManager

/-- A call of `get`, by what it does next. -/
inductive GetCall where
  | entered (fd : Nat) (autoCreate : Bool)
  /-- It has found nothing and waits for the write lock. -/
  | creating (fd : Nat)
  | returned
  deriving DecidableEq, Repr

/-- What takes effect: a call returns what it found, or the context that it has stored over
what stood there, or a context is deleted. -/
inductive FdEvent where
  | found (fd : Nat) (ctx : Option Nat)
  | created (fd ctx : Nat) (replaced : Option Nat)
  | deleted (fd : Nat)
  deriving DecidableEq, Repr

/-- The manager with the calls of all threads. A context is the number of its object. -/
structure FdMachine where
  mgr : FdManager Nat
  fresh : Nat
  calls : List GetCall
  log : List FdEvent

namespace FdEvent

/-- A call for the descriptor returns the context. -/
def Returns (e : FdEvent) (fd ctx : Nat) : Prop :=
  match e with
  | .found fd' it => fd' = fd ∧ it = some ctx
  | .created fd' it _ => fd' = fd ∧ it = ctx
  | .deleted _ => False

/-- A call for the descriptor has returned the context, and nothing was deleted there since. -/
def Standing (log : List FdEvent) (fd ctx : Nat) : Prop :=
  ∃ pre e post, log = pre ++ e :: post ∧ e.Returns fd ctx ∧ .deleted fd ∉ post

/-- Two calls return the same context unless a deletion takes effect between them. -/
def OneContext (log : List FdEvent) : Prop :=
  ∀ pre e post, log = pre ++ e :: post → ∀ fd ctx ctx', e.Returns fd ctx' →
    Standing pre fd ctx → ctx = ctx'

/-- Every call that has created a context found its place empty. -/
def Unreplaced (log : List FdEvent) : Prop :=
  ∀ fd ctx old, .created fd ctx (some old) ∉ log

variable {log : List FdEvent} {e : FdEvent} {fd ctx : Nat}

theorem not_standing_nil : ¬Standing [] fd ctx := by
  rintro ⟨pre, e, post, hlog, -⟩
  exact absurd hlog (by simp)

theorem standing_concat :
    Standing (log ++ [e]) fd ctx ↔ e.Returns fd ctx ∨ (e ≠ .deleted fd ∧ Standing log fd ctx) := by
  constructor
  · rintro ⟨pre, r, post, hlog, hreturns, hpost⟩
    obtain rfl | ⟨post, last, rfl⟩ := List.eq_nil_or_concat post
    · obtain ⟨-, heq⟩ := List.append_inj' hlog rfl
      cases heq
      exact .inl hreturns
    · rw [List.concat_eq_append, ← List.cons_append, ← List.append_assoc] at hlog
      obtain ⟨hinit, heq⟩ := List.append_inj' hlog rfl
      cases heq
      rw [List.concat_eq_append, List.mem_append, not_or, List.mem_singleton] at hpost
      exact .inr ⟨Ne.symm hpost.2, pre, r, post, hinit, hreturns, hpost.1⟩
  · rintro (hreturns | ⟨hne, pre, r, post, rfl, hreturns, hpost⟩)
    · exact ⟨log, e, [], rfl, hreturns, List.not_mem_nil⟩
    · refine ⟨pre, r, post ++ [e], by simp, hreturns, ?_⟩
      rw [List.mem_append, not_or, List.mem_singleton]
      exact ⟨hpost, Ne.symm hne⟩

theorem oneContext_concat :
    OneContext (log ++ [e]) ↔
      OneContext log ∧ ∀ fd ctx ctx', e.Returns fd ctx' → Standing log fd ctx → ctx = ctx' := by
  constructor
  · intro hone
    refine ⟨?_, hone log e [] rfl⟩
    rintro pre r post rfl
    exact hone pre r (post ++ [e]) (by simp)
  · rintro ⟨hone, hlast⟩ pre r post hlog
    obtain rfl | ⟨post, last, rfl⟩ := List.eq_nil_or_concat post
    · obtain ⟨rfl, heq⟩ := List.append_inj' hlog rfl
      cases heq
      exact hlast
    · rw [List.concat_eq_append, ← List.cons_append, ← List.append_assoc] at hlog
      obtain ⟨rfl, -⟩ := List.append_inj' hlog rfl
      exact hone pre r post rfl

theorem unreplaced_concat :
    Unreplaced (log ++ [e]) ↔ Unreplaced log ∧ ∀ fd ctx old, e ≠ .created fd ctx (some old) := by
  simp only [Unreplaced, List.mem_append, List.mem_singleton, not_or, forall_and]
  exact and_congr_right fun _ => by simp only [ne_comm, ne_eq]

end FdEvent

namespace FdMachine

open FdEvent

def init : FdMachine := ⟨.new, 0, [], []⟩

/-- The next step of the call at place `i`; `none` if it has returned. -/
def next (s : FdMachine) (i : Nat) : GetCall → Option FdMachine
  | .entered fd autoCreate =>
      match s.mgr.lookup fd autoCreate with
      | some ctx =>
          some { s with calls := s.calls.set i .returned, log := s.log ++ [.found fd ctx] }
      | none => some { s with calls := s.calls.set i (.creating fd) }
  | .creating fd =>
      some
        { mgr := s.mgr.store fd s.fresh
          fresh := s.fresh + 1
          calls := s.calls.set i .returned
          log := s.log ++ [.created fd s.fresh (s.mgr.ctxAt fd)] }
  | .returned => none

inductive Act where
  | get (fd : Nat) (autoCreate : Bool)
  | advance (i : Nat)
  | del (fd : Nat)
  deriving DecidableEq, Repr

def Step (s : FdMachine) : Act → FdMachine → Prop
  | .get fd autoCreate, s' => s' = { s with calls := s.calls ++ [.entered fd autoCreate] }
  | .advance i, s' => ∃ call, s.calls[i]? = some call ∧ s.next i call = some s'
  | .del fd, s' => s' = { s with mgr := s.mgr.del fd, log := s.log ++ [.deleted fd] }

/-- What a step can do to the manager and the log. -/
inductive Effect (s : FdMachine) : FdMachine → Prop
  | none {s'} (hmgr : s'.mgr = s.mgr) (hfresh : s'.fresh = s.fresh) (hlog : s'.log = s.log) :
      Effect s s'
  | found {s'} (fd : Nat) (hmgr : s'.mgr = s.mgr) (hfresh : s'.fresh = s.fresh)
      (hlog : s'.log = s.log ++ [.found fd (s.mgr.ctxAt fd)]) : Effect s s'
  | created {s'} (fd : Nat) (hmgr : s'.mgr = s.mgr.store fd s.fresh)
      (hfresh : s'.fresh = s.fresh + 1)
      (hlog : s'.log = s.log ++ [.created fd s.fresh (s.mgr.ctxAt fd)]) : Effect s s'
  | deleted {s'} (fd : Nat) (hmgr : s'.mgr = s.mgr.del fd) (hfresh : s'.fresh = s.fresh)
      (hlog : s'.log = s.log ++ [.deleted fd]) : Effect s s'

theorem effect_of_step {s s' : FdMachine} {a : Act} (h : s.Step a s') : Effect s s' := by
  cases a with
  | get fd autoCreate =>
      obtain rfl := h
      exact .none rfl rfl rfl
  | del fd =>
      obtain rfl := h
      exact .deleted fd rfl rfl rfl
  | advance i =>
      obtain ⟨call, -, hnext⟩ := h
      cases call with
      | returned => cases hnext
      | creating fd =>
          cases hnext
          exact .created fd rfl rfl rfl
      | entered fd autoCreate =>
          rw [next, FdManager.lookup_eq] at hnext
          split at hnext
          · next ctx hlookup =>
              cases hnext
              split at hlookup
              · cases hlookup
              · cases hlookup
                exact .found fd rfl rfl rfl
          · cases hnext
            exact .none rfl rfl rfl

/-- The contexts in the manager stand in the log, as long as none was replaced they are all
that stand there, and then two calls have returned the same. -/
structure Agrees (s : FdMachine) : Prop where
  stands : ∀ fd ctx, s.mgr.ctxAt fd = some ctx → Standing s.log fd ctx
  old : ∀ fd ctx, Standing s.log fd ctx → ctx < s.fresh
  stored : Unreplaced s.log → ∀ fd ctx, Standing s.log fd ctx → s.mgr.ctxAt fd = some ctx
  one : OneContext s.log ↔ Unreplaced s.log

theorem agrees_init : init.Agrees := by
  constructor
  · intro fd ctx h
    rw [init, FdManager.ctxAt_new] at h
    cases h
  · intro fd ctx h
    exact absurd h not_standing_nil
  · intro _ fd ctx h
    exact absurd h not_standing_nil
  · refine iff_of_true ?_ ?_
    · intro pre e post h
      exact absurd h (by simp [init])
    · intro fd ctx old h
      cases h

section Step

variable {s s' : FdMachine}

theorem Agrees.found (h : s.Agrees) (fd : Nat) (hmgr : s'.mgr = s.mgr) (hfresh : s'.fresh = s.fresh)
    (hlog : s'.log = s.log ++ [.found fd (s.mgr.ctxAt fd)]) : s'.Agrees := by
  have hstanding : ∀ fd' ctx, Standing s'.log fd' ctx ↔ Standing s.log fd' ctx := by
    intro fd' ctx
    rw [hlog, standing_concat]
    constructor
    · rintro (⟨rfl, hctx⟩ | ⟨-, hold⟩)
      · exact h.stands _ _ hctx
      · exact hold
    · intro hold
      exact .inr ⟨by simp, hold⟩
  have hunreplaced : Unreplaced s'.log ↔ Unreplaced s.log := by
    rw [hlog, unreplaced_concat]
    simp
  constructor
  · intro fd' ctx hctx
    rw [hmgr] at hctx
    exact (hstanding _ _).mpr (h.stands _ _ hctx)
  · intro fd' ctx hctx
    rw [hfresh]
    exact h.old _ _ ((hstanding _ _).mp hctx)
  · intro hclean fd' ctx hctx
    rw [hmgr]
    exact h.stored (hunreplaced.mp hclean) _ _ ((hstanding _ _).mp hctx)
  · rw [hunreplaced, hlog, oneContext_concat, h.one]
    refine and_iff_left_of_imp fun hclean fd' ctx ctx' hreturns hctx => ?_
    obtain ⟨rfl, hat⟩ := hreturns
    exact Option.some.inj ((h.stored hclean _ _ hctx).symm.trans hat)

theorem Agrees.created (h : s.Agrees) (fd : Nat) (hmgr : s'.mgr = s.mgr.store fd s.fresh)
    (hfresh : s'.fresh = s.fresh + 1)
    (hlog : s'.log = s.log ++ [.created fd s.fresh (s.mgr.ctxAt fd)]) : s'.Agrees := by
  have hstanding : ∀ fd' ctx, Standing s'.log fd' ctx ↔
      (fd' = fd ∧ ctx = s.fresh) ∨ Standing s.log fd' ctx := by
    intro fd' ctx
    rw [hlog, standing_concat]
    simp [Returns, eq_comm]
  have hunreplaced : Unreplaced s'.log ↔ Unreplaced s.log ∧ s.mgr.ctxAt fd = none := by
    rw [hlog, unreplaced_concat, Option.eq_none_iff_forall_ne_some]
    refine and_congr_right fun _ => ⟨fun hne old hold => ?_, fun hne fd' ctx old heq => ?_⟩
    · exact hne fd s.fresh old (by rw [hold])
    · rw [FdEvent.created.injEq] at heq
      exact hne old heq.2.2
  constructor
  · intro fd' ctx hctx
    rw [hmgr, FdManager.ctxAt_store] at hctx
    split at hctx
    · next heq =>
        cases hctx
        exact (hstanding _ _).mpr (.inl ⟨heq, rfl⟩)
    · exact (hstanding _ _).mpr (.inr (h.stands _ _ hctx))
  · intro fd' ctx hctx
    rw [hfresh]
    obtain ⟨-, rfl⟩ | hold := (hstanding _ _).mp hctx
    · exact Nat.lt_succ_self _
    · exact Nat.lt_succ_of_lt (h.old _ _ hold)
  · intro hclean fd' ctx hctx
    obtain ⟨hclean, hempty⟩ := hunreplaced.mp hclean
    rw [hmgr, FdManager.ctxAt_store]
    obtain ⟨rfl, rfl⟩ | hold := (hstanding _ _).mp hctx
    · rw [if_pos rfl]
    · have hat := h.stored hclean _ _ hold
      rw [if_neg, hat]
      rintro rfl
      rw [hempty] at hat
      cases hat
  · rw [hunreplaced, hlog, oneContext_concat, h.one]
    refine and_congr_right fun hclean => ?_
    constructor
    · intro hsame
      rw [Option.eq_none_iff_forall_ne_some]
      intro ctx hat
      -- what stands there would be the new object
      have hstand := h.stands fd ctx hat
      have heq := hsame fd ctx s.fresh ⟨rfl, rfl⟩ hstand
      exact absurd heq (Nat.ne_of_lt (h.old _ _ hstand))
    · rintro hempty fd' ctx ctx' ⟨rfl, rfl⟩ hstand
      rw [h.stored hclean _ _ hstand] at hempty
      cases hempty

theorem Agrees.deleted (h : s.Agrees) (fd : Nat) (hmgr : s'.mgr = s.mgr.del fd)
    (hfresh : s'.fresh = s.fresh) (hlog : s'.log = s.log ++ [.deleted fd]) : s'.Agrees := by
  have hstanding : ∀ fd' ctx, Standing s'.log fd' ctx ↔ fd' ≠ fd ∧ Standing s.log fd' ctx := by
    intro fd' ctx
    rw [hlog, standing_concat]
    simp [Returns, eq_comm]
  have hunreplaced : Unreplaced s'.log ↔ Unreplaced s.log := by
    rw [hlog, unreplaced_concat]
    simp
  constructor
  · intro fd' ctx hctx
    rw [hmgr, FdManager.ctxAt_del] at hctx
    split at hctx
    · cases hctx
    · next hne => exact (hstanding _ _).mpr ⟨hne, h.stands _ _ hctx⟩
  · intro fd' ctx hctx
    rw [hfresh]
    exact h.old _ _ ((hstanding _ _).mp hctx).2
  · intro hclean fd' ctx hctx
    obtain ⟨hne, hctx⟩ := (hstanding _ _).mp hctx
    rw [hmgr, FdManager.ctxAt_del, if_neg hne]
    exact h.stored (hunreplaced.mp hclean) _ _ hctx
  · rw [hunreplaced, hlog, oneContext_concat, h.one]
    exact and_iff_left fun _ _ _ hreturns => hreturns.elim

theorem Agrees.step {a : Act} (h : s.Agrees) (hstep : s.Step a s') : s'.Agrees := by
  cases effect_of_step hstep with
  | none hmgr hfresh hlog =>
      obtain ⟨hstands, hold, hstored, hone⟩ := h
      rw [← hmgr, ← hlog] at hstands hstored
      rw [← hlog, ← hfresh] at hold
      rw [← hlog] at hone
      exact ⟨hstands, hold, hstored, hone⟩
  | found fd hmgr hfresh hlog => exact h.found fd hmgr hfresh hlog
  | created fd hmgr hfresh hlog => exact h.created fd hmgr hfresh hlog
  | deleted fd hmgr hfresh hlog => exact h.deleted fd hmgr hfresh hlog

end Step

end FdMachine

end Sylar.Io

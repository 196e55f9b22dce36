import Sylar.Io.Calls

/-!
# The event table stays consistent

Registering an event and releasing one are the two updates of the books; each
call is a sequence of them on one context with one `epoll_ctl` before.
-/

namespace Sylar.Io

open Sylar.Lib

theorem EventContext.not_registered_empty : ¬ EventContext.empty.Registered := by
  rintro ⟨h, -⟩
  cases h

namespace FdContext

/-- The context with an event added. -/
def register (e : Event) (x : EventContext) (c : FdContext) : FdContext :=
  { c with events := c.events.insert e }.setContext e x

/-- The context with an event taken out. -/
def release (e : Event) (c : FdContext) : FdContext :=
  { c with events := c.events.diff (.single e) }.setContext e .empty

@[simp]
theorem has_register (e e' : Event) (x : EventContext) (c : FdContext) :
    (c.register e x).events.has e' = (decide (e' = e) || c.events.has e') := by
  simp [register]

@[simp]
theorem has_release (e e' : Event) (c : FdContext) :
    (c.release e).events.has e' = (c.events.has e' && !decide (e' = e)) := by
  simp [release]

@[simp]
theorem getContext_register (e e' : Event) (x : EventContext) (c : FdContext) :
    (c.register e x).getContext e' = if e' = e then x else c.getContext e' := by
  simp [register]

@[simp]
theorem getContext_release (e e' : Event) (c : FdContext) :
    (c.release e).getContext e' = if e' = e then .empty else c.getContext e' := by
  simp [release]

theorem sound_new (fd : Nat) : (new fd).Sound := by
  refine ⟨fun e => ?_, fun e _ => getContext_new fd e⟩
  rw [getContext_new]
  exact iff_of_false (by simp [new]) EventContext.not_registered_empty

theorem Sound.register {c : FdContext} (h : c.Sound) {e : Event} {x : EventContext}
    (hx : x.Registered) : (c.register e x).Sound := by
  refine ⟨fun e' => ?_, fun e' he' => ?_⟩
  · by_cases he : e' = e
    · simp [he, hx]
    · simpa [he] using h.registered e'
  · simp only [has_register, Bool.or_eq_false_iff, decide_eq_false_iff_not] at he'
    simpa [he'.1] using h.cleared e' he'.2

theorem Sound.release {c : FdContext} (h : c.Sound) (e : Event) : (c.release e).Sound := by
  refine ⟨fun e' => ?_, fun e' he' => ?_⟩
  · by_cases he : e' = e
    · simp [he, EventContext.not_registered_empty]
    · simpa [he] using h.registered e'
  · by_cases he : e' = e
    · simp [he]
    · simp only [has_release, he, decide_false, Bool.not_false, Bool.and_true] at he'
      simpa [he] using h.cleared e' he'

end FdContext

namespace IOManager

variable {s s' : IOManager} {fd : Nat} {c : FdContext}

theorem context_of_lt (h : fd < s.size) : s.context fd = s.heap (s.table fd) := if_pos h

theorem context_of_le (h : s.size ≤ fd) : s.context fd = .new fd := if_neg (Nat.not_lt.2 h)

theorem lt_of_has {e : Event} (h : (s.context fd).events.has e = true) : fd < s.size := by
  by_contra hfd
  rw [context_of_le (Nat.not_lt.1 hfd)] at h
  simp [FdContext.new] at h

@[simp]
theorem mem_pairs {e : Event} :
    (fd, e) ∈ s.pairs ↔ (s.context fd).events.has e = true := by
  constructor
  · intro h
    exact (Finset.mem_filter.1 h).2
  · intro h
    refine Finset.mem_filter.2 ⟨?_, h⟩
    have hfd := lt_of_has h
    cases e <;> simpa using hfd

/-- The context of one descriptor was written. -/
structure Wrote (s : IOManager) (fd : Nat) (c : FdContext) (s' : IOManager) : Prop where
  lt : fd < s.size
  size : s'.size = s.size
  table : s'.table = s.table
  next : s'.next = s.next
  heap : s'.heap = Function.update s.heap (s.table fd) c

theorem Wrote.context (h : s.Wrote fd c s') (hl : s.Laid) :
    s'.context = Function.update s.context fd c := by
  funext fd'
  by_cases hfd : fd' = fd
  · rw [hfd, context_of_lt (h.size ▸ h.lt), h.heap, h.table]
    simp
  · rw [Function.update_of_ne hfd]
    unfold IOManager.context
    rw [h.size, h.table, h.heap]
    by_cases hlt : fd' < s.size
    · have hne : s.table fd' ≠ s.table fd := fun he => hfd (hl.table_inj _ hlt _ h.lt he)
      simp [hlt, Function.update_of_ne hne]
    · simp [hlt]

theorem Wrote.laid (h : s.Wrote fd c s') (hl : s.Laid) (hc : c.fd = fd) : s'.Laid := by
  refine ⟨h.size ▸ hl.two_le, h.size ▸ hl.size_lt, ?_, ?_, ?_⟩
  · rw [h.size, h.table, h.next]
    exact hl.table_lt
  · rw [h.size, h.table]
    exact hl.table_inj
  · intro fd' hfd'
    rw [← context_of_lt hfd', h.context hl]
    by_cases he : fd' = fd
    · rw [he, Function.update_self, hc]
    · rw [Function.update_of_ne he, context_of_lt (h.size ▸ hfd')]
      exact hl.heap_fd _ (h.size ▸ hfd')

/-- The books after a registration. -/
structure Registers (s : IOManager) (fd : Nat) (e : Event) (x : EventContext) (s' : IOManager) :
    Prop where
  wrote : s.Wrote fd ((s.context fd).register e x) s'
  pending : s'.pendingEventCount = s.pendingEventCount + 1
  registrations : s'.registrations = s.registrations + 1
  scheduled : s'.scheduled = s.scheduled
  deleted : s'.deleted = s.deleted

/-- The books after a release, by a trigger or by a deletion. -/
structure Releases (s : IOManager) (fd : Nat) (e : Event) (s' : IOManager) : Prop where
  wrote : s.Wrote fd ((s.context fd).release e) s'
  pending : s'.pendingEventCount = s.pendingEventCount - 1
  registrations : s'.registrations = s.registrations
  numbered : (∀ x ∈ s.scheduled, x.registration.isSome = true) →
    ∀ x ∈ s'.scheduled, x.registration.isSome = true
  spent : ∀ i, s.number fd e = some i → s'.spent.Perm (i :: s.spent)

theorem Registers.pairs {e : Event} {x : EventContext} (h : s.Registers fd e x s')
    (hl : s.Laid) : s'.pairs = insert (fd, e) s.pairs := by
  ext ⟨fd', e'⟩
  rw [mem_pairs, h.wrote.context hl, Finset.mem_insert, mem_pairs, Prod.mk.injEq]
  by_cases hfd : fd' = fd
  · simp [hfd]
  · simp [hfd]

theorem Releases.pairs {e : Event} (h : s.Releases fd e s') (hl : s.Laid) :
    s'.pairs = s.pairs.erase (fd, e) := by
  ext ⟨fd', e'⟩
  rw [mem_pairs, h.wrote.context hl, Finset.mem_erase, mem_pairs, Ne, Prod.mk.injEq]
  by_cases hfd : fd' = fd
  · simp [hfd, and_comm]
  · simp [hfd]

theorem Registers.booked {e : Event} {x : EventContext} (h : s.Registers fd e x s')
    (hl : s.Laid) (hb : s.Booked) (hx : x.Registered)
    (hfree : (s.context fd).events.has e = false) : s'.Booked := by
  refine ⟨?_, fun fd' => ?_, h.scheduled ▸ hb.numbered, ?_⟩
  · have hnot : (fd, e) ∉ s.pairs := by simp [hfree]
    rw [h.pending, hb.pending, h.pairs hl, Finset.card_insert_of_notMem hnot]
    simp
  · rw [h.wrote.context hl, Function.update_apply]
    split
    · exact (hb.sound fd).register hx
    · exact hb.sound fd'
  · rw [IOManager.spent, h.scheduled, h.deleted]
    exact hb.once

theorem Registers.number_self {e : Event} {x : EventContext} (h : s.Registers fd e x s')
    (hl : s.Laid) : s'.number fd e = x.registration := by
  simp [number, h.wrote.context hl]

theorem Registers.other {e : Event} {x : EventContext} (h : s.Registers fd e x s') (hl : s.Laid)
    {fd' : Nat} {e' : Event} (hne : ¬ (fd' = fd ∧ e' = e)) :
    (s'.context fd').events.has e' = (s.context fd').events.has e' ∧
      s'.number fd' e' = s.number fd' e' := by
  unfold number
  rw [h.wrote.context hl]
  by_cases hfd : fd' = fd
  · subst hfd
    have he : e' ≠ e := fun he => hne ⟨rfl, he⟩
    simp [he]
  · simp [hfd]

theorem Registers.spent {e : Event} {x : EventContext} (h : s.Registers fd e x s') :
    s'.spent = s.spent := by
  rw [IOManager.spent, IOManager.spent, h.scheduled, h.deleted]

theorem Registers.numbered {e : Event} {x : EventContext} (h : s.Registers fd e x s')
    (hl : s.Laid) (hn : s.Numbered) (hx : x.registration = some s.registrations) :
    s'.Numbered := by
  -- a number in the table is the new one at its place, or an old one
  have hold : ∀ fd' e' i, s'.number fd' e' = some i →
      (fd' = fd ∧ e' = e ∧ i = s.registrations) ∨ s.number fd' e' = some i := by
    intro fd' e' i hi
    by_cases hthis : fd' = fd ∧ e' = e
    · obtain ⟨rfl, rfl⟩ := hthis
      rw [h.number_self hl, hx] at hi
      exact .inl ⟨rfl, rfl, (Option.some.inj hi).symm⟩
    · exact .inr ((h.other hl hthis).2 ▸ hi)
  refine ⟨fun fd' e' hbit => ?_, fun fd' e' i hi => ?_, fun fd₁ e₁ fd₂ e₂ i h₁ h₂ => ?_,
    fun i hi => ?_⟩
  · by_cases hthis : fd' = fd ∧ e' = e
    · rw [hthis.1, hthis.2, h.number_self hl, hx]
      rfl
    · rw [(h.other hl hthis).1] at hbit
      rw [(h.other hl hthis).2]
      exact hn.number fd' e' hbit
  · rw [h.registrations, h.spent]
    obtain ⟨-, -, rfl⟩ | hi := hold _ _ _ hi
    · exact ⟨Nat.lt_succ_self _, fun hmem => Nat.lt_irrefl _ (hn.spent_lt _ hmem)⟩
    · exact (hn.fresh _ _ _ hi).imp_left Nat.lt_succ_of_lt
  · obtain ⟨rfl, rfl, rfl⟩ | h₁ := hold _ _ _ h₁
    · obtain ⟨rfl, rfl, -⟩ | h₂ := hold _ _ _ h₂
      · exact ⟨rfl, rfl⟩
      · exact absurd (hn.fresh _ _ _ h₂).1 (Nat.lt_irrefl _)
    · obtain ⟨-, -, rfl⟩ | h₂ := hold _ _ _ h₂
      · exact absurd (hn.fresh _ _ _ h₁).1 (Nat.lt_irrefl _)
      · exact hn.inj _ _ _ _ _ h₁ h₂
  · rw [h.spent] at hi
    rw [h.registrations]
    exact Nat.lt_succ_of_lt (hn.spent_lt i hi)

theorem Releases.number_self {e : Event} (h : s.Releases fd e s') (hl : s.Laid) :
    s'.number fd e = none := by
  simp [number, h.wrote.context hl, EventContext.empty]

theorem Releases.other {e : Event} (h : s.Releases fd e s') (hl : s.Laid) {fd' : Nat}
    {e' : Event} (hne : ¬ (fd' = fd ∧ e' = e)) :
    (s'.context fd').events.has e' = (s.context fd').events.has e' ∧
      s'.number fd' e' = s.number fd' e' := by
  unfold number
  rw [h.wrote.context hl]
  by_cases hfd : fd' = fd
  · subst hfd
    have he : e' ≠ e := fun he => hne ⟨rfl, he⟩
    simp [he]
  · simp [hfd]

theorem Releases.booked {e : Event} (h : s.Releases fd e s') (hl : s.Laid) (hb : s.Booked)
    (hn : s.Numbered) (hbit : (s.context fd).events.has e = true) : s'.Booked := by
  obtain ⟨i, hi⟩ := Option.isSome_iff_exists.1 (hn.number fd e hbit)
  refine ⟨?_, fun fd' => ?_, h.numbered hb.numbered, ?_⟩
  · have hmem : (fd, e) ∈ s.pairs := mem_pairs.2 hbit
    have hpos := Finset.card_pos.2 ⟨_, hmem⟩
    rw [h.pending, hb.pending, h.pairs hl, Finset.card_erase_of_mem hmem]
    omega
  · rw [h.wrote.context hl, Function.update_apply]
    split
    · exact (hb.sound fd).release e
    · exact hb.sound fd'
  · rw [(h.spent i hi).nodup_iff]
    exact hb.once.cons (hn.fresh fd e i hi).2

theorem Releases.numbers {e : Event} (h : s.Releases fd e s') (hl : s.Laid) (hn : s.Numbered)
    (hbit : (s.context fd).events.has e = true) : s'.Numbered := by
  obtain ⟨i, hi⟩ := Option.isSome_iff_exists.1 (hn.number fd e hbit)
  have hspent : ∀ j, j ∈ s'.spent ↔ j = i ∨ j ∈ s.spent := fun j => by
    rw [(h.spent i hi).mem_iff, List.mem_cons]
  have hold : ∀ fd' e' j, s'.number fd' e' = some j →
      ¬ (fd' = fd ∧ e' = e) ∧ s.number fd' e' = some j := by
    intro fd' e' j hj
    by_cases hthis : fd' = fd ∧ e' = e
    · rw [hthis.1, hthis.2, h.number_self hl] at hj
      cases hj
    · exact ⟨hthis, (h.other hl hthis).2 ▸ hj⟩
  refine ⟨fun fd' e' hbit' => ?_, fun fd' e' j hj => ?_, fun fd₁ e₁ fd₂ e₂ j h₁ h₂ => ?_,
    fun j hj => ?_⟩
  · by_cases hthis : fd' = fd ∧ e' = e
    · rw [hthis.1, hthis.2, h.wrote.context hl] at hbit'
      simp at hbit'
    · rw [(h.other hl hthis).1] at hbit'
      rw [(h.other hl hthis).2]
      exact hn.number fd' e' hbit'
  · obtain ⟨hne, hj⟩ := hold _ _ _ hj
    obtain ⟨hlt, hnot⟩ := hn.fresh _ _ _ hj
    refine ⟨h.registrations ▸ hlt, fun hmem => ?_⟩
    obtain rfl | hmem := (hspent j).1 hmem
    · exact hne (hn.inj _ _ _ _ _ hj hi)
    · exact hnot hmem
  · exact hn.inj _ _ _ _ _ (hold _ _ _ h₁).2 (hold _ _ _ h₂).2
  · rw [h.registrations]
    obtain rfl | hj := (hspent j).1 hj
    · exact (hn.fresh _ _ _ hi).1
    · exact hn.spent_lt j hj

/-- Everything but the kernel. -/
structure Books (s : IOManager) : Prop where
  laid : s.Laid
  booked : s.Booked
  numbered : s.Numbered

theorem Books.setKernel (h : s.Books) (kernel : Kernel) : { s with kernel := kernel }.Books :=
  ⟨⟨h.laid.two_le, h.laid.size_lt, h.laid.table_lt, h.laid.table_inj, h.laid.heap_fd⟩,
    ⟨h.booked.pending, h.booked.sound, h.booked.numbered, h.booked.once⟩,
    ⟨h.numbered.number, h.numbered.fresh, h.numbered.inj, h.numbered.spent_lt⟩⟩

theorem Books.context_fd (h : s.Books) (hfd : fd < s.size) : (s.context fd).fd = fd := by
  rw [context_of_lt hfd]
  exact h.laid.heap_fd fd hfd

theorem Registers.books {e : Event} {x : EventContext} (h : s.Registers fd e x s') (hs : s.Books)
    (hx : x.Registered) (hi : x.registration = some s.registrations)
    (hfree : (s.context fd).events.has e = false) : s'.Books := by
  refine ⟨h.wrote.laid hs.laid ?_, h.booked hs.laid hs.booked hx hfree,
    h.numbered hs.laid hs.numbered hi⟩
  rw [FdContext.register, FdContext.fd_setContext]
  exact hs.context_fd h.wrote.lt

theorem Releases.books {e : Event} (h : s.Releases fd e s') (hs : s.Books)
    (hbit : (s.context fd).events.has e = true) : s'.Books := by
  refine ⟨h.wrote.laid hs.laid ?_, h.booked hs.laid hs.booked hs.numbered hbit,
    h.numbers hs.laid hs.numbered hbit⟩
  rw [FdContext.release, FdContext.fd_setContext]
  exact hs.context_fd h.wrote.lt

/-- Some events of one descriptor were released. -/
structure Frees (s : IOManager) (fd : Nat) (m : Events) (s' : IOManager) : Prop where
  books : s'.Books
  size : s'.size = s.size
  table : s'.table = s.table
  kernel : s'.kernel = s.kernel
  events : (s'.context fd).events = (s.context fd).events.diff m
  other : ∀ fd', fd' ≠ fd → s'.context fd' = s.context fd'

theorem Frees.trans {s'' : IOManager} {m n : Events} (h : s.Frees fd m s')
    (h' : s'.Frees fd n s'') : s.Frees fd (m.union n) s'' where
  books := h'.books
  size := h'.size.trans h.size
  table := h'.table.trans h.table
  kernel := h'.kernel.trans h.kernel
  events := by
    rw [h'.events, h.events]
    apply Events.ext_has
    intro e
    simp [Bool.and_assoc]
  other fd' hne := (h'.other fd' hne).trans (h.other fd' hne)

theorem Frees.refl (hs : s.Books) (fd : Nat) : s.Frees fd .none s :=
  ⟨hs, rfl, rfl, rfl, Events.ext_has fun e => by simp, fun _ _ => rfl⟩

theorem Releases.frees {e : Event} (h : s.Releases fd e s') (hs : s.Books)
    (hbit : (s.context fd).events.has e = true) (hk : s'.kernel = s.kernel) :
    s.Frees fd (.single e) s' where
  books := h.books hs hbit
  size := h.wrote.size
  table := h.wrote.table
  kernel := hk
  events := by
    rw [h.wrote.context hs.laid, Function.update_self, FdContext.release,
      FdContext.events_setContext]
  other fd' hne := by rw [h.wrote.context hs.laid, Function.update_of_ne hne]

end IOManager

theorem EventContext.Registered.triggered {x : EventContext} (h : x.Registered) :
    x.triggered = .empty := by
  obtain ⟨scheduler, fiber, cb, registration⟩ := x
  obtain ⟨-, h⟩ := h
  cases fiber <;> cases cb <;> simp_all [EventContext.triggered, EventContext.empty]

theorem EventContext.Registered.submission {x : EventContext} (h : x.Registered) (w : Nat) :
    ∃ task, x.submission w = [⟨x.registration, w, task⟩] := by
  obtain ⟨scheduler, fiber, cb, registration⟩ := x
  obtain ⟨-, h⟩ := h
  cases fiber <;> cases cb <;> simp_all [EventContext.submission]

/-- A trigger of a registered event hands exactly its task to its scheduler. -/
theorem FdContext.Sound.triggerEvent {c : FdContext} (h : c.Sound) {e : Event}
    (hbit : c.events.has e = true) :
    ∃ w task, c.triggerEvent e =
      .ok (c.release e, [⟨(c.getContext e).registration, w, task⟩]) := by
  have hx := (h.registered e).1 hbit
  obtain ⟨w, hw⟩ := Option.isSome_iff_exists.1 hx.1
  obtain ⟨task, htask⟩ := hx.submission w
  refine ⟨w, task, ?_⟩
  simp only [FdContext.triggerEvent, hbit, if_true, hw, htask, hx.triggered, FdContext.release]

namespace IOManager

variable {s s' : IOManager} {fd : Nat} {c : FdContext}

theorem trigger_eq {p : Nat} {e : Event} {submitted : List Submission}
    (h : (s.heap p).triggerEvent e = .ok (c, submitted)) :
    s.trigger p e = .ok { s with
      heap := Function.update s.heap p c
      scheduled := s.scheduled ++ submitted
      pendingEventCount := s.pendingEventCount - 1 } := by
  rw [trigger, h]
  rfl

theorem trigger_frees {e : Event} (hs : s.Books) (hbit : (s.context fd).events.has e = true) :
    ∃ s', s.trigger (s.table fd) e = .ok s' ∧ s.Frees fd (.single e) s' := by
  have hfd := lt_of_has hbit
  obtain ⟨w, task, h⟩ := (hs.booked.sound fd).triggerEvent hbit
  obtain ⟨i, hi⟩ := Option.isSome_iff_exists.1 (hs.numbered.number fd e hbit)
  change ((s.context fd).getContext e).registration = some i at hi
  rw [context_of_lt hfd] at h hi
  refine ⟨_, trigger_eq h, Releases.frees ?_ hs hbit rfl⟩
  refine ⟨⟨hfd, rfl, rfl, rfl, by rw [context_of_lt hfd]⟩, rfl, rfl, ?_, ?_⟩
  · intro hall x hx
    obtain hx | hx := List.mem_append.1 hx
    · exact hall x hx
    · rw [List.mem_singleton.1 hx, hi]
      rfl
  · intro j hj
    rw [number, context_of_lt hfd, hi] at hj
    cases hj
    simp [spent, hi]

theorem triggerIf_frees {m : Events} {e : Event} (hs : s.Books)
    (hm : m.has e = true → (s.context fd).events.has e = true) :
    ∃ s', s.triggerIf m (s.table fd) e = .ok s' ∧ s.Frees fd (m.inter (.single e)) s' := by
  cases he : m.has e with
  | true =>
      obtain ⟨s', h, hf⟩ := trigger_frees hs (hm he)
      have hsame : m.inter (.single e) = .single e := by
        apply Events.ext_has
        intro e'
        by_cases hee : e' = e
        · simp [hee, he]
        · simp [hee]
      rw [hsame, triggerIf, if_pos he]
      exact ⟨s', h, hf⟩
  | false =>
      have hsame : m.inter (.single e) = .none := by
        apply Events.ext_has
        intro e'
        by_cases hee : e' = e
        · simp [hee, he]
        · simp [hee]
      rw [hsame, triggerIf, if_neg (by simp [he])]
      exact ⟨s, rfl, Frees.refl hs fd⟩

end IOManager

end Sylar.Io

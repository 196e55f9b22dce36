import Sylar.Io.Consistency

/-!
# Whole runs of calls on the event table

Each critical section keeps the books and leaves the kernel with the events of
the context it worked on; a run of calls therefore keeps the table consistent.
-/

namespace Sylar.Io

open Sylar.Lib

theorem epollCtl_eq_some {op : CtlOp} {fd p : Nat} {mask : Events} {fails : Bool}
    {kernel kernel' : Kernel} (h : epollCtl op fd mask p fails kernel = some kernel') :
    kernel' = Function.update kernel fd (if op = .del then none else some (mask, p)) := by
  unfold epollCtl at h
  split at h
  · cases h
  · split at h <;> cases h <;> rfl

namespace IOManager

variable {s s' : IOManager} {fd : Nat}

/-- What the kernel is told about the events that stay. -/
def watch (left : Events) (p : Nat) : Option (Events × Nat) :=
  if left = .none then none else some (left, p)

theorem epollCtl_leaveOp {left : Events} {p : Nat} {fails : Bool} {kernel kernel' : Kernel}
    (h : epollCtl (leaveOp left) fd left p fails kernel = some kernel') :
    kernel' = Function.update kernel fd (watch left p) := by
  rw [epollCtl_eq_some h, leaveOp, watch]
  by_cases hleft : left = .none <;> simp [hleft]

/-- The invariant of the runs. -/
structure Good (s : IOManager) : Prop where
  laid : s.Laid
  consistent : s.Consistent
  numbered : s.Numbered

theorem Good.books (h : s.Good) : s.Books := ⟨h.laid, h.consistent.toBooked, h.numbered⟩

/-- A lookup finds the context in the table, or the descriptor is behind its end. -/
theorem Good.lookup_cases (h : s.Good) (fd : Nat) :
    (fd < s.size ∧ s.lookup fd = some (s.table fd)) ∨ (s.size ≤ fd ∧ s.lookup fd = none) := by
  rw [lookup_of_size_lt h.laid.size_lt]
  obtain hlt | hle := Nat.lt_or_ge fd s.size
  · exact .inl ⟨hlt, if_pos hlt⟩
  · exact .inr ⟨hle, if_neg (Nat.not_lt.2 hle)⟩

theorem Books.good (fd : Nat) (h : s'.Books) (hs : s.Good)
    (htable : ∀ fd < s.size, s'.table fd = s.table fd)
    (hother : ∀ fd', fd' ≠ fd → s'.context fd' = s.context fd')
    (hkernel : s'.kernel =
      Function.update s.kernel fd (watch (s'.context fd).events (s'.table fd))) : s'.Good := by
  refine ⟨h.laid, ⟨h.booked, fun fd' => ?_⟩, h.numbered⟩
  rw [hkernel]
  by_cases hfd : fd' = fd
  · rw [hfd, Function.update_self, watch]
  · rw [Function.update_of_ne hfd, hother fd' hfd, hs.consistent.interest fd']
    by_cases hnone : (s.context fd').events = .none
    · rw [if_pos hnone, if_pos hnone]
    · -- a descriptor with an event has a slot, and slots keep their contexts
      have hlt : fd' < s.size := by
        by_contra hle
        rw [context_of_le (Nat.not_lt.1 hle)] at hnone
        exact hnone rfl
      rw [if_neg hnone, if_neg hnone, htable fd' hlt]

theorem Frees.good {m : Events} {kernel : Kernel} (hs : s.Good)
    (h : { s with kernel := kernel }.Frees fd m s')
    (hk : kernel = Function.update s.kernel fd
      (watch ((s.context fd).events.diff m) (s.table fd))) : s'.Good := by
  refine h.books.good fd hs (fun fd' _ => by rw [h.table]) h.other ?_
  rw [h.events, h.table, h.kernel]
  exact hk

theorem Unchanged.refl (s : IOManager) : s.Unchanged s :=
  ⟨fun _ => rfl, rfl, rfl, rfl, rfl⟩

/-- The slots of one table stay in the other. -/
structure Slots (s s' : IOManager) : Prop where
  size : s.size ≤ s'.size
  table : ∀ fd < s.size, s'.table fd = s.table fd

theorem Slots.refl (s : IOManager) : s.Slots s := ⟨le_rfl, fun _ _ => rfl⟩

theorem Slots.trans {s'' : IOManager} (h : s.Slots s') (h' : s'.Slots s'') : s.Slots s'' :=
  ⟨h.size.trans h'.size,
    fun fd hfd => (h'.table fd (hfd.trans_le h.size)).trans (h.table fd hfd)⟩

/-- The outcome of a section: the invariant, and nothing changed where it failed. -/
structure Outcome (s : IOManager) (r : Bool × IOManager) : Prop where
  good : r.2.Good
  slots : s.Slots r.2
  failed : r.1 = false → s.Unchanged r.2

theorem Outcome.nothing (hs : s.Good) : s.Outcome (false, s) :=
  ⟨hs, .refl s, fun _ => Unchanged.refl s⟩

theorem Frees.outcome {m : Events} {kernel : Kernel} (hs : s.Good)
    (h : { s with kernel := kernel }.Frees fd m s')
    (hk : kernel = Function.update s.kernel fd
      (watch ((s.context fd).events.diff m) (s.table fd))) : s.Outcome (true, s') :=
  ⟨h.good hs hk, ⟨h.size.ge, fun fd' _ => by rw [h.table]⟩, fun hr => by cases hr⟩

/-- What `delEvent` writes is a release that goes to no scheduler. -/
theorem releases_deleted (hfd : fd < s.size) (e : Event) (kernel : Kernel) :
    { s with kernel := kernel }.Releases fd e { s with
      kernel := kernel
      pendingEventCount := s.pendingEventCount - 1
      heap := Function.update s.heap (s.table fd) ((s.context fd).release e)
      deleted := s.deleted ++ (s.number fd e).toList } := by
  refine ⟨⟨hfd, rfl, rfl, rfl, rfl⟩, rfl, rfl, fun h => h, fun i hi => ?_⟩
  change s.number fd e = some i at hi
  rw [hi]
  change ((s.scheduled.filterMap (·.registration)) ++ (s.deleted ++ [i])).Perm (i :: s.spent)
  rw [← List.append_assoc]
  exact List.perm_append_singleton i s.spent

theorem delSection_outcome (hs : s.Good) (hfd : fd < s.size) (e : Event) (fails : Bool) :
    s.Outcome (s.delSection (s.table fd) fd e fails) := by
  unfold delSection
  rw [← context_of_lt hfd]
  dsimp only
  cases hbit : (s.context fd).events.has e with
  | false => exact .nothing hs
  | true =>
      rw [if_pos rfl]
      cases hk : epollCtl _ fd _ (s.table fd) fails s.kernel with
      | none => exact .nothing hs
      | some kernel =>
          have hf := (releases_deleted hfd e kernel).frees (hs.books.setKernel kernel) hbit rfl
          exact hf.outcome hs (epollCtl_leaveOp hk)

theorem cancelSection_outcome (hs : s.Good) (hfd : fd < s.size) (e : Event) (fails : Bool) :
    ∃ r, s.cancelSection (s.table fd) fd e fails = .ok r ∧ s.Outcome r := by
  unfold cancelSection
  rw [← context_of_lt hfd]
  dsimp only
  cases hbit : (s.context fd).events.has e with
  | false => exact ⟨_, rfl, .nothing hs⟩
  | true =>
      rw [if_pos rfl]
      cases hk : epollCtl _ fd _ (s.table fd) fails s.kernel with
      | none => exact ⟨_, rfl, .nothing hs⟩
      | some kernel =>
          obtain ⟨s', h, hf⟩ := trigger_frees (hs.books.setKernel kernel) hbit
          exact ⟨(true, s'), bind_of_ok h rfl, hf.outcome hs (epollCtl_leaveOp hk)⟩

/-- The two conditional triggers of a mask of registered events. -/
theorem triggerBoth_frees {m : Events} (fd : Nat) (hs : s.Books)
    (hm : m.Subset (s.context fd).events) :
    ∃ s₁ s₂, s.triggerIf m (s.table fd) .READ = .ok s₁ ∧
      s₁.triggerIf m (s.table fd) .WRITE = .ok s₂ ∧
      s.Frees fd (m.inter (.single .READ)) s₁ ∧ s.Frees fd m s₂ := by
  obtain ⟨s₁, h₁, hf₁⟩ := triggerIf_frees hs (hm .READ)
  have hm₁ : m.has .WRITE = true → (s₁.context fd).events.has .WRITE = true := by
    intro hw
    rw [hf₁.events]
    simp [hm .WRITE hw]
  obtain ⟨s₂, h₂, hf₂⟩ := triggerIf_frees hf₁.books hm₁
  rw [hf₁.table] at h₂
  refine ⟨s₁, s₂, h₁, h₂, hf₁, ?_⟩
  have hsame : (m.inter (.single .READ)).union (m.inter (.single .WRITE)) = m := by
    apply Events.ext_has
    intro e
    cases e <;> simp
  exact hsame ▸ hf₁.trans hf₂

theorem Frees.heap_events {m : Events} (h : s.Frees fd m s') (hfd : fd < s.size) :
    (s'.heap (s.table fd)).events = (s.context fd).events.diff m := by
  rw [← h.events, context_of_lt (h.size ▸ hfd), h.table]

theorem cancelAllSection_outcome (hs : s.Good) (hfd : fd < s.size) (fails : Bool) :
    ∃ r, s.cancelAllSection (s.table fd) fd fails = .ok r ∧ s.Outcome r := by
  unfold cancelAllSection
  rw [← context_of_lt hfd]
  by_cases hnone : (s.context fd).events = .none
  · rw [if_pos hnone]
    exact ⟨_, rfl, .nothing hs⟩
  rw [if_neg hnone]
  cases hk : epollCtl .del fd .none (s.table fd) fails s.kernel with
  | none => exact ⟨_, rfl, .nothing hs⟩
  | some kernel =>
      have hdiff : (s.context fd).events.diff (s.context fd).events = .none :=
        Events.eq_none_iff.2 fun e => by simp
      obtain ⟨s₁, s₂, h₁, h₂, hf₁, hf₂⟩ :=
        triggerBoth_frees fd (hs.books.setKernel kernel) fun e he => he
      -- the second test reads the events that the first trigger left
      have hw : (s₁.heap (s.table fd)).events.has .WRITE = (s.context fd).events.has .WRITE := by
        rw [hf₁.heap_events hfd]
        change ((s.context fd).events.diff _).has .WRITE = _
        simp
      have h₂' : s₁.triggerIf (s₁.heap (s.table fd)).events (s.table fd) .WRITE = .ok s₂ := by
        unfold triggerIf at h₂ ⊢
        rw [hw]
        exact h₂
      have hend : (s₂.heap (s.table fd)).events = .none := (hf₂.heap_events hfd).trans hdiff
      refine ⟨(true, s₂), ?_, hf₂.outcome hs ?_⟩
      · dsimp only
        rw [← context_of_lt hfd]
        exact bind_of_ok h₁ (bind_of_ok h₂' (if_pos hend))
      · rw [epollCtl_eq_some hk]
        change _ = Function.update s.kernel fd
          (watch ((s.context fd).events.diff (s.context fd).events) (s.table fd))
        rw [hdiff]
        rfl

/-- A dispatch is safe where every event it takes as reported is registered. -/
theorem dispatchSection_outcome (hs : s.Good) (hfd : fd < s.size) {reported : Events}
    {errorOrHangup : Bool} (fails : Bool)
    (hreal : (realEvents reported errorOrHangup (s.context fd).events).Subset
      (s.context fd).events) :
    ∃ r, s.dispatchSection (s.table fd) reported errorOrHangup fails = .ok r ∧ s.Outcome r := by
  unfold dispatchSection
  rw [← context_of_lt hfd]
  dsimp only
  rw [hs.books.context_fd hfd]
  generalize realEvents reported errorOrHangup (s.context fd).events = real at hreal ⊢
  by_cases hnone : (s.context fd).events.inter real = .none
  · rw [if_pos hnone]
    exact ⟨_, rfl, .nothing hs⟩
  rw [if_neg hnone]
  cases hk : epollCtl _ fd _ (s.table fd) fails s.kernel with
  | none => exact ⟨_, rfl, .nothing hs⟩
  | some kernel =>
      obtain ⟨s₁, s₂, h₁, h₂, -, hf₂⟩ :=
        triggerBoth_frees fd (hs.books.setKernel kernel) hreal
      exact ⟨(true, s₂), bind_of_ok h₁ (bind_of_ok h₂ rfl),
        hf₂.outcome hs (epollCtl_leaveOp hk)⟩

theorem realEvents_subset {reported registered : Events} (h : reported.Subset registered)
    (errorOrHangup : Bool) :
    (realEvents reported errorOrHangup registered).Subset registered := by
  intro e he
  cases errorOrHangup with
  | false => exact h e he
  | true =>
      simp only [realEvents, if_true, Events.has_union, Bool.or_eq_true] at he
      exact he.elim (h e) id

theorem Registers.good {e : Event} {x : EventContext} (kernel : Kernel) (hs : s.Good)
    (h : { s with kernel := kernel }.Registers fd e x s') (hx : x.Registered)
    (hi : x.registration = some s.registrations)
    (hfree : (s.context fd).events.has e = false) (hk' : s'.kernel = kernel)
    (hk : kernel = Function.update s.kernel fd
      (some ((s.context fd).events.insert e, s.table fd))) : s'.Good := by
  have hbooks := h.books (hs.books.setKernel kernel) hx hi hfree
  have hctx := h.wrote.context (hs.books.setKernel kernel).laid
  refine hbooks.good fd hs (fun _ _ => by rw [h.wrote.table]) (fun fd' hne => ?_) ?_
  · rw [hctx, Function.update_of_ne hne]
    rfl
  · rw [hctx, Function.update_self, h.wrote.table, hk', hk, FdContext.register,
      FdContext.events_setContext]
    exact congrArg _ (if_neg (Events.insert_ne_none _ e)).symm

theorem addSection_outcome (hs : s.Good) (hfd : fd < s.size) (caller : Caller) {e : Event}
    (cb : Option Nat) (fails : Bool) (hfree : (s.context fd).events.has e = false) :
    s.addSection caller (s.table fd) fd e cb fails = .ok (-1, s) ∨
      ∃ s', s.addSection caller (s.table fd) fd e cb fails = .ok (0, s') ∧ s'.Good ∧
        s.Slots s' := by
  unfold addSection
  rw [← context_of_lt hfd]
  dsimp only
  rw [if_neg (by simp [hfree])]
  cases hk : epollCtl _ fd _ (s.table fd) fails s.kernel with
  | none => exact .inl rfl
  | some kernel =>
      dsimp only
      rw [(hs.consistent.sound fd).cleared e hfree, if_neg (by simp [EventContext.empty])]
      have hx : EventContext.Registered ⟨some caller.scheduler,
          if cb.isSome then none else some caller.fiber, cb, some s.registrations⟩ := by
        refine ⟨rfl, ?_⟩
        cases cb <;> simp
      refine .inr ⟨_, rfl, Registers.good kernel hs
        ⟨⟨hfd, rfl, rfl, rfl, rfl⟩, rfl, rfl, rfl, rfl⟩ hx rfl hfree rfl ?_,
        ⟨le_rfl, fun _ _ => rfl⟩⟩
      rw [epollCtl_eq_some hk, if_neg (by split <;> simp)]

theorem contextResize_context (hl : s.Laid) {n : Nat} (hn : s.size ≤ n) :
    (s.contextResize n).context = s.context := by
  funext fd
  by_cases hfd : fd < s.size
  · have hp : ¬ s.next ≤ s.table fd := Nat.not_le.2 (hl.table_lt fd hfd)
    rw [context_of_lt hfd, context_of_lt (Nat.lt_of_lt_of_le hfd hn)]
    simp [contextResize, hfd, hp]
  · rw [context_of_le (Nat.not_lt.1 hfd)]
    by_cases hnew : fd < n
    · have hsum : s.size + (fd - s.size) = fd := by omega
      rw [context_of_lt hnew]
      simp [contextResize, hfd, hsum]
    · exact context_of_le (Nat.not_lt.1 hnew)

theorem contextResize_laid (hl : s.Laid) {n : Nat} (hn : s.size ≤ n) (hlt : n < 2 ^ 31) :
    (s.contextResize n).Laid := by
  refine ⟨hl.two_le.trans hn, hlt, fun fd hfd => ?_, fun fd hfd fd' hfd' he => ?_,
    fun fd hfd => ?_⟩
  · change fd < n at hfd
    by_cases hold : fd < s.size
    · have := hl.table_lt fd hold
      simp only [contextResize, hold, if_true]
      omega
    · simp only [contextResize, hold, if_false]
      omega
  · -- old addresses are below the new ones
    by_cases hold : fd < s.size <;> by_cases hold' : fd' < s.size
    · simp only [contextResize, hold, hold', if_true] at he
      exact hl.table_inj fd hold fd' hold' he
    · have := hl.table_lt fd hold
      simp only [contextResize, hold, hold', if_true, if_false] at he
      omega
    · have := hl.table_lt fd' hold'
      simp only [contextResize, hold, hold', if_true, if_false] at he
      omega
    · simp only [contextResize, hold, hold', if_false] at he
      omega
  · rw [← context_of_lt hfd, contextResize_context hl hn]
    by_cases hold : fd < s.size
    · rw [context_of_lt hold]
      exact hl.heap_fd fd hold
    · rw [context_of_le (Nat.not_lt.1 hold)]
      rfl

theorem Unchanged.pairs (h : s.Unchanged s') : s'.pairs = s.pairs := by
  ext ⟨fd, e⟩
  rw [mem_pairs, mem_pairs, h.context]

/-- Growing the table changes nothing that a call can see. -/
theorem contextResize_good (hs : s.Good) {n : Nat} (hn : s.size ≤ n) (hlt : n < 2 ^ 31) :
    (s.contextResize n).Good ∧ s.Unchanged (s.contextResize n) := by
  have hctx := contextResize_context hs.laid hn
  have hsame : s.Unchanged (s.contextResize n) := ⟨congrFun hctx, rfl, rfl, rfl, rfl⟩
  have hb := hs.consistent.toBooked
  have hbooked : (s.contextResize n).Booked :=
    ⟨hsame.pairs ▸ hb.pending, hctx ▸ hb.sound, hb.numbered, hb.once⟩
  have hnumber : (s.contextResize n).number = s.number := by
    funext fd e
    simp only [number, hctx]
  have hnumbered : (s.contextResize n).Numbered := by
    refine ⟨?_, ?_, ?_, hs.numbered.spent_lt⟩
    · rw [hctx, hnumber]
      exact hs.numbered.number
    · rw [hnumber]
      exact hs.numbered.fresh
    · rw [hnumber]
      exact hs.numbered.inj
  refine ⟨⟨contextResize_laid hs.laid hn hlt, ⟨hbooked, fun fd => ?_⟩, hnumbered⟩, hsame⟩
  rw [hctx]
  change s.kernel fd = _
  rw [hs.consistent.interest fd]
  by_cases hfd : fd < s.size
  · simp [contextResize, hfd]
  · rw [context_of_le (Nat.not_lt.1 hfd)]
    rfl

theorem resize_outcome (hs : s.Good) (hle : s.size ≤ fd) (hfd : fd ≤ 1431655765) :
    ∃ s', s.resize fd = .ok (s'.table fd, s') ∧ fd < s'.size ∧ s'.Good ∧ s.Slots s' ∧
      s.Unchanged s' := by
  have htwo := hs.laid.two_le
  have hlt : fd < fd * 3 / 2 := by omega
  have hrange : fd * 3 / 2 < 2 ^ 31 := by omega
  obtain ⟨hgood, hsame⟩ := contextResize_good hs (hle.trans hlt.le) hrange
  refine ⟨s.contextResize (fd * 3 / 2), ?_, hlt, hgood, ⟨hle.trans hlt.le, fun fd' hfd' => ?_⟩,
    hsame⟩
  · unfold resize
    exact if_pos hlt
  · exact if_pos hfd'

theorem fetch_outcome (hs : s.Good) (hfd : fd < s.size ∨ fd ≤ 1431655765) :
    ∃ s', s.fetch fd = .ok (s'.table fd, s') ∧ fd < s'.size ∧ s'.Good ∧ s.Slots s' ∧
      s.Unchanged s' := by
  obtain ⟨hlt, hl⟩ | ⟨hle, hl⟩ := hs.lookup_cases fd
  · exact ⟨s, by rw [fetch, hl], hlt, hs, .refl s, Unchanged.refl s⟩
  · rw [fetch, hl]
    exact resize_outcome hs hle (hfd.resolve_left (Nat.not_lt.2 hle))

theorem addEvent_outcome (hs : s.Good) (caller : Caller) {e : Event} (cb : Option Nat)
    (fails : Bool) (hfree : (s.context fd).events.has e = false)
    (hfd : fd < s.size ∨ fd ≤ 1431655765) :
    ∃ r s', s.addEvent caller fd e cb fails = .ok (r, s') ∧ s'.Good ∧ s.Slots s' ∧
      (r = 0 ∨ s.Unchanged s') := by
  obtain ⟨s₁, h₁, hlt₁, hgood₁, hslots, hsame⟩ := fetch_outcome hs hfd
  have hfree₁ : (s₁.context fd).events.has e = false := by
    rw [hsame.context]
    exact hfree
  obtain h | ⟨s', h, hgood, hslots'⟩ := addSection_outcome hgood₁ hlt₁ caller cb fails hfree₁
  · exact ⟨-1, s₁, bind_of_ok h₁ h, hgood₁, hslots, .inr hsame⟩
  · exact ⟨0, s', bind_of_ok h₁ h, hgood, hslots.trans hslots', .inl rfl⟩

/-- A call that looks a descriptor up fails, or works on its context. -/
theorem delEvent_outcome (hs : s.Good) (fd : Nat) (e : Event) (fails : Bool) :
    s.Outcome (s.delEvent fd e fails) := by
  obtain ⟨hlt, hl⟩ | ⟨-, hl⟩ := hs.lookup_cases fd
  · rw [delEvent, hl]
    exact delSection_outcome hs hlt e fails
  · rw [delEvent, hl]
    exact .nothing hs

theorem cancelEvent_outcome (hs : s.Good) (fd : Nat) (e : Event) (fails : Bool) :
    ∃ r, s.cancelEvent fd e fails = .ok r ∧ s.Outcome r := by
  obtain ⟨hlt, hl⟩ | ⟨-, hl⟩ := hs.lookup_cases fd
  · rw [cancelEvent, hl]
    exact cancelSection_outcome hs hlt e fails
  · rw [cancelEvent, hl]
    exact ⟨_, rfl, .nothing hs⟩

theorem cancelAll_outcome (hs : s.Good) (fd : Nat) (fails : Bool) :
    ∃ r, s.cancelAll fd fails = .ok r ∧ s.Outcome r := by
  obtain ⟨hlt, hl⟩ | ⟨-, hl⟩ := hs.lookup_cases fd
  · rw [cancelAll, hl]
    exact cancelAllSection_outcome hs hlt fails
  · rw [cancelAll, hl]
    exact ⟨_, rfl, .nothing hs⟩

/-- The kernel watches a descriptor with the address of its context. -/
theorem Good.watched (hs : s.Good) (h : (s.kernel fd).isSome = true) :
    fd < s.size ∧ s.kernel fd = some ((s.context fd).events, s.table fd) := by
  rw [hs.consistent.interest fd] at h ⊢
  by_cases hnone : (s.context fd).events = .none
  · rw [if_pos hnone] at h
    cases h
  · refine ⟨?_, if_neg hnone⟩
    by_contra hle
    rw [context_of_le (Nat.not_lt.1 hle)] at hnone
    exact hnone rfl

theorem dispatch_outcome (hs : s.Good) {reported : Events} (errorOrHangup fails : Bool)
    (hwatched : (s.kernel fd).isSome = true)
    (hreported : reported.Subset (s.context fd).events) :
    ∃ r, s.dispatch fd reported errorOrHangup fails = .ok r ∧ s.Outcome r := by
  obtain ⟨hlt, hk⟩ := hs.watched hwatched
  rw [dispatch, hk]
  exact dispatchSection_outcome hs hlt fails (realEvents_subset hreported errorOrHangup)

theorem init_context : init.context = FdContext.new := by
  funext fd
  by_cases hfd : fd < 32
  · rw [context_of_lt hfd]
    simp [init, contextResize]
  · exact context_of_le (Nat.not_lt.1 hfd)

theorem init_good : init.Good := by
  have hpairs : init.pairs = ∅ := by
    ext ⟨fd, e⟩
    rw [mem_pairs, init_context]
    simp [FdContext.new]
  have hnumber : ∀ fd e, init.number fd e = none := by
    intro fd e
    rw [number, init_context, FdContext.getContext_new]
    rfl
  refine ⟨⟨by decide, by decide, fun fd hfd => ?_, fun fd _ fd' _ he => ?_, fun fd _ => ?_⟩,
    ⟨⟨by rw [hpairs]; rfl, fun fd => ?_, by rintro _ ⟨⟩, .nil⟩, fun fd => ?_⟩,
    ⟨fun fd e h => ?_, fun fd e i h => ?_, fun fd e _ _ i h => ?_, by rintro _ ⟨⟩⟩⟩
  · change fd < 32 at hfd
    simpa [init, contextResize] using hfd
  · simpa [init, contextResize] using he
  · simp [init, contextResize, FdContext.new]
  · rw [init_context]
    exact FdContext.sound_new fd
  · rw [init_context]
    rfl
  · rw [init_context] at h
    simp [FdContext.new] at h
  · rw [hnumber] at h
    cases h
  · rw [hnumber] at h
    cases h

end IOManager

namespace Call

theorem outcome {s : IOManager} (hs : s.Good) {c : Call} (hc : c.Admissible s)
    (hrange : c.InRange s) : ∃ r, c.run s = .ok r ∧ s.Outcome r := by
  cases c with
  | addEvent caller fd e cb fails =>
      obtain ⟨r, s', h, hgood, hslots, hr⟩ :=
        IOManager.addEvent_outcome hs caller cb fails hc hrange
      refine ⟨(decide (r = 0), s'), by rw [run, h]; rfl, hgood, hslots, fun hfail => ?_⟩
      exact hr.resolve_left (of_decide_eq_false hfail)
  | delEvent fd e fails => exact ⟨_, rfl, IOManager.delEvent_outcome hs fd e fails⟩
  | cancelEvent fd e fails => exact IOManager.cancelEvent_outcome hs fd e fails
  | cancelAll fd fails => exact IOManager.cancelAll_outcome hs fd fails
  | dispatch fd reported errorOrHangup fails =>
      exact IOManager.dispatch_outcome hs errorOrHangup fails hc.1 hc.2

/-- A step of a run whose descriptors are in range. -/
def RangedStep (s : IOManager) (c : Call) (s' : IOManager) : Prop :=
  c.InRange s ∧ Call.Step s c s'

theorem RangedStep.outcome {s s' : IOManager} {c : Call} (hs : s.Good) (h : RangedStep s c s') :
    s'.Good ∧ s.Slots s' := by
  obtain ⟨hrange, hc, r, hr⟩ := h
  obtain ⟨r', hr', hgood, hslots, -⟩ := Call.outcome hs hc hrange
  rw [hr] at hr'
  cases hr'
  exact ⟨hgood, hslots⟩

/-- The states that calls reach from the constructor keep the invariant. -/
theorem good_of_run {calls : List Call} {s : IOManager}
    (h : Transition.Run RangedStep IOManager.init calls s) : s.Good :=
  h.invariant (fun _ _ _ hs hstep => (hstep.outcome hs).1) IOManager.init_good

end Call

/-- In every state that calls reach from the constructor, the table is consistent, and
every call that may be made returns, leaves it consistent and, if it reports failure,
unchanged. -/
theorem calls_keep_consistent (calls : List Call) (s : IOManager)
    (h : Transition.Run Call.RangedStep IOManager.init calls s) :
    (s.Consistent ∧ s.Numbered) ∧ ∀ c : Call, c.Admissible s → c.InRange s →
      ∃ r s', c.run s = .ok (r, s') ∧ (s'.Consistent ∧ s'.Numbered) ∧
        (r = false → s.Unchanged s') := by
  have hs := Call.good_of_run h
  refine ⟨⟨hs.consistent, hs.numbered⟩, fun c hc hrange => ?_⟩
  obtain ⟨⟨r, s'⟩, hr, hgood, -, hfail⟩ := Call.outcome hs hc hrange
  exact ⟨r, s', hr, ⟨hgood.consistent, hgood.numbered⟩, hfail⟩

/-- The table grows for descriptor 40, and its event is triggered by a cancellation. -/
theorem calls_keep_consistent_grown :
    ∃ s, Transition.Run Call.RangedStep IOManager.init
        [.addEvent ⟨1, 7⟩ 40 .READ none false, .addEvent ⟨1, 7⟩ 3 .WRITE (some 9) true,
          .cancelEvent 40 .READ false] s ∧
      s.size = 60 ∧ s.scheduled = [⟨some 0, 1, .fiber 7⟩] ∧ s.Consistent := by
  obtain ⟨s, h, hsize, hscheduled⟩ : ∃ s, Transition.Run Call.RangedStep IOManager.init
        [.addEvent ⟨1, 7⟩ 40 .READ none false, .addEvent ⟨1, 7⟩ 3 .WRITE (some 9) true,
          .cancelEvent 40 .READ false] s ∧
      s.size = 60 ∧ s.scheduled = [⟨some 0, 1, .fiber 7⟩] :=
    ⟨_, .cons ⟨.inr (by decide), rfl, true, rfl⟩ (.cons ⟨.inr (by decide), rfl, false, rfl⟩
      (.cons ⟨trivial, trivial, true, rfl⟩ (.nil _))), rfl, rfl⟩
  exact ⟨s, h, hsize, hscheduled, (calls_keep_consistent _ s h).1.1⟩

/-- A failed call for a huge descriptor makes the size negative as an `int`; the next call
shrinks the table, and the context of descriptor 40 is lost with its registration. -/
theorem calls_lose_context :
    ∃ s, Transition.Run Call.Step IOManager.init
        [.addEvent ⟨1, 7⟩ 40 .READ none false, .addEvent ⟨1, 7⟩ 1500000000 .READ none true,
          .addEvent ⟨1, 7⟩ 3 .READ none false] s ∧
      s.size = 4 ∧ s.pendingEventCount = 2 ∧ s.pairs.card = 1 ∧
      (s.kernel 40).isSome = true ∧ ¬ s.Consistent := by
  refine ⟨_, .cons ⟨rfl, true, rfl⟩ (.cons ⟨rfl, false, rfl⟩ (.cons ⟨rfl, true, rfl⟩ (.nil _))),
    rfl, rfl, by decide +kernel, rfl, fun h => ?_⟩
  have hcount := h.pending
  revert hcount
  decide +kernel

end Sylar.Io

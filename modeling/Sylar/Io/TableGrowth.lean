import Sylar.Io.Calls

/-!
# Growing the table between threads

A thread runs a call as separate critical sections, and other threads run theirs
in between: the lookup under the read lock, for `addEvent` on a small table the
resize under the write lock, and the section under the mutex of the context, whose
address the thread carries over. The resize does not test the size again, so it
shrinks a table that another thread has made larger meanwhile.
-/

namespace Sylar.Io

open Sylar.Lib

/-- A call as a thread makes it. -/
inductive Request where
  | addEvent (caller : Caller) (fd : Nat) (e : Event) (cb : Option Nat)
  | delEvent (fd : Nat) (e : Event)
  | cancelEvent (fd : Nat) (e : Event)
  | cancelAll (fd : Nat)
  deriving DecidableEq, Repr

namespace Request

def fd : Request → Nat
  | addEvent _ fd _ _ => fd
  | delEvent fd _ => fd
  | cancelEvent fd _ => fd
  | cancelAll fd => fd

/-- The section under the mutex of the context at `p`. -/
def work (p : Nat) (fails : Bool) (s : IOManager) : Request → Except Stop IOManager
  | addEvent caller fd e cb => (s.addSection caller p fd e cb fails).map Prod.snd
  | delEvent fd e => .ok (s.delSection p fd e fails).2
  | cancelEvent fd e => (s.cancelSection p fd e fails).map Prod.snd
  | cancelAll fd => (s.cancelAllSection p fd fails).map Prod.snd

end Request

/-- Where a thread stands. -/
inductive Thread where
  | idle
  | resizing (r : Request)
  | fetched (r : Request) (p : Nat)
  deriving DecidableEq, Repr

/-- The table and the threads that work on it. -/
structure Pool where
  io : IOManager
  threads : Nat → Thread

inductive Action where
  | lookup (t : Nat) (r : Request)
  | resize (t : Nat)
  | work (t : Nat) (fails : Bool)
  | dispatch (p : Nat) (reported : Events) (errorOrHangup fails : Bool)
  deriving DecidableEq, Repr

namespace Pool

def init : Pool := ⟨.init, fun _ => .idle⟩

/-- A thread after its lookup: only `addEvent` goes on where there is no context. -/
def afterLookup (r : Request) : Option Nat → Thread
  | some p => .fetched r p
  | none =>
      match r with
      | .addEvent .. => .resizing r
      | _ => .idle

/-- One critical section. -/
inductive Step : Pool → Action → Pool → Prop
  | lookup {s : Pool} {t : Nat} (r : Request) (h : s.threads t = .idle) :
      Step s (.lookup t r)
        ⟨s.io, Function.update s.threads t (afterLookup r (s.io.lookup r.fd))⟩
  | resize {s : Pool} {t p : Nat} {r : Request} {io : IOManager}
      (h : s.threads t = .resizing r) (hr : s.io.resize r.fd = .ok (p, io)) :
      Step s (.resize t) ⟨io, Function.update s.threads t (.fetched r p)⟩
  | work {s : Pool} {t p : Nat} {r : Request} {io : IOManager} {fails : Bool}
      (h : s.threads t = .fetched r p) (hr : r.work p fails s.io = .ok io) :
      Step s (.work t fails) ⟨io, Function.update s.threads t .idle⟩
  | dispatch {s : Pool} {p : Nat} {reported : Events} {errorOrHangup fails r : Bool}
      {io : IOManager} (hr : s.io.dispatchSection p reported errorOrHangup fails = .ok (r, io)) :
      Step s (.dispatch p reported errorOrHangup fails) ⟨io, s.threads⟩

/-- A resize finds a table that is not larger than the one it makes, and makes one that can
be addressed. -/
def Grows (s : Pool) : Action → Prop
  | .resize t =>
      ∀ r, s.threads t = .resizing r → s.io.size ≤ r.fd * 3 / 2 ∧ r.fd ≤ 1431655765
  | _ => True

def GrowingStep (s : Pool) (a : Action) (s' : Pool) : Prop := s.Grows a ∧ Step s a s'

end Pool

namespace IOManager

/-- The context at `p` keeps the registration with number `i`, and whom to wake. -/
def Holds (s : IOManager) (p : Nat) (e : Event) (i : Nat) : Prop :=
  (s.heap p).events.has e = true ∧ ((s.heap p).getContext e).registration = some i ∧
    (((s.heap p).getContext e).fiber.isSome = true ∨ ((s.heap p).getContext e).cb.isSome = true)

/-- A call on the descriptor finds the registration with number `i`. -/
def Stands (s : IOManager) (fd : Nat) (e : Event) (i : Nat) : Prop :=
  ∃ p, s.lookup fd = some p ∧ s.Holds p e i

/-- Nothing stored in the table is lost: contexts stay where they are, and a registration
stands until it is triggered or deleted. -/
structure Keeps (s s' : IOManager) : Prop where
  size : s.size ≤ s'.size
  table : ∀ fd < s.size, s'.table fd = s.table fd
  lookup : ∀ fd p, s.lookup fd = some p → s'.lookup fd = some p
  spent : ∀ i ∈ s.spent, i ∈ s'.spent
  stands : ∀ fd e i, s.Stands fd e i → s'.Stands fd e i ∨ i ∈ s'.spent

variable {s s' s'' : IOManager} {p : Nat}

theorem Keeps.refl (s : IOManager) : s.Keeps s :=
  ⟨le_rfl, fun _ _ => rfl, fun _ _ h => h, fun _ h => h, fun _ _ _ h => .inl h⟩

theorem Keeps.trans (h : s.Keeps s') (h' : s'.Keeps s'') : s.Keeps s'' where
  size := h.size.trans h'.size
  table fd hfd := (h'.table fd (hfd.trans_le h.size)).trans (h.table fd hfd)
  lookup fd p hp := h'.lookup fd p (h.lookup fd p hp)
  spent i hi := h'.spent i (h.spent i hi)
  stands fd e i hi := by
    obtain hs | hs := h.stands fd e i hi
    · exact h'.stands fd e i hs
    · exact .inr (h'.spent i hs)

/-- What a section under the mutex of the context at `p` can do. -/
structure Touches (s : IOManager) (p : Nat) (s' : IOManager) : Prop where
  size : s'.size = s.size
  table : s'.table = s.table
  next : s'.next = s.next
  other : ∀ q, q ≠ p → s'.heap q = s.heap q
  spent : ∀ i ∈ s.spent, i ∈ s'.spent
  holds : ∀ e i, s.Holds p e i → s'.Holds p e i ∨ i ∈ s'.spent

theorem Touches.refl (s : IOManager) (p : Nat) : s.Touches p s :=
  ⟨rfl, rfl, rfl, fun _ _ => rfl, fun _ h => h, fun _ _ h => .inl h⟩

theorem Touches.trans (h : s.Touches p s') (h' : s'.Touches p s'') : s.Touches p s'' where
  size := h'.size.trans h.size
  table := h'.table.trans h.table
  next := h'.next.trans h.next
  other q hq := (h'.other q hq).trans (h.other q hq)
  spent i hi := h'.spent i (h.spent i hi)
  holds e i hi := by
    obtain hs | hs := h.holds e i hi
    · exact h'.holds e i hs
    · exact .inr (h'.spent i hs)

theorem Touches.lookup (h : s.Touches p s') (fd : Nat) : s'.lookup fd = s.lookup fd := by
  unfold IOManager.lookup sizeAbove
  rw [h.size, h.table]

theorem Touches.keeps (h : s.Touches p s') : s.Keeps s' where
  size := h.size.ge
  table fd _ := by rw [h.table]
  lookup fd q hq := by rw [h.lookup, hq]
  spent := h.spent
  stands fd e i := by
    rintro ⟨q, hq, hi⟩
    by_cases hqp : q = p
    · subst hqp
      exact (h.holds e i hi).imp_left fun hs => ⟨q, by rw [h.lookup, hq], hs⟩
    · refine .inl ⟨q, by rw [h.lookup, hq], ?_⟩
      unfold Holds
      rw [h.other q hqp]
      exact hi

end IOManager

/-- A context that knows whom to wake submits its registration. -/
theorem EventContext.mem_submission {x : EventContext} {i : Nat} (w : Nat)
    (hi : x.registration = some i) (hx : x.fiber.isSome = true ∨ x.cb.isSome = true) :
    i ∈ (x.submission w).filterMap (·.registration) := by
  obtain ⟨scheduler, fiber, cb, registration⟩ := x
  cases hi
  cases cb with
  | some c => simp [EventContext.submission]
  | none =>
      cases fiber with
      | some f => simp [EventContext.submission]
      | none => simp at hx

namespace IOManager

variable {s s' : IOManager} {p : Nat}

theorem trigger_touches {e : Event} (h : s.trigger p e = .ok s') : s.Touches p s' := by
  obtain ⟨⟨c, submitted⟩, hc, hs⟩ := bind_eq_ok h
  obtain ⟨-, w, rfl, rfl⟩ := FdContext.triggerEvent_eq_ok hc
  cases hs
  refine ⟨rfl, rfl, rfl, fun q hq => Function.update_of_ne hq _ _, fun i hi => ?_,
    fun e' i hi => ?_⟩
  · simp only [spent, List.filterMap_append, List.mem_append] at hi ⊢
    exact hi.imp_left .inl
  · by_cases he : e' = e
    · subst he
      -- the registration that is triggered is handed to its scheduler
      refine .inr ?_
      simp only [spent, List.filterMap_append, List.mem_append]
      exact .inl (.inr (EventContext.mem_submission w hi.2.1 hi.2.2))
    · refine .inl ?_
      unfold Holds at hi ⊢
      simpa [he] using hi

theorem triggerIf_touches {m : Events} {e : Event} (h : s.triggerIf m p e = .ok s') :
    s.Touches p s' := by
  unfold triggerIf at h
  split at h
  · exact trigger_touches h
  · cases h
    exact Touches.refl s p

theorem Touches.setKernel {kernel : Kernel} (h : { s with kernel := kernel }.Touches p s') :
    s.Touches p s' :=
  ⟨h.size, h.table, h.next, h.other, h.spent, h.holds⟩

theorem addSection_touches {caller : Caller} {fd : Nat} {e : Event} {cb : Option Nat}
    {fails : Bool} {r : Int} (h : s.addSection caller p fd e cb fails = .ok (r, s')) :
    s.Touches p s' ∧ (r = 0 → s'.Holds p e s.registrations) := by
  unfold addSection at h
  dsimp only at h
  split at h
  · cases h
  next hfree =>
  split at h
  · cases h
    exact ⟨Touches.refl s p, by simp⟩
  · split at h
    · cases h
    next hempty =>
    cases h
    refine ⟨⟨rfl, rfl, rfl, fun q hq => Function.update_of_ne hq _ _, fun _ h => h,
      fun e' i hi => .inl ?_⟩, fun _ => ?_⟩
    · have he : e' ≠ e := fun he => hfree (he ▸ hi.1)
      unfold Holds at hi ⊢
      simpa [he] using hi
    · unfold Holds
      cases cb <;> simp

theorem delSection_touches (fd : Nat) (e : Event) (fails : Bool) :
    s.Touches p (s.delSection p fd e fails).2 := by
  unfold delSection
  dsimp only
  split
  · split
    · exact Touches.refl s p
    · refine ⟨rfl, rfl, rfl, fun q hq => Function.update_of_ne hq _ _, fun i hi => ?_,
        fun e' i hi => ?_⟩
      · simp only [spent, List.mem_append] at hi ⊢
        exact hi.imp_right .inl
      · by_cases he : e' = e
        · subst he
          refine .inr ?_
          simp [spent, hi.2.1]
        · refine .inl ?_
          unfold Holds at hi ⊢
          simpa [he, FdContext.resetContext] using hi
  · exact Touches.refl s p

theorem cancelSection_touches {fd : Nat} {e : Event} {fails r : Bool}
    (h : s.cancelSection p fd e fails = .ok (r, s')) : s.Touches p s' := by
  unfold cancelSection at h
  dsimp only at h
  split at h
  · split at h
    · cases h
      exact Touches.refl s p
    · obtain ⟨s₁, h₁, h₂⟩ := bind_eq_ok h
      cases h₂
      exact (trigger_touches h₁).setKernel
  · cases h
    exact Touches.refl s p

theorem cancelAllSection_touches {fd : Nat} {fails r : Bool}
    (h : s.cancelAllSection p fd fails = .ok (r, s')) : s.Touches p s' := by
  unfold cancelAllSection at h
  split at h
  · cases h
    exact Touches.refl s p
  · split at h
    · cases h
      exact Touches.refl s p
    · obtain ⟨s₁, h₁, h⟩ := bind_eq_ok h
      obtain ⟨s₂, h₂, h⟩ := bind_eq_ok h
      split at h
      · cases h
        exact ((triggerIf_touches h₁).trans (triggerIf_touches h₂)).setKernel
      · cases h

theorem dispatchSection_touches {reported : Events} {errorOrHangup fails r : Bool}
    (h : s.dispatchSection p reported errorOrHangup fails = .ok (r, s')) : s.Touches p s' := by
  unfold dispatchSection at h
  dsimp only at h
  split at h
  · cases h
    exact Touches.refl s p
  · split at h
    · cases h
      exact Touches.refl s p
    · obtain ⟨s₁, h₁, h⟩ := bind_eq_ok h
      obtain ⟨s₂, h₂, h⟩ := bind_eq_ok h
      cases h
      exact ((triggerIf_touches h₁).trans (triggerIf_touches h₂)).setKernel

end IOManager

theorem Request.work_touches {r : Request} {p : Nat} {fails : Bool} {s s' : IOManager}
    (h : r.work p fails s = .ok s') : s.Touches p s' := by
  cases r with
  | addEvent caller fd e cb =>
      obtain ⟨⟨r, s₁⟩, h₁, rfl⟩ := map_eq_ok h
      exact (IOManager.addSection_touches h₁).1
  | delEvent fd e =>
      cases h
      exact IOManager.delSection_touches fd e fails
  | cancelEvent fd e =>
      obtain ⟨⟨r, s₁⟩, h₁, rfl⟩ := map_eq_ok h
      exact IOManager.cancelSection_touches h₁
  | cancelAll fd =>
      obtain ⟨⟨r, s₁⟩, h₁, rfl⟩ := map_eq_ok h
      exact IOManager.cancelAllSection_touches h₁

/-- The table can be addressed, and its slots hold contexts that exist. -/
structure IOManager.Addressed (s : IOManager) : Prop where
  size_lt : s.size < 2 ^ 31
  table_lt : ∀ fd < s.size, s.table fd < s.next

namespace IOManager

variable {s s' : IOManager} {p : Nat}

theorem Addressed.lookup_eq (h : s.Addressed) (fd : Nat) :
    s.lookup fd = if fd < s.size then some (s.table fd) else none :=
  lookup_of_size_lt h.size_lt fd

theorem Addressed.lt_of_lookup (h : s.Addressed) {fd : Nat} (hp : s.lookup fd = some p) :
    fd < s.size ∧ s.table fd = p := by
  rw [h.lookup_eq fd] at hp
  by_cases hfd : fd < s.size
  · rw [if_pos hfd] at hp
    exact ⟨hfd, Option.some.inj hp⟩
  · rw [if_neg hfd] at hp
    cases hp

theorem Addressed.touches (h : s.Addressed) (ht : s.Touches p s') : s'.Addressed := by
  refine ⟨ht.size ▸ h.size_lt, ?_⟩
  rw [ht.size, ht.table, ht.next]
  exact h.table_lt

theorem Addressed.contextResize (h : s.Addressed) {n : Nat} (hlt : n < 2 ^ 31) :
    (s.contextResize n).Addressed := by
  refine ⟨hlt, fun fd hfd => ?_⟩
  change fd < n at hfd
  by_cases hold : fd < s.size
  · have := h.table_lt fd hold
    simp only [IOManager.contextResize, hold, if_true]
    omega
  · simp only [IOManager.contextResize, hold, if_false]
    omega

/-- A resize that does not shrink the table keeps what is stored in it. -/
theorem Addressed.contextResize_keeps (h : s.Addressed) {n : Nat} (hn : s.size ≤ n)
    (hlt : n < 2 ^ 31) : s.Keeps (s.contextResize n) := by
  have htable : ∀ fd < s.size, (s.contextResize n).table fd = s.table fd := fun fd hfd => by
    simp only [IOManager.contextResize, hfd, if_true]
  have hlookup : ∀ fd p, s.lookup fd = some p → (s.contextResize n).lookup fd = some p := by
    intro fd p hp
    obtain ⟨hfd, rfl⟩ := h.lt_of_lookup hp
    rw [(h.contextResize hlt).lookup_eq, htable fd hfd]
    exact if_pos (hfd.trans_le hn)
  refine ⟨hn, htable, hlookup, fun i hi => hi, fun fd e i => ?_⟩
  rintro ⟨p, hp, hi⟩
  refine .inl ⟨p, hlookup fd p hp, ?_⟩
  obtain ⟨hfd, rfl⟩ := h.lt_of_lookup hp
  have hold : ¬ s.next ≤ s.table fd := Nat.not_le.2 (h.table_lt fd hfd)
  unfold Holds at hi ⊢
  simpa only [IOManager.contextResize, hold, if_false] using hi

theorem resize_eq_ok {fd : Nat} (h : s.resize fd = .ok (p, s')) :
    fd < fd * 3 / 2 ∧ s' = s.contextResize (fd * 3 / 2) ∧ p = s'.table fd := by
  unfold resize at h
  dsimp only at h
  split at h
  · next hlt =>
      cases h
      exact ⟨hlt, rfl, rfl⟩
  · cases h

theorem init_addressed : init.Addressed := by
  refine ⟨by decide, fun fd hfd => ?_⟩
  change fd < 32 at hfd
  simpa [init, IOManager.contextResize] using hfd

end IOManager

namespace Pool

/-- The invariant of the runs: a thread that has fetched a context holds the one that the
table still has for its descriptor. -/
structure Current (s : Pool) : Prop where
  addressed : s.io.Addressed
  fetched : ∀ t r p, s.threads t = .fetched r p → s.io.lookup r.fd = some p

theorem Current.move {s : Pool} (h : s.Current) {io : IOManager} (hio : io.Addressed)
    (hk : s.io.Keeps io) {t : Nat} {x : Thread}
    (hx : ∀ r p, x = .fetched r p → io.lookup r.fd = some p) :
    Current ⟨io, Function.update s.threads t x⟩ := by
  refine ⟨hio, fun t' r p ht' => ?_⟩
  change Function.update s.threads t x t' = _ at ht'
  by_cases htt : t' = t
  · rw [htt, Function.update_self] at ht'
    exact hx r p ht'
  · rw [Function.update_of_ne htt] at ht'
    exact hk.lookup _ _ (h.fetched t' r p ht')

theorem afterLookup_fetched {r r' : Request} {found : Option Nat} {p : Nat}
    (h : afterLookup r found = .fetched r' p) : r = r' ∧ found = some p := by
  cases found with
  | some q =>
      cases h
      exact ⟨rfl, rfl⟩
  | none => cases r <;> cases h

/-- One critical section keeps what the table stores, and the invariant. -/
theorem GrowingStep.keeps {s s' : Pool} {a : Action} (h : s.Current) (hs : GrowingStep s a s') :
    s'.Current ∧ s.io.Keeps s'.io := by
  obtain ⟨hgrows, hs⟩ := hs
  cases hs with
  | lookup r ht =>
      refine ⟨h.move h.addressed (.refl _) fun r' p hx => ?_, .refl _⟩
      obtain ⟨rfl, hfound⟩ := afterLookup_fetched hx
      exact hfound
  | @resize t p r io ht hr =>
      obtain ⟨hsize, hrange⟩ := hgrows r ht
      obtain ⟨hlt, rfl, rfl⟩ := IOManager.resize_eq_ok hr
      have hn : r.fd * 3 / 2 < 2 ^ 31 := by omega
      have hio := h.addressed.contextResize hn
      have hk := h.addressed.contextResize_keeps hsize hn
      refine ⟨h.move hio hk fun r' p hx => ?_, hk⟩
      cases hx
      rw [hio.lookup_eq]
      exact if_pos hlt
  | work ht hr =>
      have htouch := Request.work_touches hr
      exact ⟨h.move (h.addressed.touches htouch) htouch.keeps fun r p hx => (by cases hx),
        htouch.keeps⟩
  | dispatch hr =>
      have htouch := IOManager.dispatchSection_touches hr
      refine ⟨⟨h.addressed.touches htouch, fun t r p ht => ?_⟩, htouch.keeps⟩
      exact htouch.keeps.lookup _ _ (h.fetched t r p ht)

theorem init_current : init.Current :=
  ⟨IOManager.init_addressed, fun _ _ _ h => by cases h⟩

end Pool

/-- In every interleaving whose resizes do not shrink the table, no context is lost: the table
only grows, its contexts stay where they are, an event that `addEvent` registers can be found
on its descriptor, and can be found from then on until it is triggered or deleted. -/
theorem growing_runs_keep (before after : List Action) (s₁ s₂ : Pool)
    (h₁ : Transition.Run Pool.GrowingStep Pool.init before s₁)
    (h₂ : Transition.Run Pool.GrowingStep s₁ after s₂) :
    s₁.io.Keeps s₂.io ∧
      ∀ t caller fd e cb p fails io,
        s₁.threads t = .fetched (.addEvent caller fd e cb) p →
        s₁.io.addSection caller p fd e cb fails = .ok (0, io) →
        io.Stands fd e s₁.io.registrations := by
  have hs₁ : s₁.Current :=
    h₁.invariant (fun _ _ _ hs hstep => (hstep.keeps hs).1) Pool.init_current
  refine ⟨?_, fun t caller fd e cb p fails io ht hadd => ?_⟩
  · exact h₂.relates (P := Pool.Current) (R := fun s s' => s.io.Keeps s'.io)
      (fun s => .refl s.io) (fun _ _ _ h h' => h.trans h')
      (fun _ _ _ hs hstep => hstep.keeps hs) hs₁
  · obtain ⟨htouch, hholds⟩ := IOManager.addSection_touches hadd
    exact ⟨p, (htouch.lookup fd).trans (hs₁.fetched t _ p ht), hholds rfl⟩

/-- Thread 0 registers descriptor 1000; thread 1, which saw the small table too, registers
descriptor 1200 and makes the table larger still. -/
theorem growing_runs_keep_two_threads :
    ∃ s₁ s₂ : Pool,
      Transition.Run Pool.GrowingStep Pool.init
        [.lookup 0 (.addEvent ⟨1, 7⟩ 1000 .READ none),
          .lookup 1 (.addEvent ⟨1, 8⟩ 1200 .READ none), .resize 0, .work 0 false] s₁ ∧
      Transition.Run Pool.GrowingStep s₁ [.resize 1] s₂ ∧
      s₁.io.size = 1500 ∧ s₂.io.size = 1800 ∧ s₁.io.Keeps s₂.io := by
  obtain ⟨s₁, h₁, hsize₁, hresize⟩ : ∃ s₁ : Pool,
      Transition.Run Pool.GrowingStep Pool.init
        [.lookup 0 (.addEvent ⟨1, 7⟩ 1000 .READ none),
          .lookup 1 (.addEvent ⟨1, 8⟩ 1200 .READ none), .resize 0, .work 0 false] s₁ ∧
      s₁.io.size = 1500 ∧ s₁.threads 1 = .resizing (.addEvent ⟨1, 8⟩ 1200 .READ none) := by
    refine ⟨_, .cons ⟨trivial, .lookup _ rfl⟩ (.cons ⟨trivial, .lookup _ rfl⟩
      (.cons ⟨?_, .resize rfl rfl⟩ (.cons ⟨trivial, .work rfl rfl⟩ (.nil _)))), rfl, rfl⟩
    intro r hr
    cases hr
    decide
  obtain ⟨s₂, h₂, hsize₂⟩ : ∃ s₂ : Pool, Transition.Run Pool.GrowingStep s₁ [.resize 1] s₂ ∧
      s₂.io.size = 1800 := by
    refine ⟨_, .cons ⟨fun r hr => ?_, .resize hresize rfl⟩ (.nil _), rfl⟩
    rw [hresize] at hr
    cases hr
    rw [hsize₁]
    decide
  exact ⟨s₁, s₂, h₁, h₂, hsize₁, hsize₂, (growing_runs_keep _ _ s₁ s₂ h₁ h₂).1⟩

/-- Thread 1 saw the small table before thread 0 made it larger and shrinks it: the event on
descriptor 1000 is registered, not triggered, not deleted, and no call finds it. -/
theorem shrinking_resize_loses :
    ∃ s₁ s₂ : Pool,
      Transition.Run Pool.Step Pool.init
        [.lookup 0 (.addEvent ⟨1, 7⟩ 1000 .READ none),
          .lookup 1 (.addEvent ⟨1, 8⟩ 40 .READ none), .resize 0, .work 0 false] s₁ ∧
      Transition.Run Pool.Step s₁ [.resize 1] s₂ ∧
      s₁.io.size = 1500 ∧ s₂.io.size = 60 ∧ s₁.io.Stands 1000 .READ 0 ∧
      s₂.io.spent = [] ∧ s₂.io.lookup 1000 = none ∧ (s₂.io.kernel 1000).isSome = true ∧
      ¬ s₁.io.Keeps s₂.io := by
  refine ⟨_, _, .cons (.lookup _ rfl) (.cons (.lookup _ rfl) (.cons (.resize rfl rfl)
    (.cons (.work rfl rfl) (.nil _)))), .cons (.resize rfl rfl) (.nil _), rfl, rfl,
    ⟨_, rfl, rfl, rfl, .inl rfl⟩, rfl, rfl, rfl, fun h => ?_⟩
  exact absurd h.size (by decide +kernel)

end Sylar.Io

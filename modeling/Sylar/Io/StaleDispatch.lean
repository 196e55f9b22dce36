import Sylar.Io.TableRuns

/-!
# Dispatching a stale result of `epoll_wait`

`idle` has a mask that the kernel reported and locks the context later. Other
threads may have removed events of the mask by then, and registered others.
`idle` skips the context only if none of the events is left; otherwise it
triggers every reported event, registered or not.
-/

namespace Sylar.Io

open Sylar.Lib

namespace Call

def fd : Call → Nat
  | addEvent _ fd _ _ _ => fd
  | delEvent fd _ _ => fd
  | cancelEvent fd _ _ => fd
  | cancelAll fd _ => fd
  | dispatch fd _ _ _ => fd

/-- A call of another thread on the same descriptor. -/
def StepOn (fd : Nat) (s : IOManager) (c : Call) (s' : IOManager) : Prop :=
  c.fd = fd ∧ Call.Step s c s'

theorem StepOn.ranged {fd : Nat} {s s' : IOManager} {c : Call} (h : StepOn fd s c s')
    (hfd : fd < s.size) : RangedStep s c s' := by
  obtain ⟨rfl, hs⟩ := h
  refine ⟨?_, hs⟩
  cases c with
  | addEvent caller fd e cb fails => exact .inl hfd
  | delEvent fd e fails => trivial
  | cancelEvent fd e fails => trivial
  | cancelAll fd fails => trivial
  | dispatch fd reported errorOrHangup fails => trivial

/-- Calls on a descriptor that has a slot keep the invariant and the slot. -/
theorem run_on_slot {fd : Nat} {calls : List Call} {s₀ s : IOManager} (hs : s₀.Good)
    (hfd : fd < s₀.size) (h : Transition.Run (StepOn fd) s₀ calls s) :
    s.Good ∧ fd < s.size ∧ s.table fd = s₀.table fd := by
  induction h with
  | nil s => exact ⟨hs, hfd, rfl⟩
  | cons head _ ih =>
      obtain ⟨hgood, hslots⟩ := (head.ranged hfd).outcome hs
      obtain ⟨hgood', hfd', htable⟩ := ih hgood (hfd.trans_le hslots.size)
      exact ⟨hgood', hfd', htable.trans (hslots.table fd hfd)⟩

end Call

namespace IOManager

variable {s s' : IOManager} {fd p : Nat}

/-- A conditional trigger that returns found its event registered, and adds none. -/
theorem triggerIf_has {m : Events} {e : Event} (h : s.triggerIf m p e = .ok s') :
    (m.has e = true → (s.heap p).events.has e = true) ∧
      ∀ e', (s'.heap p).events.has e' = true → (s.heap p).events.has e' = true := by
  unfold triggerIf at h
  split at h
  · obtain ⟨⟨c, submitted⟩, hc, hs⟩ := bind_eq_ok h
    obtain ⟨hbit, w, rfl, rfl⟩ := FdContext.triggerEvent_eq_ok hc
    cases hs
    refine ⟨fun _ => hbit, fun e' he' => ?_⟩
    simp only [Function.update_self, FdContext.events_setContext, Events.has_diff,
      Bool.and_eq_true] at he'
    exact he'.1
  · next hm =>
      cases h
      exact ⟨fun he => absurd he hm, fun _ h => h⟩

/-- The kernel watches a context with events, so it takes the events that stay. -/
theorem epollCtl_leaves {left : Events} {kernel : Kernel} (h : (kernel fd).isSome = true) :
    ∃ kernel', epollCtl (leaveOp left) fd left p false kernel = some kernel' := by
  obtain ⟨x, hx⟩ := Option.isSome_iff_exists.1 h
  unfold epollCtl leaveOp
  by_cases hleft : left = .none <;> simp [hleft, hx]

/-- None of the reported events is registered any more, and with an error or a hangup no
event at all. -/
def Gone (reported : Events) (errorOrHangup : Bool) (registered : Events) : Prop :=
  (∀ e, reported.has e = true → registered.has e = false) ∧
    (errorOrHangup = true → registered = .none)

theorem inter_realEvents_eq_none {reported registered : Events} {errorOrHangup : Bool} :
    registered.inter (realEvents reported errorOrHangup registered) = .none ↔
      Gone reported errorOrHangup registered := by
  simp only [Events.eq_none_iff, Gone]
  cases errorOrHangup with
  | false =>
      constructor
      · intro h
        refine ⟨fun e he => ?_, fun h => by cases h⟩
        simpa [realEvents, he] using h e
      · rintro ⟨h, -⟩ e
        cases he : reported.has e with
        | false => simp [realEvents, he]
        | true => simp [h e he]
  | true =>
      simp only [realEvents, if_true, Events.has_inter, Events.has_union, forall_const]
      constructor
      · intro h
        have hnone : ∀ e, registered.has e = false := fun e => by
          have := h e
          cases he : registered.has e with
          | false => rfl
          | true => simp [he] at this
        exact ⟨fun e _ => hnone e, hnone⟩
      · rintro ⟨-, h⟩ e
        simp [h e]

theorem dispatchSection_skips {reported : Events} {errorOrHangup fails : Bool}
    (h : fails = true ∨ Gone reported errorOrHangup (s.heap p).events) :
    s.dispatchSection p reported errorOrHangup fails = .ok (false, s) := by
  unfold dispatchSection
  dsimp only
  by_cases hgone : Gone reported errorOrHangup (s.heap p).events
  · exact if_pos (inter_realEvents_eq_none.2 hgone)
  · rw [if_neg (mt inter_realEvents_eq_none.1 hgone), h.resolve_right hgone]
    rfl

/-- A dispatch that passes the first test and the kernel returns only if every reported
event is registered. -/
theorem subset_of_dispatchSection {reported : Events} {errorOrHangup r : Bool} (hs : s.Good)
    (hfd : fd < s.size) (hgone : ¬ Gone reported errorOrHangup (s.context fd).events)
    (h : s.dispatchSection (s.table fd) reported errorOrHangup false = .ok (r, s')) :
    reported.Subset (s.context fd).events := by
  have hwatched : (s.kernel fd).isSome = true := by
    rw [hs.consistent.interest fd, if_neg fun hnone => hgone ?_]
    · rfl
    · rw [hnone]
      exact ⟨fun e _ => Events.has_none e, fun _ => rfl⟩
  unfold dispatchSection at h
  rw [← context_of_lt hfd] at h
  dsimp only at h
  rw [hs.books.context_fd hfd, if_neg (mt inter_realEvents_eq_none.1 hgone)] at h
  obtain ⟨kernel, hk⟩ := epollCtl_leaves (p := s.table fd) hwatched
  rw [hk] at h
  obtain ⟨s₁, h₁, h⟩ := bind_eq_ok h
  obtain ⟨s₂, h₂, -⟩ := bind_eq_ok h
  obtain ⟨hread, hless⟩ := triggerIf_has h₁
  obtain ⟨hwrite, -⟩ := triggerIf_has h₂
  change _ → (s.heap (s.table fd)).events.has _ = true at hread
  change ∀ e', _ → (s.heap (s.table fd)).events.has e' = true at hless
  rw [← context_of_lt hfd] at hread hless
  have hreal : ∀ e, reported.has e = true →
      (realEvents reported errorOrHangup (s.context fd).events).has e = true := by
    intro e he
    unfold realEvents
    split <;> simp [he]
  intro e he
  cases e with
  | READ => exact hread (hreal .READ he)
  | WRITE => exact hless .WRITE (hwrite (hreal .WRITE he))

end IOManager

/-- A result that `epoll_wait` gave in `s₀` is dispatched in `s`, after calls of other threads
on the descriptor. The dispatch triggers registered events only and leaves the counter right
exactly if `epoll_ctl` fails, all reported events are registered, or none is left. -/
theorem stale_dispatch_safe_iff (before calls : List Call) (s₀ s : IOManager) (fd p : Nat)
    (mask reported : Events) (errorOrHangup fails : Bool)
    (h₀ : Transition.Run Call.RangedStep IOManager.init before s₀)
    (hwatched : s₀.kernel fd = some (mask, p))
    (hreported : reported.Subset (s₀.context fd).events)
    (h : Transition.Run (Call.StepOn fd) s₀ calls s) :
    (∃ r s', s.dispatchSection p reported errorOrHangup fails = .ok (r, s') ∧
        s'.pendingEventCount = s'.pairs.card) ↔
      fails = true ∨ reported.Subset (s.context fd).events ∨
        IOManager.Gone reported errorOrHangup (s.context fd).events := by
  have hs₀ := Call.good_of_run h₀
  obtain ⟨hfd₀, hk⟩ := hs₀.watched (by rw [hwatched]; rfl : (s₀.kernel fd).isSome = true)
  obtain ⟨hs, hfd, htable⟩ := Call.run_on_slot hs₀ hfd₀ h
  rw [hwatched] at hk
  cases hk
  rw [← htable]
  constructor
  · rintro ⟨r, s', hr, -⟩
    cases fails with
    | true => exact .inl rfl
    | false =>
        by_cases hgone : IOManager.Gone reported errorOrHangup (s.context fd).events
        · exact .inr (.inr hgone)
        · exact .inr (.inl (IOManager.subset_of_dispatchSection hs hfd hgone hr))
  · intro hwhen
    by_cases hsub : reported.Subset (s.context fd).events
    · obtain ⟨⟨r, s'⟩, hr, hout⟩ := IOManager.dispatchSection_outcome hs hfd fails
        (IOManager.realEvents_subset hsub errorOrHangup)
      exact ⟨r, s', hr, hout.good.consistent.pending⟩
    · have hskip : fails = true ∨ IOManager.Gone reported errorOrHangup (s.context fd).events :=
        hwhen.imp_right fun h => h.resolve_left hsub
      rw [IOManager.context_of_lt hfd] at hskip
      exact ⟨false, s, IOManager.dispatchSection_skips hskip, hs.consistent.pending⟩

/-- Both events of descriptor 40 are reported; WRITE is cancelled and registered again before
the dispatch. -/
theorem stale_dispatch_safe_iff_renewed :
    ∃ s₀ s : IOManager,
      Transition.Run Call.RangedStep IOManager.init
        [.addEvent ⟨1, 7⟩ 40 .READ none false, .addEvent ⟨1, 8⟩ 40 .WRITE none false] s₀ ∧
      Transition.Run (Call.StepOn 40) s₀
        [.cancelEvent 40 .WRITE false, .addEvent ⟨1, 9⟩ 40 .WRITE none false] s ∧
      ∃ r s', s.dispatchSection 40 ⟨true, true⟩ false false = .ok (r, s') ∧
        s'.pendingEventCount = s'.pairs.card := by
  obtain ⟨s₀, s, h₀, h, hk, hreported, hstill⟩ : ∃ s₀ s : IOManager,
      Transition.Run Call.RangedStep IOManager.init
        [.addEvent ⟨1, 7⟩ 40 .READ none false, .addEvent ⟨1, 8⟩ 40 .WRITE none false] s₀ ∧
      Transition.Run (Call.StepOn 40) s₀
        [.cancelEvent 40 .WRITE false, .addEvent ⟨1, 9⟩ 40 .WRITE none false] s ∧
      s₀.kernel 40 = some (⟨true, true⟩, 40) ∧ (s₀.context 40).events = ⟨true, true⟩ ∧
      (s.context 40).events = ⟨true, true⟩ :=
    ⟨_, _, .cons ⟨.inr (by decide), rfl, true, rfl⟩ (.cons ⟨.inr (by decide), rfl, true, rfl⟩
      (.nil _)), .cons ⟨rfl, trivial, true, rfl⟩ (.cons ⟨rfl, rfl, true, rfl⟩ (.nil _)),
      rfl, rfl, rfl⟩
  refine ⟨s₀, s, h₀, h, (stale_dispatch_safe_iff _ _ s₀ s 40 40 ⟨true, true⟩ ⟨true, true⟩ false
    false h₀ hk ?_ h).2 (.inr (.inl ?_))⟩
  · rw [hreported]
    exact fun _ he => he
  · rw [hstill]
    exact fun _ he => he

/-- Both events are reported, and READ is cancelled before the dispatch: the assertion of
`triggerEvent` fails. -/
theorem stale_dispatch_asserts :
    ∃ s₀ s : IOManager,
      Transition.Run Call.RangedStep IOManager.init
        [.addEvent ⟨1, 7⟩ 40 .READ none false, .addEvent ⟨1, 8⟩ 40 .WRITE none false] s₀ ∧
      s₀.kernel 40 = some (⟨true, true⟩, 40) ∧
      Events.Subset ⟨true, true⟩ (s₀.context 40).events ∧
      Transition.Run (Call.StepOn 40) s₀ [.cancelEvent 40 .READ false] s ∧
      s.dispatchSection 40 ⟨true, true⟩ false false = .error .assertFailed :=
  ⟨_, _, .cons ⟨.inr (by decide), rfl, true, rfl⟩ (.cons ⟨.inr (by decide), rfl, true, rfl⟩
    (.nil _)), rfl, fun e _ => by cases e <;> rfl, .cons ⟨rfl, trivial, true, rfl⟩ (.nil _), rfl⟩

end Sylar.Io

import Sylar.Io.StaleDispatch

/-!
# Hooked calls that wait with a timeout

`do_io` and `connect_with_timeout` arm a timer, register the event, switch out,
and cancel the timer when they are woken; `do_io` then starts over. The callback
of the timer is collected by some worker and run by some worker, in steps that
interleave with the call: it locks the weak pointer, tests `cancelled`, sets it,
and cancels the event.

The timers of the attempts of one call share `cancelled`. The callback of an
earlier attempt may be collected before its timer is cancelled and run much
later. A timer may expire at any time after it was added.
-/

namespace Sylar.Io

open Sylar.Lib

/-- A call on a descriptor whose context is at `p`. -/
structure Hook where
  caller : Caller
  fd : Nat
  p : Nat
  event : Event
  timeout : Nat
  retries : Bool
  deriving DecidableEq, Repr

namespace Hook

def doIo (caller : Caller) (fd p : Nat) (event : Event) (timeout : Nat) : Hook :=
  ⟨caller, fd, p, event, timeout, true⟩

def connectWithTimeout (caller : Caller) (fd p timeout : Nat) : Hook :=
  ⟨caller, fd, p, .WRITE, timeout, false⟩

/-- A timer is added unless the timeout is `(uint64_t)-1`. -/
def timed (h : Hook) : Bool := h.timeout != 2 ^ 64 - 1

/-- How often the fiber of the call was put into the queue. -/
def wakes (h : Hook) (io : IOManager) : Nat :=
  io.scheduled.countP fun x => x.task == .fiber h.caller.fiber

/-- The event is registered for the fiber of the call. -/
structure Listed (h : Hook) (io : IOManager) : Prop where
  bit : (io.heap h.p).events.has h.event = true
  cb : ((io.heap h.p).getContext h.event).cb = none
  fiber : ((io.heap h.p).getContext h.event).fiber = some h.caller.fiber

/-- The event is registered, and the kernel watches the descriptor. -/
structure Waits (h : Hook) (io : IOManager) : Prop extends h.Listed io where
  kernel : (io.kernel h.fd).isSome = true

end Hook

/-- Where the call stands. -/
inductive Phase where
  | calling
  | arming
  | adding
  | registered
  | suspended
  | resumed
  | woken
  | failed
  | returned
  deriving DecidableEq, Repr

/-- The attempt has started and its event is not registered yet. -/
def Phase.opening : Phase → Bool
  | calling | arming | adding => true
  | registered | suspended | resumed | woken | failed | returned => false

/-- Where the timer of an attempt and its callback stand. -/
inductive TimerState where
  | unset
  | pending
  | cancelled
  | collected
  | locked
  | checked
  | passed
  | ended
  deriving DecidableEq, Repr

namespace TimerState

/-- The callback is still to test `cancelled`. -/
def untested : TimerState → Bool
  | pending | collected | locked => true
  | unset | cancelled | checked | passed | ended => false

/-- The callback has passed the test and is still to cancel the event. -/
def bound : TimerState → Bool
  | checked | passed => true
  | unset | pending | cancelled | collected | locked | ended => false

theorem bound_of_untested {st : TimerState} (h : st.untested = true) : st.bound = false := by
  cases st <;> first | rfl | cases h

end TimerState

/-- A call in progress: the event table, the timers of its attempts, `tinfo->cancelled`, and
how often its fiber was resumed. -/
structure TimedCall where
  io : IOManager
  phase : Phase
  attempt : Nat
  timer : Nat → TimerState
  cancelled : Bool
  resumes : Nat

namespace TimedCall

variable {h : Hook}

/-- The call starts while its fiber is not in the queue. -/
def start (h : Hook) (io : IOManager) : TimedCall :=
  { io := io, phase := .calling, attempt := 0, timer := fun _ => .unset, cancelled := false
    resumes := h.wakes io }

def setTimer (k : Nat) (st : TimerState) (m : TimedCall) : TimedCall :=
  { m with timer := Function.update m.timer k st }

/-- `addConditionTimer`. -/
def addTimer (h : Hook) (m : TimedCall) : TimedCall :=
  { m with
    phase := .adding
    timer := if h.timed then Function.update m.timer m.attempt .pending else m.timer }

/-- `if (timer) timer->cancel()`: a timer whose callback was collected stays as it is. -/
def cancelTimer (m : TimedCall) : TimedCall :=
  if m.timer m.attempt = .pending then m.setTimer m.attempt .cancelled else m

/-- The test of `cancelled` by the fiber, after which `do_io` starts over. -/
def finish (h : Hook) (m : TimedCall) : TimedCall :=
  if m.cancelled then { m with phase := .returned }
  else if h.retries then { m with phase := .calling, attempt := m.attempt + 1 }
  else { m with phase := .returned }

/-- `tinfo` exists: the call has it, or a callback that has locked it. -/
def Alive (m : TimedCall) : Prop :=
  m.phase ≠ .returned ∨ ∃ k, m.timer k = .locked ∨ (m.timer k).bound = true

inductive Act where
  | attempt (blocked : Bool)
  | addTimer
  | addEvent (fails : Bool)
  | yield
  | resume
  | cancelTimer
  | finish
  | dispatch (reported : Events) (errorOrHangup fails : Bool)
  | collect (k : Nat)
  | lock (k : Nat)
  | check (k : Nat)
  | set (k : Nat)
  | cancelEvent (k : Nat) (fails : Bool)
  deriving DecidableEq, Repr

inductive Step (h : Hook) : TimedCall → Act → TimedCall → Prop
  | attempt {m : TimedCall} (blocked : Bool) (hp : m.phase = .calling) :
      Step h m (.attempt blocked) { m with phase := if blocked then .arming else .returned }
  | addTimer {m : TimedCall} (hp : m.phase = .arming) : Step h m .addTimer (m.addTimer h)
  | addEvent {m : TimedCall} {fails : Bool} {rt : Int} {io : IOManager} (hp : m.phase = .adding)
      (hio : m.io.addSection h.caller h.p h.fd h.event none fails = .ok (rt, io)) :
      Step h m (.addEvent fails)
        { m with io := io, phase := if rt = -1 then .failed else .registered }
  | yield {m : TimedCall} (hp : m.phase = .registered) :
      Step h m .yield { m with phase := .suspended }
  | resume {m : TimedCall} (hp : m.phase = .suspended) (hq : m.resumes < h.wakes m.io) :
      Step h m .resume { m with phase := .resumed, resumes := m.resumes + 1 }
  | cancelTimer {m : TimedCall} (hp : m.phase = .resumed) :
      Step h m .cancelTimer { m.cancelTimer with phase := .woken }
  | cancelFailed {m : TimedCall} (hp : m.phase = .failed) :
      Step h m .cancelTimer { m.cancelTimer with phase := .returned }
  | finish {m : TimedCall} (hp : m.phase = .woken) : Step h m .finish (m.finish h)
  | dispatch {m : TimedCall} {reported : Events} {errorOrHangup fails r : Bool} {io : IOManager}
      (hio : m.io.dispatchSection h.p reported errorOrHangup fails = .ok (r, io)) :
      Step h m (.dispatch reported errorOrHangup fails) { m with io := io }
  | collect {m : TimedCall} {k : Nat} (ht : m.timer k = .pending) :
      Step h m (.collect k) (m.setTimer k .collected)
  | lock {m : TimedCall} {k : Nat} (ht : m.timer k = .collected) (halive : m.Alive) :
      Step h m (.lock k) (m.setTimer k .locked)
  | expire {m : TimedCall} {k : Nat} (ht : m.timer k = .collected) (hdead : ¬ m.Alive) :
      Step h m (.lock k) (m.setTimer k .ended)
  | check {m : TimedCall} {k : Nat} (ht : m.timer k = .locked) :
      Step h m (.check k) (m.setTimer k (if m.cancelled then .ended else .checked))
  | set {m : TimedCall} {k : Nat} (ht : m.timer k = .checked) :
      Step h m (.set k) { m.setTimer k .passed with cancelled := true }
  | cancelEvent {m : TimedCall} {k : Nat} {fails r : Bool} {io : IOManager}
      (ht : m.timer k = .passed)
      (hio : m.io.cancelSection h.p h.fd h.event fails = .ok (r, io)) :
      Step h m (.cancelEvent k fails) { m.setTimer k .ended with io := io }

/-- A timer whose callback will cancel the event, or sees that another one will. -/
def Pends (m : TimedCall) (k : Nat) : Prop :=
  (m.timer k).bound = true ∨ ((m.timer k).untested = true ∧ m.cancelled = false)

/-- The fiber is in the queue, or its event is registered and a timer is pending or a callback
has yet to cancel the event. -/
def WakeLeft (h : Hook) (m : TimedCall) : Prop :=
  m.resumes < h.wakes m.io ∨ (h.Waits m.io ∧ ∃ k, m.Pends k)

end TimedCall

/-! ### What the critical sections do to the event of the call -/

/-- A dispatch changes nothing, or tells the kernel what stays and triggers the rest. -/
theorem IOManager.dispatchSection_eq_ok {io io' : IOManager} {p : Nat} {reported : Events}
    {errorOrHangup fails r : Bool}
    (h : io.dispatchSection p reported errorOrHangup fails = .ok (r, io')) :
    io' = io ∨ ∃ real kernel io₁,
      epollCtl (leaveOp ((io.heap p).events.diff real)) (io.heap p).fd
        ((io.heap p).events.diff real) p fails io.kernel = some kernel ∧
      { io with kernel := kernel }.triggerIf real p .READ = .ok io₁ ∧
      io₁.triggerIf real p .WRITE = .ok io' := by
  unfold dispatchSection at h
  dsimp only at h
  split at h
  · cases h
    exact .inl rfl
  · split at h
    · cases h
      exact .inl rfl
    · next kernel hk =>
        obtain ⟨io₁, hread, h⟩ := bind_eq_ok h
        obtain ⟨io₂, hwrite, h⟩ := bind_eq_ok h
        cases h
        exact .inr ⟨_, kernel, io₁, hk, hread, hwrite⟩

namespace Hook

variable {h : Hook} {io io' : IOManager} {e : Event}

theorem wakes_le_of_append {submitted : List Submission}
    (heq : io'.scheduled = io.scheduled ++ submitted) : h.wakes io ≤ h.wakes io' := by
  unfold wakes
  rw [heq, List.countP_append]
  exact Nat.le_add_right _ _

theorem wakes_le_of_trigger {p : Nat} (ht : io.trigger p e = .ok io') :
    h.wakes io ≤ h.wakes io' := by
  obtain ⟨⟨c, submitted⟩, -, hs⟩ := bind_eq_ok ht
  cases hs
  exact wakes_le_of_append rfl

theorem wakes_le_of_triggerIf {p : Nat} {m : Events} (ht : io.triggerIf m p e = .ok io') :
    h.wakes io ≤ h.wakes io' := by
  unfold IOManager.triggerIf at ht
  split at ht
  · exact wakes_le_of_trigger ht
  · cases ht
    exact le_rfl

theorem wakes_le_of_dispatchSection {p : Nat} {reported : Events}
    {errorOrHangup fails r : Bool}
    (hd : io.dispatchSection p reported errorOrHangup fails = .ok (r, io')) :
    h.wakes io ≤ h.wakes io' := by
  obtain rfl | ⟨real, kernel, io₁, -, hread, hwrite⟩ := IOManager.dispatchSection_eq_ok hd
  · exact le_rfl
  · exact (wakes_le_of_triggerIf (h := h) hread).trans (wakes_le_of_triggerIf hwrite)

/-- A trigger of the event puts the fiber into the queue. -/
theorem Listed.trigger (hw : h.Listed io) (ht : io.trigger h.p h.event = .ok io') :
    h.wakes io < h.wakes io' := by
  obtain ⟨⟨c, submitted⟩, hc, hs⟩ := bind_eq_ok ht
  obtain ⟨-, w, -, rfl⟩ := FdContext.triggerEvent_eq_ok hc
  cases hs
  simp [wakes, EventContext.submission, hw.cb, hw.fiber]

/-- A trigger of the other event leaves the registration. -/
theorem Listed.trigger_other (hw : h.Listed io) (he : h.event ≠ e)
    (ht : io.trigger h.p e = .ok io') : h.Listed io' := by
  obtain ⟨⟨c, submitted⟩, hc, hs⟩ := bind_eq_ok ht
  obtain ⟨-, w, rfl, -⟩ := FdContext.triggerEvent_eq_ok hc
  cases hs
  refine ⟨?_, ?_, ?_⟩
  · simpa [he] using hw.bit
  · simpa [he] using hw.cb
  · simpa [he] using hw.fiber

theorem Listed.triggerIf (hw : h.Listed io) {m : Events} (hm : m.has h.event = true)
    (ht : io.triggerIf m h.p h.event = .ok io') : h.wakes io < h.wakes io' := by
  rw [IOManager.triggerIf, if_pos hm] at ht
  exact hw.trigger ht

theorem Listed.triggerIf_other (hw : h.Listed io) {m : Events}
    (hm : h.event = e → m.has e = false) (ht : io.triggerIf m h.p e = .ok io') :
    h.Listed io' := by
  unfold IOManager.triggerIf at ht
  split at ht
  · next hbit =>
      refine hw.trigger_other (fun he => ?_) ht
      rw [hm he] at hbit
      cases hbit
  · cases ht
    exact hw

/-- The two triggers of `idle` wake the fiber if its event is among the events. -/
theorem Listed.triggerBoth (hw : h.Listed io) {m : Events} {io₁ : IOManager}
    (hm : m.has h.event = true) (hread : io.triggerIf m h.p .READ = .ok io₁)
    (hwrite : io₁.triggerIf m h.p .WRITE = .ok io') : h.wakes io < h.wakes io' := by
  cases he : h.event with
  | READ =>
      rw [← he] at hread
      exact (hw.triggerIf hm hread).trans_le (wakes_le_of_triggerIf hwrite)
  | WRITE =>
      have hw₁ := hw.triggerIf_other (fun heq => by rw [he] at heq; cases heq) hread
      rw [← he] at hwrite
      exact (wakes_le_of_triggerIf hread).trans_lt (hw₁.triggerIf hm hwrite)

theorem kernel_of_triggerIf {p : Nat} {m : Events} (ht : io.triggerIf m p e = .ok io') :
    io'.kernel = io.kernel := by
  unfold IOManager.triggerIf at ht
  split at ht
  · obtain ⟨⟨c, submitted⟩, -, hs⟩ := bind_eq_ok ht
    cases hs
    rfl
  · cases ht
    rfl

/-- The kernel goes on to watch the descriptor where events stay registered. -/
theorem isSome_of_epollCtl {fd fd' p : Nat} {left : Events} {fails : Bool}
    {kernel kernel' : Kernel} (hleft : left.has e = true) (hfd : (kernel fd').isSome = true)
    (hk : epollCtl (IOManager.leaveOp left) fd left p fails kernel = some kernel') :
    (kernel' fd').isSome = true := by
  have hne : left ≠ .none := by
    rintro rfl
    rw [Events.has_none] at hleft
    cases hleft
  rw [IOManager.epollCtl_leaveOp hk, Function.update_apply, IOManager.watch, if_neg hne]
  split
  · rfl
  · exact hfd

/-- What `idle` dispatches wakes the fiber or leaves its registration. -/
theorem Waits.dispatchSection (hw : h.Waits io) {reported : Events}
    {errorOrHangup fails r : Bool}
    (hd : io.dispatchSection h.p reported errorOrHangup fails = .ok (r, io')) :
    h.wakes io < h.wakes io' ∨ (h.wakes io ≤ h.wakes io' ∧ h.Waits io') := by
  obtain rfl | ⟨real, kernel, io₁, hk, hread, hwrite⟩ := IOManager.dispatchSection_eq_ok hd
  · exact .inr ⟨le_rfl, hw⟩
  have hlisted : h.Listed { io with kernel := kernel } := ⟨hw.bit, hw.cb, hw.fiber⟩
  cases hbit : real.has h.event with
  | true => exact .inl (hlisted.triggerBoth hbit hread hwrite)
  | false =>
      have hother : ∀ e, h.event = e → real.has e = false := fun e he => he ▸ hbit
      have hlisted₁ := hlisted.triggerIf_other (hother _) hread
      have hleft : ((io.heap h.p).events.diff real).has h.event = true := by
        rw [Events.has_diff, hw.bit, hbit]
        rfl
      refine .inr ⟨wakes_le_of_dispatchSection hd, hlisted₁.triggerIf_other (hother _) hwrite, ?_⟩
      rw [kernel_of_triggerIf hwrite, kernel_of_triggerIf hread]
      exact isSome_of_epollCtl hleft hw.kernel hk

/-- `cancelEvent` wakes the fiber, unless `epoll_ctl` fails. -/
theorem Waits.cancelSection (hw : h.Waits io) {r : Bool}
    (hc : io.cancelSection h.p h.fd h.event false = .ok (r, io')) :
    h.wakes io < h.wakes io' := by
  unfold IOManager.cancelSection at hc
  dsimp only at hc
  rw [if_pos hw.bit] at hc
  generalize (io.heap h.p).events.diff (.single h.event) = left at hc
  obtain ⟨kernel, hk⟩ : ∃ kernel,
      epollCtl (IOManager.leaveOp left) h.fd left h.p false io.kernel = some kernel :=
    IOManager.epollCtl_leaves hw.kernel
  rw [hk] at hc
  obtain ⟨io₁, ht, hc⟩ := bind_eq_ok hc
  cases hc
  have hlisted : h.Listed { io with kernel := kernel } := ⟨hw.bit, hw.cb, hw.fiber⟩
  exact hlisted.trigger ht

theorem wakes_le_of_cancelSection {p fd : Nat} {fails r : Bool}
    (hc : io.cancelSection p fd e fails = .ok (r, io')) : h.wakes io ≤ h.wakes io' := by
  unfold IOManager.cancelSection at hc
  dsimp only at hc
  split at hc
  · split at hc
    · cases hc
      exact le_rfl
    · obtain ⟨io₁, ht, hc⟩ := bind_eq_ok hc
      cases hc
      have hle := wakes_le_of_trigger (h := h) ht
      exact hle
  · cases hc
    exact le_rfl

theorem wakes_of_addSection {caller : Caller} {p fd : Nat} {cb : Option Nat} {fails : Bool}
    {rt : Int} (ha : io.addSection caller p fd e cb fails = .ok (rt, io')) :
    h.wakes io' = h.wakes io := by
  unfold IOManager.addSection at ha
  dsimp only at ha
  split at ha
  · cases ha
  · split at ha
    · cases ha
      rfl
    · split at ha <;> cases ha
      rfl

/-- `addEvent` that succeeds registers the event for the fiber of the call. -/
theorem waits_of_addSection {fails : Bool} {rt : Int}
    (ha : io.addSection h.caller h.p h.fd h.event none fails = .ok (rt, io')) (hrt : rt ≠ -1) :
    h.Waits io' := by
  unfold IOManager.addSection at ha
  dsimp only at ha
  split at ha
  · cases ha
  · split at ha
    · cases ha
      exact absurd rfl hrt
    · next kernel hk =>
        split at ha
        · cases ha
        · cases ha
          have hkernel := epollCtl_eq_some hk
          refine ⟨⟨?_, ?_, ?_⟩, ?_⟩
          · simp
          · simp
          · simp
          · change (kernel h.fd).isSome = true
            rw [hkernel, Function.update_self]
            split_ifs <;> simp_all

end Hook

namespace TimedCall

variable {h : Hook} {m m' : TimedCall}

/-- A callback passes its test only while no attempt is between its start and `addEvent`, the
call starts over only while no callback is about to set `cancelled`, and `epoll_ctl` does not
fail in `cancelEvent`. -/
def Timely (h : Hook) (m : TimedCall) : Act → Prop
  | .check _ => m.cancelled = true ∨ m.phase.opening = false
  | .finish => h.retries = true → m.cancelled = false → ∀ k, m.timer k ≠ .checked
  | .cancelEvent _ fails => fails = false
  | _ => True

def TimelyStep (h : Hook) (m : TimedCall) (a : Act) (m' : TimedCall) : Prop :=
  m.Timely h a ∧ Step h m a m'

/-- The invariant of timely runs of a call with a timer. -/
structure Inv (h : Hook) (m : TimedCall) : Prop where
  resumed : m.resumes ≤ h.wakes m.io
  passed : ∀ k, m.timer k = .passed → m.cancelled = true
  opening : m.phase.opening = true → m.cancelled = false ∧ ∀ k, (m.timer k).bound = false
  adding : m.phase = .adding → (m.timer m.attempt).untested = true
  waiting : m.phase = .registered ∨ m.phase = .suspended → m.WakeLeft h

theorem start_inv (h : Hook) (io : IOManager) : (start h io).Inv h :=
  ⟨le_rfl, nofun, fun _ => ⟨rfl, fun _ => rfl⟩, nofun,
    fun hp => by obtain hp | hp := hp <;> cases hp⟩

/-- The call goes on to a phase in which nothing is required of the timers. -/
theorem Inv.setPhase (hm : m.Inv h) (p : Phase) (hp : p.opening = false)
    (hne : p ≠ .registered ∧ p ≠ .suspended) : { m with phase := p }.Inv h := by
  refine ⟨hm.resumed, hm.passed, fun hopen => ?_, fun hadd => ?_, fun hwait => ?_⟩
  · rw [show p.opening = true from hopen] at hp
    cases hp
  · rw [show p = .adding from hadd] at hp
    cases hp
  · exact absurd hwait (not_or.2 hne)

theorem setTimer_timer (k k' : Nat) (st : TimerState) (m : TimedCall) :
    (m.setTimer k st).timer k' = if k' = k then st else m.timer k' :=
  Function.update_apply ..

/-- Other timers are as they were. -/
theorem Pends.setTimer {k k' : Nat} {st : TimerState} (hp : m.Pends k') (hk : k' ≠ k) :
    (m.setTimer k st).Pends k' := by
  unfold Pends
  rw [setTimer_timer, if_neg hk]
  exact hp

/-- A timer that pends goes on to a state in which it pends. -/
theorem WakeLeft.setTimer {k : Nat} {st : TimerState} (hw : m.WakeLeft h)
    (hk : m.Pends k → (m.setTimer k st).Pends k) : (m.setTimer k st).WakeLeft h := by
  refine hw.imp_right fun ⟨hwaits, k', hk'⟩ => ⟨hwaits, ?_⟩
  by_cases he : k' = k
  · subst he
    exact ⟨k', hk hk'⟩
  · exact ⟨k', hk'.setTimer he⟩

theorem Inv.setTimer {k : Nat} {st : TimerState} (hm : m.Inv h) (hst : st ≠ .passed)
    (hbound : m.phase.opening = true → st.bound = false)
    (hadd : m.phase = .adding → (m.timer k).untested = true → st.untested = true)
    (hpend : m.phase ≠ .returned → m.Pends k → (m.setTimer k st).Pends k) :
    (m.setTimer k st).Inv h := by
  refine ⟨hm.resumed, fun k' hk' => ?_, fun hopen => ⟨(hm.opening hopen).1, fun k' => ?_⟩,
    fun hp => ?_, fun hp => (hm.waiting hp).setTimer (hpend fun he => ?_)⟩
  · rw [setTimer_timer] at hk'
    split at hk'
    · exact absurd hk' hst
    · exact hm.passed k' hk'
  · rw [setTimer_timer]
    split
    · exact hbound hopen
    · exact (hm.opening hopen).2 k'
  · have hold := hm.adding hp
    change ((m.setTimer k st).timer m.attempt).untested = true
    rw [setTimer_timer]
    split
    · next hk => exact hadd hp (hk ▸ hold)
    · exact hold
  · rw [show (m.setTimer k st).phase = .returned from he] at hp
    obtain hp | hp := hp <;> cases hp

/-- The callback advances towards its test. -/
theorem Inv.advance {k : Nat} {st : TimerState} (hm : m.Inv h)
    (ht : (m.timer k).untested = true) (hst : st.untested = true) : (m.setTimer k st).Inv h := by
  refine hm.setTimer (fun he => ?_) (fun _ => TimerState.bound_of_untested hst)
    (fun _ _ => hst) fun _ hp => ?_
  · rw [he] at hst
    cases hst
  · obtain hp | ⟨-, hp⟩ := hp
    · rw [TimerState.bound_of_untested ht] at hp
      cases hp
    · refine .inr ⟨?_, hp⟩
      rw [setTimer_timer, if_pos rfl]
      exact hst

theorem Inv.check {k : Nat} (hm : m.Inv h) (htimely : m.cancelled = true ∨ m.phase.opening = false)
    (ht : m.timer k = .locked) :
    (m.setTimer k (if m.cancelled then .ended else .checked)).Inv h := by
  have hclosed : m.phase.opening ≠ true := by
    intro hopen
    rw [(hm.opening hopen).1, hopen] at htimely
    obtain ht | ht := htimely <;> cases ht
  refine hm.setTimer ?_ (fun hopen => absurd hopen hclosed)
    (fun hadd => absurd (by rw [hadd]; rfl) hclosed) fun _ hp => ?_
  · split <;> nofun
  · obtain hp | ⟨-, hp⟩ := hp
    · rw [ht] at hp
      cases hp
    · refine .inl ?_
      rw [setTimer_timer, if_pos rfl, hp]
      rfl

theorem Inv.set {k : Nat} (hm : m.Inv h) (ht : m.timer k = .checked) :
    { m.setTimer k .passed with cancelled := true }.Inv h := by
  have hclosed : m.phase.opening ≠ true := by
    intro hopen
    have hbound := (hm.opening hopen).2 k
    rw [ht] at hbound
    cases hbound
  refine ⟨hm.resumed, fun _ _ => rfl, fun hopen => absurd hopen hclosed,
    fun hadd => absurd (by rw [show m.phase = .adding from hadd]; rfl) hclosed, fun hp => ?_⟩
  refine (hm.waiting hp).imp_right fun ⟨hwaits, _⟩ => ⟨hwaits, k, .inl ?_⟩
  change ((m.setTimer k .passed).timer k).bound = true
  rw [setTimer_timer, if_pos rfl]
  rfl

theorem Inv.cancelEvent {k : Nat} {r : Bool} {io : IOManager} (hm : m.Inv h)
    (ht : m.timer k = .passed)
    (hio : m.io.cancelSection h.p h.fd h.event false = .ok (r, io)) :
    { m.setTimer k .ended with io := io }.Inv h := by
  have hclosed : m.phase.opening ≠ true := by
    intro hopen
    have hbound := (hm.opening hopen).2 k
    rw [ht] at hbound
    cases hbound
  refine ⟨hm.resumed.trans (Hook.wakes_le_of_cancelSection hio), fun _ _ => hm.passed k ht,
    fun hopen => absurd hopen hclosed,
    fun hadd => absurd (by rw [show m.phase = .adding from hadd]; rfl) hclosed, fun hp => .inl ?_⟩
  obtain hq | ⟨hwaits, -⟩ := hm.waiting hp
  · exact hq.trans_le (Hook.wakes_le_of_cancelSection hio)
  · exact hm.resumed.trans_lt (hwaits.cancelSection hio)

theorem Inv.dispatch {reported : Events} {errorOrHangup fails r : Bool} {io : IOManager}
    (hm : m.Inv h) (hio : m.io.dispatchSection h.p reported errorOrHangup fails = .ok (r, io)) :
    { m with io := io }.Inv h := by
  have hle := Hook.wakes_le_of_dispatchSection (h := h) hio
  refine ⟨hm.resumed.trans hle, hm.passed, hm.opening, hm.adding, fun hp => ?_⟩
  obtain hq | ⟨hwaits, hpends⟩ := hm.waiting hp
  · exact .inl (hq.trans_le hle)
  · obtain hlt | ⟨-, hwaits⟩ := hwaits.dispatchSection hio
    · exact .inl (hm.resumed.trans_lt hlt)
    · exact .inr ⟨hwaits, hpends⟩

theorem Inv.addTimer (hm : m.Inv h) (hto : h.timed = true) (hp : m.phase = .arming) :
    (m.addTimer h).Inv h := by
  have hopen : m.phase.opening = true := by rw [hp]; rfl
  have htimer : (m.addTimer h).timer = (m.setTimer m.attempt .pending).timer := if_pos hto
  refine ⟨hm.resumed, fun k hk => ?_, fun _ => ⟨(hm.opening hopen).1, fun k => ?_⟩, fun _ => ?_,
    fun hwait => by obtain hwait | hwait := hwait <;> cases hwait⟩
  · rw [htimer, setTimer_timer] at hk
    split at hk
    · cases hk
    · exact hm.passed k hk
  · rw [htimer, setTimer_timer]
    split
    · rfl
    · exact (hm.opening hopen).2 k
  · change ((m.addTimer h).timer m.attempt).untested = true
    rw [htimer, setTimer_timer, if_pos rfl]
    rfl

theorem Inv.addEvent {fails : Bool} {rt : Int} {io : IOManager} (hm : m.Inv h)
    (hp : m.phase = .adding)
    (hio : m.io.addSection h.caller h.p h.fd h.event none fails = .ok (rt, io)) :
    { m with io := io, phase := if rt = -1 then .failed else .registered }.Inv h := by
  have hopen : m.phase.opening = true := by rw [hp]; rfl
  have hle := Hook.wakes_of_addSection (h := h) hio
  have hm' : { m with io := io }.Inv h :=
    ⟨hm.resumed.trans hle.ge, hm.passed, hm.opening, hm.adding, fun hwait => by
      rw [show m.phase = .adding from hp] at hwait
      obtain hwait | hwait := hwait <;> cases hwait⟩
  by_cases hrt : rt = -1
  · rw [if_pos hrt]
    exact hm'.setPhase .failed rfl ⟨nofun, nofun⟩
  · rw [if_neg hrt]
    refine ⟨hm'.resumed, hm.passed, nofun, nofun, fun _ => .inr ⟨?_, m.attempt, .inr ?_⟩⟩
    · exact Hook.waits_of_addSection hio hrt
    · exact ⟨hm.adding hp, (hm.opening hopen).1⟩

/-- A timer that is cancelled has not passed its test. -/
theorem Inv.cancelTimer (hm : m.Inv h) (p : Phase) (hp : p.opening = false)
    (hne : p ≠ .registered ∧ p ≠ .suspended) : { m.cancelTimer with phase := p }.Inv h := by
  unfold TimedCall.cancelTimer
  split
  · refine Inv.setPhase (m := { m.setTimer m.attempt .cancelled with phase := .returned })
      ?_ p hp hne
    refine Inv.setTimer (m := { m with phase := .returned }) ?_ nofun nofun nofun
      fun hret => absurd rfl hret
    exact hm.setPhase .returned rfl ⟨nofun, nofun⟩
  · exact hm.setPhase p hp hne

theorem Inv.finish (hm : m.Inv h)
    (htimely : h.retries = true → m.cancelled = false → ∀ k, m.timer k ≠ .checked) :
    (m.finish h).Inv h := by
  unfold TimedCall.finish
  split
  · exact hm.setPhase .returned rfl ⟨nofun, nofun⟩
  · next hcancelled =>
      rw [Bool.not_eq_true] at hcancelled
      split
      · next hretries =>
          refine ⟨hm.resumed, hm.passed, fun _ => ⟨hcancelled, fun k => ?_⟩, nofun,
            fun hwait => by obtain hwait | hwait := hwait <;> cases hwait⟩
          have hchecked := htimely hretries hcancelled k
          have hpassed : m.timer k ≠ .passed := by
            intro hk
            rw [hm.passed k hk] at hcancelled
            cases hcancelled
          change (m.timer k).bound = false
          cases hk : m.timer k <;> first | rfl | contradiction
      · exact hm.setPhase .returned rfl ⟨nofun, nofun⟩

theorem TimelyStep.inv {a : Act} (hto : h.timed = true) (hm : m.Inv h)
    (hs : TimelyStep h m a m') : m'.Inv h := by
  obtain ⟨htimely, hs⟩ := hs
  cases hs with
  | attempt blocked hp =>
      cases blocked with
      | true =>
          have hopen : m.phase.opening = true := by rw [hp]; rfl
          exact ⟨hm.resumed, hm.passed, fun _ => hm.opening hopen, nofun,
            fun hwait => by obtain hwait | hwait := hwait <;> cases hwait⟩
      | false => exact hm.setPhase .returned rfl ⟨nofun, nofun⟩
  | addTimer hp => exact hm.addTimer hto hp
  | addEvent hp hio => exact hm.addEvent hp hio
  | yield hp =>
      exact ⟨hm.resumed, hm.passed, nofun, nofun, fun _ => hm.waiting (.inl hp)⟩
  | resume hp hq =>
      exact ⟨hq, hm.passed, nofun, nofun,
        fun hwait => by obtain hwait | hwait := hwait <;> cases hwait⟩
  | cancelTimer hp => exact hm.cancelTimer .woken rfl ⟨nofun, nofun⟩
  | cancelFailed hp => exact hm.cancelTimer .returned rfl ⟨nofun, nofun⟩
  | finish hp => exact hm.finish htimely
  | dispatch hio => exact hm.dispatch hio
  | collect ht => exact hm.advance (by rw [ht]; rfl) rfl
  | lock ht _ => exact hm.advance (by rw [ht]; rfl) rfl
  | expire ht hdead =>
      have hret : m.phase = .returned := by
        by_contra hne
        exact hdead (.inl hne)
      refine hm.setTimer nofun (fun _ => rfl) (fun hadd => ?_) fun hne => absurd hret hne
      rw [hret] at hadd
      cases hadd
  | check ht => exact hm.check htimely ht
  | set ht => exact hm.set ht
  | cancelEvent ht hio =>
      cases htimely
      exact hm.cancelEvent ht hio

end TimedCall

/-- In every timely run of a call with a timeout, a suspended fiber is in the queue, or its
event is registered and its timer or a callback of it will cancel the event. -/
theorem timely_calls_leave_wake (h : Hook) (hto : h.timeout ≠ 2 ^ 64 - 1) (io : IOManager)
    (acts : List TimedCall.Act) (m : TimedCall)
    (hrun : Transition.Run (TimedCall.TimelyStep h) (.start h io) acts m)
    (hp : m.phase = .suspended) : m.WakeLeft h := by
  have htimed : h.timed = true := bne_iff_ne.2 hto
  have hm : m.Inv h :=
    hrun.invariant (fun _ _ _ hm hs => hs.inv htimed hm) (TimedCall.start_inv h io)
  exact hm.waiting (.inr hp)

/-- The event fires, the call starts over, and the timer of the second attempt expires while
the fiber waits. -/
theorem timely_calls_leave_wake_retried :
    ∃ m : TimedCall,
      Transition.Run (TimedCall.TimelyStep (.doIo ⟨3, 5⟩ 7 7 .READ 1000))
        (.start (.doIo ⟨3, 5⟩ 7 7 .READ 1000) .init)
        [.attempt true, .addTimer, .addEvent false, .yield,
          .dispatch (.single .READ) false false, .resume, .cancelTimer, .finish,
          .attempt true, .addTimer, .addEvent false, .yield, .collect 1, .lock 1] m ∧
      m.phase = .suspended ∧ m.WakeLeft (.doIo ⟨3, 5⟩ 7 7 .READ 1000) := by
  obtain ⟨m, hrun, hp⟩ : ∃ m : TimedCall,
      Transition.Run (TimedCall.TimelyStep (.doIo ⟨3, 5⟩ 7 7 .READ 1000))
        (.start (.doIo ⟨3, 5⟩ 7 7 .READ 1000) .init)
        [.attempt true, .addTimer, .addEvent false, .yield,
          .dispatch (.single .READ) false false, .resume, .cancelTimer, .finish,
          .attempt true, .addTimer, .addEvent false, .yield, .collect 1, .lock 1] m ∧
      m.phase = .suspended :=
    ⟨_, .cons ⟨trivial, .attempt true rfl⟩ (.cons ⟨trivial, .addTimer rfl⟩
      (.cons ⟨trivial, .addEvent rfl rfl⟩ (.cons ⟨trivial, .yield rfl⟩
      (.cons ⟨trivial, .dispatch rfl⟩ (.cons ⟨trivial, .resume rfl (by decide)⟩
      (.cons ⟨trivial, .cancelTimer rfl⟩
      (.cons ⟨(by rintro _ _ (_ | k) hk <;> cases hk), .finish rfl⟩
      (.cons ⟨trivial, .attempt true rfl⟩ (.cons ⟨trivial, .addTimer rfl⟩
      (.cons ⟨trivial, .addEvent rfl rfl⟩ (.cons ⟨trivial, .yield rfl⟩
      (.cons ⟨trivial, .collect rfl⟩ (.cons ⟨trivial, .lock rfl (.inl nofun)⟩
      (.nil _)))))))))))))), rfl⟩
  exact ⟨m, hrun, hp, timely_calls_leave_wake _ (by decide) _ _ m hrun hp⟩

/-- The timer expires before the event is registered: the callback finds nothing to cancel, and
then the fiber waits without a timeout. -/
theorem early_timeout_loses_wake :
    ∃ m : TimedCall,
      Transition.Run (TimedCall.Step (.doIo ⟨3, 5⟩ 7 7 .READ 1))
        (.start (.doIo ⟨3, 5⟩ 7 7 .READ 1) .init)
        [.attempt true, .addTimer, .collect 0, .lock 0, .check 0, .set 0, .cancelEvent 0 false,
          .addEvent false, .yield] m ∧
      m.phase = .suspended ∧ m.resumes = Hook.wakes (.doIo ⟨3, 5⟩ 7 7 .READ 1) m.io ∧
      m.timer 0 = .ended ∧ (∀ k, 0 < k → m.timer k = .unset) ∧
      ¬ m.WakeLeft (.doIo ⟨3, 5⟩ 7 7 .READ 1) := by
  refine ⟨_, .cons (.attempt true rfl) (.cons (.addTimer rfl) (.cons (.collect rfl)
    (.cons (.lock rfl (.inl nofun)) (.cons (.check rfl) (.cons (.set rfl)
    (.cons (.cancelEvent rfl rfl) (.cons (.addEvent rfl rfl) (.cons (.yield rfl)
    (.nil _))))))))), rfl, rfl, rfl, ?_, ?_⟩
  · rintro (_ | k) hk
    · exact absurd hk (lt_irrefl 0)
    · rfl
  · rintro (hq | ⟨-, k, hk⟩)
    · exact absurd hq (by decide)
    · obtain hk | ⟨hk, -⟩ := hk <;> obtain _ | k := k <;> cases hk

end Sylar.Io

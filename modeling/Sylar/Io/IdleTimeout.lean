import Sylar.Io.TimerAgreement
import Sylar.Lib.Narrowing
import Mathlib.Data.UInt

/-!
# The timeout of `epoll_wait`

`idle` takes the time until the next timer, narrows it to `int`, compares it with
the largest timeout, stores it in the variable that it came from and narrows it
again for the call. An interrupted call goes through all of this once more.

A time whose low half is negative as an `int` is below every bound, and a negative
timeout makes `epoll_wait` wait for an event, however long that takes.
-/

namespace Sylar.Io

open Sylar.Lib

namespace TimerManager

/-- `IOManager::stopping(timeout)`: its result, the value it stores, and the timers afterwards. -/
def stopping (now : UInt64) (pendingEventCount : Nat) (schedulerStopping : Bool)
    (s : TimerManager) : Bool × UInt64 × TimerManager :=
  let (timeout, s) := s.getNextTimer now
  (decide (timeout = -1) && decide (pendingEventCount = 0) && schedulerStopping, timeout, s)

end TimerManager

/-- Every time is stored in some run. -/
theorem stopping_stores (t : UInt64) (pendingEventCount : Nat) (schedulerStopping : Bool) :
    ∃ m : Timeline,
      Transition.Run Timeline.Step (.init 0) [.addTimer t (some 1) false 0 7] m ∧
      (m.tm.stopping 0 pendingEventCount schedulerStopping).2.1 = t := by
  obtain ⟨m, h, htimers, hnext⟩ : ∃ m : Timeline,
      Transition.Run Timeline.Step (.init 0) [.addTimer t (some 1) false 0 7] m ∧
      m.tm.timers = [0] ∧ (m.tm.heap 0).next = 0 + t :=
    ⟨_, .cons ⟨nofun, rfl⟩ (.nil _), rfl, rfl⟩
  refine ⟨m, h, ?_⟩
  change (m.tm.getNextTimer 0).1 = t
  rw [TimerManager.getNextTimer_cons htimers, hnext, UInt64.zero_add]
  split
  · next hle => exact (UInt64.le_zero_iff.1 hle).symm
  · exact UInt64.sub_zero t

namespace Idle

/-- `MAX_TIMEOUT`. -/
def maxTimeout : Int32 := 3000

/-- What one turn of the inner loop leaves in `next_timeout`. -/
def nextTimeout (t : UInt64) : UInt64 :=
  if t ≠ -1 then widen (if narrow t > maxTimeout then maxTimeout else narrow t)
  else widen maxTimeout

/-- The argument of `epoll_wait` after a number of interrupted calls. -/
def epollTimeout (t : UInt64) (retries : Nat) : Int32 := narrow (nextTimeout^[retries + 1] t)

/-- Every call gets a timeout up to the largest, and not past the next timer. -/
def Prompt (t : UInt64) : Prop :=
  ∀ retries, 0 ≤ (epollTimeout t retries).toInt ∧ (epollTimeout t retries).toInt ≤ 3000 ∧
    (t ≠ -1 → (epollTimeout t retries).toInt ≤ t.toNat)

theorem toInt_maxTimeout : maxTimeout.toInt = 3000 := rfl

/-- A timeout in the range stays as it is. -/
theorem nextTimeout_widen {n : Int32} (hn : 0 ≤ n.toInt) (hle : n.toInt ≤ 3000) :
    nextTimeout (widen n) = widen n := by
  have hne : widen n ≠ -1 := by
    intro h
    have hminus : n = -1 := widen_injective h
    rw [hminus] at hn
    exact absurd hn (by decide)
  have hmax : ¬ n > maxTimeout := by
    rw [gt_iff_lt, Int32.lt_iff_toInt_lt, toInt_maxTimeout]
    omega
  rw [nextTimeout, if_pos hne, narrow_widen, if_neg hmax]

/-- Interrupted calls do not change the timeout any more. -/
theorem epollTimeout_eq {t : UInt64} {n : Int32} (ht : nextTimeout t = widen n)
    (hn : 0 ≤ n.toInt) (hle : n.toInt ≤ 3000) (retries : Nat) : epollTimeout t retries = n := by
  have hfixed := Function.iterate_fixed (nextTimeout_widen hn hle) retries
  rw [epollTimeout, Function.iterate_succ_apply, ht, hfixed, narrow_widen]

theorem prompt_of_eq {t : UInt64} {n : Int32} (ht : nextTimeout t = widen n) (hn : 0 ≤ n.toInt)
    (hle : n.toInt ≤ 3000) (htime : t ≠ -1 → n.toInt ≤ t.toNat) : Prompt t := by
  intro retries
  rw [epollTimeout_eq ht hn hle retries]
  exact ⟨hn, hle, htime⟩

end Idle

/-- For whatever time `stopping` stores, every timeout is between 0 and 3000 and not past the next
timer, exactly if there is none or the low half of the time is not negative as an `int`. -/
theorem idle_timeout_prompt_iff (t : UInt64) :
    Idle.Prompt t ↔ t = -1 ∨ t.toNat % 2 ^ 32 < 2 ^ 31 := by
  constructor
  · intro hprompt
    by_contra hnot
    obtain ⟨hne, hlow⟩ := not_or.1 hnot
    have hneg : ¬ 0 ≤ (narrow t).toInt := fun h => hlow ((narrow_nonneg_iff t).1 h)
    have hmax : ¬ narrow t > Idle.maxTimeout := by
      rw [gt_iff_lt, Int32.lt_iff_toInt_lt, Idle.toInt_maxTimeout]
      omega
    have hfirst : Idle.epollTimeout t 0 = narrow t := by
      rw [Idle.epollTimeout, Function.iterate_one, Idle.nextTimeout, if_pos hne, if_neg hmax,
        narrow_widen]
    have hzero := (hprompt 0).1
    rw [hfirst] at hzero
    exact hneg hzero
  · intro hcond
    by_cases hnone : t = -1
    · subst hnone
      exact Idle.prompt_of_eq (n := Idle.maxTimeout) rfl (by decide) (by decide) fun h =>
        absurd rfl h
    · have hlow := hcond.resolve_left hnone
      have hvalue := toInt_narrow_of_lt hlow
      by_cases hmax : narrow t > Idle.maxTimeout
      · have hlt := Int32.lt_iff_toInt_lt.1 hmax
        rw [Idle.toInt_maxTimeout] at hlt
        apply Idle.prompt_of_eq (n := Idle.maxTimeout)
        · rw [Idle.nextTimeout, if_pos hnone, if_pos hmax]
        · decide
        · decide
        · intro _
          rw [Idle.toInt_maxTimeout]
          omega
      · have hle : (narrow t).toInt ≤ 3000 := by
          rw [← Idle.toInt_maxTimeout]
          exact not_lt.1 fun h => hmax (Int32.lt_iff_toInt_lt.2 h)
        apply Idle.prompt_of_eq (n := narrow t) _ _ hle
        · intro _
          omega
        · rw [Idle.nextTimeout, if_pos hnone, if_neg hmax]
        · omega

/-- Timers in 25 days: the first call of `epoll_wait` waits until there is an event. -/
theorem idle_timeout_negative :
    ∃ m : Timeline,
      Transition.Run Timeline.Step (.init 0) [.addTimer (2 ^ 31) (some 1) false 0 7] m ∧
      (m.tm.stopping 0 0 false).2.1 = 2 ^ 31 ∧
      Idle.epollTimeout (m.tm.stopping 0 0 false).2.1 0 = -2 ^ 31 ∧
      ¬ Idle.Prompt (m.tm.stopping 0 0 false).2.1 := by
  obtain ⟨m, h, hstores⟩ := stopping_stores (2 ^ 31) 0 false
  have hfirst : Idle.epollTimeout (2 ^ 31) 0 = -2 ^ 31 := by decide +kernel
  refine ⟨m, h, hstores, ?_, fun hprompt => ?_⟩
  · rw [hstores]
    exact hfirst
  · rw [hstores] at hprompt
    have hzero := (hprompt 0).1
    rw [hfirst] at hzero
    exact absurd hzero (by decide +kernel)

end Sylar.Io

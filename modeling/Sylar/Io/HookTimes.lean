import Sylar.Io.TimerDeadlines
import Sylar.Lib.Narrowing
import Mathlib.Data.UInt

/-!
# The timers of the hooked waits

Every hooked wait converts its argument to milliseconds in a type of its own:
`sleep` multiplies in 32 bits, `usleep` divides, `nanosleep` adds in `long` and
narrows the sum to `int`, `setsockopt` adds in `long` and `do_io` arms a timer
with that unless it is `(uint64_t)-1`. The timer adds its period to the clock.
-/

namespace Sylar.Io

open Sylar.Lib

/-- `struct timespec`. -/
structure Timespec where
  tvSec : Int64
  tvNsec : Int64
  deriving DecidableEq

/-- `struct timeval`. -/
structure Timeval where
  tvSec : Int64
  tvUsec : Int64
  deriving DecidableEq

/-- What `nanosleep` accepts. -/
def Timespec.Valid (req : Timespec) : Prop :=
  0 ≤ req.tvSec.toInt ∧ 0 ≤ req.tvNsec.toInt ∧ req.tvNsec.toInt < 10 ^ 9

/-- The whole milliseconds of the time. -/
def Timespec.milliseconds (req : Timespec) : Int :=
  req.tvSec.toInt * 1000 + req.tvNsec.toInt / 10 ^ 6

def Timespec.nanoseconds (req : Timespec) : Int := req.tvSec.toInt * 10 ^ 9 + req.tvNsec.toInt

/-- The whole milliseconds of the time. -/
def Timeval.milliseconds (v : Timeval) : Int := v.tvSec.toInt * 1000 + v.tvUsec.toInt / 1000

def Timeval.microseconds (v : Timeval) : Int := v.tvSec.toInt * 10 ^ 6 + v.tvUsec.toInt

/-- What `setsockopt` is given. -/
def Timeval.NonNegative (v : Timeval) : Prop := 0 ≤ v.tvSec.toInt ∧ 0 ≤ v.tvUsec.toInt

/-- The level of a socket option. -/
inductive SockLevel where
  | SOL_SOCKET
  | other (level : Int32)
  deriving DecidableEq

/-- The name of a socket option. -/
inductive SockOpt where
  | SO_RCVTIMEO
  | SO_SNDTIMEO
  | other (optname : Int32)
  deriving DecidableEq

/-- The timeouts of an `FdCtx`. -/
structure FdTimeouts where
  recvTimeout : UInt64
  sendTimeout : UInt64
  deriving DecidableEq

namespace FdTimeouts

/-- `FdCtx::init`. -/
def init : FdTimeouts := ⟨-1, -1⟩

def setTimeout (type : SockOpt) (v : UInt64) (ctx : FdTimeouts) : FdTimeouts :=
  if type = .SO_RCVTIMEO then { ctx with recvTimeout := v } else { ctx with sendTimeout := v }

def getTimeout (type : SockOpt) (ctx : FdTimeouts) : UInt64 :=
  if type = .SO_RCVTIMEO then ctx.recvTimeout else ctx.sendTimeout

@[simp] theorem getTimeout_setTimeout (type : SockOpt) (v : UInt64) (ctx : FdTimeouts) :
    (ctx.setTimeout type v).getTimeout type = v := by
  unfold getTimeout setTimeout
  split <;> rfl

end FdTimeouts

namespace Hooked

variable {s : TimerManager} {now : UInt64} {fiber address : Nat}

/-- `tv_sec * 1000` and a part of a second, in `long`. -/
def milliseconds (sec part : Int) : Option Int := do
  let product ← long (sec * 1000)
  long (product + part)

/-- The wait of a fiber. -/
def sleep (seconds : UInt32) (fiber : Nat) (now : UInt64) (address : Nat) (s : TimerManager) :
    Bool × TimerManager :=
  s.addTimer (seconds * 1000).toUInt64 (some (.fn fiber)) false now address

def usleep (usec : UInt32) (fiber : Nat) (now : UInt64) (address : Nat) (s : TimerManager) :
    Bool × TimerManager :=
  s.addTimer (usec / 1000).toUInt64 (some (.fn fiber)) false now address

/-- `none` if the sum overflows. -/
def nanosleep (req : Timespec) (fiber : Nat) (now : UInt64) (address : Nat) (s : TimerManager) :
    Option (Bool × TimerManager) := do
  let sum ← milliseconds req.tvSec.toInt ((req.tvNsec.toInt.tdiv 1000).tdiv 1000)
  let timeoutMs := narrow (UInt64.ofInt sum)
  some (s.addTimer (widen timeoutMs) (some (.fn fiber)) false now address)

/-- `setsockopt` on a descriptor that may have a context; `none` if the sum overflows. -/
def setsockopt (level : SockLevel) (optname : SockOpt) (v : Timeval) (ctx : Option FdTimeouts) :
    Option (Option FdTimeouts) :=
  if level = .SOL_SOCKET then
    if optname = .SO_RCVTIMEO ∨ optname = .SO_SNDTIMEO then
      match ctx with
      | none => some none
      | some ctx => do
          let sum ← milliseconds v.tvSec.toInt (v.tvUsec.toInt.tdiv 1000)
          some (some (ctx.setTimeout optname (UInt64.ofInt sum)))
    else some ctx
  else some ctx

/-- The timer of a call of `do_io` that would block, if it arms one. -/
def doIoTimer (timeoutSo : SockOpt) (ctx : FdTimeouts) (cb winfo : Nat) (now : UInt64)
    (address : Nat) (s : TimerManager) : Bool × TimerManager :=
  let timeout := ctx.getTimeout timeoutSo
  if timeout ≠ -1 then s.addConditionTimer timeout (some cb) winfo false now address
  else (false, s)

/-- The timer that was armed is due at the end of the wait or later. -/
def Covers (s : TimerManager) (now : UInt64) (nanoseconds : Nat) (s' : TimerManager) : Prop :=
  s'.count = s.count + 1 ∧
    now.toNat * 10 ^ 6 + nanoseconds ≤ (s'.heap s.count).next.toNat * 10 ^ 6

/-! ### The waits of a fiber -/

theorem next_addTimer {ms : UInt64} {cb : Option TimerCb} {recurring : Bool} :
    ((s.addTimer ms cb recurring now address).2.heap s.count).next = now + ms := by
  change (Function.update s.heap s.count _ s.count).next = now + ms
  rw [Function.update_self]

/-- The deadline of a new timer is the sum, where it does not wrap. -/
theorem covers_addTimer_iff {ms : UInt64} {cb : Option TimerCb} {recurring : Bool}
    (h : now.toNat + ms.toNat < 2 ^ 64) (nanoseconds : Nat) :
    Covers s now nanoseconds (s.addTimer ms cb recurring now address).2 ↔
      nanoseconds ≤ ms.toNat * 10 ^ 6 := by
  have hcount : (s.addTimer ms cb recurring now address).2.count = s.count + 1 := rfl
  unfold Covers
  rw [next_addTimer, hcount, Timer.toNat_add_of_lt h, Nat.add_mul]
  omega

/-- The deadline wraps and is before now. -/
theorem not_covers_addTimer {ms : UInt64} {cb : Option TimerCb} {recurring : Bool}
    (h : 2 ^ 64 ≤ now.toNat + ms.toNat) (nanoseconds : Nat) :
    ¬ Covers s now nanoseconds (s.addTimer ms cb recurring now address).2 := by
  have hnow := now.toNat_lt
  have hms := ms.toNat_lt
  unfold Covers
  rw [next_addTimer, UInt64.toNat_add]
  omega

variable (hnow : now.toNat < 2 ^ 63)

include hnow

theorem sleep_covers_iff (seconds : UInt32) :
    Covers s now (seconds.toNat * 10 ^ 9) (sleep seconds fiber now address s).2 ↔
      seconds.toNat * 1000 < 2 ^ 32 := by
  have hms : (seconds * 1000).toUInt64.toNat = seconds.toNat * 1000 % 2 ^ 32 := by
    rw [UInt32.toNat_toUInt64, UInt32.toNat_mul]
    rfl
  unfold sleep
  rw [covers_addTimer_iff (by omega), hms]
  omega

theorem usleep_covers_iff (usec : UInt32) :
    Covers s now (usec.toNat * 1000) (usleep usec fiber now address s).2 ↔
      usec.toNat % 1000 = 0 := by
  have hms : (usec / 1000).toUInt64.toNat = usec.toNat / 1000 := by
    rw [UInt32.toNat_toUInt64, UInt32.toNat_div]
    rfl
  have husec := usec.toNat_lt
  unfold usleep
  rw [covers_addTimer_iff (by omega), hms]
  omega

omit hnow in
/-- The sum is undefined exactly if its value is too large for a `long`. -/
theorem milliseconds_eq {sec part : Int} (hsec : 0 ≤ sec) (hpart : 0 ≤ part) :
    milliseconds sec part =
      if sec * 1000 + part < 2 ^ 63 then some (sec * 1000 + part) else none := by
  unfold milliseconds
  rw [long_of_nonneg (by omega)]
  by_cases hproduct : sec * 1000 < 2 ^ 63
  · rw [if_pos hproduct]
    exact long_of_nonneg (by omega)
  · rw [if_neg hproduct, if_neg (by omega)]
    rfl

omit hnow in
theorem nanosleep_eq {req : Timespec} (hreq : req.Valid) :
    nanosleep req fiber now address s =
      if req.milliseconds < 2 ^ 63 then
        some (s.addTimer (widen (narrow (UInt64.ofInt req.milliseconds))) (some (.fn fiber)) false
          now address)
      else none := by
  obtain ⟨hsec, hnsec, -⟩ := hreq
  have hpart : (req.tvNsec.toInt.tdiv 1000).tdiv 1000 = req.tvNsec.toInt / 10 ^ 6 := by
    rw [Int.tdiv_eq_ediv_of_nonneg hnsec, Int.tdiv_eq_ediv_of_nonneg (by omega)]
    omega
  unfold nanosleep Timespec.milliseconds
  rw [hpart, milliseconds_eq hsec (by omega)]
  by_cases hfits : req.tvSec.toInt * 1000 + req.tvNsec.toInt / 10 ^ 6 < 2 ^ 63
  · rw [if_pos hfits, if_pos hfits]
    rfl
  · rw [if_neg hfits, if_neg hfits]
    rfl

/-- The sum of `nanosleep` loses its upper half; if what is left is negative, the period is close
to the largest and the deadline wraps, unless the clock has just started. -/
theorem nanosleep_covers_iff {req : Timespec} (hreq : req.Valid) :
    (∃ r, nanosleep req fiber now address s = some r ∧
        Covers s now req.nanoseconds.toNat r.2) ↔
      (req.milliseconds < 2 ^ 31 ∧ req.tvNsec.toInt % 10 ^ 6 = 0) ∨
        (req.milliseconds < 2 ^ 63 ∧ 2 ^ 31 ≤ req.milliseconds % 2 ^ 32 ∧
          now.toNat + req.milliseconds % 2 ^ 32 < 2 ^ 32) := by
  rw [nanosleep_eq hreq]
  obtain ⟨hsec, hnsec, hlt⟩ := hreq
  have hnanoseconds : req.nanoseconds =
      req.milliseconds * 10 ^ 6 + req.tvNsec.toInt % 10 ^ 6 := by
    unfold Timespec.nanoseconds Timespec.milliseconds
    omega
  have hnonneg : 0 ≤ req.milliseconds := by
    unfold Timespec.milliseconds
    omega
  generalize req.milliseconds = n at *
  generalize req.nanoseconds = d at *
  by_cases hfits : n < 2 ^ 63
  · rw [if_pos hfits]
    have hword := toNat_ofInt n
    have hms := toNat_widen_narrow (UInt64.ofInt n)
    generalize UInt64.ofInt n = t at *
    simp only [Option.some.injEq, exists_eq_left']
    by_cases hlow : t.toNat % 2 ^ 32 < 2 ^ 31
    · rw [if_pos hlow] at hms
      rw [covers_addTimer_iff (by omega), hms]
      omega
    · rw [if_neg hlow] at hms
      by_cases hwrap : now.toNat + (widen (narrow t)).toNat < 2 ^ 64
      · rw [covers_addTimer_iff hwrap, hms]
        omega
      · apply iff_of_false (not_covers_addTimer (Nat.not_lt.1 hwrap) _)
        omega
  · rw [if_neg hfits]
    apply iff_of_false
    · rintro ⟨r, hr, -⟩
      cases hr
    · omega

/-! ### The timeouts of a socket -/

/-- After `setsockopt` a call that would block waits as long as was asked for, and without a timer
if that is no time at all. -/
def Honours (optname : SockOpt) (v : Timeval) (ctx : FdTimeouts) (cb winfo : Nat) (now : UInt64)
    (address : Nat) (s : TimerManager) : Prop :=
  ∃ ctx', setsockopt .SOL_SOCKET optname v (some ctx) = some (some ctx') ∧
    if v = ⟨0, 0⟩ then (doIoTimer optname ctx' cb winfo now address s).2 = s
    else Covers s now (v.microseconds * 1000).toNat
      (doIoTimer optname ctx' cb winfo now address s).2

omit hnow in
theorem setsockopt_eq {optname : SockOpt} (hopt : optname = .SO_RCVTIMEO ∨ optname = .SO_SNDTIMEO)
    {v : Timeval} (hv : v.NonNegative) (ctx : FdTimeouts) :
    setsockopt .SOL_SOCKET optname v (some ctx) =
      if v.milliseconds < 2 ^ 63 then
        some (some (ctx.setTimeout optname (UInt64.ofInt v.milliseconds)))
      else none := by
  obtain ⟨hsec, husec⟩ := hv
  unfold setsockopt Timeval.milliseconds
  rw [if_pos rfl, if_pos hopt, Int.tdiv_eq_ediv_of_nonneg husec,
    milliseconds_eq hsec (by omega)]
  by_cases hfits : v.tvSec.toInt * 1000 + v.tvUsec.toInt / 1000 < 2 ^ 63
  · rw [if_pos hfits, if_pos hfits]
    rfl
  · rw [if_neg hfits, if_neg hfits]
    rfl

/-- A timer is armed for every time that can be set, none included. -/
theorem honours_iff {optname : SockOpt} (hopt : optname = .SO_RCVTIMEO ∨ optname = .SO_SNDTIMEO)
    {v : Timeval} (hv : v.NonNegative) (ctx : FdTimeouts) (cb winfo : Nat) :
    Honours optname v ctx cb winfo now address s ↔
      v ≠ ⟨0, 0⟩ ∧ v.milliseconds < 2 ^ 63 ∧ v.tvUsec.toInt % 1000 = 0 := by
  unfold Honours
  rw [setsockopt_eq hopt hv]
  obtain ⟨hsec, husec⟩ := hv
  by_cases hfits : v.milliseconds < 2 ^ 63
  · have hnonneg : 0 ≤ v.milliseconds := by
      unfold Timeval.milliseconds
      omega
    have hword := toNat_ofInt v.milliseconds
    have harmed : UInt64.ofInt v.milliseconds ≠ -1 := by
      intro h
      rw [h, show (-1 : UInt64).toNat = 2 ^ 64 - 1 from rfl] at hword
      omega
    have htimer : (doIoTimer optname (ctx.setTimeout optname (UInt64.ofInt v.milliseconds)) cb
        winfo now address s) = s.addConditionTimer (UInt64.ofInt v.milliseconds) (some cb) winfo
          false now address := by
      unfold doIoTimer
      rw [FdTimeouts.getTimeout_setTimeout]
      exact if_pos harmed
    simp only [if_pos hfits, Option.some.injEq, exists_eq_left', htimer]
    by_cases hzero : v = ⟨0, 0⟩
    · rw [if_pos hzero]
      apply iff_of_false _ (fun h => h.1 hzero)
      intro hsame
      have hcount : s.count + 1 = s.count := congrArg TimerManager.count hsame
      omega
    · rw [if_neg hzero]
      unfold TimerManager.addConditionTimer
      rw [covers_addTimer_iff (by omega)]
      have hmicroseconds : v.microseconds =
          v.milliseconds * 1000 + v.tvUsec.toInt % 1000 := by
        unfold Timeval.microseconds Timeval.milliseconds
        omega
      constructor
      · intro hle
        exact ⟨hzero, hfits, by omega⟩
      · rintro ⟨-, -, hwhole⟩
        omega
  · rw [if_neg hfits]
    apply iff_of_false
    · rintro ⟨ctx', hctx, -⟩
      cases hctx
    · exact fun h => hfits h.2.1

end Hooked

/-- Which hooked waits are not shorter than asked for: the product of `sleep` must fit into 32
bits, the times of the others must be whole milliseconds, the sum of `nanosleep` must fit into an
`int` or its negative rest must not wrap, and a socket must be given a time. -/
theorem hooked_waits_cover_iff {now : UInt64} (hnow : now.toNat < 2 ^ 63) (s : TimerManager)
    (fiber address : Nat) :
    (∀ seconds : UInt32,
      Hooked.Covers s now (seconds.toNat * 10 ^ 9)
          (Hooked.sleep seconds fiber now address s).2 ↔
        seconds.toNat * 1000 < 2 ^ 32) ∧
    (∀ usec : UInt32,
      Hooked.Covers s now (usec.toNat * 1000) (Hooked.usleep usec fiber now address s).2 ↔
        usec.toNat % 1000 = 0) ∧
    (∀ req : Timespec, req.Valid →
      ((∃ r, Hooked.nanosleep req fiber now address s = some r ∧
          Hooked.Covers s now req.nanoseconds.toNat r.2) ↔
        (req.milliseconds < 2 ^ 31 ∧ req.tvNsec.toInt % 10 ^ 6 = 0) ∨
          (req.milliseconds < 2 ^ 63 ∧ 2 ^ 31 ≤ req.milliseconds % 2 ^ 32 ∧
            now.toNat + req.milliseconds % 2 ^ 32 < 2 ^ 32))) ∧
    ∀ (optname : SockOpt) (v : Timeval) (ctx : FdTimeouts) (cb winfo : Nat),
      optname = .SO_RCVTIMEO ∨ optname = .SO_SNDTIMEO → v.NonNegative →
        (Hooked.Honours optname v ctx cb winfo now address s ↔
          v ≠ ⟨0, 0⟩ ∧ v.milliseconds < 2 ^ 63 ∧ v.tvUsec.toInt % 1000 = 0) := by
  refine ⟨Hooked.sleep_covers_iff hnow, Hooked.usleep_covers_iff hnow, fun req hreq => ?_,
    fun optname v ctx cb winfo hopt hv => ?_⟩
  · exact Hooked.nanosleep_covers_iff hnow hreq
  · exact Hooked.honours_iff hnow hopt hv ctx cb winfo

/-- Whole milliseconds, at a clock of a second. -/
theorem hooked_waits_cover_iff_whole :
    Hooked.Covers (.init 0) 1000 (10 * 10 ^ 9) (Hooked.sleep 10 1 1000 7 (.init 0)).2 ∧
    Hooked.Covers (.init 0) 1000 (2000 * 1000) (Hooked.usleep 2000 1 1000 7 (.init 0)).2 ∧
    (∃ r, Hooked.nanosleep ⟨3, 5000000⟩ 1 1000 7 (.init 0) = some r ∧
      Hooked.Covers (.init 0) 1000 3005000000 r.2) ∧
    Hooked.Honours .SO_SNDTIMEO ⟨0, 500000⟩ .init 1 2 1000 7 (.init 0) := by
  obtain ⟨hsleep, husleep, hnanosleep, hsocket⟩ :=
    hooked_waits_cover_iff (show (1000 : UInt64).toNat < 2 ^ 63 by decide) (.init 0) 1 7
  refine ⟨(hsleep 10).2 (by decide), (husleep 2000).2 (by decide), ?_, ?_⟩
  · exact (hnanosleep ⟨3, 5000000⟩ ⟨by decide, by decide, by decide⟩).2
      (.inl ⟨by decide, by decide⟩)
  · exact (hsocket .SO_SNDTIMEO ⟨0, 500000⟩ .init 1 2 (.inr rfl) ⟨by decide, by decide⟩).2
      ⟨by decide, by decide, by decide⟩

/-- A `sleep` of 50 days ends after a second, a `usleep` of a millisecond and a half after a
millisecond, the deadline of a `nanosleep` of 25 days has passed, and a socket without a timeout
times out at once. -/
theorem hooked_waits_end_early :
    ¬ Hooked.Covers (.init 0) (2 ^ 40) (4294968 * 10 ^ 9)
      (Hooked.sleep 4294968 1 (2 ^ 40) 7 (.init 0)).2 ∧
    ¬ Hooked.Covers (.init 0) (2 ^ 40) (1500 * 1000)
      (Hooked.usleep 1500 1 (2 ^ 40) 7 (.init 0)).2 ∧
    ¬ (∃ r, Hooked.nanosleep ⟨2147484, 0⟩ 1 (2 ^ 40) 7 (.init 0) = some r ∧
      Hooked.Covers (.init 0) (2 ^ 40) (2147484 * 10 ^ 9) r.2) ∧
    ¬ Hooked.Honours .SO_RCVTIMEO ⟨0, 0⟩ .init 1 2 (2 ^ 40) 7 (.init 0) := by
  have hnow : (2 ^ 40 : UInt64).toNat < 2 ^ 63 := by decide +kernel
  refine ⟨fun h => ?_, fun h => ?_, fun h => ?_, fun h => ?_⟩
  · exact absurd ((Hooked.sleep_covers_iff hnow 4294968).1 h) (by decide)
  · exact absurd ((Hooked.usleep_covers_iff hnow 1500).1 h) (by decide)
  · have hreq : Timespec.Valid ⟨2147484, 0⟩ := ⟨by decide, by decide, by decide⟩
    have hcond := (Hooked.nanosleep_covers_iff hnow hreq).1 h
    exact absurd hcond (by decide +kernel)
  · have hcond := (Hooked.honours_iff hnow (.inl rfl) ⟨by decide, by decide⟩ .init 1 2).1 h
    exact hcond.1 rfl

end Sylar.Io

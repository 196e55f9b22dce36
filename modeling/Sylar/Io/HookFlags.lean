import Mathlib.Logic.Function.Basic
import Sylar.Lib.History
import Sylar.Io.FdManager

/-!
# The non-blocking flag under the hook

For a socket that is tracked, the kernel, `m_sysNonblock` and `m_usrNonblock` each have a
copy of the flag. `fcntl` shows the user the last copy and sets the flag for the kernel
in any case, `ioctl` passes what the user asks for on to the kernel.

Of a file the kernel keeps whether it is a socket, and its status flags.
-/

namespace Sylar.Io

open Sylar.Lib Sylar.Lib.History

/-- The `int` that `fcntl` passes. -/
abbrev Flags := BitVec 32

/-- `O_NONBLOCK`. -/
def oNonblock : Flags := .twoPow 32 11

/-- `flags & O_NONBLOCK` as a truth value. -/
def nonblocking (flags : Flags) : Bool := flags &&& oNonblock != 0

theorem nonblocking_eq (flags : Flags) : nonblocking flags = flags.getLsbD 11 := by
  rw [nonblocking, oNonblock, BitVec.and_twoPow]
  cases flags.getLsbD 11 with
  | true => decide
  | false => decide

@[simp] theorem nonblocking_or (flags : Flags) : nonblocking (flags ||| oNonblock) = true := by
  simp [nonblocking_eq, oNonblock]

@[simp] theorem nonblocking_and_not (flags : Flags) :
    nonblocking (flags &&& ~~~oNonblock) = false := by
  simp [nonblocking_eq, oNonblock]

/-- An open file. -/
structure File where
  isSocket : Bool
  flags : Flags

/-- The open files by descriptor. -/
abbrev OpenFiles := Nat → Option File

namespace OpenFiles

/-- The flags that `F_SETFL` can change: `O_APPEND`, `O_NONBLOCK`, `O_ASYNC`, `O_DIRECT` and
`O_NOATIME`. -/
def setflMask : Flags := 0x46C00

variable (k : OpenFiles) (fd : Nat)

def setFlags (change : Flags → Flags) : OpenFiles :=
  Function.update k fd ((k fd).map fun f => { f with flags := change f.flags })

/-- `fcntl_f(fd, F_SETFL, arg)`. -/
def setfl (arg : Flags) : OpenFiles :=
  k.setFlags fd fun flags => (arg &&& setflMask) ||| (flags &&& ~~~setflMask)

/-- `ioctl_f(fd, FIONBIO, &on)`. -/
def fionbio (on : Bool) : OpenFiles :=
  k.setFlags fd fun flags => if on then flags ||| oNonblock else flags &&& ~~~oNonblock

/-- A new socket gets the descriptor. -/
def openSocket (flags : Flags) : OpenFiles := Function.update k fd (some ⟨true, flags⟩)

/-- `close_f(fd)`. -/
def close : OpenFiles := Function.update k fd none

end OpenFiles

/-- `FdCtx`, without the timeouts. -/
structure FdCtx where
  isInit : Bool
  isSocket : Bool
  sysNonblock : Bool
  usrNonblock : Bool
  isClosed : Bool
  deriving DecidableEq, Repr

namespace FdCtx

/-- The context of a socket, with the flag of the user. -/
def ofSocket (usrNonblock : Bool) : FdCtx := ⟨true, true, true, usrNonblock, false⟩

/-- `FdCtx(fd)`, which calls `init`. -/
def new (k : OpenFiles) (fd : Nat) : FdCtx × OpenFiles :=
  match k fd with
  | none => (⟨false, false, false, false, false⟩, k)
  | some f =>
      if f.isSocket then
        (ofSocket false,
          if nonblocking f.flags then k else k.setfl fd (f.flags ||| oNonblock))
      else (⟨true, false, false, false, false⟩, k)

end FdCtx

/-- The open files and the contexts. -/
structure HookState where
  kernel : OpenFiles
  mgr : FdManager FdCtx

namespace HookState

/-- Nothing is tracked. -/
def init (kernel : OpenFiles) : HookState := ⟨kernel, .new⟩

section Calls

variable (s : HookState) (fd : Nat)

/-- `FdMgr::GetInstance()->get(fd, true)`. -/
def getCreate : HookState :=
  match s.mgr.lookup fd true with
  | some _ => s
  | none => ⟨(FdCtx.new s.kernel fd).2, s.mgr.store fd (FdCtx.new s.kernel fd).1⟩

/-- `socket`, for which the kernel has chosen the descriptor. -/
def socket (hookEnable : Bool) (flags : Flags) : HookState :=
  let s := { s with kernel := s.kernel.openSocket fd flags }
  if hookEnable then s.getCreate fd else s

/-- `accept`, for which the kernel has chosen the descriptor. -/
def accept (flags : Flags) : HookState :=
  HookState.getCreate { s with kernel := s.kernel.openSocket fd flags } fd

def close (hookEnable : Bool) : HookState :=
  if hookEnable && (s.mgr.get fd).isSome then ⟨s.kernel.close fd, s.mgr.del fd⟩
  else { s with kernel := s.kernel.close fd }

/-- `ctx->setUserNonblock(v)` on the context of the descriptor. -/
def setUserNonblock (ctx : FdCtx) (v : Bool) : HookState :=
  { s with mgr := s.mgr.store fd { ctx with usrNonblock := v } }

/-- `fcntl(fd, F_SETFL, arg)`. -/
def fcntlSetfl (arg : Flags) : HookState :=
  match s.mgr.get fd with
  | none => { s with kernel := s.kernel.setfl fd arg }
  | some ctx =>
      if ctx.isClosed then { s with kernel := s.kernel.setfl fd arg }
      else
        let s := s.setUserNonblock fd ctx (nonblocking arg)
        { s with
          kernel := s.kernel.setfl fd
            (if ctx.sysNonblock then arg ||| oNonblock else arg &&& ~~~oNonblock) }

/-- `fcntl(fd, F_GETFL)`; `none` if the descriptor is not open. -/
def fcntlGetfl : Option Flags :=
  (s.kernel fd).map fun f =>
    match s.mgr.get fd with
    | none => f.flags
    | some ctx =>
        if ctx.isClosed || !ctx.isSocket then f.flags
        else if ctx.usrNonblock then f.flags ||| oNonblock
        else f.flags &&& ~~~oNonblock

/-- `ioctl(fd, FIONBIO, &on)`. -/
def ioctlFionbio (on : Bool) : HookState :=
  match s.mgr.get fd with
  | none => { s with kernel := s.kernel.fionbio fd on }
  | some ctx =>
      if ctx.isClosed || !ctx.isSocket then { s with kernel := s.kernel.fionbio fd on }
      else
        let s := s.setUserNonblock fd ctx on
        { s with kernel := s.kernel.fionbio fd on }

end Calls

inductive Act where
  | socket (fd : Nat) (flags : Flags)
  | accept (fd : Nat) (flags : Flags)
  | setfl (fd : Nat) (arg : Flags)
  | getfl (fd : Nat)
  | fionbio (fd : Nat) (on : Bool)
  | close (fd : Nat)
  deriving DecidableEq, Repr

/-- The calls with the hook enabled. The kernel gives a new socket a descriptor that is free. -/
def Step (s : HookState) : Act → HookState → Prop
  | .socket fd flags, s' => s.kernel fd = none ∧ s' = s.socket fd true flags
  | .accept fd flags, s' => s.kernel fd = none ∧ s' = s.accept fd flags
  | .setfl fd arg, s' => s' = s.fcntlSetfl fd arg
  | .getfl _, s' => s' = s
  | .fionbio fd on, s' => s' = s.ioctlFionbio fd on
  | .close fd, s' => s' = s.close fd true

/-- What a user asks for. -/
inductive Request where
  | setfl (arg : Flags)
  | fionbio (on : Bool)
  deriving DecidableEq, Repr

/-- The request is for the non-blocking flag. -/
def Request.asks : Request → Bool
  | .setfl arg => nonblocking arg
  | .fionbio on => on

/-- The request that a call makes for a descriptor. A new socket begins without one. -/
def Act.request : Act → Option (Nat × Option Request)
  | .socket fd _ | .accept fd _ | .close fd => some (fd, none)
  | .setfl fd arg => some (fd, some (.setfl arg))
  | .fionbio fd on => some (fd, some (.fionbio on))
  | .getfl _ => none

section Specification

variable (acts : List Act) (fd : Nat)

/-- The last request for the descriptor was for the non-blocking flag. -/
def Asked : Prop := ∃ r n, Current Act.request acts fd r n ∧ r.asks = true

/-- The last request for the descriptor was to clear the flag by `ioctl`. -/
def Cleared : Prop := ∃ n, Current Act.request acts fd (.fionbio false) n

/-- The kernel has the flag of every tracked socket, and the user sees their own. -/
def Sound (s : HookState) : Prop :=
  ∀ fd f, s.kernel fd = some f → f.isSocket = true → (s.mgr.ctxAt fd).isSome →
    nonblocking f.flags = true ∧
      ∃ flags, s.fcntlGetfl fd = some flags ∧ (nonblocking flags = true ↔ Asked acts fd)

end Specification

/-- What is known of a descriptor after a history: a context is that of an open socket, has
the flag that the user asked for, and the kernel has the flag unless it was cleared. -/
def TracksAt (acts : List Act) (s : HookState) (fd : Nat) : Prop :=
  ∀ ctx, s.mgr.ctxAt fd = some ctx → ∃ usr f, ctx = .ofSocket usr ∧ s.kernel fd = some f ∧
    f.isSocket = true ∧ (usr = true ↔ Asked acts fd) ∧
      (nonblocking f.flags = true ↔ ¬Cleared acts fd)

def Tracks (acts : List Act) (s : HookState) : Prop := ∀ fd, TracksAt acts s fd

section Requests

variable {acts : List Act} {a : Act} {fd fd' : Nat}

theorem asked_of_request {r : Option Request} (ha : a.request = some (fd, r)) :
    Asked (acts ++ [a]) fd ↔ ∃ r', r = some r' ∧ r'.asks = true := by
  simp only [Asked, current_of_touched ha]
  constructor
  · rintro ⟨r', n, ⟨-, hr⟩, hasks⟩
    exact ⟨r', hr, hasks⟩
  · rintro ⟨r', hr, hasks⟩
    exact ⟨r', _, ⟨rfl, hr⟩, hasks⟩

theorem cleared_of_request {r : Option Request} (ha : a.request = some (fd, r)) :
    Cleared (acts ++ [a]) fd ↔ r = some (.fionbio false) := by
  simp [Cleared, current_of_touched ha]

/-- A call for one descriptor leaves what is known of the others. -/
theorem Tracks.of_local {s s' : HookState} {r : Option Request} (hs : Tracks acts s)
    (ha : a.request = some (fd, r)) (hkernel : ∀ i, i ≠ fd → s'.kernel i = s.kernel i)
    (hmgr : ∀ i, i ≠ fd → s'.mgr.ctxAt i = s.mgr.ctxAt i) (hself : TracksAt (acts ++ [a]) s' fd) :
    Tracks (acts ++ [a]) s' := by
  intro i
  by_cases hi : i = fd
  · exact hi ▸ hself
  · have huntouched : ∀ w, a.request ≠ some (i, w) := by
      intro w hw
      rw [ha] at hw
      cases hw
      exact hi rfl
    intro ctx hctx
    rw [hmgr i hi] at hctx
    simpa only [Asked, Cleared, current_of_untouched huntouched, hkernel i hi] using hs i ctx hctx

end Requests

section OpenFiles

variable (k : OpenFiles) {fd i : Nat}

theorem setFlags_self {f : File} (hf : k fd = some f) (change : Flags → Flags) :
    k.setFlags fd change fd = some { f with flags := change f.flags } := by
  rw [OpenFiles.setFlags, Function.update_self, hf]
  rfl

theorem setFlags_of_ne (hi : i ≠ fd) (change : Flags → Flags) : k.setFlags fd change i = k i :=
  Function.update_of_ne hi _ _

/-- Of the flags that are set, the kernel takes this one. -/
theorem nonblocking_setfl (arg flags : Flags) :
    nonblocking ((arg &&& OpenFiles.setflMask) ||| (flags &&& ~~~OpenFiles.setflMask)) =
      nonblocking arg := by
  have hmask : OpenFiles.setflMask.getLsbD 11 = true := by decide
  simp only [nonblocking_eq, BitVec.getLsbD_or, BitVec.getLsbD_and, BitVec.getLsbD_not, hmask]
  simp

end OpenFiles

section Steps

variable {acts : List Act} {s s' : HookState} {fd : Nat}

/-- A new socket is tracked, without a request, and the kernel has the flag. -/
theorem Tracks.opened {a : Act} (hs : Tracks acts s) (hfree : s.kernel fd = none)
    (ha : a.request = some (fd, none)) (flags : Flags) :
    Tracks (acts ++ [a]) (s.accept fd flags) := by
  have hctx : s.mgr.ctxAt fd = none := by
    cases hctx : s.mgr.ctxAt fd with
    | none => rfl
    | some ctx =>
        obtain ⟨usr, f, -, hf, -⟩ := hs fd ctx hctx
        rw [hfree] at hf
        cases hf
  have hlookup : s.mgr.lookup fd true = none := by
    rw [FdManager.lookup_eq, if_pos ⟨rfl, hctx⟩]
  have hopen : s.kernel.openSocket fd flags fd = some ⟨true, flags⟩ := Function.update_self _ _ _
  have hothers : ∀ i, i ≠ fd → s.kernel.openSocket fd flags i = s.kernel i :=
    fun i hi => Function.update_of_ne hi _ _
  have hstate : s.accept fd flags =
      ⟨if nonblocking flags then s.kernel.openSocket fd flags
        else (s.kernel.openSocket fd flags).setfl fd (flags ||| oNonblock),
        s.mgr.store fd (.ofSocket false)⟩ := by
    simp only [accept, getCreate, hlookup, FdCtx.new, hopen, if_true]
  rw [hstate]
  refine hs.of_local ha ?_ ?_ ?_
  · intro i hi
    dsimp only
    split
    · exact hothers i hi
    · exact (setFlags_of_ne _ hi _).trans (hothers i hi)
  · intro i hi
    exact (s.mgr.ctxAt_store fd i _).trans (if_neg hi)
  · intro ctx hctx
    rw [FdManager.ctxAt_store, if_pos rfl, Option.some.injEq] at hctx
    have hclear : ¬Cleared (acts ++ [a]) fd := by
      rw [cleared_of_request ha]
      rintro ⟨⟩
    have hasked : (false = true) ↔ Asked (acts ++ [a]) fd := by
      rw [asked_of_request ha]
      simp
    dsimp only
    split
    · next hflag => exact ⟨false, _, hctx.symm, hopen, rfl, hasked, iff_of_true hflag hclear⟩
    · refine ⟨false, _, hctx.symm, setFlags_self _ hopen _, rfl, hasked, iff_of_true ?_ hclear⟩
      rw [nonblocking_setfl, nonblocking_or]

theorem socket_eq_accept (s : HookState) (fd : Nat) (flags : Flags) :
    s.socket fd true flags = s.accept fd flags := rfl

/-- A request sets the flags of the file. For a tracked socket it also sets the copy of the
user, and all but one leave the flag to the kernel. -/
theorem Tracks.requested {a : Act} {r : Request} {change untracked : Flags → Flags}
    (hs : Tracks acts s) (ha : a.request = some (fd, some r))
    (hnone : s.mgr.ctxAt fd = none → s' = { s with kernel := s.kernel.setFlags fd untracked })
    (hsome : ∀ usr, s.mgr.ctxAt fd = some (.ofSocket usr) →
      s' = ⟨s.kernel.setFlags fd change, s.mgr.store fd (.ofSocket r.asks)⟩)
    (hchange : ∀ flags, nonblocking (change flags) = true ↔ r ≠ .fionbio false) :
    Tracks (acts ++ [a]) s' := by
  cases hctx : s.mgr.ctxAt fd with
  | none =>
      rw [hnone hctx]
      refine hs.of_local ha (fun i hi => setFlags_of_ne _ hi _) (fun _ _ => rfl) ?_
      intro ctx hnew
      rw [hctx] at hnew
      cases hnew
  | some ctx =>
      obtain ⟨usr, f, rfl, hf, hsocket, -, -⟩ := hs fd ctx hctx
      rw [hsome usr hctx]
      refine hs.of_local ha (fun i hi => setFlags_of_ne _ hi _)
        (fun i hi => (s.mgr.ctxAt_store fd i _).trans (if_neg hi)) ?_
      intro ctx hnew
      rw [FdManager.ctxAt_store, if_pos rfl, Option.some.injEq] at hnew
      refine ⟨r.asks, _, hnew.symm, setFlags_self _ hf _, hsocket, ?_, ?_⟩
      · rw [asked_of_request ha]
        simp
      · rw [cleared_of_request ha, hchange, ne_eq, Option.some.injEq]

theorem fcntlSetfl_of_untracked (h : s.mgr.ctxAt fd = none) (arg : Flags) :
    s.fcntlSetfl fd arg = { s with kernel := s.kernel.setfl fd arg } := by
  simp only [fcntlSetfl, FdManager.get_eq, h]

theorem fcntlSetfl_of_tracked {usr : Bool} (h : s.mgr.ctxAt fd = some (.ofSocket usr))
    (arg : Flags) :
    s.fcntlSetfl fd arg =
      ⟨s.kernel.setfl fd (arg ||| oNonblock), s.mgr.store fd (.ofSocket (nonblocking arg))⟩ := by
  simp only [fcntlSetfl, FdManager.get_eq, h]
  rfl

theorem ioctlFionbio_of_untracked (h : s.mgr.ctxAt fd = none) (on : Bool) :
    s.ioctlFionbio fd on = { s with kernel := s.kernel.fionbio fd on } := by
  simp only [ioctlFionbio, FdManager.get_eq, h]

/-- The kernel gets what the user asks for. -/
theorem ioctlFionbio_of_tracked {usr : Bool} (h : s.mgr.ctxAt fd = some (.ofSocket usr))
    (on : Bool) :
    s.ioctlFionbio fd on = ⟨s.kernel.fionbio fd on, s.mgr.store fd (.ofSocket on)⟩ := by
  simp only [ioctlFionbio, FdManager.get_eq, h]
  rfl

theorem Tracks.setfl (hs : Tracks acts s) (fd : Nat) (arg : Flags) :
    Tracks (acts ++ [.setfl fd arg]) (s.fcntlSetfl fd arg) := by
  refine hs.requested rfl (fun hnone => fcntlSetfl_of_untracked hnone arg)
    (fun usr hsome => fcntlSetfl_of_tracked hsome arg) (fun flags => ?_)
  rw [nonblocking_setfl, nonblocking_or]
  simp

theorem Tracks.fionbio (hs : Tracks acts s) (fd : Nat) (on : Bool) :
    Tracks (acts ++ [.fionbio fd on]) (s.ioctlFionbio fd on) := by
  refine hs.requested rfl (fun hnone => ioctlFionbio_of_untracked hnone on)
    (fun usr hsome => ioctlFionbio_of_tracked hsome on) (fun flags => ?_)
  cases on with
  | true => simp
  | false => simp

theorem Tracks.close (hs : Tracks acts s) (fd : Nat) :
    Tracks (acts ++ [.close fd]) (s.close fd true) := by
  have hothers : ∀ i, i ≠ fd → s.kernel.close fd i = s.kernel i :=
    fun i hi => Function.update_of_ne hi _ _
  unfold HookState.close
  rw [FdManager.get_eq]
  split
  · refine hs.of_local rfl hothers (fun i hi => (s.mgr.ctxAt_del fd i).trans (if_neg hi)) ?_
    intro ctx hctx
    rw [FdManager.ctxAt_del, if_pos rfl] at hctx
    cases hctx
  · next hnone =>
      refine hs.of_local rfl hothers (fun _ _ => rfl) ?_
      intro ctx hctx
      dsimp only at hctx
      simp [hctx] at hnone

theorem Tracks.step (acts : List Act) (s : HookState) (a : Act) (s' : HookState)
    (hs : Tracks acts s) (hstep : s.Step a s') : Tracks (acts ++ [a]) s' := by
  cases a with
  | socket fd flags =>
      obtain ⟨hfree, rfl⟩ := hstep
      rw [socket_eq_accept]
      exact hs.opened hfree rfl flags
  | accept fd flags =>
      obtain ⟨hfree, rfl⟩ := hstep
      exact hs.opened hfree rfl flags
  | setfl fd arg =>
      obtain rfl := hstep
      exact hs.setfl fd arg
  | fionbio fd on =>
      obtain rfl := hstep
      exact hs.fionbio fd on
  | close fd =>
      obtain rfl := hstep
      exact hs.close fd
  | getfl fd =>
      obtain rfl := hstep
      intro i ctx hctx
      have huntouched : ∀ w, (Act.getfl fd).request ≠ some (i, w) := fun w hw => by cases hw
      simpa only [Asked, Cleared, current_of_untouched huntouched] using hs i ctx hctx

theorem tracks_of_run {kernel : OpenFiles} (hrun : Transition.Run Step (init kernel) acts s) :
    Tracks acts s := by
  have hinit : Tracks [] (init kernel) := by
    intro fd ctx hctx
    rw [init, FdManager.ctxAt_new] at hctx
    cases hctx
  exact hrun.history Tracks.step hinit

/-- The user sees the flag that was asked for. -/
theorem TracksAt.getfl {ctx : FdCtx} (hs : TracksAt acts s fd) (hctx : s.mgr.ctxAt fd = some ctx) :
    ∃ flags, s.fcntlGetfl fd = some flags ∧ (nonblocking flags = true ↔ Asked acts fd) := by
  obtain ⟨usr, f, rfl, hf, -, hasked, -⟩ := hs ctx hctx
  rw [← hasked, fcntlGetfl, FdManager.get_eq, hf, hctx]
  cases usr with
  | true => exact ⟨_, rfl, by simp [FdCtx.ofSocket]⟩
  | false => exact ⟨_, rfl, by simp [FdCtx.ofSocket]⟩

end Steps

end HookState

end Sylar.Io

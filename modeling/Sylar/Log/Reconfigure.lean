import Mathlib.Logic.Function.Basic
import Sylar.Log.Formatter
import Sylar.Log.LogDefine

/-!
# Reconfiguration of the loggers

The listener of `logs` compares the old set with the new one. A logger that is new or
changed is set anew, one that is gone is silenced, an unchanged one is passed over. The
formatter of a logger is replaced only by one that is given and has no error, so without
one the logger keeps what an earlier configuration left.
-/

namespace Sylar.Log

open Sylar.Lib
open Sylar.Http (Text ascii)

/-- The value of the enumerator. -/
def LogLevel.value : LogLevel → Nat
  | .unknow => 0
  | .debug => 1
  | .info => 2
  | .warn => 3
  | .error => 4
  | .fatal => 5

/-- The class of an appender; that of a file has its name. -/
inductive AppenderTarget where
  | file (filename : Text)
  | stdout
  deriving DecidableEq, Repr

/-- `LogAppender`; the formatter is empty until one is set. -/
structure LogAppender where
  target : AppenderTarget
  level : LogLevel
  formatter : Option LogFormatter
  hasFormatter : Bool
  deriving DecidableEq, Repr

namespace LogAppender

def new (target : AppenderTarget) : LogAppender := ⟨target, .debug, none, false⟩

/-- `setFormatter` with a formatter that is not null. -/
def setFormatter (ap : LogAppender) (val : LogFormatter) : LogAppender :=
  { ap with formatter := some val, hasFormatter := true }

end LogAppender

/-- `Logger`. The level is a number, as the listener casts 100 to a level. -/
structure Logger where
  level : Nat
  formatter : LogFormatter
  appenders : List LogAppender
  deriving DecidableEq, Repr

namespace Logger

def defaultPattern : Text :=
  ascii "%d\x7b%Y-%m-%d %H:%M:%S\x7d%T%t%T%N%T%F%T[%p]%T[%c]%T%f:%l%T%m%n"

def new : Logger := ⟨LogLevel.debug.value, .new defaultPattern, []⟩

def addAppender (l : Logger) (ap : LogAppender) : Logger :=
  let ap := { ap with formatter := ap.formatter.or (some l.formatter) }
  { l with appenders := l.appenders ++ [ap] }

def clearAppenders (l : Logger) : Logger := { l with appenders := [] }

/-- `setFormatter(LogFormatter::ptr)`. -/
def setFormatter (l : Logger) (val : LogFormatter) : Logger :=
  { l with
    formatter := val
    appenders := l.appenders.map fun ap =>
      if ap.hasFormatter then ap else { ap with formatter := some val } }

/-- `setFormatter(const std::string&)`. -/
def setFormatterText (l : Logger) (val : Text) : Logger :=
  if (LogFormatter.new val).error then l else l.setFormatter (.new val)

/-- What can be seen of an appender: class and file, level, and the pattern it writes by. -/
structure AppenderSettings where
  target : AppenderTarget
  level : LogLevel
  pattern : Option Text
  deriving DecidableEq, Repr

/-- Level, pattern and appenders of a logger. -/
structure Settings where
  level : Nat
  pattern : Text
  appenders : List AppenderSettings
  deriving DecidableEq, Repr

def settings (l : Logger) : Settings :=
  ⟨l.level, l.formatter.pattern,
    l.appenders.map fun ap => ⟨ap.target, ap.level, ap.formatter.map LogFormatter.pattern⟩⟩

end Logger

/-- What `ap.reset` makes, by the type; `none` if the pointer stays null. -/
def LogAppenderDefine.target (a : LogAppenderDefine) : Option AppenderTarget :=
  if a.type = 1 then some (.file a.file)
  else if a.type = 2 then some .stdout
  else none

/-- The appender that the listener adds; `none` where it uses a null pointer. -/
def LogAppenderDefine.make (a : LogAppenderDefine) : Option LogAppender :=
  a.target.map fun target =>
    let ap := { LogAppender.new target with level := a.level }
    if a.formatter ≠ [] ∧ (LogFormatter.new a.formatter).error = false then
      ap.setFormatter (.new a.formatter)
    else ap

namespace LogDefine

/-- The logger as the listener sets it from the definition. -/
def configure (d : LogDefine) (l : Logger) : Option Logger :=
  let l := { l with level := d.level.value }
  let l := if d.formatter = [] then l else l.setFormatterText d.formatter
  d.appenders.foldlM (fun l a => a.make.map l.addAppender) l.clearAppenders

/-- The definition has a formatter, and it has no error. -/
def HasFormatter (d : LogDefine) : Prop :=
  d.formatter ≠ [] ∧ (LogFormatter.new d.formatter).error = false

instance (d : LogDefine) : Decidable d.HasFormatter := by
  unfold HasFormatter
  infer_instance

/-- Every appender is a file or the standard output. -/
def Buildable (d : LogDefine) : Prop := ∀ a ∈ d.appenders, a.type = 1 ∨ a.type = 2

end LogDefine

/-- `m_loggers`, with every logger that is not there as `getLogger` would make it. -/
abbrev Loggers : Type := Text → Logger

/-- The variable `logs` and the loggers. -/
structure LogState where
  value : LogDefines
  loggers : Loggers

namespace LogState

/-- Nothing is configured, and the root logger writes to the standard output. -/
def init : LogState :=
  ⟨.empty, Function.update (fun _ => Logger.new) (ascii "root")
    (Logger.new.addAppender (.new .stdout))⟩

/-- A definition in the new value; it is passed over if the old value has it. -/
def applyDefine (old : LogDefines) (ls : Loggers) (d : LogDefine) : Option Loggers :=
  if OrderedSet.find LogDefine.less d old.list = some d then some ls
  else (d.configure (ls d.name)).map (Function.update ls d.name)

/-- A definition in the old value; its logger is silenced if the new value has none. -/
def retire (new : LogDefines) (ls : Loggers) (d : LogDefine) : Loggers :=
  if OrderedSet.find LogDefine.less d new.list = none then
    Function.update ls d.name { ls d.name with level := 100, appenders := [] }
  else ls

/-- The listener of `LogIniter`. -/
def listener (old new : LogDefines) (ls : Loggers) : Option Loggers := do
  let ls ← new.list.foldlM (applyDefine old) ls
  return old.list.foldl (retire new) ls

/-- `g_log_defines->setValue(v)`. -/
def setValue (s : LogState) (v : LogDefines) : Option LogState :=
  if v.list = s.value.list then some s
  else (listener s.value v s.loggers).map fun ls => ⟨v, ls⟩

/-- The values are set one after another. -/
def run (vs : List LogDefines) : Option LogState := vs.foldlM setValue init

end LogState

section Configure

variable {l l' : Logger} {d : LogDefine}

theorem LogAppenderDefine.exists_make_iff (a : LogAppenderDefine) :
    (∃ ap, a.make = some ap) ↔ a.type = 1 ∨ a.type = 2 := by
  rw [← Option.isSome_iff_exists, make, Option.isSome_map, target]
  split
  · next h => exact iff_of_true rfl (.inl h)
  · next hfile =>
      split
      · next h => exact iff_of_true rfl (.inr h)
      · next hstdout => exact iff_of_false (by simp) (not_or.mpr ⟨hfile, hstdout⟩)

/-- Adding the appenders succeeds if all can be made, and keeps the formatter. -/
theorem addAppenders_spec (as : List LogAppenderDefine) (l : Logger) :
    ((∃ l', as.foldlM (fun l a => a.make.map l.addAppender) l = some l') ↔
      ∀ a ∈ as, a.type = 1 ∨ a.type = 2) ∧
    ∀ l', as.foldlM (fun l a => a.make.map l.addAppender) l = some l' →
      l'.formatter = l.formatter := by
  induction as generalizing l with
  | nil =>
      refine ⟨⟨fun _ => by simp, fun _ => ⟨l, rfl⟩⟩, ?_⟩
      rintro l' ⟨⟩
      rfl
  | cons a as ih =>
      rw [List.forall_mem_cons, ← a.exists_make_iff]
      cases hmake : a.make with
      | none => simp [List.foldlM_cons, hmake]
      | some ap =>
          have hrest : (a :: as).foldlM (fun l a => a.make.map l.addAppender) l =
              as.foldlM (fun l a => a.make.map l.addAppender) (l.addAppender ap) := by
            simp [List.foldlM_cons, hmake]
          rw [hrest]
          obtain ⟨hiff, hkeep⟩ := ih (l.addAppender ap)
          exact ⟨hiff.trans (by simp), hkeep⟩

namespace LogDefine

/-- The formatter that the logger is left with. -/
def formatterOver (d : LogDefine) (f : LogFormatter) : LogFormatter :=
  if d.HasFormatter then .new d.formatter else f

/-- Only the formatter of the logger is read. -/
theorem configure_eq (d : LogDefine) (l : Logger) :
    d.configure l = d.appenders.foldlM (fun l a => a.make.map l.addAppender)
      ⟨d.level.value, d.formatterOver l.formatter, []⟩ := by
  unfold configure formatterOver HasFormatter
  by_cases hnil : d.formatter = []
  · simp [hnil, Logger.clearAppenders]
  · by_cases herror : (LogFormatter.new d.formatter).error = true
    · simp [hnil, herror, Logger.setFormatterText, Logger.clearAppenders]
    · simp [hnil, herror, Logger.setFormatterText, Logger.setFormatter, Logger.clearAppenders]

theorem exists_configure_iff (d : LogDefine) (l : Logger) :
    (∃ l', d.configure l = some l') ↔ d.Buildable := by
  rw [configure_eq]
  exact (addAppenders_spec d.appenders _).1

theorem formatter_of_configure (h : d.configure l = some l') :
    l'.formatter = d.formatterOver l.formatter := by
  rw [configure_eq] at h
  exact (addAppenders_spec d.appenders _).2 l' h

/-- With a formatter of its own nothing of the logger is left. -/
theorem HasFormatter.configure_congr (h : d.HasFormatter) (l l' : Logger) :
    d.configure l = d.configure l' := by
  rw [configure_eq, configure_eq, formatterOver, formatterOver, if_pos h, if_pos h]

theorem key_eq_iff {d e : LogDefine} : d.key = e.key ↔ d.name = e.name :=
  (List.map_injective_iff.mpr fun _ _ => UInt8.toNat_inj.mp).eq_iff

end LogDefine

end Configure

namespace LogDefines

theorem find_of_name_eq (s : LogDefines) {d e : LogDefine} (hd : d ∈ s.list)
    (hname : e.name = d.name) : OrderedSet.find LogDefine.less e s.list = some d := by
  rw [OrderedSet.find_congr LogDefine.comparesBy_key (LogDefine.key_eq_iff.mpr hname)]
  exact OrderedSet.find_of_mem LogDefine.comparesBy_key s.sorted hd

/-- Two definitions in the set have two names. -/
theorem pairwise_name (s : LogDefines) : s.list.Pairwise fun d e => d.name ≠ e.name :=
  s.sorted.imp fun hlt hname => hlt.ne (LogDefine.key_eq_iff.mpr hname)

/-- Every definition can be applied. -/
def Buildable (s : LogDefines) : Prop := ∀ d ∈ s.list, d.Buildable

end LogDefines

namespace LogState

variable {old new v : LogDefines} {ls ls' : Loggers} {s s' : LogState} {d : LogDefine}

/-- What becomes of the logger of a definition: it is passed over or set anew. -/
def Treated (old : LogDefines) (ls ls' : Loggers) (d : LogDefine) : Prop :=
  (d ∈ old.list ∧ ls' d.name = ls d.name) ∨ d.configure (ls d.name) = some (ls' d.name)

/-- One definition of the new value treats its own logger and leaves the others. -/
theorem applyDefine_spec (h : applyDefine old ls d = some ls') :
    Treated old ls ls' d ∧ ∀ name, name ≠ d.name → ls' name = ls name := by
  unfold applyDefine at h
  split at h
  · next hfind =>
      cases h
      exact ⟨.inl ⟨OrderedSet.mem_of_find hfind, rfl⟩, fun _ _ => rfl⟩
  · obtain ⟨l, hl, rfl⟩ := Option.map_eq_some_iff.mp h
    refine ⟨.inr ?_, fun name hname => Function.update_of_ne hname _ _⟩
    rw [hl, Function.update_self]

theorem exists_applyDefine (hd : d.Buildable) (old : LogDefines) (ls : Loggers) :
    ∃ ls', applyDefine old ls d = some ls' := by
  unfold applyDefine
  split
  · exact ⟨ls, rfl⟩
  · obtain ⟨l, hl⟩ := (d.exists_configure_iff (ls d.name)).mpr hd
    rw [hl]
    exact ⟨_, rfl⟩

/-- The pass over the new value treats each logger once, since the names differ. -/
theorem applyDefines_spec {ds : List LogDefine} (hnames : ds.Pairwise fun d e => d.name ≠ e.name)
    (h : ds.foldlM (applyDefine old) ls = some ls') :
    (∀ d ∈ ds, Treated old ls ls' d) ∧
      ∀ name, (∀ d ∈ ds, name ≠ d.name) → ls' name = ls name := by
  induction ds generalizing ls with
  | nil =>
      cases h
      exact ⟨fun _ hd => absurd hd List.not_mem_nil, fun _ _ => rfl⟩
  | cons e ds ih =>
      obtain ⟨hhead, hnames⟩ := List.pairwise_cons.mp hnames
      rw [List.foldlM_cons] at h
      obtain ⟨mid, hmid, hrest⟩ := Option.bind_eq_some_iff.mp h
      obtain ⟨htreat, hothers⟩ := applyDefine_spec hmid
      obtain ⟨hall, hkeep⟩ := ih hnames hrest
      have he : ls' e.name = mid e.name := hkeep e.name hhead
      constructor
      · intro d hd
        obtain rfl | hd := List.mem_cons.mp hd
        · rwa [Treated, he]
        · have hmid : mid d.name = ls d.name := hothers d.name (hhead d hd).symm
          have htreated := hall d hd
          rwa [Treated, hmid] at htreated
      · intro name hname
        rw [hkeep name fun d hd => hname d (List.mem_cons_of_mem e hd)]
        exact hothers name (hname e List.mem_cons_self)

theorem exists_applyDefines {ds : List LogDefine} (hds : ∀ d ∈ ds, d.Buildable)
    (old : LogDefines) (ls : Loggers) : ∃ ls', ds.foldlM (applyDefine old) ls = some ls' := by
  induction ds generalizing ls with
  | nil => exact ⟨ls, rfl⟩
  | cons e ds ih =>
      obtain ⟨he, hds⟩ := List.forall_mem_cons.mp hds
      obtain ⟨mid, hmid⟩ := exists_applyDefine he old ls
      rw [List.foldlM_cons, hmid]
      exact ih hds mid

/-- The pass over the old value leaves the loggers of the new one. -/
theorem foldl_retire_of_mem (hd : d ∈ new.list) (ds : List LogDefine) (ls : Loggers) :
    ds.foldl (retire new) ls d.name = ls d.name := by
  induction ds generalizing ls with
  | nil => rfl
  | cons e ds ih =>
      rw [List.foldl_cons, ih, retire]
      split
      · next hnone =>
          refine Function.update_of_ne (fun hname => ?_) _ _
          rw [new.find_of_name_eq hd hname.symm] at hnone
          cases hnone
      · rfl

/-- What setting a value does to the loggers that it names. -/
theorem setValue_spec (h : s.setValue v = some s') :
    s'.value = v ∧ ∀ d ∈ v.list, Treated s.value s.loggers s'.loggers d := by
  unfold setValue at h
  split at h
  · next heq =>
      cases h
      exact ⟨LogDefines.ext heq.symm, fun d hd => .inl ⟨heq ▸ hd, rfl⟩⟩
  · obtain ⟨ls, hls, rfl⟩ := Option.map_eq_some_iff.mp h
    obtain ⟨mid, hmid, hret⟩ := Option.bind_eq_some_iff.mp hls
    cases hret
    obtain ⟨htreated, -⟩ := applyDefines_spec v.pairwise_name hmid
    refine ⟨rfl, fun d hd => ?_⟩
    have hkeep := foldl_retire_of_mem hd s.value.list mid
    have htreat := htreated d hd
    dsimp only
    rwa [Treated, hkeep]

theorem exists_setValue (hv : v.Buildable) (s : LogState) : ∃ s', s.setValue v = some s' := by
  unfold setValue
  split
  · exact ⟨s, rfl⟩
  · obtain ⟨mid, hmid⟩ := exists_applyDefines hv s.value s.loggers
    rw [listener, hmid]
    exact ⟨_, rfl⟩

/-- The logger of every definition is what the definition makes of some logger. -/
def Tracks (s : LogState) : Prop :=
  ∀ d ∈ s.value.list, ∃ l, d.configure l = some (s.loggers d.name)

theorem Tracks.setValue (hs : s.Tracks) (h : s.setValue v = some s') : s'.Tracks := by
  obtain ⟨rfl, htreated⟩ := setValue_spec h
  intro d hd
  obtain ⟨hold, hkeep⟩ | hset := htreated d hd
  · rw [hkeep]
    exact hs d hold
  · exact ⟨_, hset⟩

theorem tracks_foldlM (vs : List LogDefines) (hs : s.Tracks)
    (h : vs.foldlM LogState.setValue s = some s') : s'.Tracks := by
  induction vs generalizing s with
  | nil =>
      cases h
      exact hs
  | cons v vs ih =>
      rw [List.foldlM_cons] at h
      obtain ⟨mid, hmid, hrest⟩ := Option.bind_eq_some_iff.mp h
      exact ih (hs.setValue hmid) hrest

theorem tracks_of_run {vs : List LogDefines} (h : run vs = some s) : s.Tracks :=
  tracks_foldlM vs (fun _ hd => by cases hd) h

theorem run_append_singleton (vs : List LogDefines) (v : LogDefines) :
    run (vs ++ [v]) = (run vs).bind fun s => s.setValue v := by
  rw [run, List.foldlM_append]
  cases hrun : vs.foldlM LogState.setValue init with
  | none => simp [run, hrun]
  | some s => simp [run, hrun]

theorem value_of_run {vs : List LogDefines} (h : run (vs ++ [v]) = some s) : s.value = v := by
  rw [run_append_singleton] at h
  obtain ⟨mid, -, hset⟩ := Option.bind_eq_some_iff.mp h
  exact (setValue_spec hset).1

/-- A value that was reached could be applied. -/
theorem buildable_of_run {vs : List LogDefines} (h : run (vs ++ [v]) = some s) : v.Buildable := by
  obtain rfl := value_of_run h
  intro d hd
  obtain ⟨l, hl⟩ := tracks_of_run h d hd
  exact (d.exists_configure_iff l).mp ⟨_, hl⟩

/-- A definition with a formatter decides its logger alone. -/
theorem loggers_eq_of_hasFormatter {vs vs' : List LogDefines} (h : run (vs ++ [v]) = some s)
    (h' : run (vs' ++ [v]) = some s') (hd : d ∈ v.list) (hformatter : d.HasFormatter) :
    s.loggers d.name = s'.loggers d.name := by
  obtain ⟨l, hl⟩ := tracks_of_run h d (by rwa [value_of_run h])
  obtain ⟨l', hl'⟩ := tracks_of_run h' d (by rwa [value_of_run h'])
  rw [hformatter.configure_congr l l', hl'] at hl
  exact (Option.some.inj hl).symm

/-- A value that gives the logger `name` the pattern `%m`. -/
def messageOnly (name : Text) : LogDefines :=
  ⟨[⟨name, .unknow, ascii "%m", []⟩], List.pairwise_singleton _ _⟩

theorem message_hasFormatter (name : Text) :
    (LogDefine.mk name .unknow (ascii "%m") []).HasFormatter := by
  unfold LogDefine.HasFormatter
  dsimp only
  decide +kernel

/-- A definition without a formatter leaves the one that an earlier value has set. -/
theorem pattern_of_history (hd : d ∈ v.list) (hformatter : ¬d.HasFormatter)
    (hs : run ([messageOnly d.name] ++ [v]) = some s) :
    (s.loggers d.name).formatter = .new (ascii "%m") := by
  rw [run_append_singleton] at hs
  obtain ⟨mid, hmid, hset⟩ := Option.bind_eq_some_iff.mp hs
  have hmid' : init.setValue (messageOnly d.name) = some mid := by
    rw [← hmid]
    exact (run_append_singleton [] _).symm
  obtain ⟨hvalue, htreated⟩ := setValue_spec hmid'
  have hfirst : (mid.loggers d.name).formatter = .new (ascii "%m") := by
    obtain ⟨hold, -⟩ | hset := htreated _ List.mem_cons_self
    · cases hold
    · rw [LogDefine.formatter_of_configure hset, LogDefine.formatterOver,
        if_pos (message_hasFormatter d.name)]
  obtain ⟨hold, -⟩ | hset := (setValue_spec hset).2 d hd
  · rw [hvalue] at hold
    rw [List.mem_singleton.mp hold] at hformatter
    exact absurd (message_hasFormatter _) hformatter
  · rw [LogDefine.formatter_of_configure hset, LogDefine.formatterOver, if_neg hformatter, hfirst]

theorem init_formatter (name : Text) :
    (init.loggers name).formatter = .new Logger.defaultPattern := by
  rw [init]
  dsimp only
  rw [Function.update_apply]
  split
  · rfl
  · rfl

/-- Without a history it is the one every logger is made with. -/
theorem pattern_of_no_history (hd : d ∈ v.list) (hformatter : ¬d.HasFormatter)
    (hs : run ([] ++ [v]) = some s) :
    (s.loggers d.name).formatter = .new Logger.defaultPattern := by
  rw [run_append_singleton] at hs
  obtain ⟨mid, hmid, hset⟩ := Option.bind_eq_some_iff.mp hs
  cases hmid
  obtain ⟨hold, -⟩ | hset := (setValue_spec hset).2 d hd
  · cases hold
  · rw [LogDefine.formatter_of_configure hset, LogDefine.formatterOver, if_neg hformatter]
    exact init_formatter d.name

/-- A value that names the logger `system` and gives no formatter. -/
def systemOnly : LogDefines :=
  ⟨[⟨ascii "system", .debug, [], [⟨2, .unknow, [], []⟩]⟩], List.pairwise_singleton _ _⟩

end LogState

end Sylar.Log

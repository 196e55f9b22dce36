import Mathlib.Data.List.Lex
import Sylar.Lib.Method
import Sylar.Lib.OrderedSet
import Sylar.Config.Node

/-!
# The configuration of the loggers

The variable `logs` holds a `std::set<LogDefine>` in the order of the names. One
`LexicalCast` writes the set as a tree, the other reads the tree. The reader takes
neither the level of an appender nor the formatter of an appender to the standard output.
-/

namespace Sylar.Log

open Sylar.Lib Sylar.Config
open Sylar.Http (Text ascii)

inductive LogLevel where
  | unknow
  | debug
  | info
  | warn
  | error
  | fatal
  deriving DecidableEq, Repr

/-- `LogLevel::ToString`. -/
def LogLevel.toString : LogLevel → Text
  | .debug => ascii "DEBUG"
  | .info => ascii "INFO"
  | .warn => ascii "WARN"
  | .error => ascii "ERROR"
  | .fatal => ascii "FATAL"
  | .unknow => ascii "UNKNOW"

/-- `LogLevel::FromString`. -/
def LogLevel.fromString (str : Text) : LogLevel :=
  if str = ascii "debug" then .debug
  else if str = ascii "info" then .info
  else if str = ascii "warn" then .warn
  else if str = ascii "error" then .error
  else if str = ascii "fatal" then .fatal
  else if str = ascii "DEBUG" then .debug
  else if str = ascii "INFO" then .info
  else if str = ascii "WARN" then .warn
  else if str = ascii "ERROR" then .error
  else if str = ascii "FATAL" then .fatal
  else .unknow

/-- `LogAppenderDefine`; the type 1 is a file, 2 the standard output. -/
structure LogAppenderDefine where
  type : Int
  level : LogLevel
  formatter : Text
  file : Text
  deriving DecidableEq, Repr

structure LogDefine where
  name : Text
  level : LogLevel
  formatter : Text
  appenders : List LogAppenderDefine
  deriving DecidableEq, Repr

/-- The bytes of the name, as `std::string` compares them. -/
def LogDefine.key (d : LogDefine) : List Nat := d.name.map UInt8.toNat

/-- `operator<`. -/
def LogDefine.less (a b : LogDefine) : Bool := a.key < b.key

theorem LogDefine.comparesBy_key : OrderedSet.ComparesBy LogDefine.less LogDefine.key := by
  intro a b
  exact decide_eq_true_iff

/-- `std::set<LogDefine>`. -/
structure LogDefines where
  list : List LogDefine
  sorted : OrderedSet.Sorted LogDefine.key list

namespace LogDefines

@[ext] theorem ext {s t : LogDefines} (h : s.list = t.list) : s = t := by
  cases s
  cases t
  cases h
  rfl

def empty : LogDefines := ⟨[], List.Pairwise.nil⟩

def insert (s : LogDefines) (d : LogDefine) : LogDefines :=
  ⟨OrderedSet.insert LogDefine.less d s.list, s.sorted.insert LogDefine.comparesBy_key d⟩

/-- Elements that come in their order are all inserted. -/
theorem list_foldl_insert {l : List LogDefine} {s : LogDefines}
    (h : OrderedSet.Sorted LogDefine.key (s.list ++ l)) :
    (l.foldl insert s).list = s.list ++ l := by
  induction l generalizing s with
  | nil => exact (List.append_nil _).symm
  | cons d l ih =>
      have hlt : ∀ e ∈ s.list, e.key < d.key := by
        intro e he
        exact (List.pairwise_append.mp h).2.2 e he d List.mem_cons_self
      have hinsert : (s.insert d).list = s.list ++ [d] :=
        OrderedSet.insert_of_forall_lt LogDefine.comparesBy_key hlt
      rw [List.append_cons] at h ⊢
      rw [← hinsert] at h ⊢
      exact ih h

end LogDefines

section Encode

/-- `n[key] = text` under a condition. -/
def fieldIf (p : Prop) [Decidable p] (key : String) (text : Text) : List (Text × Node) :=
  if p then [(ascii key, .scalar text)] else []

def LogAppenderDefine.toNode (a : LogAppenderDefine) : Node :=
  .ofFields <|
    (if a.type = 1 then
      [(ascii "type", .scalar (ascii "FileLogAppender")), (ascii "file", .scalar a.file)]
    else if a.type = 2 then [(ascii "type", .scalar (ascii "StdoutLogAppender"))]
    else []) ++
    (fieldIf (a.level ≠ .unknow) "level" a.level.toString ++
      fieldIf (a.formatter ≠ []) "formatter" a.formatter)

def LogDefine.toNode (d : LogDefine) : Node :=
  .ofFields <|
    (ascii "name", .scalar d.name) ::
      (fieldIf (d.level ≠ .unknow) "level" d.level.toString ++
        (fieldIf (d.formatter ≠ []) "formatter" d.formatter ++
          if d.appenders = [] then []
          else [(ascii "appenders", .ofItems (d.appenders.map LogAppenderDefine.toNode))]))

/-- `LexicalCast<std::set<LogDefine>, std::string>`. -/
def LogDefines.toNode (s : LogDefines) : Node := .ofItems (s.list.map LogDefine.toNode)

end Encode

section Decode

/-- An entry of `appenders`; `none` if it is skipped. -/
def LogAppenderDefine.fromNode (a : Node) : Except YamlError (Option LogAppenderDefine) := do
  match ← a.get (ascii "type") with
  | none => return none
  | some type =>
      let type ← type.asString
      if type = ascii "FileLogAppender" then
        match ← a.get (ascii "file") with
        | none => return none
        | some file =>
            let file ← file.asString
            let formatter ← a.getString (ascii "formatter") []
            return some ⟨1, .unknow, formatter, file⟩
      else if type = ascii "StdoutLogAppender" then
        return some ⟨2, .unknow, [], []⟩
      else
        return none

/-- The entries that are not skipped. -/
def readAll {α : Type} (read : Node → Except YamlError (Option α)) :
    List Node → Except YamlError (List α)
  | [] => return []
  | n :: ns => do
      let a ← read n
      let as ← readAll read ns
      return a.toList ++ as

/-- An entry of the configuration; `none` if it is skipped. -/
def LogDefine.fromNode (n : Node) : Except YamlError (Option LogDefine) := do
  match ← n.get (ascii "name") with
  | none => return none
  | some name =>
      let name ← name.asString
      let level ← n.getString (ascii "level") []
      let formatter ← n.getString (ascii "formatter") []
      match ← n.get (ascii "appenders") with
      | none => return some ⟨name, .fromString level, formatter, []⟩
      | some as =>
          let appenders ← readAll LogAppenderDefine.fromNode as.items
          return some ⟨name, .fromString level, formatter, appenders⟩

/-- `LexicalCast<std::string, std::set<LogDefine>>`. -/
def LogDefines.fromNode (node : Node) : Except YamlError LogDefines := do
  let defines ← readAll LogDefine.fromNode node.items
  return defines.foldl LogDefines.insert .empty

end Decode

section RoundTrip

theorem LogLevel.fromString_toString (level : LogLevel) : fromString level.toString = level := by
  cases level <;> decide

/-- A field with another key is passed over. -/
theorem lookup_fieldIf_append {p : Prop} [Decidable p] {k : Text} {key : String} (text : Text)
    (l : List (Text × Node)) (h : (k == ascii key) = false) :
    (fieldIf p key text ++ l).lookup k = l.lookup k := by
  rw [fieldIf]
  split
  · rw [List.singleton_append, List.lookup_cons, h]
  · rfl

/-- A text is read back, and left as it is by default if it was not written. -/
theorem getString_fieldIf (p : Prop) [Decidable p] (key : String) (text : Text)
    (pre post : List (Text × Node)) (hpre : pre.lookup (ascii key) = none)
    (hpost : post.lookup (ascii key) = none) :
    (Node.ofFields (pre ++ (fieldIf p key text ++ post))).getString (ascii key) [] =
      .ok (if p then text else []) := by
  have hlookup : (pre ++ (fieldIf p key text ++ post)).lookup (ascii key) =
      if p then some (.scalar text) else none := by
    rw [List.lookup_append, hpre, Option.none_or, fieldIf]
    split
    · exact List.lookup_cons_self
    · exact hpost
  rw [Node.getString, Node.get_ofFields, hlookup]
  split
  · rfl
  · rfl

theorem readAll_map {α β : Type} {read : Node → Except YamlError (Option β)} {write : α → Node}
    {f : α → Option β} (h : ∀ a, read (write a) = .ok (f a)) (l : List α) :
    readAll read (l.map write) = .ok (l.filterMap f) := by
  induction l with
  | nil => rfl
  | cons a l ih =>
      rw [List.map_cons, readAll]
      refine bind_of_ok (h a) (bind_of_ok ih ?_)
      rw [List.filterMap_cons]
      cases f a with
      | none => rfl
      | some b => rfl

/-- What is read back of an appender. -/
def LogAppenderDefine.reread (a : LogAppenderDefine) : Option LogAppenderDefine :=
  if a.type = 1 then some ⟨1, .unknow, a.formatter, a.file⟩
  else if a.type = 2 then some ⟨2, .unknow, [], []⟩
  else none

/-- What is read back of a logger. -/
def LogDefine.reread (d : LogDefine) : LogDefine :=
  { d with appenders := d.appenders.filterMap LogAppenderDefine.reread }

theorem ite_ne_nil (text : Text) : (if text ≠ [] then text else []) = text := by
  split
  · rfl
  · next h => exact (not_not.mp h).symm

theorem LogAppenderDefine.fromNode_toNode (a : LogAppenderDefine) :
    fromNode a.toNode = .ok a.reread := by
  obtain ⟨type, level, formatter, file⟩ := a
  obtain rfl | hfile := eq_or_ne type 1
  · have hformatter : (toNode ⟨1, level, formatter, file⟩).getString (ascii "formatter") [] =
        .ok formatter := by
      have h := getString_fieldIf (formatter ≠ []) "formatter" formatter
        ([(ascii "type", .scalar (ascii "FileLogAppender")), (ascii "file", .scalar file)] ++
          fieldIf (level ≠ .unknow) "level" level.toString) [] (by rw [fieldIf]; split <;> rfl) rfl
      rw [ite_ne_nil, List.append_nil, List.append_assoc] at h
      exact h
    rw [fromNode]
    refine bind_of_ok rfl (bind_of_ok rfl (bind_of_ok rfl (bind_of_ok rfl ?_)))
    exact bind_of_ok hformatter rfl
  · obtain rfl | hstdout := eq_or_ne type 2
    · rfl
    · have htype : (toNode ⟨type, level, formatter, file⟩).get (ascii "type") = .ok none := by
        simp only [toNode, if_neg hfile, if_neg hstdout, List.nil_append, Node.get_ofFields]
        rw [lookup_fieldIf_append _ _ (by decide), fieldIf]
        split <;> rfl
      rw [reread, if_neg hfile, if_neg hstdout]
      exact bind_of_ok htype rfl

namespace LogDefine

theorem getString_level (d : LogDefine) :
    d.toNode.getString (ascii "level") [] =
      .ok (if d.level ≠ .unknow then d.level.toString else []) := by
  refine getString_fieldIf _ "level" _ [(ascii "name", .scalar d.name)] _ rfl ?_
  rw [lookup_fieldIf_append _ _ (by decide)]
  split <;> rfl

theorem fromString_level (level : LogLevel) :
    LogLevel.fromString (if level ≠ .unknow then level.toString else []) = level := by
  split
  · exact level.fromString_toString
  · next h =>
      rw [not_not.mp h]
      decide

theorem getString_formatter (d : LogDefine) :
    d.toNode.getString (ascii "formatter") [] = .ok d.formatter := by
  have h := getString_fieldIf (d.formatter ≠ []) "formatter" d.formatter
    ((ascii "name", .scalar d.name) :: fieldIf (d.level ≠ .unknow) "level" d.level.toString)
    (if d.appenders = [] then []
      else [(ascii "appenders", .ofItems (d.appenders.map LogAppenderDefine.toNode))])
    (by rw [fieldIf]; split <;> rfl) (by split <;> rfl)
  rw [ite_ne_nil, List.cons_append] at h
  exact h

theorem get_appenders (d : LogDefine) :
    d.toNode.get (ascii "appenders") =
      .ok (if d.appenders = [] then none
        else some (.ofItems (d.appenders.map LogAppenderDefine.toNode))) := by
  rw [toNode, Node.get_ofFields, List.lookup_cons]
  change Except.ok (List.lookup _ (_ ++ (_ ++ _))) = _
  rw [lookup_fieldIf_append _ _ (by decide), lookup_fieldIf_append _ _ (by decide)]
  split <;> rfl

theorem fromNode_toNode (d : LogDefine) : fromNode d.toNode = .ok (some d.reread) := by
  rw [fromNode]
  refine bind_of_ok rfl (bind_of_ok rfl (bind_of_ok d.getString_level ?_))
  refine bind_of_ok d.getString_formatter (bind_of_ok d.get_appenders ?_)
  rw [fromString_level, reread]
  obtain ⟨name, level, formatter, appenders⟩ := d
  cases appenders with
  | nil => rfl
  | cons a as =>
      refine bind_of_ok ?_ rfl
      rw [Node.items_ofItems]
      exact readAll_map LogAppenderDefine.fromNode_toNode _

end LogDefine

theorem LogDefines.fromNode_toNode (s : LogDefines) :
    ∃ t, fromNode s.toNode = .ok t ∧ t.list = s.list.map LogDefine.reread := by
  have hread : readAll LogDefine.fromNode s.toNode.items = .ok (s.list.map LogDefine.reread) := by
    rw [toNode, Node.items_ofItems, readAll_map LogDefine.fromNode_toNode, List.filterMap_eq_map']
  have hsorted : OrderedSet.Sorted LogDefine.key (s.list.map LogDefine.reread) :=
    List.pairwise_map.mpr s.sorted
  exact ⟨_, bind_of_ok hread rfl, list_foldl_insert hsorted⟩

/-- The level of the appender is not set, and if it is one to the standard output, neither
are its formatter and its file. -/
def LogAppenderDefine.Plain (a : LogAppenderDefine) : Prop :=
  a.level = .unknow ∧ (a.type = 2 → a.formatter = [] ∧ a.file = [])

instance (a : LogAppenderDefine) : Decidable a.Plain :=
  inferInstanceAs (Decidable (a.level = .unknow ∧ (a.type = 2 → a.formatter = [] ∧ a.file = [])))

theorem LogAppenderDefine.reread_eq_iff {a : LogAppenderDefine} (h : a.type = 1 ∨ a.type = 2) :
    a.reread = some a ↔ a.Plain := by
  obtain ⟨type, level, formatter, file⟩ := a
  obtain rfl | rfl := h
  · simp [reread, Plain, eq_comm]
  · simp [reread, Plain, eq_comm]

theorem filterMap_eq_self_iff {α : Type} {f : α → Option α} {l : List α} :
    l.filterMap f = l ↔ ∀ a ∈ l, f a = some a := by
  induction l with
  | nil => simp
  | cons a l ih =>
      rw [List.forall_mem_cons, ← ih]
      cases h : f a with
      | none =>
          rw [List.filterMap_cons_none h]
          constructor
          · intro heq
            have hlength := List.length_filterMap_le f l
            rw [heq] at hlength
            exact absurd hlength (Nat.not_succ_le_self _)
          · rintro ⟨⟨⟩, -⟩
      | some b =>
          rw [List.filterMap_cons_some h, List.cons.injEq, Option.some.injEq]

theorem LogDefine.reread_eq_iff {d : LogDefine} :
    d.reread = d ↔ ∀ a ∈ d.appenders, a.reread = some a := by
  rw [← filterMap_eq_self_iff]
  constructor
  · exact congrArg LogDefine.appenders
  · intro h
    rw [reread, h]

/-- A set of loggers with appenders to files and to the standard output is read back as it
was written exactly if all these appenders are plain. -/
theorem LogDefines.fromNode_toNode_eq_iff (s : LogDefines)
    (htypes : ∀ d ∈ s.list, ∀ a ∈ d.appenders, a.type = 1 ∨ a.type = 2) :
    fromNode s.toNode = .ok s ↔ ∀ d ∈ s.list, ∀ a ∈ d.appenders, a.Plain := by
  obtain ⟨t, ht, hlist⟩ := s.fromNode_toNode
  have hmap : s.list.map LogDefine.reread = s.list ↔ ∀ d ∈ s.list, d.reread = d := by
    conv_lhs => rhs; rw [← List.map_id s.list]
    exact List.map_inj_left
  rw [ht, Except.ok.injEq, LogDefines.ext_iff, hlist, hmap]
  refine forall₂_congr fun d hd => ?_
  rw [LogDefine.reread_eq_iff]
  exact forall₂_congr fun a ha => LogAppenderDefine.reread_eq_iff (htypes d hd a ha)

/-- A logger with these appenders. -/
def rootWith (appenders : List LogAppenderDefine) : LogDefines :=
  ⟨[⟨ascii "root", .info, ascii "%m%n", appenders⟩], List.pairwise_singleton _ _⟩

/-- A file with a formatter, and the standard output. -/
theorem LogDefines.fromNode_toNode_eq_plain :
    fromNode (rootWith [⟨1, .unknow, ascii "%d", ascii "log.txt"⟩, ⟨2, .unknow, [], []⟩]).toNode =
      .ok (rootWith [⟨1, .unknow, ascii "%d", ascii "log.txt"⟩, ⟨2, .unknow, [], []⟩]) :=
  (fromNode_toNode_eq_iff _ (by decide)).mpr (by decide)

/-- The levels of the appenders and the formatter of the second are lost. -/
theorem LogDefines.appender_levels_lost :
    let s := rootWith [⟨1, .error, ascii "%d", ascii "log.txt"⟩, ⟨2, .warn, ascii "%d", []⟩]
    fromNode s.toNode ≠ .ok s ∧
      fromNode s.toNode =
        .ok (rootWith [⟨1, .unknow, ascii "%d", ascii "log.txt"⟩, ⟨2, .unknow, [], []⟩]) := by
  intro s
  have hread : fromNode s.toNode =
      .ok (rootWith [⟨1, .unknow, ascii "%d", ascii "log.txt"⟩, ⟨2, .unknow, [], []⟩]) := rfl
  refine ⟨?_, hread⟩
  rw [hread]
  intro h
  exact absurd (congrArg LogDefines.list (Except.ok.inj h)) (by decide)

end RoundTrip

end Sylar.Log

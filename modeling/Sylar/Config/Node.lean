import Sylar.Http.Message

/-!
# `YAML::Node`

The tree that the configuration is read from and written to, with what the code asks
of it. Emitting a tree and loading the text again is taken to give the tree back, so the
text between the two does not appear.

An index into a map, which finds an entry if a key reads as the number, is left out.
-/

namespace Sylar.Config

open Sylar.Http (Text)

/-- The exceptions of the library. -/
inductive YamlError where
  | badSubscript
  | badConversion
  | invalidNode
  deriving DecidableEq, Repr

inductive Node where
  | null
  | scalar (text : Text)
  | sequence (items : List Node)
  | map (fields : List (Text × Node))

namespace Node

/-- A node after `node.push_back(item)` for each item. -/
def ofItems : List Node → Node
  | [] => .null
  | item :: items => .sequence (item :: items)

/-- A node after `node[key] = value` for each field; no key is given twice. -/
def ofFields : List (Text × Node) → Node
  | [] => .null
  | field :: fields => .map (field :: fields)

/-- `node[i]` for each `i` below `node.size()`. -/
def items : Node → List Node
  | .sequence items => items
  | .null | .scalar _ | .map _ => []

/-- `node[key]`; the result is `none` if it is not defined. -/
def get (key : Text) : Node → Except YamlError (Option Node)
  | .scalar _ => .error .badSubscript
  | .map fields => .ok (fields.lookup key)
  | .null | .sequence _ => .ok none

/-- `node.as<std::string>()`. -/
def asString : Node → Except YamlError Text
  | .scalar text => .ok text
  | .null | .sequence _ | .map _ => .error .badConversion

/-- `node[key].as<std::string>()` if `node[key]` is defined, and another text otherwise. -/
def getString (key default : Text) (node : Node) : Except YamlError Text := do
  match ← node.get key with
  | none => return default
  | some value => value.asString

@[simp] theorem items_ofItems (l : List Node) : (ofItems l).items = l := by
  cases l with
  | nil => rfl
  | cons item l => rfl

@[simp] theorem get_ofFields (key : Text) (fields : List (Text × Node)) :
    (ofFields fields).get key = .ok (fields.lookup key) := by
  cases fields with
  | nil => rfl
  | cons field fields => rfl

end Node

end Sylar.Config

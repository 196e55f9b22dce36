import Mathlib.Data.List.Lex
import Sylar.Lib.Decimals
import Sylar.Lib.Method
import Sylar.Lib.OrderedSet
import Sylar.Config.Node

/-!
# Casts of parts of a configuration

`as` with a default never throws: the default stands for a node that is not
defined, and for one that has the wrong kind. A map of texts is written through
one more round of loading: each value is loaded as a text of its own.
-/

namespace Sylar.Config

open Sylar.Lib
open Sylar.Http (Text ascii)

/-- What a text that is no emitted tree is loaded as, and what a tree is emitted as. -/
structure Yaml where
  load : Text → Except YamlError Node
  dump : Node → Text
  load_nil : load [] = .ok .null

namespace Node

/-- `node.as<std::string>(fallback)`. -/
def asStringOr (fallback : Text) : Node → Text
  | .scalar text => text
  | .null | .sequence _ | .map _ => fallback

/-- `node.as<int>(fallback)`. -/
def asIntOr (fallback : Int32) : Node → Int32
  | .scalar text =>
      match Numerals.extract (-2 ^ 31) (2 ^ 31 - 1) text with
      | some n => .ofInt n
      | none => fallback
  | .null | .sequence _ | .map _ => fallback

/-- `node = n`. -/
def ofInt (n : Int32) : Node := .scalar (Numerals.decimalInt n.toInt)

theorem asIntOr_ofInt (fallback n : Int32) : (ofInt n).asIntOr fallback = n := by
  have hlo : -2 ^ 31 ≤ n.toInt := n.minValue_le_toInt
  have hhi : n.toInt ≤ 2 ^ 31 - 1 := n.toInt_le
  simp only [ofInt, asIntOr, Numerals.extract_decimalInt hlo hhi]
  exact Int32.ofInt_toInt n

/-- `node[key].as<std::string>(fallback)`. -/
def getStringOr (key fallback : Text) (node : Node) : Except YamlError Text := do
  return ((← node.get key).map (asStringOr fallback)).getD fallback

/-- `node[key].as<int>(fallback)`. -/
def getIntOr (key : Text) (fallback : Int32) (node : Node) : Except YamlError Int32 := do
  return ((← node.get key).map (asIntOr fallback)).getD fallback

/-- `node[key].as<std::string>()`. -/
def needString (key : Text) (node : Node) : Except YamlError Text := do
  match ← node.get key with
  | none => throw .badConversion
  | some value => value.asString

section Fields

variable {fields : List (Text × Node)} {key : Text}

theorem getStringOr_of_lookup {text : Text} (h : fields.lookup key = some (.scalar text))
    (fallback : Text) : (ofFields fields).getStringOr key fallback = .ok text := by
  rw [getStringOr, get_ofFields, h]
  rfl

theorem getIntOr_of_lookup {n : Int32} (h : fields.lookup key = some (.ofInt n))
    (fallback : Int32) : (ofFields fields).getIntOr key fallback = .ok n := by
  rw [getIntOr, get_ofFields, h]
  exact congrArg Except.ok (asIntOr_ofInt fallback n)

theorem needString_of_lookup {text : Text} (h : fields.lookup key = some (.scalar text)) :
    (ofFields fields).needString key = .ok text := by
  rw [needString, get_ofFields, h]
  rfl

end Fields

/-- The keys and values that an iterator passes; in a sequence it has no keys. -/
def entries : Node → Except YamlError (List (Text × Node))
  | .map fields => .ok fields
  | .sequence (_ :: _) => .error .invalidNode
  | .null | .scalar _ | .sequence [] => .ok []

end Node

/-- The bytes of a key, as `std::string` compares them. -/
def pairKey (p : Text × Text) : List Nat := p.1.map UInt8.toNat

def pairLess (p q : Text × Text) : Bool := pairKey p < pairKey q

theorem comparesBy_pairKey : OrderedSet.ComparesBy pairLess pairKey := by
  intro p q
  exact decide_eq_true_iff

/-- `std::map<std::string, std::string>`. -/
structure StringMap where
  list : List (Text × Text)
  sorted : OrderedSet.Sorted pairKey list

namespace StringMap

@[ext] theorem ext {s t : StringMap} (h : s.list = t.list) : s = t := by
  cases s
  cases t
  cases h
  rfl

def empty : StringMap := ⟨[], List.Pairwise.nil⟩

def insert (s : StringMap) (p : Text × Text) : StringMap :=
  ⟨OrderedSet.insert pairLess p s.list, s.sorted.insert comparesBy_pairKey p⟩

/-- `YAML::Load` of `LexicalCast<std::map<std::string, std::string>, std::string>`. -/
def toNode (yaml : Yaml) (s : StringMap) : Except YamlError Node := do
  return .ofFields (← s.list.mapM fun p => do return (p.1, ← yaml.load p.2))

/-- `LexicalCast<std::string, std::map<std::string, std::string>>`. -/
def fromText (yaml : Yaml) (text : Text) : Except YamlError StringMap := do
  let fields ← (← yaml.load text).entries
  return (fields.map fun f => (f.1, yaml.dump f.2)).foldl insert empty

theorem fromText_nil (yaml : Yaml) : fromText yaml [] = .ok empty :=
  bind_of_ok yaml.load_nil rfl

/-- A map is never written as a scalar. -/
theorem asStringOr_toNode {yaml : Yaml} {s : StringMap} {node : Node}
    (h : s.toNode yaml = .ok node) (fallback : Text) : node.asStringOr fallback = fallback := by
  obtain ⟨fields, -, hnode⟩ := bind_eq_ok h
  cases hnode
  cases fields with
  | nil => rfl
  | cons field fields => rfl

end StringMap

end Sylar.Config

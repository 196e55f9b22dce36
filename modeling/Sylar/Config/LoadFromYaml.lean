import Sylar.Config.Casts

/-!
# `Config::LoadFromYaml`

The tree is walked in preorder and every node is listed under its dotted path. A path
with a character outside of a fixed set drops its whole subtree; the set has the lower
case letters without `j`, the digits without `9`, the dot and the underscore. The paths
are put into lower case only after that test. `Config::Lookup` tests the names of the
variables with the same set.

What `fromString` does to a variable is a parameter, and so is the text that a node
is emitted as. The lines that are logged are left out.
-/

namespace Sylar.Config

open Sylar.Lib
open Sylar.Http (Text ascii toLower)

/-- The argument of `find_first_not_of`. -/
def nameChars : Text := ascii "abcdefghigklmnopqrstuvwxyz._012345678"

/-- `name.find_first_not_of(..) == std::string::npos`. -/
def validName (name : Text) : Bool := name.all fun c => c ∈ nameChars

/-- `GetDatas()`: the variables under their names. -/
structure Registry (V : Type) where
  datas : List (Text × V)
  nodup : (datas.map Prod.fst).Nodup
  valid : ∀ p ∈ datas, validName p.1

namespace Registry

variable {V : Type}

def lookupBase (name : Text) (r : Registry V) : Option V := r.datas.lookup name

def empty : Registry V := ⟨[], List.nodup_nil, nofun⟩

/-- `GetDatas()[name] = v` for a name that is not there. -/
def add (name : Text) (v : V) (r : Registry V) (hnew : r.lookupBase name = none)
    (hvalid : validName name) : Registry V where
  datas := (name, v) :: r.datas
  nodup := by
    refine List.nodup_cons.mpr ⟨?_, r.nodup⟩
    intro hmem
    obtain ⟨p, hp, rfl⟩ := List.mem_map.mp hmem
    exact bne_iff_ne.mp (List.lookup_eq_none_iff.mp hnew p hp) rfl
  valid := List.forall_mem_cons.mpr ⟨hvalid, r.valid⟩

/-- `Lookup<T>(name, default_value)`: `isType` tells the variables of type `T`, and `fresh` is
the variable with the default. The exception is thrown with the name. -/
def lookup (isType : V → Bool) (name : Text) (fresh : V) :
    Method (Registry V) Text (Option V) := do
  let r ← get
  match hnew : r.lookupBase name with
  | some v => return if isType v then some v else none
  | none =>
      if hvalid : validName name then
        set (r.add name fresh hnew hvalid)
        return some fresh
      else
        throw name

/-- Change the variable of the given name. -/
def update (name : Text) (f : V → V) (r : Registry V) : Registry V where
  datas := r.datas.map fun p => (p.1, if p.1 = name then f p.2 else p.2)
  nodup := by
    rw [List.map_map]
    exact r.nodup
  valid := by
    intro p hp
    obtain ⟨q, hq, rfl⟩ := List.mem_map.mp hp
    exact r.valid q hq

/-- A variable has the name. -/
def Registered (name : Text) (r : Registry V) : Prop := (r.lookupBase name).isSome

instance (name : Text) (r : Registry V) : Decidable (r.Registered name) :=
  inferInstanceAs (Decidable ((r.lookupBase name).isSome = true))

theorem lookupBase_update (name other : Text) (f : V → V) (r : Registry V) :
    (r.update name f).lookupBase other =
      (r.lookupBase other).map fun v => if other = name then f v else v := by
  change (r.datas.map fun p => (p.1, if p.1 = name then f p.2 else p.2)).lookup other =
    (r.datas.lookup other).map _
  induction r.datas with
  | nil => rfl
  | cons p datas ih =>
      rw [List.map_cons, List.lookup_cons, List.lookup_cons]
      split
      · next heq =>
          rw [eq_of_beq heq]
          rfl
      · exact ih

theorem registered_update (name other : Text) (f : V → V) (r : Registry V) :
    (r.update name f).Registered other ↔ r.Registered other := by
  rw [Registered, Registered, lookupBase_update, Option.isSome_map]

theorem Registered.validName {name : Text} {r : Registry V} (h : r.Registered name) :
    validName name := by
  obtain ⟨v, hv⟩ := Option.isSome_iff_exists.mp h
  obtain ⟨front, rest, hdatas, -⟩ := List.lookup_eq_some_iff.mp hv
  apply r.valid (name, v)
  rw [hdatas]
  exact List.mem_append_right _ List.mem_cons_self

/-- After a `Lookup` the name is registered, unless the call has thrown; it throws exactly at
names that are new and have a character outside of the set. -/
theorem lookup_registers (isType : V → Bool) (name : Text) (fresh : V) (r : Registry V) :
    ((lookup isType name fresh).exec r).2.Registered name ↔
      r.Registered name ∨ Sylar.Config.validName name := by
  rw [lookup, Method.exec_bind_ok (Method.exec_get r)]
  split
  · next v hv =>
      have hr : r.Registered name := by rw [Registered, hv]; rfl
      exact iff_of_true hr (.inl hr)
  · next hnew =>
      split
      · next hvalid =>
          apply iff_of_true _ (.inr hvalid)
          rw [Registered]
          change (((name, fresh) :: r.datas).lookup name).isSome
          rw [List.lookup_cons_self]
          rfl
      · next hinvalid =>
          change r.Registered name ↔ _
          exact (or_iff_left hinvalid).symm

end Registry

/-- The path of the node under a key. -/
def childPath (path key : Text) : Text := if path = [] then key else path ++ ascii "." ++ key

mutual

/-- `ListAllMember`, without the list it appends to. -/
def listAllMember (path : Text) (node : Node) : List (Text × Node) :=
  if validName path then
    (path, node) ::
      match node with
      | .map fields => listFields path fields
      | .null | .scalar _ | .sequence _ => []
  else []

def listFields (path : Text) : List (Text × Node) → List (Text × Node)
  | [] => []
  | (key, node) :: fields => listAllMember (childPath path key) node ++ listFields path fields

end

mutual

/-- The node and the nodes below it in preorder, with their dotted paths. -/
def nodesFrom (path : Text) (node : Node) : List (Text × Node) :=
  (path, node) ::
    match node with
    | .map fields => fieldsFrom path fields
    | .null | .scalar _ | .sequence _ => []

def fieldsFrom (path : Text) : List (Text × Node) → List (Text × Node)
  | [] => []
  | (key, node) :: fields => nodesFrom (childPath path key) node ++ fieldsFrom path fields

end

section Load

variable {V : Type} (yaml : Yaml) (fromString : Text → V → V)

/-- The argument of `fromString`. -/
def nodeText : Node → Text
  | .scalar text => text
  | node => yaml.dump node

/-- The variables, and the calls of `fromString` so far: on which variable, with which text. -/
structure Loading (V : Type) where
  registry : Registry V
  calls : List (Text × Text)

/-- The body of the loop over the nodes. -/
def loadNode (s : Loading V) (i : Text × Node) : Loading V :=
  if i.1 = [] then s
  else
    let key := i.1.map toLower
    match s.registry.lookupBase key with
    | none => s
    | some _ =>
        ⟨s.registry.update key (fromString (nodeText yaml i.2)),
          s.calls ++ [(key, nodeText yaml i.2)]⟩

def loadFromYaml (root : Node) (s : Loading V) : Loading V :=
  (listAllMember [] root).foldl (loadNode yaml fromString) s

/-- The call that a node asks for, if its path in lower case is a name. -/
def wanted (r : Registry V) (i : Text × Node) : Option (Text × Text) :=
  if r.Registered (i.1.map toLower) then some (i.1.map toLower, nodeText yaml i.2) else none

/-- The calls that a tree asks for. -/
def expected (root : Node) (r : Registry V) : List (Text × Text) :=
  (nodesFrom [] root).filterMap (wanted yaml r)

/-- The calls are those that the tree asks for, and no other variable changes. -/
def ReachesNamed (root : Node) (s : Loading V) : Prop :=
  let t := loadFromYaml yaml fromString root s
  t.calls = s.calls ++ expected yaml root s.registry ∧
    ∀ name, name ∉ (expected yaml root s.registry).map Prod.fst →
      t.registry.lookupBase name = s.registry.lookupBase name

end Load

/-! ### The nodes that are listed -/

theorem validName_of_childPath {path key : Text} (h : validName (childPath path key)) :
    validName path := by
  rw [childPath] at h
  split at h
  · next hnil => rw [hnil]; rfl
  · rw [validName, List.all_append, List.all_append, Bool.and_eq_true, Bool.and_eq_true] at h
    exact h.1.1

mutual

/-- A path that is not valid makes no path below it valid. -/
theorem not_valid_nodesFrom {path : Text} (h : ¬ validName path) (node : Node) :
    ∀ i ∈ nodesFrom path node, ¬ validName i.1 := by
  rw [nodesFrom.eq_def]
  simp only [List.forall_mem_cons]
  refine ⟨h, ?_⟩
  match node with
  | .map fields => exact not_valid_fieldsFrom h fields
  | .null => exact nofun
  | .scalar _ => exact nofun
  | .sequence _ => exact nofun

theorem not_valid_fieldsFrom {path : Text} (h : ¬ validName path) (fields : List (Text × Node)) :
    ∀ i ∈ fieldsFrom path fields, ¬ validName i.1 := by
  match fields with
  | [] => exact nofun
  | (key, node) :: fields =>
      rw [fieldsFrom]
      intro i hi
      obtain hi | hi := List.mem_append.mp hi
      · exact not_valid_nodesFrom (fun hchild => h (validName_of_childPath hchild)) node i hi
      · exact not_valid_fieldsFrom h fields i hi

end

mutual

/-- The nodes with a valid path are listed, in the same order. -/
theorem listAllMember_eq_filter (path : Text) (node : Node) :
    listAllMember path node = (nodesFrom path node).filter fun i => validName i.1 := by
  by_cases h : validName path
  · rw [listAllMember.eq_def, if_pos h, nodesFrom.eq_def, List.filter_cons, if_pos h]
    congr 1
    match node with
    | .map fields => exact listFields_eq_filter path fields
    | .null => rfl
    | .scalar _ => rfl
    | .sequence _ => rfl
  · rw [listAllMember.eq_def, if_neg h]
    exact (List.filter_eq_nil_iff.mpr (not_valid_nodesFrom h node)).symm

theorem listFields_eq_filter (path : Text) (fields : List (Text × Node)) :
    listFields path fields = (fieldsFrom path fields).filter fun i => validName i.1 := by
  match fields with
  | [] => rfl
  | (key, node) :: fields =>
      rw [listFields, fieldsFrom, List.filter_append,
        listAllMember_eq_filter (childPath path key) node, listFields_eq_filter path fields]

end

section Runs

variable {V : Type} {yaml : Yaml} {fromString : Text → V → V}

theorem filterMap_filter_eq_iff {α β : Type} (f : α → Option β) (p : α → Bool) (l : List α) :
    (l.filter p).filterMap f = l.filterMap f ↔ ∀ x ∈ l, (f x).isSome → p x := by
  induction l with
  | nil => exact iff_of_true rfl nofun
  | cons x l ih =>
      rw [List.forall_mem_cons]
      cases hp : p x with
      | true =>
          rw [List.filter_cons_of_pos hp, List.filterMap_cons, List.filterMap_cons, ← ih]
          cases hf : f x with
          | none => simp
          | some y => simp
      | false =>
          rw [List.filter_cons_of_neg (by simp [hp])]
          cases hf : f x with
          | none =>
              rw [List.filterMap_cons_none hf, ih]
              simp
          | some y =>
              -- the kept elements are too few
              apply iff_of_false
              · intro heq
                have hle := (List.filter_sublist (p := p) (l := l)).filterMap f |>.length_le
                rw [heq, List.filterMap_cons_some hf, List.length_cons] at hle
                omega
              · rintro ⟨hx, -⟩
                cases hx rfl

/-- The call that the loop makes for a node that is listed. -/
def made (yaml : Yaml) (r : Registry V) (i : Text × Node) : Option (Text × Text) :=
  if i.1 = [] then none else wanted yaml r i

theorem wanted_congr {r r' : Registry V} (h : ∀ name, r.Registered name ↔ r'.Registered name) :
    wanted yaml r = wanted yaml r' := by
  funext i
  rw [wanted, wanted]
  simp only [h]

/-- A step makes at most the call of its node, and changes no name. -/
theorem loadNode_spec (yaml : Yaml) (fromString : Text → V → V) (s : Loading V)
    (i : Text × Node) :
    (loadNode yaml fromString s i).calls = s.calls ++ (made yaml s.registry i).toList ∧
      (∀ name, (loadNode yaml fromString s i).registry.Registered name ↔
        s.registry.Registered name) ∧
      ∀ name, name ∉ ((made yaml s.registry i).toList.map Prod.fst) →
        (loadNode yaml fromString s i).registry.lookupBase name = s.registry.lookupBase name := by
  by_cases hnil : i.1 = []
  · have hload : loadNode yaml fromString s i = s := if_pos hnil
    rw [hload, made, if_pos hnil]
    exact ⟨(List.append_nil _).symm, fun _ => Iff.rfl, fun _ _ => rfl⟩
  · rw [made, if_neg hnil]
    cases hlookup : s.registry.lookupBase (i.1.map toLower) with
    | none =>
        have hload : loadNode yaml fromString s i = s := by
          rw [loadNode, if_neg hnil]
          simp only [hlookup]
        have hnot : ¬ s.registry.Registered (i.1.map toLower) := by
          rw [Registry.Registered, hlookup]
          exact Bool.false_ne_true
        rw [hload, wanted, if_neg hnot]
        exact ⟨(List.append_nil _).symm, fun _ => Iff.rfl, fun _ _ => rfl⟩
    | some v =>
        have hload : loadNode yaml fromString s i =
            ⟨s.registry.update (i.1.map toLower) (fromString (nodeText yaml i.2)),
              s.calls ++ [(i.1.map toLower, nodeText yaml i.2)]⟩ := by
          rw [loadNode, if_neg hnil]
          simp only [hlookup]
        have hregistered : s.registry.Registered (i.1.map toLower) := by
          rw [Registry.Registered, hlookup]
          rfl
        rw [hload, wanted, if_pos hregistered]
        refine ⟨rfl, fun name => Registry.registered_update _ _ _ _, ?_⟩
        intro name hname
        have hne : name ≠ i.1.map toLower := by
          rintro rfl
          exact hname List.mem_cons_self
        rw [Registry.lookupBase_update]
        simp only [if_neg hne, Option.map_id']

/-- The loop makes the calls of the nodes one after the other. -/
theorem loadNodes_spec (yaml : Yaml) (fromString : Text → V → V) (l : List (Text × Node))
    (s : Loading V) :
    (l.foldl (loadNode yaml fromString) s).calls =
        s.calls ++ l.filterMap (made yaml s.registry) ∧
      ∀ name, name ∉ (l.filterMap (made yaml s.registry)).map Prod.fst →
        (l.foldl (loadNode yaml fromString) s).registry.lookupBase name =
          s.registry.lookupBase name := by
  induction l generalizing s with
  | nil => exact ⟨(List.append_nil _).symm, fun _ _ => rfl⟩
  | cons i l ih =>
      obtain ⟨hcalls, hnames, hsame⟩ := loadNode_spec yaml fromString s i
      obtain ⟨hrest, hkeep⟩ := ih (loadNode yaml fromString s i)
      have hmade : made yaml (loadNode yaml fromString s i).registry = made yaml s.registry := by
        unfold made
        rw [wanted_congr hnames]
      have hsplit : (i :: l).filterMap (made yaml s.registry) =
          (made yaml s.registry i).toList ++ l.filterMap (made yaml s.registry) := by
        cases hi : made yaml s.registry i with
        | none => rw [List.filterMap_cons_none hi]; rfl
        | some call => rw [List.filterMap_cons_some hi]; rfl
      rw [hmade] at hrest hkeep
      rw [hsplit, List.foldl_cons]
      refine ⟨by rw [hrest, hcalls, List.append_assoc], ?_⟩
      intro name hname
      rw [List.map_append, List.mem_append, not_or] at hname
      rw [hkeep name hname.2, hsame name hname.1]

/-- The nodes that the loop makes a call for. -/
def reached (i : Text × Node) : Bool := validName i.1 && i.1 ≠ []

theorem filterMap_made (l : List (Text × Node)) (r : Registry V) :
    (l.filter fun i => validName i.1).filterMap (made yaml r) =
      (l.filter reached).filterMap (wanted yaml r) := by
  rw [List.filterMap_filter, List.filterMap_filter]
  congr 1
  funext i
  rw [made, reached]
  by_cases hnil : i.1 = []
  · simp [hnil]
  · simp [hnil]

/-- An upper case letter is the only thing that lower case takes away. -/
theorem validName_iff_of_lower {path : Text} (h : validName (path.map toLower)) :
    validName path ↔ ∀ c ∈ path, ¬ (65 ≤ c ∧ c ≤ 90) := by
  have hall : (nameChars.all fun d => ¬ (65 ≤ d ∧ d ≤ 90)) = true := by decide +kernel
  have hlower : ∀ d ∈ nameChars, ¬ (65 ≤ d ∧ d ≤ 90) := fun d hd =>
    of_decide_eq_true (List.all_eq_true.1 hall d hd)
  rw [validName, List.all_map, List.all_eq_true] at h
  rw [validName, List.all_eq_true]
  constructor
  · intro hvalid c hc
    exact hlower c (of_decide_eq_true (hvalid c hc))
  · intro hcase c hc
    have hmem : toLower c ∈ nameChars := of_decide_eq_true (h c hc)
    rw [toLower, if_neg (hcase c hc)] at hmem
    exact decide_eq_true hmem

/-- The loop reaches the named variables exactly if every node whose path in lower case is a
name has a path that is not empty and has no upper case letter. -/
theorem loadFromYaml_reaches_named_iff (root : Node) (s : Loading V) :
    ReachesNamed yaml fromString root s ↔
      ∀ i ∈ nodesFrom [] root, s.registry.Registered (i.1.map toLower) →
        i.1 ≠ [] ∧ ∀ c ∈ i.1, ¬ (65 ≤ c ∧ c ≤ 90) := by
  obtain ⟨hcalls, hkeep⟩ := loadNodes_spec yaml fromString (listAllMember [] root) s
  rw [listAllMember_eq_filter, filterMap_made] at hcalls hkeep
  have hiff : ReachesNamed yaml fromString root s ↔
      ((nodesFrom [] root).filter reached).filterMap (wanted yaml s.registry) =
        (nodesFrom [] root).filterMap (wanted yaml s.registry) := by
    constructor
    · rintro ⟨heq, -⟩
      rw [loadFromYaml, listAllMember_eq_filter, hcalls] at heq
      exact List.append_cancel_left heq
    · intro heq
      rw [heq] at hcalls hkeep
      rw [ReachesNamed, loadFromYaml, listAllMember_eq_filter]
      exact ⟨hcalls, hkeep⟩
  rw [hiff, filterMap_filter_eq_iff]
  apply forall₂_congr
  intro i hi
  have hwanted : (wanted yaml s.registry i).isSome ↔
      s.registry.Registered (i.1.map toLower) := by
    rw [wanted]
    split
    · next h => exact iff_of_true rfl h
    · next h => exact iff_of_false Bool.false_ne_true h
  rw [hwanted]
  apply imp_congr_right
  intro hregistered
  rw [reached, Bool.and_eq_true, validName_iff_of_lower hregistered.validName, decide_eq_true_iff]
  exact and_comm

end Runs

/-- The key of the tree `A: 1` is the name `a` in lower case. Nothing is loaded. -/
theorem loadFromYaml_drops_upper_case :
    let yaml : Yaml := ⟨fun _ => .ok .null, fun _ => [], rfl⟩
    let root : Node := .map [(ascii "A", .scalar (ascii "1"))]
    let s : Loading Text := ⟨⟨[(ascii "a", ascii "0")], by decide, by decide⟩, []⟩
    ((Registry.lookup (fun _ => true) (ascii "a") (ascii "0")).exec Registry.empty).2 =
        s.registry ∧
      expected yaml root s.registry = [(ascii "a", ascii "1")] ∧
      (loadFromYaml yaml (fun val _ => val) root s).calls = [] ∧
      ¬ ReachesNamed yaml (fun val _ => val) root s := by
  intro yaml root s
  refine ⟨rfl, rfl, rfl, ?_⟩
  rintro ⟨hcalls, -⟩
  cases hcalls

end Sylar.Config

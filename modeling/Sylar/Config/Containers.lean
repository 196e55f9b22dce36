import Mathlib.Data.Finmap
import Mathlib.Data.Finset.Dedup
import Sylar.Config.Casts

/-!
# Casts of containers

A container is written as a sequence or a map of what its elements are written as, each
loaded as a text of its own, and read element by element. As a template for one type the
cast of a container is built on the cast of its elements, to any depth.

The cast of a value is given by the tree that its text is loaded as, and by what is read
from the text of a tree. `boost::lexical_cast` of a text to a text copies it.
-/

namespace Sylar.Config

open Sylar.Lib
open Sylar.Http (Text ascii)

/-- What a cast throws. -/
inductive CastError where
  | yaml (e : YamlError)
  | badLexicalCast
  deriving DecidableEq, Repr

/-- `YAML::Load` of `LexicalCast<T, std::string>`, and `LexicalCast<std::string, T>` of what a
tree is emitted as. -/
structure Cast (T : Type) where
  toNode : T → Except CastError Node
  fromNode : Node → Except CastError T

/-- The value is read back as it was written. -/
def Cast.Survives {T : Type} (c : Cast T) (v : T) : Prop := (c.toNode v >>= c.fromNode) = .ok v

/-- `LexicalCast` between texts. -/
def Cast.string (yaml : Yaml) : Cast Text where
  toNode v := (yaml.load v).mapError .yaml
  fromNode node := .ok (yaml.dump node)

/-- How the elements of a container are passed, and how one is put in. What is passed can be put
into an empty container again. -/
structure Container (C X : Type) where
  elements : C → List X
  empty : C
  put : C → X → C
  rebuild : ∀ c, (elements c).foldl put empty = c

section Casts

variable {C T : Type}

/-- The casts of the containers that are written as sequences. -/
def Cast.sequence (k : Container C T) (c : Cast T) : Cast C where
  toNode v := do return .ofItems (← (k.elements v).mapM c.toNode)
  fromNode node := do return (← node.items.mapM c.fromNode).foldl k.put k.empty

/-- The casts of the containers that are written as maps. -/
def Cast.fields (k : Container C (Text × T)) (c : Cast T) : Cast C where
  toNode v := do
    return .ofFields (← (k.elements v).mapM fun i => do return (i.1, ← c.toNode i.2))
  fromNode node := do
    let entries ← node.entries.mapError .yaml
    return (← entries.mapM fun i => do return (i.1, ← c.fromNode i.2)).foldl k.put k.empty

section Elementwise

variable {X N Y ε : Type} {f : X → Except ε N}

theorem mapM_cons_ok {x : X} {n : N} {l : List X} {nodes : List N} (hn : f x = .ok n)
    (hnodes : l.mapM f = .ok nodes) : (x :: l).mapM f = .ok (n :: nodes) := by
  rw [List.mapM_cons]
  exact bind_of_ok hn (bind_of_ok hnodes rfl)

/-- What is written and read element by element corresponds element by element. -/
theorem forall₂_of_mapM {g : N → Except ε Y} {l : List X} {nodes : List N} {back : List Y}
    (hnodes : l.mapM f = .ok nodes) (hback : nodes.mapM g = .ok back) :
    List.Forall₂ (fun x y => (f x >>= g) = .ok y) l back := by
  induction l generalizing nodes back with
  | nil =>
      cases hnodes
      cases hback
      exact .nil
  | cons x l ih =>
      rw [List.mapM_cons] at hnodes
      obtain ⟨n, hn, hrest⟩ := bind_eq_ok hnodes
      obtain ⟨tail, htail, heq⟩ := bind_eq_ok hrest
      cases heq
      rw [List.mapM_cons] at hback
      obtain ⟨y, hy, hrest⟩ := bind_eq_ok hback
      obtain ⟨ys, hys, heq⟩ := bind_eq_ok hrest
      cases heq
      exact .cons (bind_of_ok hn hy) (ih htail hys)

theorem exists_mapM_of_forall {g : N → Except ε X} {l : List X}
    (h : ∀ x ∈ l, (f x >>= g) = .ok x) :
    ∃ nodes, l.mapM f = .ok nodes ∧ nodes.mapM g = .ok l := by
  induction l with
  | nil => exact ⟨[], rfl, rfl⟩
  | cons x l ih =>
      obtain ⟨hx, hl⟩ := List.forall_mem_cons.mp h
      obtain ⟨n, hn, hback⟩ := bind_eq_ok hx
      obtain ⟨nodes, hnodes, hrest⟩ := ih hl
      exact ⟨n :: nodes, mapM_cons_ok hn hnodes, mapM_cons_ok hback hrest⟩

end Elementwise

theorem Node.entries_ofFields (fields : List (Text × Node)) :
    (Node.ofFields fields).entries = .ok fields := by
  cases fields with
  | nil => rfl
  | cons field fields => rfl

theorem Cast.sequence_survives {k : Container C T} {c : Cast T} {v : C}
    (h : ∀ x ∈ k.elements v, c.Survives x) : (Cast.sequence k c).Survives v := by
  obtain ⟨nodes, hnodes, hback⟩ := exists_mapM_of_forall h
  have hread : (Node.ofItems nodes).items.mapM c.fromNode = .ok (k.elements v) := by
    rw [Node.items_ofItems]
    exact hback
  exact bind_of_ok (bind_of_ok hnodes rfl) (bind_of_ok hread (congrArg Except.ok (k.rebuild v)))

theorem Cast.fields_survives {k : Container C (Text × T)} {c : Cast T} {v : C}
    (h : ∀ i ∈ k.elements v, c.Survives i.2) : (Cast.fields k c).Survives v := by
  let write : Text × T → Except CastError (Text × Node) := fun i => do
    return (i.1, ← c.toNode i.2)
  let read : Text × Node → Except CastError (Text × T) := fun i => do
    return (i.1, ← c.fromNode i.2)
  have hentry : ∀ i ∈ k.elements v, (write i >>= read) = .ok i := by
    intro i hi
    obtain ⟨node, hnode, hback⟩ := bind_eq_ok (h i hi)
    exact bind_of_ok (bind_of_ok hnode rfl) (bind_of_ok hback rfl)
  obtain ⟨fields, hfields, hback⟩ := exists_mapM_of_forall hentry
  have hentries : (Node.ofFields fields).entries.mapError .yaml =
      (.ok fields : Except CastError _) := by
    rw [Node.entries_ofFields]
    rfl
  exact bind_of_ok (bind_of_ok hfields rfl)
    (bind_of_ok hentries (bind_of_ok hback (congrArg Except.ok (k.rebuild v))))

/-- A value is written and another one read back under the same key. -/
def Cast.ReadAs (c : Cast T) (i j : Text × T) : Prop :=
  j.1 = i.1 ∧ (c.toNode i.2 >>= c.fromNode) = .ok j.2

/-- The entries that are put into the map that is read. -/
theorem Cast.entries_of_fields {k : Container C (Text × T)} {c : Cast T} {v w : C}
    (h : ((Cast.fields k c).toNode v >>= (Cast.fields k c).fromNode) = .ok w) :
    ∃ back, List.Forall₂ c.ReadAs (k.elements v) back ∧ back.foldl k.put k.empty = w := by
  obtain ⟨node, hnode, hread⟩ := bind_eq_ok h
  obtain ⟨fields, hfields, hmap⟩ := bind_eq_ok hnode
  cases hmap
  obtain ⟨entries, hentries, hread⟩ := bind_eq_ok hread
  rw [Node.entries_ofFields] at hentries
  cases hentries
  obtain ⟨back, hback, hw⟩ := bind_eq_ok hread
  refine ⟨back, ?_, Except.ok.inj hw⟩
  refine (forall₂_of_mapM hfields hback).imp fun i j hij => ?_
  obtain ⟨n, hi, hj⟩ := bind_eq_ok hij
  obtain ⟨node, hnode, heq⟩ := bind_eq_ok hi
  cases heq
  obtain ⟨val, hval, heq⟩ := bind_eq_ok hj
  cases heq
  exact ⟨rfl, bind_of_ok hnode hval⟩

end Casts

namespace Container

/-- `push_back` at the end of a `std::vector` or a `std::list`. -/
def list (T : Type) : Container (List T) T where
  elements v := v
  empty := []
  put v x := v ++ [x]
  rebuild v := by
    have hfold : ∀ l m : List T, l.foldl (fun v x => v ++ [x]) m = m ++ l := by
      intro l
      induction l with
      | nil => simp
      | cons x l ih => simp [ih]
    exact hfold v []

section Ordered

variable {X κ : Type} [LinearOrder κ] {less : X → X → Bool} {key : X → κ}

/-- A container in the order of its keys, with one element for each. -/
@[ext] structure Ordered (key : X → κ) where
  list : List X
  sorted : OrderedSet.Sorted key list

/-- Elements that come in order are put in at the end. -/
theorem foldl_insert_of_sorted (h : OrderedSet.ComparesBy less key) {l m : List X}
    (hsorted : OrderedSet.Sorted key (m ++ l)) :
    l.foldl (fun s x => OrderedSet.insert less x s) m = m ++ l := by
  induction l generalizing m with
  | nil => simp
  | cons x l ih =>
      have hlast : ∀ y ∈ m, key y < key x := fun y hy =>
        (List.pairwise_append.mp hsorted).2.2 y hy x List.mem_cons_self
      rw [List.foldl_cons, OrderedSet.insert_of_forall_lt h hlast, ih (by simpa using hsorted),
        List.append_assoc]
      rfl

def Ordered.insert (h : OrderedSet.ComparesBy less key) (s : Ordered key) (x : X) : Ordered key :=
  ⟨OrderedSet.insert less x s.list, s.sorted.insert h x⟩

/-- Elements that come in order are the list of the container that they are put into. -/
theorem list_foldl_insert (h : OrderedSet.ComparesBy less key) {l : List X}
    (hsorted : OrderedSet.Sorted key l) :
    (l.foldl (Ordered.insert h) ⟨[], List.Pairwise.nil⟩).list = l := by
  have hlist : ∀ (l : List X) (s : Ordered key), (l.foldl (Ordered.insert h) s).list =
      l.foldl (fun s x => OrderedSet.insert less x s) s.list := by
    intro l
    induction l with
    | nil => exact fun _ => rfl
    | cons x l ih => exact fun s => ih _
  rw [hlist]
  exact foldl_insert_of_sorted h (m := []) hsorted

/-- `insert` of `std::set` and `std::map`. -/
def ordered (h : OrderedSet.ComparesBy less key) : Container (Ordered key) X where
  elements s := s.list
  empty := ⟨[], List.Pairwise.nil⟩
  put := Ordered.insert h
  rebuild s := Ordered.ext (list_foldl_insert h s.sorted)

end Ordered

/-- `std::unordered_set`, whose elements are passed in any order. -/
def unorderedSet {T : Type} [DecidableEq T] (order : Finset T → List T)
    (h : ∀ s, (order s).toFinset = s) : Container (Finset T) T where
  elements := order
  empty := ∅
  put s x := insert x s
  rebuild s := by
    have hfold : ∀ (l : List T) (s : Finset T),
        l.foldl (fun s x => insert x s) s = s ∪ l.toFinset := by
      intro l
      induction l with
      | nil => simp
      | cons x l ih =>
          intro s
          rw [List.foldl_cons, ih, List.toFinset_cons, Finset.insert_union, Finset.union_insert]
    rw [hfold, h s, Finset.empty_union]

section UnorderedMap

variable {T : Type} {m : Finmap fun _ : Text => T}

/-- `insert` keeps the entry that the map has for a key. -/
def putNew (m : Finmap fun _ : Text => T) (i : Text × T) : Finmap fun _ : Text => T :=
  if i.1 ∈ m then m else m.insert i.1 i.2

theorem lookup_putNew (i : Text × T) (key : Text) :
    (putNew m i).lookup key = (m.lookup key).or (if key = i.1 then some i.2 else none) := by
  unfold putNew
  split
  · next hmem =>
      by_cases hkey : key = i.1
      · obtain ⟨val, hval⟩ := Finmap.mem_iff.mp hmem
        rw [hkey, hval]
        rfl
      · rw [if_neg hkey, Option.or_none]
  · next hmem =>
      by_cases hkey : key = i.1
      · rw [hkey, Finmap.lookup_insert, Finmap.lookup_eq_none.mpr hmem, if_pos rfl]
        rfl
      · rw [Finmap.lookup_insert_of_ne _ hkey, if_neg hkey, Option.or_none]

theorem lookup_foldl_putNew (l : List (Text × T)) (key : Text) :
    (l.foldl putNew m).lookup key = (m.lookup key).or (l.lookup key) := by
  induction l generalizing m with
  | nil => exact Option.or_none.symm
  | cons i l ih =>
      rw [List.foldl_cons, ih, lookup_putNew, Option.or_assoc, List.lookup_cons]
      by_cases hkey : key = i.1
      · rw [if_pos hkey, hkey, beq_self_eq_true]
        rfl
      · rw [if_neg hkey, beq_eq_false_iff_ne.mpr hkey]
        rfl

/-- `std::unordered_map`, whose entries are passed in any order. -/
def unorderedMap (order : (Finmap fun _ : Text => T) → List (Text × T))
    (h : ∀ m key val, (key, val) ∈ order m ↔ m.lookup key = some val) :
    Container (Finmap fun _ : Text => T) (Text × T) where
  elements := order
  empty := ∅
  put := putNew
  rebuild m := by
    refine Finmap.ext_lookup fun key => ?_
    rw [lookup_foldl_putNew, Finmap.lookup_empty, Option.none_or]
    cases hfound : (order m).lookup key with
    | some val =>
        obtain ⟨front, back, heq, -⟩ := List.lookup_eq_some_iff.mp hfound
        exact ((h m key val).mp (heq ▸ List.mem_append_right _ List.mem_cons_self)).symm
    | none =>
        cases hval : m.lookup key with
        | none => rfl
        | some val =>
            have hne := List.lookup_eq_none_iff.mp hfound _ ((h m key val).mpr hval)
            exact absurd rfl (bne_iff_ne.mp hne)

end UnorderedMap

end Container

namespace Cast

section Templates

variable {T : Type} (c : Cast T)

/-- `LexicalCast` of `std::vector<T>`. -/
def vector : Cast (List T) := .sequence (.list T) c

/-- `LexicalCast` of `std::list<T>`. -/
def list : Cast (List T) := .sequence (.list T) c

/-- `LexicalCast` of `std::set<T>`. -/
def set {κ : Type} [LinearOrder κ] {less : T → T → Bool} {key : T → κ}
    (h : OrderedSet.ComparesBy less key) : Cast (Container.Ordered key) :=
  .sequence (.ordered h) c

/-- `LexicalCast` of `std::unordered_set<T>`. -/
def unorderedSet [DecidableEq T] (order : Finset T → List T)
    (h : ∀ s, (order s).toFinset = s) : Cast (Finset T) :=
  .sequence (.unorderedSet order h) c

/-- The bytes of a key, as `std::string` compares them. -/
def entryKey (i : Text × T) : List Nat := i.1.map UInt8.toNat

def entryLess (i j : Text × T) : Bool := entryKey i < entryKey j

theorem comparesBy_entryKey : OrderedSet.ComparesBy (entryLess (T := T)) entryKey := by
  intro i j
  exact decide_eq_true_iff

/-- `LexicalCast` of `std::map<std::string, T>`. -/
def map : Cast (Container.Ordered (entryKey (T := T))) :=
  .fields (.ordered comparesBy_entryKey) c

/-- `LexicalCast` of `std::unordered_map<std::string, T>`. -/
def unorderedMap (order : (Finmap fun _ : Text => T) → List (Text × T))
    (h : ∀ m key val, (key, val) ∈ order m ↔ m.lookup key = some val) :
    Cast (Finmap fun _ : Text => T) :=
  .fields (.unorderedMap order h) c

variable {c}

/-- What is put in at the end stays where it is, so a vector shows every element that is read
back differently. -/
theorem sequence_list_survives_iff {v : List T} :
    (Cast.sequence (.list T) c).Survives v ↔ ∀ x ∈ v, c.Survives x := by
  refine ⟨fun h => ?_, sequence_survives (k := .list T)⟩
  obtain ⟨node, hnode, hread⟩ := bind_eq_ok h
  obtain ⟨nodes, hnodes, hitems⟩ := bind_eq_ok hnode
  obtain ⟨back, hback, hv⟩ := bind_eq_ok hread
  cases hitems
  rw [Node.items_ofItems] at hback
  have hsame : back = v := ((Container.list T).rebuild back).symm.trans (Except.ok.inj hv)
  have hread : List.Forall₂ (fun x y => (c.toNode x >>= c.fromNode) = .ok y) v back :=
    forall₂_of_mapM hnodes hback
  rw [hsame] at hread
  intro x hx
  exact List.forall₂_same.mp hread x hx

/-- The keys are written and read as they are, and in the same order. -/
theorem map_survives_iff {m : Container.Ordered (entryKey (T := T))} :
    c.map.Survives m ↔ ∀ i ∈ m.list, c.Survives i.2 := by
  refine ⟨fun h => ?_, fields_survives (k := .ordered comparesBy_entryKey)⟩
  obtain ⟨back, hread, hm⟩ : ∃ back, List.Forall₂ c.ReadAs m.list back ∧ _ = m :=
    entries_of_fields h
  have hkeys : ∀ {l back : List (Text × T)}, List.Forall₂ c.ReadAs l back →
      back.map entryKey = l.map entryKey := by
    intro l back hread
    induction hread with
    | nil => rfl
    | cons hij _ ih => rw [List.map_cons, List.map_cons, ih, entryKey, hij.1, entryKey]
  have hsorted : OrderedSet.Sorted entryKey back := by
    have hpairs := List.pairwise_map.mpr m.sorted
    rw [← hkeys hread] at hpairs
    exact List.pairwise_map.mp hpairs
  have hsame : m.list = back :=
    (congrArg Container.Ordered.list hm).symm.trans
      (Container.list_foldl_insert comparesBy_entryKey hsorted)
  rw [← hsame] at hread
  exact fun i hi => (List.forall₂_same.mp hread i hi).2

theorem lookup_of_readAs {l back : List (Text × T)} (h : List.Forall₂ c.ReadAs l back)
    {key : Text} {val : T} (hval : l.lookup key = some val) :
    ∃ got, back.lookup key = some got ∧ (c.toNode val >>= c.fromNode) = .ok got := by
  induction h with
  | nil => cases hval
  | @cons i j l back hij _ ih =>
      rw [List.lookup_cons] at hval ⊢
      rw [hij.1]
      cases hkey : key == i.1 with
      | true =>
          rw [hkey] at hval
          cases hval
          exact ⟨j.2, rfl, hij.2⟩
      | false =>
          rw [hkey] at hval
          exact ih hval

theorem unorderedMap_survives_iff {order : (Finmap fun _ : Text => T) → List (Text × T)}
    {h : ∀ m key val, (key, val) ∈ order m ↔ m.lookup key = some val}
    {m : Finmap fun _ : Text => T} :
    (c.unorderedMap order h).Survives m ↔
      ∀ key val, m.lookup key = some val → c.Survives val := by
  refine ⟨fun hm key val hval => ?_, fun hall => ?_⟩
  · obtain ⟨back, hread, heq⟩ := entries_of_fields hm
    have hlookup : ∀ l : List (Text × T), (l.foldl Container.putNew ∅).lookup key =
        l.lookup key := by
      intro l
      rw [Container.lookup_foldl_putNew, Finmap.lookup_empty, Option.none_or]
    -- both lists of entries give the map
    have hwritten : (order m).lookup key = some val := by
      rw [← hlookup, ← hval]
      exact congrArg (Finmap.lookup key) ((Container.unorderedMap order h).rebuild m)
    have hback : back.lookup key = some val := by
      rw [← hlookup, ← hval]
      exact congrArg (Finmap.lookup key) heq
    obtain ⟨got, hgot, hvalue⟩ := lookup_of_readAs hread hwritten
    cases hgot.symm.trans hback
    exact hvalue
  · exact fields_survives fun i hi => hall i.1 i.2 ((h m i.1 i.2).mp hi)

end Templates

end Cast

end Sylar.Config

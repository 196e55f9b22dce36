import Mathlib.Data.List.Induction
import Mathlib.Logic.Function.Basic
import Sylar.Lib.History
import Sylar.Http.Message

/-!
# `ServletDispatch`

Servlets are found by the whole path first, then by the first glob that matches, in the
order of the vector. Adding a glob again moves it to the end of the vector. `fnmatch` is
a parameter.
-/

namespace Sylar.Http

open Sylar.Lib.History

/-- `ServletDispatch` over a type of servlets. -/
structure ServletDispatch (S : Type) where
  datas : Text → Option S
  globs : List (Text × S)
  default : S

namespace ServletDispatch

variable {S C : Type}

/-- The constructor, with the servlet that it makes the default. -/
def new (notFound : S) : ServletDispatch S := ⟨fun _ => none, [], notFound⟩

section Methods

variable (d : ServletDispatch S) (uri : Text) (slt : S)

/-- `addServlet(uri, slt)`. -/
def addServlet : ServletDispatch S := { d with datas := Function.update d.datas uri (some slt) }

/-- The loop that erases the first glob with the pattern. -/
def eraseGlob : List (Text × S) := d.globs.eraseP fun it => it.1 = uri

/-- `addGlobServlet(uri, slt)`. -/
def addGlobServlet : ServletDispatch S := { d with globs := d.eraseGlob uri ++ [(uri, slt)] }

def delServlet : ServletDispatch S := { d with datas := Function.update d.datas uri none }

def delGlobServlet : ServletDispatch S := { d with globs := d.eraseGlob uri }

def setDefault : ServletDispatch S := { d with default := slt }

def getServlet : Option S := d.datas uri

def getGlobServlet : Option S := (d.globs.find? fun it => it.1 = uri).map Prod.snd

/-- The glob at which the loop of `getMatchedServlet` returns. -/
def matchedGlob (fnmatch : Text → Text → Bool) : Option (Text × S) :=
  d.globs.find? fun it => fnmatch it.1 uri

def getMatchedServlet (fnmatch : Text → Text → Bool) : S :=
  match d.datas uri with
  | some slt => slt
  | none =>
      match d.matchedGlob uri fnmatch with
      | some it => it.2
      | none => d.default

end Methods

/-- A call that changes the dispatcher. Servlets and callbacks are added alike. -/
inductive Call (S C : Type) where
  | addServlet (uri : Text) (slt : S)
  | addServletCb (uri : Text) (cb : C)
  | addGlobServlet (uri : Text) (slt : S)
  | addGlobServletCb (uri : Text) (cb : C)
  | delServlet (uri : Text)
  | delGlobServlet (uri : Text)
  | setDefault (slt : S)

section Calls

variable (functionServlet : C → S)

/-- The servlet of a callback is `new FunctionServlet(cb)`. -/
def call (d : ServletDispatch S) : Call S C → ServletDispatch S
  | .addServlet uri slt => d.addServlet uri slt
  | .addServletCb uri cb => d.addServlet uri (functionServlet cb)
  | .addGlobServlet uri slt => d.addGlobServlet uri slt
  | .addGlobServletCb uri cb => d.addGlobServlet uri (functionServlet cb)
  | .delServlet uri => d.delServlet uri
  | .delGlobServlet uri => d.delGlobServlet uri
  | .setDefault slt => d.setDefault slt

/-- The dispatcher after a history of calls. -/
def after (notFound : S) (h : List (Call S C)) : ServletDispatch S :=
  h.foldl (call functionServlet) (new notFound)

namespace Call

/-- What a call does to the servlet of a path. -/
def onServlet : Call S C → Option (Text × Option S)
  | .addServlet uri slt => some (uri, some slt)
  | .addServletCb uri cb => some (uri, some (functionServlet cb))
  | .delServlet uri => some (uri, none)
  | .addGlobServlet _ _ | .addGlobServletCb _ _ | .delGlobServlet _ | .setDefault _ => none

/-- What a call does to the servlet of a glob. -/
def onGlob : Call S C → Option (Text × Option S)
  | .addGlobServlet uri slt => some (uri, some slt)
  | .addGlobServletCb uri cb => some (uri, some (functionServlet cb))
  | .delGlobServlet uri => some (uri, none)
  | .addServlet _ _ | .addServletCb _ _ | .delServlet _ | .setDefault _ => none

/-- What a call does to the default. -/
def onDefault : Call S C → Option (Unit × Option S)
  | .setDefault slt => some ((), some slt)
  | .addServlet _ _ | .addServletCb _ _ | .delServlet _ => none
  | .addGlobServlet _ _ | .addGlobServletCb _ _ | .delGlobServlet _ => none

end Call

section Specification

variable (fnmatch : Text → Text → Bool) (notFound : S) (h : List (Call S C)) (uri : Text) (slt : S)

/-- The servlet was the last to be added for the path, and was not deleted since. -/
def RoutedExactly : Prop := ∃ n, Current (Call.onServlet functionServlet) h uri slt n

/-- The servlet is that of a matching glob, and no other glob that is there and matches was
added before it. -/
def RoutedByGlob : Prop :=
  ∃ p n, Current (Call.onGlob functionServlet) h p slt n ∧ fnmatch p uri = true ∧
    ∀ q slt' m, Current (Call.onGlob functionServlet) h q slt' m → fnmatch q uri = true → n ≤ m

/-- The servlet is the last default that was set, or the first one. -/
def IsDefault : Prop :=
  (∃ n, Current Call.onDefault h () slt n) ∨
    ((∀ slt' n, ¬Current Call.onDefault h () slt' n) ∧ slt = notFound)

/-- A path goes to its own servlet, else to that of a glob, else to the default. -/
def Routed : Prop :=
  RoutedExactly functionServlet h uri slt ∨
    ((∀ slt', ¬RoutedExactly functionServlet h uri slt') ∧
      (RoutedByGlob functionServlet fnmatch h uri slt ∨
        ((∀ slt', ¬RoutedByGlob functionServlet fnmatch h uri slt') ∧ IsDefault notFound h slt)))

end Specification

variable {functionServlet} {notFound : S} {h : List (Call S C)} {d : ServletDispatch S}

/-- The dispatcher has what the history leaves of each path, each glob and the default. -/
structure Follows (functionServlet : C → S) (notFound : S) (h : List (Call S C))
    (d : ServletDispatch S) : Prop where
  datas : ∀ uri slt, d.datas uri = some slt ↔ RoutedExactly functionServlet h uri slt
  globs : Keeps (Call.onGlob functionServlet) h d.globs
  default : IsDefault notFound h d.default

theorem follows_new : Follows functionServlet notFound [] (new notFound) := by
  refine ⟨?_, .nil, .inr ⟨fun _ _ => not_current_nil, rfl⟩⟩
  intro uri slt
  refine iff_of_false (by simp [new]) ?_
  rintro ⟨n, hn⟩
  exact not_current_nil hn

section Step

variable {c : Call S C}

theorem routedExactly_concat {uri : Text} {slt : S} :
    RoutedExactly functionServlet (h ++ [c]) uri slt ↔
      c.onServlet functionServlet = some (uri, some slt) ∨
        ((∀ w, c.onServlet functionServlet ≠ some (uri, w)) ∧
          RoutedExactly functionServlet h uri slt) := by
  simp [RoutedExactly, current_concat, exists_or]

theorem routedExactly_skip (hc : c.onServlet functionServlet = none) {uri : Text} {slt : S} :
    RoutedExactly functionServlet (h ++ [c]) uri slt ↔ RoutedExactly functionServlet h uri slt := by
  simp [routedExactly_concat, hc]

/-- A call on a path updates the map there. -/
theorem Follows.datas_update (hd : Follows functionServlet notFound h d) {uri : Text}
    {v : Option S} (hc : c.onServlet functionServlet = some (uri, v)) (uri' : Text) (slt : S) :
    Function.update d.datas uri v uri' = some slt ↔
      RoutedExactly functionServlet (h ++ [c]) uri' slt := by
  rw [routedExactly_concat, hc]
  by_cases heq : uri' = uri
  · subst heq
    simp
  · simp [Function.update_of_ne heq, hd.datas, Ne.symm heq]

theorem isDefault_skip (hc : c.onDefault = none) {slt : S} :
    IsDefault notFound (h ++ [c]) slt ↔ IsDefault notFound h slt := by
  simp [IsDefault, current_concat, hc]

theorem Follows.call (hd : Follows functionServlet notFound h d) (c : Call S C) :
    Follows functionServlet notFound (h ++ [c]) (d.call functionServlet c) := by
  cases c with
  | addServlet uri slt | addServletCb uri cb | delServlet uri =>
      exact ⟨hd.datas_update rfl, hd.globs.skip rfl, (isDefault_skip rfl).mpr hd.default⟩
  | addGlobServlet uri slt | addGlobServletCb uri cb =>
      refine ⟨?_, hd.globs.write rfl, (isDefault_skip rfl).mpr hd.default⟩
      intro uri' slt'
      rw [routedExactly_skip rfl]
      exact hd.datas uri' slt'
  | delGlobServlet uri =>
      refine ⟨?_, hd.globs.remove rfl, (isDefault_skip rfl).mpr hd.default⟩
      intro uri' slt'
      rw [routedExactly_skip rfl]
      exact hd.datas uri' slt'
  | setDefault slt =>
      refine ⟨?_, hd.globs.skip rfl, .inl ⟨h.length, current_concat.mpr (.inl ⟨rfl, rfl⟩)⟩⟩
      intro uri' slt'
      rw [routedExactly_skip rfl]
      exact hd.datas uri' slt'

theorem after_concat (h : List (Call S C)) (c : Call S C) :
    after functionServlet notFound (h ++ [c]) =
      (after functionServlet notFound h).call functionServlet c := by
  rw [after, List.foldl_append]
  rfl

/-- After every history the dispatcher follows it. -/
theorem follows_after (functionServlet : C → S) (notFound : S) (h : List (Call S C)) :
    Follows functionServlet notFound h (after functionServlet notFound h) := by
  induction h using List.reverseRecOn with
  | nil => exact follows_new
  | append_singleton h c ih =>
      rw [after_concat]
      exact ih.call c

end Step

theorem Follows.routed (hd : Follows functionServlet notFound h d) (fnmatch : Text → Text → Bool)
    (uri : Text) :
    Routed functionServlet fnmatch notFound h uri (d.getMatchedServlet uri fnmatch) := by
  unfold getMatchedServlet
  split
  · next slt hslt => exact .inl ((hd.datas uri slt).mp hslt)
  · next hnone =>
      refine .inr ⟨fun slt hslt => ?_, ?_⟩
      · rw [← hd.datas, hnone] at hslt
        cases hslt
      · split
        · next it hit =>
            left
            obtain ⟨n, hn, hpass, hfirst⟩ := hd.globs.first_of_find hit
            exact ⟨it.1, n, hn, hpass, fun q slt m hm hq => hfirst q slt m hm hq⟩
        · next hfind =>
            right
            refine ⟨?_, hd.default⟩
            rintro slt ⟨p, n, hn, hp, -⟩
            have hmem : (p, slt) ∈ d.globs := (hd.globs.mem_iff p slt).mpr ⟨n, hn⟩
            exact List.find?_eq_none.mp hfind _ hmem hp

/-- After a deletion the glob has no servlet until it is added again. -/
theorem not_current_of_deleted {pre post : List (Call S C)} {p : Text} {slt : S} {n : Nat}
    (hpost : ∀ c ∈ post, ∀ slt, c.onGlob functionServlet ≠ some (p, some slt)) :
    ¬Current (Call.onGlob functionServlet) (pre ++ .delGlobServlet p :: post) p slt n := by
  intro hc
  rw [List.append_cons] at hc
  induction post using List.reverseRecOn with
  | nil =>
      rw [List.append_nil] at hc
      obtain ⟨-, heffect⟩ | ⟨hother, -⟩ := current_concat.mp hc
      · cases heffect
      · exact hother none rfl
  | append_singleton post c ih =>
      rw [← List.append_assoc] at hc
      obtain ⟨-, heffect⟩ | ⟨-, hc⟩ := current_concat.mp hc
      · exact hpost c (by simp) slt heffect
      · exact ih (fun c hc => hpost c (List.mem_append_left _ hc)) hc

theorem Follows.forall_glob_ne (hd : Follows functionServlet notFound h d) {p : Text}
    (hp : ∀ slt n, ¬Current (Call.onGlob functionServlet) h p slt n) :
    ∀ it ∈ d.globs, it.1 ≠ p := by
  rintro ⟨q, slt⟩ hit rfl
  obtain ⟨n, hn⟩ := (hd.globs.mem_iff q slt).mp hit
  exact hp slt n hn

/-- After every history of calls no glob occurs twice, every path is routed as the history
says, and a glob that was deleted and not added again has no servlet and answers no lookup. -/
theorem routes_by_history (functionServlet : C → S) (fnmatch : Text → Text → Bool) (notFound : S)
    (h : List (Call S C)) :
    ((after functionServlet notFound h).globs.map Prod.fst).Nodup ∧
      (∀ uri, Routed functionServlet fnmatch notFound h uri
        ((after functionServlet notFound h).getMatchedServlet uri fnmatch)) ∧
      ∀ pre p post, h = pre ++ .delGlobServlet p :: post →
        (∀ c ∈ post, ∀ slt, c.onGlob functionServlet ≠ some (p, some slt)) →
        (after functionServlet notFound h).getGlobServlet p = none ∧
          ∀ uri it, (after functionServlet notFound h).matchedGlob uri fnmatch = some it →
            it.1 ≠ p := by
  have hfollows := follows_after functionServlet notFound h
  refine ⟨hfollows.globs.nodup_keys, hfollows.routed fnmatch, ?_⟩
  rintro pre p post rfl hpost
  have hgone := hfollows.forall_glob_ne fun slt n => not_current_of_deleted (n := n) hpost
  constructor
  · rw [getGlobServlet, Option.map_eq_none_iff, List.find?_eq_none]
    intro it hit
    rw [decide_eq_true_iff]
    exact hgone it hit
  · intro uri it hit
    exact hgone it (List.mem_of_find?_eq_some hit)

end Calls

end ServletDispatch

end Sylar.Http

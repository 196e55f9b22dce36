import Sylar.Http.Uri

/-!
# Runs of the machine of `uri.rl`

The machine is followed through the components of a string. Userinfo, host and
port are read side by side until an `@` or the end of the authority decides what
they were; elsewhere one component follows the other.
-/

namespace Sylar.Http

open Sylar.Lib Sylar.Lib.Ragel Sylar.Lib.Ragel.Expr

namespace UriMachine

open UriGrammar

/-! ### The grammar with the places of its actions -/

def schemeAt : G := .leave 1 .saveScheme (.enter 0 .marku schemeName)
def hostAt (n : Nat) : G := .leave (n + 3) .saveHost (.enter (n + 2) .markh host)
def portAt (n : Nat) : G := .leave (n + 5) .savePort (.enter (n + 4) .markh port)
def portPart (n : Nat) : G := opt (.cat (str ":") (portAt n))
def userinfoPart (n : Nat) : G := opt (.cat (.leave (n + 1) .saveUserinfo userinfo) (str "@"))
def hostPort (n : Nat) : G := .cat (hostAt n) (portPart n)
def authorityAt (n : Nat) : G := .enter n .markh (.cat (userinfoPart n) (hostPort n))
def pathAt : G := .leave 9 .savePath (.enter 8 .markh pathAbempty)
def queryAt (n : Nat) : G := .leave (n + 1) .saveQuery (.enter n .marku queryText)
def fragmentAt (n : Nat) : G := .leave (n + 3) .saveFragment (.enter (n + 2) .marku queryText)
def fragmentPart (n : Nat) : G := opt (.cat (str "#") (fragmentAt n))
def tailAt (n : Nat) : G := .cat (opt (.cat (str "?") (queryAt n))) (fragmentPart n)

def hierAt : G :=
  alts [cats [str "//", authorityAt 2, pathAt], pathAbsolute, pathRootless, pathEmpty]

def relativeAt : G :=
  alts [cats [str "//", authorityAt 14, pathAbempty], pathAbsolute, pathNoscheme, pathEmpty]

def machine : G :=
  .alt (cats [schemeAt, str ":", hierAt, tailAt 10]) (.cat relativeAt (tailAt 20))

theorem start_main : start main = [machine] := by rfl

theorem machine_unprioritized : machine.unprioritized = true := by rfl

/-- The machine has read `w`. -/
abbrev At (u w : Text) (s : State UriAction) (x : UriParse) : Prop :=
  Reached (UriParse.action u) machine ⟨.new, none⟩ w s x

variable {u w t v : Text} {s : State UriAction} {x y : UriParse} {n : Nat}

/-! ### Texts between the mark and the current byte -/

theorem textAt_middle (a b c : Text) :
    textAt (a ++ b ++ c) a.length (((a ++ b).length : Int) - a.length) = .ok b := by
  have hlen : ((a ++ b).length : Int) - a.length = (b.length : Int) := by
    rw [List.length_append]
    omega
  rw [hlen, textAt, if_neg (by omega), if_neg]
  · simp
  · simp

theorem textAt_here {p : Nat} (hp : p ≤ u.length) : textAt u p ((p : Int) - p) = .ok [] := by
  rw [Int.sub_self, textAt, if_neg (by omega), if_neg (by simpa using hp)]
  rfl

/-- The actions that read a text from the mark and clear the mark. -/
theorem action_save {m p : Nat} (ht : textAt u m (p - m) = .ok t) (uri : Uri) :
    UriParse.action u .saveScheme p ⟨uri, some m⟩ = .ok ⟨{ uri with scheme := t }, none⟩ ∧
      UriParse.action u .saveUserinfo p ⟨uri, some m⟩ = .ok ⟨{ uri with userinfo := t }, none⟩ ∧
      UriParse.action u .savePath p ⟨uri, some m⟩ = .ok ⟨{ uri with path := t }, none⟩ ∧
      UriParse.action u .saveQuery p ⟨uri, some m⟩ = .ok ⟨{ uri with query := t }, none⟩ ∧
      UriParse.action u .saveFragment p ⟨uri, some m⟩ = .ok ⟨{ uri with fragment := t }, none⟩ := by
  have hmarked : UriParse.marked u p ⟨uri, some m⟩ = .ok t := ht
  simp only [UriParse.action, hmarked]
  exact ⟨rfl, rfl, rfl, rfl, rfl⟩

theorem action_saveHost {m p : Nat} (ht : textAt u m (p - m) = .ok t) (uri : Uri) :
    UriParse.action u .saveHost p ⟨uri, some m⟩ = .ok ⟨{ uri with host := t }, some m⟩ := by
  have hmarked : UriParse.marked u p ⟨uri, some m⟩ = .ok t := ht
  simp only [UriParse.action, hmarked]
  rfl

/-! ### Query and fragment -/

def queryBytes : ByteSet := pcharNc.union (.ofChars ":%/?")

theorem queryText_silent : queryText.silent queryBytes = true := by rfl

/-- The context of the query. -/
def inQuery (n : Nat) : Context UriAction :=
  [.leave (n + 1) .saveQuery, .cat (fragmentPart n)]

def inFragment (n : Nat) : Context UriAction := [.leave (n + 3) .saveFragment]

theorem queryBytes_inQuery (n : Nat) : queryBytes.apart (inQuery n).firsts = true := by
  change queryBytes.apart (inQuery 0).firsts = true
  decide

theorem queryBytes_inFragment (n : Nat) : queryBytes.apart (inFragment n).firsts = true := by
  change queryBytes.apart .none = true
  decide

theorem ordered_pair {i : Nat} {a b : UriAction} (hab : a ≠ b) :
    ordered [(i + 1, b), (i, a)] = [a, b] := by
  have hbeq : (b == a) = false := beq_eq_false_iff_ne.mpr hab.symm
  simp [ordered, insertAct, List.eraseDups_cons, hbeq]

/-- The string ends with the fragment. -/
theorem finish_fragment (h : At u w s x) (hs : ∀ f ∈ s, f = fragmentAt n)
    (ht : t ∈ queryText.lang) (hu : u = w ++ t) (hlang : u ∈ machine.lang) :
    ∃ y, parse (UriParse.action u) [machine] u ⟨.new, none⟩ = .ok (some y) ∧
      y.uri = { x.uri with fragment := t } := by
  subst hu
  have hmarked : textAt (w ++ t) w.length (((w ++ t).length : Int) - w.length) = .ok t := by
    simpa using textAt_middle w t []
  obtain ⟨s', y, h', hcases⟩ :=
    h.field (k := inFragment n) (v := []) hs queryText_silent
      (queryBytes_inFragment n)
      (mem_of_silent queryText_silent ht) (by simpa using hlang) rfl
  refine ⟨⟨{ x.uri with fragment := t }, none⟩, ?_, rfl⟩
  obtain ⟨rfl, rfl, hs'⟩ | ⟨-, rfl, hs'⟩ := hcases
  · refine h'.parse_same hlang (l := [(n + 3, .saveFragment), (n + 2, .marku)]) ?_ ?_ ?_
    · intro f hf r hr
      rw [hs' f hf] at hr
      cases hr
      rfl
    · simp [Placed]
    · rw [ordered_pair (by decide)]
      refine bind_of_ok rfl (bind_of_ok ?_ rfl)
      exact (action_save (textAt_here (Nat.le_refl _)) y.uri).2.2.2.2
  · refine h'.parse_same hlang (l := [(n + 3, .saveFragment)]) ?_ (by simp [Placed]) ?_
    · intro f hf r hr
      obtain ⟨hexit, -⟩ := Context.out_within (hs' f hf) hr
      cases hexit
      rfl
    · exact bind_of_ok (action_save hmarked x.uri).2.2.2.2 rfl

/-- What runs, with the places `l`, if the fragment or the end of the string comes next. -/
structure AtFragment (n : Nat) (l : List (Nat × UriAction)) (s : State UriAction) : Prop where
  placed : Placed l
  fragment : ∀ f ∈ s, ∀ t ∈ f.delta 35, t.acts = l ∧ t.next = fragmentAt n
  finish : ∀ f ∈ s, ∀ r, f.out = some r → r.1 = l

/-- What runs if the query, the fragment or the end of the string comes next. -/
structure AtTail (n : Nat) (l : List (Nat × UriAction)) (s : State UriAction) : Prop
    extends AtFragment n l s where
  query : ∀ f ∈ s, ∀ t ∈ f.delta 63, t.acts = l ∧ t.next = (inQuery n).plug
    (.enter n .marku queryText)

def fragmentText (f : Option Text) : Text := f.elim [] (35 :: ·)
def tailText (q f : Option Text) : Text := q.elim [] (63 :: ·) ++ fragmentText f

theorem finish_fragmentPart {l : List (Nat × UriAction)} {f : Option Text} (h : At u w s x)
    (hs : AtFragment n l s)
    (hrun : runEvents (UriParse.action u) ((ordered l).map (w.length, ·)) x = .ok y)
    (hf : ∀ t ∈ f, t ∈ queryText.lang) (hu : u = w ++ fragmentText f)
    (hlang : u ∈ machine.lang) :
    ∃ z, parse (UriParse.action u) [machine] u ⟨.new, none⟩ = .ok (some z) ∧
      z.uri = { y.uri with fragment := f.getD y.uri.fragment } := by
  cases f with
  | none =>
      rw [show u = w by simpa [fragmentText] using hu] at h hlang hrun ⊢
      exact ⟨y, h.parse_same hlang hs.finish hs.placed hrun, rfl⟩
  | some t =>
      have hu' : u = w ++ [35] ++ t := by simpa [fragmentText] using hu
      obtain ⟨s', h', hs'⟩ := h.step_same (c := 35) (v := t) (by simpa [hu'] using hlang)
        (fun f hf t ht => (hs.fragment f hf t ht).1) hs.placed hrun
      refine finish_fragment (n := n) h' (fun f hf => ?_) (hf t rfl) hu' hlang
      obtain ⟨g, hg, t, ht, rfl⟩ := (hs' f).mp hf
      exact (hs.fragment g hg t ht).2

/-- The rest of the string from the end of the path on. -/
theorem finish_tail {l : List (Nat × UriAction)} {q f : Option Text} (h : At u w s x)
    (hs : AtTail n l s)
    (hrun : runEvents (UriParse.action u) ((ordered l).map (w.length, ·)) x = .ok y)
    (hq : ∀ t ∈ q, t ∈ queryText.lang) (hf : ∀ t ∈ f, t ∈ queryText.lang)
    (hu : u = w ++ tailText q f) (hlang : u ∈ machine.lang) :
    ∃ z, parse (UriParse.action u) [machine] u ⟨.new, none⟩ = .ok (some z) ∧
      z.uri = { y.uri with
        query := q.getD y.uri.query, fragment := f.getD y.uri.fragment } := by
  cases q with
  | none => exact finish_fragmentPart h hs.toAtFragment hrun hf hu hlang
  | some t =>
      have hu' : u = w ++ [63] ++ t ++ fragmentText f := by simpa [tailText] using hu
      obtain ⟨s', h', hs'⟩ := h.step_same (c := 63) (v := t ++ fragmentText f)
        (by simpa [tailText, hu] using hlang) (fun f hf t ht => (hs.query f hf t ht).1) hs.placed
        hrun
      have hquery : ∀ f ∈ s', f = (inQuery n).plug (.enter n .marku queryText) := by
        intro f hf
        obtain ⟨g, hg, t, ht, rfl⟩ := (hs' f).mp hf
        exact (hs.query g hg t ht).2
      obtain ⟨s'', z, h'', hcases⟩ := h'.field (v := fragmentText f) hquery queryText_silent
        (queryBytes_inQuery n) (mem_of_silent queryText_silent (hq t rfl)) (hu' ▸ hlang) rfl
      obtain ⟨rfl, rfl, hs''⟩ | ⟨-, rfl, hs''⟩ := hcases
      · have hat : AtFragment n [(n + 1, .saveQuery), (n, .marku)] s'' := by
          refine ⟨by simp [Placed], fun f hf t ht => ?_, fun f hf r hr => ?_⟩
          · rw [hs'' f hf] at ht
            obtain rfl := List.mem_singleton.mp ht
            exact ⟨rfl, rfl⟩
          · rw [hs'' f hf] at hr
            cases hr
            rfl
        refine finish_fragmentPart (y := ⟨{ z.uri with query := [] }, none⟩) h'' hat ?_ hf hu' hlang
        rw [ordered_pair (by decide)]
        refine bind_of_ok rfl (bind_of_ok ?_ rfl)
        exact (action_save (textAt_here (by simp [hu'])) z.uri).2.2.2.1
      · have hat : AtFragment n [(n + 1, .saveQuery)] s'' := by
          refine ⟨by simp [Placed], fun f hf t ht => ?_, fun f hf r hr => ?_⟩
          · obtain ⟨hc, -⟩ | ⟨-, ht⟩ := Context.delta_within (hs'' f hf) ht
            · exact absurd hc (by decide)
            · obtain rfl := List.mem_singleton.mp ht
              exact ⟨rfl, rfl⟩
          · obtain ⟨hexit, -⟩ := Context.out_within (hs'' f hf) hr
            cases hexit
            rfl
        refine finish_fragmentPart (y := ⟨{ y.uri with query := t }, none⟩) h'' hat ?_ hf hu' hlang
        refine bind_of_ok ?_ rfl
        rw [hu']
        exact (action_save (textAt_middle _ _ _) y.uri).2.2.2.1

end UriMachine

end Sylar.Http

import Sylar.Lib.RagelClasses
import Sylar.Http.Fields
import Sylar.Http.RequestParser

/-!
# Runs of the request machine over the parts of a dumped request

`HttpRequest::dump` and the machine of `http11_parser.rl` describe one format. Each part that
`dump` writes leads the machine from one known state to another, with known actions.

A state is written as the state after a shortest text that leads to it. The steps from it are
computed for one byte of each class of bytes.
-/

namespace Sylar.Http.RequestStates

open Sylar.Lib Sylar.Lib.Ragel

section Machine

/-- The bytes of `pchar` that stand for themselves. -/
def pcharBytes (relaxed : Bool) : ByteSet :=
  (RequestGrammar.unreserved.union (RequestGrammar.subDelims relaxed)).union (.ofChars ":@")

def pathBytes (relaxed : Bool) : ByteSet := (pcharBytes relaxed).union (.ofChars "/")

def queryBytes (relaxed : Bool) : ByteSet := (pcharBytes relaxed).union (.ofChars "/?")

/-- Bytes of the set and percent-encoded ones. -/
def escaped (m : ByteSet) : Text → Bool
  | [] => true
  | b :: t =>
      if b = 37 then
        match t with
        | x :: y :: t => ByteSet.xdigit.mem x && ByteSet.xdigit.mem y && escaped m t
        | _ => false
      else m.mem b && escaped m t

/-! The states that a request line goes through, each after a shortest text that leads to it. -/

variable (relaxed : Bool)

def methodState : State RequestAction := stateThrough (requestStart relaxed) [65]
def targetState : State RequestAction := stateThrough (methodState relaxed) [32]
def slashState : State RequestAction := stateThrough (targetState relaxed) [47]
def pathState : State RequestAction := stateThrough (slashState relaxed) [97]
def pathEscape : State RequestAction := stateThrough (slashState relaxed) [37]
def pathEscape' : State RequestAction := stateThrough (pathEscape relaxed) [50]
def queryStart : State RequestAction := stateThrough (slashState relaxed) [63]
def queryState : State RequestAction := stateThrough (queryStart relaxed) [97]
def queryEscape : State RequestAction := stateThrough (queryStart relaxed) [37]
def queryEscape' : State RequestAction := stateThrough (queryEscape relaxed) [50]
def fragmentStart : State RequestAction := stateThrough (slashState relaxed) [35]
def fragmentState : State RequestAction := stateThrough (fragmentStart relaxed) [97]
def fragmentEscape : State RequestAction := stateThrough (fragmentStart relaxed) [37]
def fragmentEscape' : State RequestAction := stateThrough (fragmentEscape relaxed) [50]

/-- The state in front of the version no longer depends on the condition. -/
def versionState : State RequestAction := stateThrough (slashState false) [32]

/-! The states of a header line. -/

def fieldState : State RequestAction := stateThrough versionState (ascii "HTTP/1.1\r\n")
def nameState : State RequestAction := stateThrough fieldState [65]
def colonState : State RequestAction := stateThrough nameState [58]
def blankState : State RequestAction := stateThrough colonState [32]
def valueState : State RequestAction := stateThrough blankState [98]
def spaceState : State RequestAction := stateThrough valueState [32]
def fieldEnd : State RequestAction := stateThrough valueState [13]
def headEnd : State RequestAction := stateThrough fieldState [13]

/-- The state after the first byte of a method. -/
def isMethodState : State RequestAction → Bool
  | [.finish _ .done (.cat (.cat (.leave _ .requestMethod e) (.cat (.set k) _)) h)] =>
      e = Expr.upTo (.set (ByteSet.upper.union .digit)) 19 && k = .byte 32 && h.out.isNone
  | _ => false

/-- The first byte of a method, and the state behind it. -/
def MethodEdges : Prop :=
  exits (requestStart relaxed) .upper 65 [.mark] ∧ isMethodState (methodState relaxed)
  deriving Decidable

def PathEdges : Prop :=
  exits (targetState relaxed) (.byte 47) 47 [.mark] ∧
    exits (slashState relaxed) (pcharBytes relaxed) 97 [] ∧
    exits (slashState relaxed) (.byte 37) 37 [] ∧
    leads (pathState relaxed) (pcharBytes relaxed) 97 [] (pathState relaxed) ∧
    leads (pathState relaxed) (.ofChars "/") 47 [] (pathState relaxed) ∧
    leads (pathState relaxed) (.byte 37) 37 [] (pathEscape relaxed) ∧
    exits (pathEscape relaxed) .xdigit 50 [] ∧
    leads (pathEscape' relaxed) .xdigit 50 [] (pathState relaxed)
  deriving Decidable

def QueryEdges : Prop :=
  exits (queryStart relaxed) (pcharBytes relaxed) 97 [.startQuery] ∧
    leads (queryStart relaxed) (.ofChars "/?") 47 [.startQuery] (queryState relaxed) ∧
    exits (queryStart relaxed) (.byte 37) 37 [.startQuery] ∧
    leads (queryState relaxed) (pcharBytes relaxed) 97 [] (queryState relaxed) ∧
    leads (queryState relaxed) (.ofChars "/?") 47 [] (queryState relaxed) ∧
    leads (queryState relaxed) (.byte 37) 37 [] (queryEscape relaxed) ∧
    exits (queryEscape relaxed) .xdigit 50 [] ∧
    leads (queryEscape' relaxed) .xdigit 50 [] (queryState relaxed)
  deriving Decidable

def FragmentEdges : Prop :=
  exits (fragmentStart relaxed) (pcharBytes relaxed) 97 [.mark] ∧
    leads (fragmentStart relaxed) (.ofChars "/?") 47 [.mark] (fragmentState relaxed) ∧
    exits (fragmentStart relaxed) (.byte 37) 37 [.mark] ∧
    leads (fragmentState relaxed) (pcharBytes relaxed) 97 [] (fragmentState relaxed) ∧
    leads (fragmentState relaxed) (.ofChars "/?") 47 [] (fragmentState relaxed) ∧
    leads (fragmentState relaxed) (.byte 37) 37 [] (fragmentEscape relaxed) ∧
    exits (fragmentEscape relaxed) .xdigit 50 [] ∧
    leads (fragmentEscape' relaxed) .xdigit 50 [] (fragmentState relaxed)
  deriving Decidable

/-- Where the parts of a request target end. -/
def TargetExits : Prop :=
  exits (slashState relaxed) (.byte 63) 63 [.requestPath] ∧
    exits (slashState relaxed) (.byte 35) 35 [.requestPath, .requestUri] ∧
    leads (slashState relaxed) (.byte 32) 32 [.requestPath, .requestUri] versionState ∧
    leads (pathState relaxed) (.byte 63) 63 [.requestPath] (queryStart relaxed) ∧
    leads (pathState relaxed) (.byte 35) 35 [.requestPath, .requestUri]
      (fragmentStart relaxed) ∧
    leads (pathState relaxed) (.byte 32) 32 [.requestPath, .requestUri] versionState ∧
    leads (queryState relaxed) (.byte 35) 35 [.queryString, .requestUri]
      (fragmentStart relaxed) ∧
    leads (queryState relaxed) (.byte 32) 32 [.queryString, .requestUri] versionState ∧
    leads (fragmentState relaxed) (.byte 32) 32 [.fragment] versionState
  deriving Decidable

def VersionEdges : Prop :=
  walk versionState 0 (versionText 0x11 ++ crlf) =
      some ([(0, .mark), (8, .httpVersion)], fieldState) ∧
    walk versionState 0 (versionText 0x10 ++ crlf) =
      some ([(0, .mark), (8, .httpVersion)], fieldState)
  deriving Decidable

/-- The blanks inside a value, and its other bytes. -/
def blankBytes : ByteSet := .ofChars " \t"
def solidBytes : ByteSet := valueBytes.diff blankBytes

def FieldEdges : Prop :=
  exits fieldState nameBytes 65 [.startField] ∧
    leads nameState nameBytes 65 [] nameState ∧
    exits nameState (.byte 58) 58 [.writeField] ∧
    exits colonState (.byte 32) 32 [.startValue] ∧
    exits blankState solidBytes 98 [.startValue] ∧
    leads blankState (.byte 13) 13 [.startValue, .writeValue] fieldEnd
  deriving Decidable

def ValueEdges : Prop :=
  leads valueState solidBytes 98 [] valueState ∧
    exits valueState blankBytes 32 [] ∧
    exits valueState (.byte 13) 13 [.writeValue] ∧
    leads spaceState solidBytes 98 [] valueState ∧
    leads spaceState blankBytes 32 [] spaceState ∧
    leads spaceState (.byte 13) 13 [.writeValue] fieldEnd ∧
    leads fieldEnd (.byte 10) 10 [] fieldState ∧
    exits fieldState (.byte 13) 13 [.startField] ∧
    exits headEnd (.byte 10) 10 [.done]
  deriving Decidable

/-- All steps at once, so that the machine is computed once. -/
theorem machine_edges :
    (∀ relaxed, MethodEdges relaxed ∧ PathEdges relaxed ∧ QueryEdges relaxed ∧
      FragmentEdges relaxed ∧ TargetExits relaxed) ∧
    VersionEdges ∧ FieldEdges ∧ ValueEdges := by
  decide +kernel

theorem method_edges : MethodEdges relaxed := (machine_edges.1 relaxed).1
theorem path_edges : PathEdges relaxed := (machine_edges.1 relaxed).2.1
theorem query_edges : QueryEdges relaxed := (machine_edges.1 relaxed).2.2.1
theorem fragment_edges : FragmentEdges relaxed := (machine_edges.1 relaxed).2.2.2.1
theorem target_exits : TargetExits relaxed := (machine_edges.1 relaxed).2.2.2.2
theorem version_edges : VersionEdges := machine_edges.2.1
theorem field_edges : FieldEdges := machine_edges.2.2.1
theorem value_edges : ValueEdges := machine_edges.2.2.2

end Machine

section Escapes

/-- A state that stays itself through bytes of a set and through percent-encoded ones. -/
structure Escaping (s e e' : State RequestAction) (m : ByteSet) : Prop where
  plain : ∀ b, m.mem b → step s b = some ([], s)
  percent : step s 37 = some ([], e)
  first : ∀ b, ByteSet.xdigit.mem b → step e b = some ([], e')
  second : ∀ b, ByteSet.xdigit.mem b → step e' b = some ([], s)

/-- A state that goes over into another one with some actions. -/
structure Opening (s₀ s e : State RequestAction) (m : ByteSet) (acts : List RequestAction) :
    Prop where
  plain : ∀ b, m.mem b → step s₀ b = some (acts, s)
  percent : step s₀ 37 = some (acts, e)

variable {s₀ s e e' : State RequestAction} {m m₀ : ByteSet} {t : Text} {p : Nat}

theorem escaped_percent (h : escaped m (37 :: t)) :
    ∃ x y u, t = x :: y :: u ∧ ByteSet.xdigit.mem x ∧ ByteSet.xdigit.mem y ∧ escaped m u := by
  rcases t with _ | ⟨x, _ | ⟨y, u⟩⟩
  · cases h
  · cases h
  · have hall : (ByteSet.xdigit.mem x && ByteSet.xdigit.mem y && escaped m u) = true := h
    simp only [Bool.and_eq_true] at hall
    exact ⟨x, y, u, rfl, hall.1.1, hall.1.2, hall.2⟩

theorem escaped_plain {b : UInt8} (hb : b ≠ 37) (h : escaped m (b :: t)) :
    m.mem b ∧ escaped m t := by
  unfold escaped at h
  rw [if_neg hb] at h
  exact Bool.and_eq_true_iff.mp h

theorem Escaping.runs (h : Escaping s e e' m) (ht : escaped m t) :
    Runs HttpRequestParser.stop s p t [] s := by
  induction hn : t.length using Nat.strong_induction_on generalizing t p with
  | _ n ih =>
      cases t with
      | nil => exact .nil
      | cons b t =>
          by_cases hb : b = 37
          · subst hb
            obtain ⟨x, y, u, rfl, hx, hy, hu⟩ := escaped_percent ht
            have hrest := ih u.length (by simp at hn; omega) (p := p + 1 + 1 + 1) hu rfl
            exact .cons_silent h.percent
              (.cons_silent (h.first x hx) (.cons_silent (h.second y hy) hrest))
          · obtain ⟨hmem, hrest⟩ := escaped_plain hb ht
            exact .cons_silent (h.plain b hmem)
              (ih t.length (by simp at hn; omega) hrest rfl)

/-- The first byte of a part has the actions of its beginning. -/
theorem Escaping.runs_opening {acts : List RequestAction} (h : Escaping s e e' m)
    (ho : Opening s₀ s e m₀ acts)
    (hacts : untilStop HttpRequestParser.stop acts = (acts, false)) {b : UInt8}
    (hb : b ≠ 37 → m₀.mem b) (ht : escaped m (b :: t)) :
    Runs HttpRequestParser.stop s₀ p (b :: t) (acts.map (p, ·)) s := by
  rw [← List.append_nil (acts.map _)]
  by_cases hpercent : b = 37
  · subst hpercent
    obtain ⟨x, y, u, rfl, hx, hy, hu⟩ := escaped_percent ht
    exact .cons ho.percent hacts
      (.cons_silent (h.first x hx) (.cons_silent (h.second y hy) (h.runs hu)))
  · exact .cons (ho.plain b (hb hpercent)) hacts (h.runs (escaped_plain hpercent ht).2)

end Escapes

section Target

variable {relaxed : Bool} {t : Text} {p : Nat}

theorem path_escaping :
    Escaping (pathState relaxed) (pathEscape relaxed) (pathEscape' relaxed)
      (pathBytes relaxed) := by
  obtain ⟨-, -, -, hplain, hslash, hpercent, hfirst, hsecond⟩ := path_edges relaxed
  refine ⟨?_, step_of_leads hpercent rfl, fun b => step_of_exits hfirst,
    fun b => step_of_leads hsecond⟩
  intro b hb
  obtain hb | hb := ByteSet.mem_union.mp hb
  · exact step_of_leads hplain hb
  · exact step_of_leads hslash hb

theorem path_opening :
    Opening (slashState relaxed) (pathState relaxed) (pathEscape relaxed) (pcharBytes relaxed)
      [] := by
  obtain ⟨-, hplain, hpercent, -⟩ := path_edges relaxed
  exact ⟨fun b => step_of_exits hplain, step_of_exits hpercent rfl⟩

theorem query_escaping :
    Escaping (queryState relaxed) (queryEscape relaxed) (queryEscape' relaxed)
      (queryBytes relaxed) := by
  obtain ⟨-, -, -, hplain, hslash, hpercent, hfirst, hsecond⟩ := query_edges relaxed
  refine ⟨?_, step_of_leads hpercent rfl, fun b => step_of_exits hfirst,
    fun b => step_of_leads hsecond⟩
  intro b hb
  obtain hb | hb := ByteSet.mem_union.mp hb
  · exact step_of_leads hplain hb
  · exact step_of_leads hslash hb

theorem query_opening :
    Opening (queryStart relaxed) (queryState relaxed) (queryEscape relaxed) (queryBytes relaxed)
      [.startQuery] := by
  obtain ⟨hplain, hslash, hpercent, -⟩ := query_edges relaxed
  refine ⟨?_, step_of_exits hpercent rfl⟩
  intro b hb
  obtain hb | hb := ByteSet.mem_union.mp hb
  · exact step_of_exits hplain hb
  · exact step_of_leads hslash hb

theorem fragment_escaping :
    Escaping (fragmentState relaxed) (fragmentEscape relaxed) (fragmentEscape' relaxed)
      (queryBytes relaxed) := by
  obtain ⟨-, -, -, hplain, hslash, hpercent, hfirst, hsecond⟩ := fragment_edges relaxed
  refine ⟨?_, step_of_leads hpercent rfl, fun b => step_of_exits hfirst,
    fun b => step_of_leads hsecond⟩
  intro b hb
  obtain hb | hb := ByteSet.mem_union.mp hb
  · exact step_of_leads hplain hb
  · exact step_of_leads hslash hb

theorem fragment_opening :
    Opening (fragmentStart relaxed) (fragmentState relaxed) (fragmentEscape relaxed)
      (queryBytes relaxed) [.mark] := by
  obtain ⟨hplain, hslash, hpercent, -⟩ := fragment_edges relaxed
  refine ⟨?_, step_of_exits hpercent rfl⟩
  intro b hb
  obtain hb | hb := ByteSet.mem_union.mp hb
  · exact step_of_exits hplain hb
  · exact step_of_leads hslash hb

/-- A path as `path_absolute` has it: it starts with one slash. -/
structure PlainPath (relaxed : Bool) (path : Text) : Prop where
  slash : path.head? = some 47
  single : path.tail.head? ≠ some 47
  escaped : escaped (pathBytes relaxed) path.tail

/-- The states in which a path may end. -/
def PathEnd (relaxed : Bool) (s : State RequestAction) : Prop :=
  s = slashState relaxed ∨ s = pathState relaxed

/-- The path or the query ends with these actions, at a number sign or at a blank. -/
structure Leaving (relaxed : Bool) (s : State RequestAction) (acts : List RequestAction) :
    Prop where
  sign : step s 35 = some (acts, fragmentStart relaxed)
  blank : step s 32 = some (acts, versionState)
  goes : untilStop HttpRequestParser.stop acts = (acts, false)

theorem PathEnd.leaving {s : State RequestAction} (h : PathEnd relaxed s) :
    Leaving relaxed s [.requestPath, .requestUri] := by
  obtain ⟨-, hsign, hblank, -, hsign', hblank', -⟩ := target_exits relaxed
  obtain h | h := h
  · rw [h]
    exact ⟨step_of_exits hsign rfl, step_of_leads hblank rfl, rfl⟩
  · rw [h]
    exact ⟨step_of_leads hsign' rfl, step_of_leads hblank' rfl, rfl⟩

theorem PathEnd.question {s : State RequestAction} (h : PathEnd relaxed s) :
    step s 63 = some ([.requestPath], queryStart relaxed) := by
  obtain ⟨hquestion, -, -, hquestion', -⟩ := target_exits relaxed
  obtain h | h := h
  · rw [h]
    exact step_of_exits hquestion rfl
  · rw [h]
    exact step_of_leads hquestion' rfl

theorem leaving_query : Leaving relaxed (queryState relaxed) [.queryString, .requestUri] := by
  obtain ⟨-, -, -, -, -, -, hsign, hblank, -⟩ := target_exits relaxed
  exact ⟨step_of_leads hsign rfl, step_of_leads hblank rfl, rfl⟩

theorem runs_path (h : PlainPath relaxed t) :
    ∃ s, PathEnd relaxed s ∧
      Runs HttpRequestParser.stop (targetState relaxed) p t [(p, .mark)] s := by
  obtain ⟨hslash, -⟩ := path_edges relaxed
  have hstart : step (targetState relaxed) 47 = some ([.mark], slashState relaxed) :=
    step_of_exits hslash rfl
  rcases t with _ | ⟨c, _ | ⟨b, t⟩⟩
  · exact absurd h.slash nofun
  · cases h.slash
    exact ⟨_, .inl rfl, .cons hstart rfl .nil⟩
  · cases h.slash
    refine ⟨_, .inr rfl,
      .cons hstart rfl (path_escaping.runs_opening path_opening rfl ?_ h.escaped)⟩
    intro hb
    obtain hmem | hmem := ByteSet.mem_union.mp (escaped_plain hb h.escaped).1
    · exact hmem
    · have hbyte : ∀ b : UInt8, (ByteSet.ofChars "/").mem b → b = 47 :=
        forall_byte (by decide +kernel)
      exact absurd (congrArg some (hbyte b hmem)) h.single

/-- The part behind the path or the query, with the blank. -/
theorem Leaving.runs {s : State RequestAction} {acts : List RequestAction}
    (h : Leaving relaxed s acts) (ht : escaped (queryBytes relaxed) t) :
    Runs HttpRequestParser.stop s p ((if t = [] then [] else ascii "#") ++ (t ++ ascii " "))
      (acts.map (p, ·) ++ if t = [] then [] else [(p + 1, .mark), (p + 1 + t.length, .fragment)])
      versionState := by
  have hblank : ascii " " = [32] := by decide
  have hsign : ascii "#" = [35] := by decide
  rw [hblank, hsign]
  cases t with
  | nil => exact .cons h.blank h.goes .nil
  | cons b t =>
      obtain ⟨-, -, -, -, -, -, -, -, hleave⟩ := target_exits relaxed
      have hfragment := fragment_escaping.runs_opening (p := p + 1) fragment_opening rfl
        (fun hb => (escaped_plain hb ht).1) ht
      have hend : Runs HttpRequestParser.stop (fragmentState relaxed) (p + 1 + (b :: t).length)
          [32] [(p + 1 + (b :: t).length, .fragment)] versionState :=
        .cons (step_of_leads hleave rfl) rfl .nil
      exact .cons h.sign h.goes (hfragment.append hend)

/-- Where the query ends that starts behind a path ending at `p`. -/
def queryEnd (p : Nat) (query : Text) : Nat := if query = [] then p else p + 1 + query.length

/-- The actions on a request target at `p` and on the blank behind it. -/
def targetEvents (p : Nat) (path query fragment : Text) : List (Nat × RequestAction) :=
  let stop := p + path.length
  let stop' := queryEnd stop query
  [(p, .mark), (stop, .requestPath)] ++
    ((if query = [] then [] else [(stop + 1, .startQuery), (stop', .queryString)]) ++
      ((stop', .requestUri) :: if fragment = [] then []
        else [(stop' + 1, .mark), (stop' + 1 + fragment.length, .fragment)]))

theorem runs_target {path query fragment : Text} (hpath : PlainPath relaxed path)
    (hquery : escaped (queryBytes relaxed) query)
    (hfragment : escaped (queryBytes relaxed) fragment) :
    Runs HttpRequestParser.stop (targetState relaxed) p
      (path ++ ((if query = [] then [] else ascii "?") ++ (query ++
        ((if fragment = [] then [] else ascii "#") ++ (fragment ++ ascii " ")))))
      (targetEvents p path query fragment) versionState := by
  obtain ⟨s, hs, hrun⟩ := runs_path (p := p) hpath
  have hsign : ascii "?" = [63] := by decide
  cases query with
  | nil => exact hrun.append (hs.leaving.runs hfragment)
  | cons b query =>
      have hrest := query_escaping.runs_opening (p := p + path.length + 1) query_opening rfl
        (fun hb => (escaped_plain hb hquery).1) hquery
      have htail := leaving_query.runs (p := p + path.length + 1 + (b :: query).length) hfragment
      rw [hsign]
      exact hrun.append (.cons hs.question rfl (hrest.append htail))

end Target

section Lines

variable {p : Nat}

/-- The text of a method other than the one with blanks is a token of the machine. -/
theorem methodText_mem : ∀ entry ∈ httpMethodMap, entry.1 ≠ .MSEARCH →
    ascii entry.2 ≠ [] ∧ (ascii entry.2).length ≤ 20 ∧ (ascii entry.2).all ByteSet.upper.mem := by
  decide +kernel

theorem runs_method (relaxed : Bool) {m : HttpMethod} (hm : m ≠ .MSEARCH) :
    Runs HttpRequestParser.stop (requestStart relaxed) p
      (ascii (httpMethodToString (some m)) ++ ascii " ")
      [(p, .mark), (p + (ascii (httpMethodToString (some m))).length, .requestMethod)]
      (targetState relaxed) := by
  obtain ⟨hne, hlen, hupper⟩ := methodText_mem _ (mem_httpMethodMap m) hm
  obtain ⟨hfirst, hform⟩ := method_edges relaxed
  have hblank : ascii " " = [32] := by decide
  rw [hblank]
  generalize ascii (httpMethodToString (some m)) = text at hne hlen hupper ⊢
  obtain ⟨b, t, rfl⟩ := List.exists_cons_of_ne_nil hne
  rw [List.all_cons, Bool.and_eq_true] at hupper
  have hstart : step (requestStart relaxed) b = some ([.mark], methodState relaxed) :=
    step_of_exits hfirst hupper.1
  have htarget : ∀ s acts, step (methodState relaxed) 32 = some (acts, s) →
      targetState relaxed = s := by
    intro s acts h
    rw [targetState, stateThrough, List.foldl_cons, List.foldl_nil, h]
    rfl
  -- the state is that of a counted token, which the blank leaves to the same state at any length
  generalize methodState relaxed = s at hform hstart htarget
  unfold isMethodState at hform
  split at hform
  · next ord ord' e k g h =>
      simp only [Bool.and_eq_true, decide_eq_true_eq, Option.isNone_iff_eq_none] at hform
      obtain ⟨⟨rfl, rfl⟩, hh⟩ := hform
      have hletters : ∀ c ∈ t, (ByteSet.upper.union .digit).mem c := by
        intro c hc
        exact ByteSet.mem_union.mpr (.inl (List.all_eq_true.mp hupper.2 c hc))
      have htoken : Runs HttpRequestParser.stop (countedState ord ord' .done .requestMethod
          (ByteSet.upper.union .digit) (.byte 32) g h 19) (p + 1) t [] _ :=
        .counted (by decide) hletters (by simp at hlen; omega)
      have hend : ∀ n, step (countedState ord ord' RequestAction.done .requestMethod
          (ByteSet.upper.union .digit) (.byte 32) g h n) 32 =
            some ([.requestMethod], [.finish ord .done (Expr.seq g h)]) :=
        fun n => step_counted_end (by decide) (by decide) hh
      rw [htarget _ _ (hend 19)]
      have hblank : Runs HttpRequestParser.stop _ (p + 1 + t.length) [32]
          [(p + 1 + t.length, .requestMethod)] _ := .cons (hend (19 - t.length)) rfl .nil
      have hrun := Runs.cons (p := p) hstart rfl (htoken.append hblank)
      rw [List.length_cons, Nat.add_comm t.length 1, ← Nat.add_assoc]
      exact hrun
  · cases hform

theorem runs_version {v : UInt8} (hv : v = 0x10 ∨ v = 0x11) :
    Runs HttpRequestParser.stop versionState p (versionText v ++ crlf)
      [(p, .mark), (p + 8, .httpVersion)] fieldState := by
  have hstop : ∀ e ∈ [(0, RequestAction.mark), (8, RequestAction.httpVersion)],
      HttpRequestParser.stop e.2 = false := by decide
  obtain rfl | rfl := hv
  · exact (Runs.of_walk version_edges.2 hstop).shift p
  · exact (Runs.of_walk version_edges.1 hstop).shift p

/-- A state inside a value. -/
structure InValue (s : State RequestAction) : Prop where
  solid : ∀ b, solidBytes.mem b → step s b = some ([], valueState)
  blank : ∀ b, blankBytes.mem b → step s b = some ([], spaceState)
  line : step s 13 = some ([.writeValue], fieldEnd)

theorem inValue_valueState : InValue valueState := by
  obtain ⟨hsolid, hblank, hline, -⟩ := value_edges
  exact ⟨fun b => step_of_leads hsolid, fun b => step_of_exits hblank, step_of_exits hline rfl⟩

theorem inValue_spaceState : InValue spaceState := by
  obtain ⟨-, -, -, hsolid, hblank, hline, -⟩ := value_edges
  exact ⟨fun b => step_of_leads hsolid, fun b => step_of_leads hblank, step_of_leads hline rfl⟩

theorem InValue.runs {s : State RequestAction} (h : InValue s) {t : Text}
    (ht : ∀ b ∈ t, valueBytes.mem b) :
    Runs HttpRequestParser.stop s p (t ++ crlf) [(p + t.length, .writeValue)] fieldState := by
  induction t generalizing s p with
  | nil =>
      obtain ⟨-, -, -, -, -, -, hfeed, -⟩ := value_edges
      exact .cons h.line rfl (.cons_silent (step_of_leads hfeed rfl) .nil)
  | cons b t ih =>
      have hrest : ∀ c ∈ t, valueBytes.mem c := fun c hc => ht c (List.mem_cons_of_mem _ hc)
      rw [List.length_cons, Nat.add_comm t.length 1, ← Nat.add_assoc]
      by_cases hb : blankBytes.mem b
      · exact .cons_silent (h.blank b hb) (ih inValue_spaceState hrest)
      · have hsolid : solidBytes.mem b :=
          ByteSet.mem_diff.mpr ⟨ht b List.mem_cons_self, Bool.eq_false_iff.mpr hb⟩
        exact .cons_silent (h.solid b hsolid) (ih inValue_valueState hrest)

/-- The actions on a header line at `p`. -/
def fieldEvents (p : Nat) (i : Text × Text) : List (Nat × RequestAction) :=
  let colon := p + i.1.length
  [(p, .startField), (colon, .writeField), (colon + 1, .startValue), (colon + 2, .startValue),
    (colon + 2 + i.2.length, .writeValue)]

/-- The value of a field and the line end, behind the blank. -/
theorem runs_fieldValue {i : Text × Text} (h : PlainField i) :
    Runs HttpRequestParser.stop blankState p (i.2 ++ crlf)
      [(p, .startValue), (p + i.2.length, .writeValue)] fieldState := by
  obtain ⟨-, -, -, -, hopen, hempty⟩ := field_edges
  obtain ⟨name, value⟩ := i
  cases value with
  | nil =>
      obtain ⟨-, -, -, -, -, -, hfeed, -⟩ := value_edges
      exact .cons (step_of_leads hempty rfl) rfl (.cons_silent (step_of_leads hfeed rfl) .nil)
  | cons b t =>
      have hspace : ByteSet.space.mem b = false := h.value_head b rfl
      have hsolid : solidBytes.mem b := by
        have hblank : ∀ b, ByteSet.space.mem b = false → blankBytes.mem b = false :=
          forall_byte (by decide +kernel)
        exact ByteSet.mem_diff.mpr ⟨h.value_mem b List.mem_cons_self, hblank b hspace⟩
      have hrest := inValue_valueState.runs (p := p + 1) fun c hc =>
        h.value_mem c (List.mem_cons_of_mem _ hc)
      rw [List.length_cons, Nat.add_comm t.length 1, ← Nat.add_assoc]
      exact .cons (step_of_exits hopen hsolid) rfl hrest

theorem runs_field {i : Text × Text} (h : PlainField i) :
    Runs HttpRequestParser.stop fieldState p (fieldText i) (fieldEvents p i) fieldState := by
  obtain ⟨hfirst, hname, hcolon, hblank, -⟩ := field_edges
  obtain ⟨b, t, hi⟩ := List.exists_cons_of_ne_nil h.name_ne
  have hmem := h.name_mem
  have htext : fieldText i = (b :: t) ++ (58 :: 32 :: (i.2 ++ crlf)) := by
    have hsep : ascii ": " = [58, 32] := by decide
    simp [fieldText, hi, hsep]
  rw [hi] at hmem
  have htoken : Runs HttpRequestParser.stop nameState (p + 1) t [] nameState :=
    .loop (fun c => step_of_leads hname) fun c hc => hmem c (List.mem_cons_of_mem _ hc)
  have hstart : Runs HttpRequestParser.stop fieldState p (b :: t) [(p, .startField)] nameState :=
    .cons (step_of_exits hfirst (hmem b List.mem_cons_self)) rfl htoken
  rw [htext, fieldEvents, hi]
  exact hstart.append (.cons (step_of_exits hcolon rfl) rfl
    (.cons (step_of_exits hblank rfl) rfl (runs_fieldValue h)))

/-- The actions on header lines from `p` on. -/
def fieldsEvents : Nat → List (Text × Text) → List (Nat × RequestAction)
  | _, [] => []
  | p, i :: fields => fieldEvents p i ++ fieldsEvents (p + (fieldText i).length) fields

theorem runs_fields {fields : List (Text × Text)} (h : ∀ i ∈ fields, PlainField i) :
    Runs HttpRequestParser.stop fieldState p (fieldsText fields) (fieldsEvents p fields)
      fieldState := by
  induction fields generalizing p with
  | nil => exact .nil
  | cons i fields ih =>
      rw [fieldsText, List.flatMap_cons]
      exact (runs_field (h i List.mem_cons_self)).append
        (ih fun j hj => h j (List.mem_cons_of_mem _ hj))

/-- The blank line. Its first byte could also begin a field name. -/
theorem scan_headEnd :
    ∃ s, scan HttpRequestParser.stop fieldState p crlf =
      ([(p, .startField), (p + 1, .done)], .broke s (p + 2)) := by
  obtain ⟨-, -, -, -, -, -, -, hreturn, hfeed⟩ := value_edges
  refine ⟨stateThrough headEnd [10], ?_⟩
  have hfirst : Runs HttpRequestParser.stop fieldState p [13] [(p, .startField)] headEnd :=
    .cons (step_of_exits hreturn rfl) rfl .nil
  exact hfirst.append_broke (scan_breaks _ (step_of_exits hfeed rfl) rfl (p + 1) [])

end Lines

end Sylar.Http.RequestStates

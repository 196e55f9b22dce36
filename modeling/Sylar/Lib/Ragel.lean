import Sylar.Lib.Method

/-!
# State machines with embedded actions

A machine is a regular expression over bytes that carries actions and
priorities, in the manner of the Ragel state machine compiler. A state of the
deterministic machine is the list of the expressions that may still follow.

An entering action runs on the first byte of its expression, a finishing action
on each byte that completes it, and a leaving action on the byte after it. An
entering action on an expression that accepts the empty string also runs when
the expression is left at once. On one byte the actions of all transitions
that are taken run in the order in which the operators embed them, each once.
Of two transitions on the same byte that carry one priority key, the one with
the lower priority is not taken.
-/

namespace Sylar.Lib.Ragel

/-- A set of bytes as a mask of 256 bits. -/
structure ByteSet where
  mask : Nat
  deriving DecidableEq, Repr

namespace ByteSet

def mem (m : ByteSet) (b : UInt8) : Bool := m.mask.testBit b.toNat
def none : ByteSet := ⟨0⟩
def byte (k : Nat) : ByteSet := ⟨1 <<< k⟩
def range (lo hi : Nat) : ByteSet := ⟨(1 <<< (hi + 1)) - (1 <<< lo)⟩
def union (m n : ByteSet) : ByteSet := ⟨m.mask ||| n.mask⟩
def diff (m n : ByteSet) : ByteSet := ⟨m.mask ^^^ (m.mask &&& n.mask)⟩
def ofChars (s : String) : ByteSet := s.toList.foldl (fun m c => m.union (byte c.toNat)) none

/-! The classes that the language has built in. -/

def any : ByteSet := range 0 255
def ascii : ByteSet := range 0 127
def cntrl : ByteSet := range 0 31
def lower : ByteSet := range 97 122
def upper : ByteSet := range 65 90
def digit : ByteSet := range 48 57
def alpha : ByteSet := lower.union upper
def xdigit : ByteSet := digit.union ((range 65 70).union (range 97 102))
def space : ByteSet := (range 9 13).union (byte 32)

end ByteSet

/-- Expressions with actions of type `A`. The number of an action is its place
in the order of embedding. -/
inductive Expr (A : Type) where
  | eps
  | set (m : ByteSet)
  | cat (e f : Expr A)
  | alt (e f : Expr A)
  | star (e : Expr A)
  | enter (ord : Nat) (a : A) (e : Expr A)
  | finish (ord : Nat) (a : A) (e : Expr A)
  | leave (ord : Nat) (a : A) (e : Expr A)
  | enterPrio (key prio : Nat) (e : Expr A)
  | finishPrio (key prio : Nat) (e : Expr A)
  | allPrio (key prio : Nat) (e : Expr A)
  deriving DecidableEq, Repr

/-- A transition on one byte: the actions with their places, the priorities and
what may follow. -/
structure Trans (A : Type) where
  acts : List (Nat × A)
  prios : List (Nat × Nat)
  next : Expr A

namespace Trans

variable {A : Type}

def map (f : Expr A → Expr A) (t : Trans A) : Trans A := { t with next := f t.next }
def addActs (acts : List (Nat × A)) (t : Trans A) : Trans A := { t with acts := acts ++ t.acts }
def addPrios (prios : List (Nat × Nat)) (t : Trans A) : Trans A :=
  { t with prios := prios ++ t.prios }

/-- The other transition carries a higher priority for a key of this one. -/
def beatenBy (t u : Trans A) : Bool :=
  t.prios.any fun p => u.prios.any fun q => p.1 == q.1 && p.2 < q.2

end Trans

namespace Expr

variable {A : Type}

/-- Concatenation without the empty expression on the left. -/
def seq : Expr A → Expr A → Expr A
  | .eps, f => f
  | e, f => .cat e f

/-- What is pending when the expression ends here; `none` where it cannot end. -/
def out : Expr A → Option (List (Nat × A) × List (Nat × Nat))
  | .eps => some ([], [])
  | .set _ => none
  | .cat e f =>
      match e.out, f.out with
      | some (a, p), some (b, q) => some (a ++ b, p ++ q)
      | _, _ => none
  | .alt e f =>
      match e.out, f.out with
      | some (a, p), some (b, q) => some (a ++ b, p ++ q)
      | some r, none => some r
      | none, r => r
  | .star e => some (e.out.getD ([], []))
  | .enter ord a e => e.out.map fun r => ((ord, a) :: r.1, r.2)
  | .finish _ _ e => e.out
  | .leave ord a e => e.out.map fun r => ((ord, a) :: r.1, r.2)
  | .enterPrio key prio e => e.out.map fun r => (r.1, (key, prio) :: r.2)
  | .finishPrio _ _ e => e.out
  | .allPrio _ _ e => e.out

/-- The transitions on a byte. -/
def delta (c : UInt8) : Expr A → List (Trans A)
  | .eps => []
  | .set m => if m.mem c then [⟨[], [], .eps⟩] else []
  | .cat e f =>
      (e.delta c).map (Trans.map (seq · f)) ++
        match e.out with
        | some (acts, prios) => (f.delta c).map fun t => (t.addActs acts).addPrios prios
        | none => []
  | .alt e f => e.delta c ++ f.delta c
  | .star e => (e.delta c).map (Trans.map (seq · (.star e)))
  | .enter ord a e => (e.delta c).map (Trans.addActs [(ord, a)])
  | .finish ord a e =>
      (e.delta c).map fun t =>
        (if t.next.out.isSome then t.addActs [(ord, a)] else t).map (.finish ord a)
  | .leave ord a e => (e.delta c).map (Trans.map (.leave ord a))
  | .enterPrio key prio e => (e.delta c).map (Trans.addPrios [(key, prio)])
  | .finishPrio key prio e =>
      (e.delta c).map fun t =>
        (if t.next.out.isSome then t.addPrios [(key, prio)] else t).map (.finishPrio key prio)
  | .allPrio key prio e =>
      (e.delta c).map fun t => (t.addPrios [(key, prio)]).map (.allPrio key prio)

/-- Give every action its place: an entering action comes before the actions
inside its expression, the other actions after them. -/
def number : Expr A → Nat → Expr A × Nat
  | .eps, n => (.eps, n)
  | .set m, n => (.set m, n)
  | .cat e f, n =>
      let (e, n) := e.number n
      let (f, n) := f.number n
      (.cat e f, n)
  | .alt e f, n =>
      let (e, n) := e.number n
      let (f, n) := f.number n
      (.alt e f, n)
  | .star e, n =>
      let (e, n) := e.number n
      (.star e, n)
  | .enter _ a e, n =>
      let (e, k) := e.number (n + 1)
      (.enter n a e, k)
  | .finish _ a e, n =>
      let (e, n) := e.number n
      (.finish n a e, n + 1)
  | .leave _ a e, n =>
      let (e, n) := e.number n
      (.leave n a e, n + 1)
  | .enterPrio key prio e, n =>
      let (e, n) := e.number n
      (.enterPrio key prio e, n)
  | .finishPrio key prio e, n =>
      let (e, n) := e.number n
      (.finishPrio key prio e, n)
  | .allPrio key prio e, n =>
      let (e, n) := e.number n
      (.allPrio key prio e, n)

/-! ### The operators of the language -/

def byte (k : Nat) : Expr A := .set (.byte k)
def chars (s : String) : Expr A := .set (.ofChars s)

/-- A literal string. -/
def str (s : String) : Expr A := s.toList.foldr (fun c e => seq' (byte c.toNat) e) .eps
where
  seq' : Expr A → Expr A → Expr A
    | e, .eps => e
    | e, f => .cat e f

/-- A literal string in either case, `/s/i`. -/
def strAnyCase (s : String) : Expr A :=
  s.toList.foldr (fun c e => str.seq' (chars (String.ofList [c.toLower, c.toUpper])) e) .eps

/-- A union of several alternatives. -/
def alts : List (Expr A) → Expr A
  | [] => .set .none
  | [e] => e
  | e :: es => .alt e (alts es)

/-- A concatenation of several parts. -/
def cats : List (Expr A) → Expr A
  | [] => .eps
  | [e] => e
  | e :: es => .cat e (cats es)

/-- `e >a`. -/
def entering (e : Expr A) (a : A) : Expr A := .enter 0 a e
/-- `e @a`. -/
def finishing (e : Expr A) (a : A) : Expr A := .finish 0 a e
/-- `e %a`. -/
def leaving (e : Expr A) (a : A) : Expr A := .leave 0 a e
/-- `e?`. -/
def opt (e : Expr A) : Expr A := .alt e .eps
/-- `e+`. -/
def plus (e : Expr A) : Expr A := .cat e (.star e)

/-- At most `n` times. -/
def upTo (e : Expr A) : Nat → Expr A
  | 0 => .eps
  | n + 1 => opt (.cat e (upTo e n))

/-- `e{m,m+n}`. -/
def between (e : Expr A) (m n : Nat) : Expr A :=
  match m with
  | 0 => upTo e n
  | m + 1 => .cat e (between e m n)

/-- `e{m,}`. -/
def atLeast (e : Expr A) (m : Nat) : Expr A :=
  match m with
  | 0 => .star e
  | m + 1 => .cat e (atLeast e m)

/-- `e :> f` with a priority key of its own: `f` takes over as soon as it can start. -/
def entryGuarded (key : Nat) (e f : Expr A) : Expr A :=
  .cat (.allPrio key 0 e) (.enterPrio key 1 f)

/-- `e :>> f` with a priority key of its own: `f` takes over as soon as it is complete. -/
def finishGuarded (key : Nat) (e f : Expr A) : Expr A :=
  .cat (.allPrio key 0 e) (.finishPrio key 1 f)

/-! ### What an expression can end with, and where its transitions come from -/

section Inversion

variable {e f : Expr A} {c : UInt8} {t : Trans A} {r : List (Nat × A) × List (Nat × Nat)}

theorem out_cat_some (h : (Expr.cat e f).out = some r) :
    ∃ p q, e.out = some p ∧ f.out = some q ∧ r = (p.1 ++ q.1, p.2 ++ q.2) := by
  rw [out] at h
  split at h
  · next p q he hf =>
      cases h
      exact ⟨_, _, he, hf, rfl⟩
  · cases h

theorem out_alt_some (h : (Expr.alt e f).out = some r) :
    (∃ p q, e.out = some p ∧ f.out = some q ∧ r = (p.1 ++ q.1, p.2 ++ q.2)) ∨
      e.out = some r ∨ f.out = some r := by
  rw [out] at h
  split at h
  · next p q he hf =>
      cases h
      exact .inl ⟨_, _, he, hf, rfl⟩
  · next p he hf =>
      cases h
      exact .inr (.inl he)
  · exact .inr (.inr h)

theorem out_star_some (h : (Expr.star e).out = some r) : r = ([], []) ∨ e.out = some r := by
  cases h
  cases he : e.out with
  | none => exact .inl rfl
  | some p => exact .inr rfl

theorem mem_delta_set {m : ByteSet} (h : t ∈ (Expr.set m).delta c) :
    m.mem c = true ∧ t = ⟨[], [], .eps⟩ := by
  rw [delta] at h
  split at h
  · next hc => exact ⟨hc, List.mem_singleton.mp h⟩
  · cases h

/-- A transition of a concatenation is one of its first part, or one of its second part that
runs what the first part leaves pending. -/
theorem mem_delta_cat (h : t ∈ (Expr.cat e f).delta c) :
    (∃ u ∈ e.delta c, t = u.map (seq · f)) ∨
      ∃ r, e.out = some r ∧ ∃ u ∈ f.delta c, t = (u.addActs r.1).addPrios r.2 := by
  rw [delta] at h
  obtain h | h := List.mem_append.mp h
  · obtain ⟨u, hu, rfl⟩ := List.mem_map.mp h
    exact .inl ⟨u, hu, rfl⟩
  · cases he : e.out with
    | none =>
        rw [he] at h
        cases h
    | some r =>
        rw [he] at h
        obtain ⟨u, hu, rfl⟩ := List.mem_map.mp h
        exact .inr ⟨r, rfl, u, hu, rfl⟩

end Inversion

end Expr

variable {A : Type} [DecidableEq A]

/-- A state of the deterministic machine. -/
abbrev State (A : Type) := List (Expr A)

/-- Insert an action by its place. -/
def insertAct (x : Nat × A) : List (Nat × A) → List (Nat × A)
  | [] => [x]
  | y :: ys => if x.1 ≤ y.1 then x :: y :: ys else y :: insertAct x ys

/-- The actions of a step in their order, each once. -/
def actions (ts : List (Trans A)) : List A :=
  (((ts.flatMap Trans.acts).foldr insertAct []).map Prod.snd).eraseDups

/-- The transitions on a byte that no other one beats. -/
def taken (s : State A) (c : UInt8) : List (Trans A) :=
  let all := s.flatMap (Expr.delta c)
  all.filter fun t => !all.any t.beatenBy

/-- One byte: the actions to run and the next state; `none` is the error state. -/
def step (s : State A) (c : UInt8) : Option (List A × State A) :=
  match taken s c with
  | [] => none
  | t :: ts => some (actions (t :: ts), ((t :: ts).map Trans.next).eraseDups)

/-- A state in which the expression is complete. -/
def final (s : State A) : Bool := s.any fun e => e.out.isSome

/-- The start state of the machine of an expression. -/
def start (e : Expr A) : State A := [(e.number 0).1]

namespace Expr

/-- The action is embedded somewhere in the expression. -/
def mentions (a : A) : Expr A → Bool
  | .eps => false
  | .set _ => false
  | .cat e f => e.mentions a || f.mentions a
  | .alt e f => e.mentions a || f.mentions a
  | .star e => e.mentions a
  | .enter _ b e => b = a || e.mentions a
  | .finish _ b e => b = a || e.mentions a
  | .leave _ b e => b = a || e.mentions a
  | .enterPrio _ _ e => e.mentions a
  | .finishPrio _ _ e => e.mentions a
  | .allPrio _ _ e => e.mentions a

/-- The actions pending at the end of an expression are embedded in it. -/
theorem out_mentions {a : A} {e : Expr A} (h : e.mentions a = false) :
    ∀ r, e.out = some r → ∀ x ∈ r.1, x.2 ≠ a := by
  induction e with
  | eps => simp [out]
  | set m => simp [out]
  | cat e f ihe ihf =>
      replace h := Bool.or_eq_false_iff.mp h
      intro r hr x hx
      obtain ⟨p, q, he, hf, rfl⟩ := out_cat_some hr
      obtain hx | hx := List.mem_append.mp hx
      · exact ihe h.1 p he x hx
      · exact ihf h.2 q hf x hx
  | alt e f ihe ihf =>
      replace h := Bool.or_eq_false_iff.mp h
      intro r hr x hx
      obtain ⟨p, q, he, hf, rfl⟩ | he | hf := out_alt_some hr
      · obtain hx | hx := List.mem_append.mp hx
        · exact ihe h.1 p he x hx
        · exact ihf h.2 q hf x hx
      · exact ihe h.1 r he x hx
      · exact ihf h.2 r hf x hx
  | star e ih =>
      intro r hr x hx
      obtain rfl | he := out_star_some hr
      · cases hx
      · exact ih h r he x hx
  | enter ord b e ih | leave ord b e ih =>
      simp only [mentions, Bool.or_eq_false_iff, decide_eq_false_iff_not] at h
      intro r hr x hx
      obtain ⟨p, he, rfl⟩ := Option.map_eq_some_iff.mp hr
      obtain rfl | hx := List.mem_cons.mp hx
      · exact h.1
      · exact ih h.2 p he x hx
  | finish ord b e ih => exact ih (Bool.or_eq_false_iff.mp h).2
  | enterPrio key prio e ih =>
      intro r hr x hx
      obtain ⟨p, he, rfl⟩ := Option.map_eq_some_iff.mp hr
      exact ih h p he x hx
  | finishPrio key prio e ih => exact ih h
  | allPrio key prio e ih => exact ih h

theorem mentions_seq {a : A} {e f : Expr A} :
    (seq e f).mentions a = (e.mentions a || f.mentions a) := by
  cases e <;> simp [seq, mentions]

/-- A transition has no actions but those embedded in the expression. -/
theorem delta_mentions {a : A} (c : UInt8) {e : Expr A} (h : e.mentions a = false) :
    ∀ t ∈ e.delta c, (∀ x ∈ t.acts, x.2 ≠ a) ∧ t.next.mentions a = false := by
  induction e with
  | eps => simp [delta]
  | set m =>
      intro t ht
      obtain ⟨-, rfl⟩ := mem_delta_set ht
      exact ⟨by simp, rfl⟩
  | cat e f ihe ihf =>
      replace h := Bool.or_eq_false_iff.mp h
      intro t ht
      obtain ⟨u, hu, rfl⟩ | ⟨r, he, u, hu, rfl⟩ := mem_delta_cat ht
      · obtain ⟨hacts, hnext⟩ := ihe h.1 u hu
        refine ⟨hacts, ?_⟩
        rw [Trans.map, mentions_seq, hnext, h.2]
        rfl
      · obtain ⟨hacts, hnext⟩ := ihf h.2 u hu
        refine ⟨?_, hnext⟩
        intro x hx
        obtain hx | hx := List.mem_append.mp hx
        · exact out_mentions h.1 r he x hx
        · exact hacts x hx
  | alt e f ihe ihf =>
      replace h := Bool.or_eq_false_iff.mp h
      intro t ht
      obtain ht | ht := List.mem_append.mp ht
      · exact ihe h.1 t ht
      · exact ihf h.2 t ht
  | star e ih =>
      intro t ht
      obtain ⟨u, hu, rfl⟩ := List.mem_map.mp ht
      obtain ⟨hacts, hnext⟩ := ih h u hu
      refine ⟨hacts, ?_⟩
      simp only [Trans.map, mentions_seq, hnext, mentions, Bool.false_or]
      exact h
  | enter ord b e ih =>
      simp only [mentions, Bool.or_eq_false_iff, decide_eq_false_iff_not] at h
      intro t ht
      obtain ⟨u, hu, rfl⟩ := List.mem_map.mp ht
      obtain ⟨hacts, hnext⟩ := ih h.2 u hu
      refine ⟨?_, hnext⟩
      intro x hx
      obtain rfl | hx := List.mem_cons.mp hx
      · exact h.1
      · exact hacts x hx
  | finish ord b e ih =>
      simp only [mentions, Bool.or_eq_false_iff, decide_eq_false_iff_not] at h
      intro t ht
      obtain ⟨u, hu, rfl⟩ := List.mem_map.mp ht
      obtain ⟨hacts, hnext⟩ := ih h.2 u hu
      have hmention : (Expr.finish ord b u.next).mentions a = false := by
        simp [mentions, hnext, h.1]
      split
      · refine ⟨?_, hmention⟩
        intro x hx
        obtain rfl | hx := List.mem_cons.mp hx
        · exact h.1
        · exact hacts x hx
      · exact ⟨hacts, hmention⟩
  | leave ord b e ih =>
      simp only [mentions, Bool.or_eq_false_iff, decide_eq_false_iff_not] at h
      intro t ht
      obtain ⟨u, hu, rfl⟩ := List.mem_map.mp ht
      obtain ⟨hacts, hnext⟩ := ih h.2 u hu
      exact ⟨hacts, by simp [Trans.map, mentions, hnext, h.1]⟩
  | enterPrio key prio e ih =>
      intro t ht
      obtain ⟨u, hu, rfl⟩ := List.mem_map.mp ht
      exact ih h u hu
  | finishPrio key prio e ih =>
      intro t ht
      obtain ⟨u, hu, rfl⟩ := List.mem_map.mp ht
      split
      · exact ih h u hu
      · exact ih h u hu
  | allPrio key prio e ih =>
      intro t ht
      obtain ⟨u, hu, rfl⟩ := List.mem_map.mp ht
      exact ih h u hu

/-- The expression runs the action exactly on the bytes that complete it. -/
def Closes (a : A) (e : Expr A) : Prop :=
  ∃ ord f, e = .finish ord a f ∧ f.mentions a = false

theorem delta_closes {a : A} {c : UInt8} {e : Expr A} (h : Closes a e) {t : Trans A}
    (ht : t ∈ e.delta c) :
    Closes a t.next ∧ ((∃ x ∈ t.acts, x.2 = a) ↔ t.next.out.isSome) := by
  obtain ⟨ord, f, rfl, hf⟩ := h
  obtain ⟨u, hu, rfl⟩ := List.mem_map.mp ht
  obtain ⟨hacts, hnext⟩ := delta_mentions c hf u hu
  by_cases hout : u.next.out.isSome
  · rw [if_pos hout]
    refine ⟨⟨ord, u.next, rfl, hnext⟩, ?_⟩
    exact iff_of_true ⟨_, List.mem_cons_self, rfl⟩ hout
  · rw [if_neg hout]
    refine ⟨⟨ord, u.next, rfl, hnext⟩, ?_⟩
    refine iff_of_false ?_ hout
    rintro ⟨x, hx, rfl⟩
    exact hacts x hx rfl

end Expr

omit [DecidableEq A] in
theorem mem_insertAct {x y : Nat × A} {l : List (Nat × A)} :
    x ∈ insertAct y l ↔ x = y ∨ x ∈ l := by
  induction l with
  | nil => simp [insertAct]
  | cons z l ih =>
      rw [insertAct]
      split
      · simp
      · simp only [List.mem_cons, ih]
        tauto

omit [DecidableEq A] in
theorem mem_foldr_insertAct {l : List (Nat × A)} {x : Nat × A} :
    x ∈ l.foldr insertAct [] ↔ x ∈ l := by
  induction l with
  | nil => simp
  | cons y l ih => rw [List.foldr_cons, mem_insertAct, ih, List.mem_cons]

theorem mem_actions {a : A} {ts : List (Trans A)} :
    a ∈ actions ts ↔ ∃ t ∈ ts, ∃ x ∈ t.acts, x.2 = a := by
  simp only [actions, List.mem_eraseDups, List.mem_map, mem_foldr_insertAct, List.mem_flatMap]
  constructor
  · rintro ⟨x, ⟨t, ht, hx⟩, rfl⟩
    exact ⟨t, ht, x, hx, rfl⟩
  · rintro ⟨t, ht, x, hx, rfl⟩
    exact ⟨x, ⟨t, ht, hx⟩, rfl⟩

/-- A step takes some transitions of the expressions of the state. -/
theorem exists_taken {s s' : State A} {c : UInt8} {acts : List A}
    (h : step s c = some (acts, s')) :
    ∃ ts : List (Trans A), (∀ t ∈ ts, ∃ e ∈ s, t ∈ e.delta c) ∧ acts = actions ts ∧
      s' = (ts.map Trans.next).eraseDups := by
  rw [step] at h
  split at h
  · cases h
  · next t ts htaken =>
      simp only [Option.some.injEq, Prod.mk.injEq] at h
      refine ⟨t :: ts, ?_, h.1.symm, h.2.symm⟩
      intro u hu
      rw [← htaken] at hu
      exact List.mem_flatMap.mp (List.mem_filter.mp hu).1

/-- A machine closed by an action runs it exactly when it reaches a final state. -/
theorem step_closes {a : A} {s s' : State A} {c : UInt8} {acts : List A}
    (h : ∀ e ∈ s, e.Closes a) (hstep : step s c = some (acts, s')) :
    (∀ e ∈ s', e.Closes a) ∧ (a ∈ acts ↔ final s') := by
  obtain ⟨ts, hts, rfl, rfl⟩ := exists_taken hstep
  have hall : ∀ u ∈ ts, u.next.Closes a ∧ ((∃ x ∈ u.acts, x.2 = a) ↔ u.next.out.isSome) := by
    intro u hu
    obtain ⟨e, he, hue⟩ := hts u hu
    exact Expr.delta_closes (h e he) hue
  constructor
  · intro e he
    obtain ⟨u, hu, rfl⟩ := List.mem_map.mp (List.mem_eraseDups.mp he)
    exact (hall u hu).1
  · rw [mem_actions, final, List.any_eq_true]
    constructor
    · rintro ⟨u, hu, hx⟩
      refine ⟨u.next, ?_, (hall u hu).2.mp hx⟩
      exact List.mem_eraseDups.mpr (List.mem_map_of_mem hu)
    · rintro ⟨e, he, hout⟩
      obtain ⟨u, hu, rfl⟩ := List.mem_map.mp (List.mem_eraseDups.mp he)
      exact ⟨u, hu, (hall u hu).2.mpr hout⟩

section Exec

variable {σ ε : Type} (act : A → Nat → σ → Except ε σ) (stop : A → Bool)

/-- Run the actions of one byte, up to one that breaks out of the loop. -/
def runActs (p : Nat) : List A → σ → Except ε (Bool × σ)
  | [], x => .ok (false, x)
  | a :: as, x => do
      let x ← act a p x
      if stop a then .ok (true, x) else runActs p as x

/-- The loop over the bytes from position `p` on. It returns the state, which is
`none` after an error, and the position it stopped at: the byte that has no
transition, or the byte after the one on which an action broke out. -/
def exec : State A → Nat → List UInt8 → σ → Except ε (Option (State A) × Nat × σ)
  | s, p, [], x => .ok (some s, p, x)
  | s, p, b :: bs, x =>
      match step s b with
      | none => .ok (none, p, x)
      | some (acts, s') => do
          let (broke, x) ← runActs act stop p acts x
          if broke then .ok (some s', p + 1, x) else exec s' (p + 1) bs x

/-- How a run over some bytes ended. -/
inductive Outcome (A : Type) where
  | running (s : State A)
  | broke (s : State A) (p : Nat)
  | failed (p : Nat)

/-- The actions of one byte that run, and whether the last of them breaks. -/
def untilStop : List A → List A × Bool
  | [] => ([], false)
  | a :: as => if stop a then ([a], true) else (a :: (untilStop as).1, (untilStop as).2)

/-- The actions of a run with their positions, and how the run ends. -/
def scan : State A → Nat → List UInt8 → List (Nat × A) × Outcome A
  | s, _, [] => ([], .running s)
  | s, p, b :: bs =>
      match step s b with
      | none => ([], .failed p)
      | some (acts, s') =>
          let now := (untilStop stop acts).1.map (p, ·)
          if (untilStop stop acts).2 then (now, .broke s' (p + 1))
          else
            let rest := scan s' (p + 1) bs
            (now ++ rest.1, rest.2)

/-- The actions at given positions, one after the other. -/
def runEvents : List (Nat × A) → σ → Except ε σ
  | [], x => .ok x
  | (p, a) :: es, x => do
      let x ← act a p x
      runEvents es x

/-- What `exec` returns when a run over `n` bytes from position `p` has the given outcome. -/
def Outcome.result (p n : Nat) : Outcome A → Option (State A) × Nat
  | .running s => (some s, p + n)
  | .broke s q => (some s, q)
  | .failed q => (none, q)

omit [DecidableEq A] in
theorem runEvents_append (es fs : List (Nat × A)) (x : σ) :
    runEvents act (es ++ fs) x = (runEvents act es x >>= runEvents act fs) := by
  induction es generalizing x with
  | nil => rfl
  | cons e es ih =>
      obtain ⟨p, a⟩ := e
      simp only [List.cons_append, runEvents]
      cases act a p x with
      | error err => rfl
      | ok y => exact ih y

omit [DecidableEq A] in
/-- What every action keeps, a run of actions keeps. -/
theorem runEvents_keeps {P : σ → Prop} (hact : ∀ a p x y, act a p x = .ok y → P x → P y)
    {es : List (Nat × A)} {x y : σ} (hrun : runEvents act es x = .ok y) (hx : P x) : P y := by
  induction es generalizing x with
  | nil =>
      cases hrun
      exact hx
  | cons e es ih =>
      obtain ⟨p, a⟩ := e
      rw [runEvents] at hrun
      cases hstep : act a p x with
      | error err =>
          rw [hstep] at hrun
          cases hrun
      | ok z =>
          rw [hstep] at hrun
          exact ih hrun (hact a p x z hstep hx)

omit [DecidableEq A] in
theorem runActs_eq (p : Nat) (acts : List A) (x : σ) :
    runActs act stop p acts x =
      (runEvents act ((untilStop stop acts).1.map (p, ·)) x).map
        ((untilStop stop acts).2, ·) := by
  induction acts generalizing x with
  | nil => rfl
  | cons a as ih =>
      rw [runActs, untilStop]
      by_cases ha : stop a
      · simp only [ha, if_true, List.map_cons, List.map_nil, runEvents]
        cases act a p x <;> rfl
      · simp only [ha, if_false, Bool.false_eq_true, List.map_cons, runEvents]
        cases act a p x with
        | error err => rfl
        | ok y => exact ih y

/-! One byte of a run: no transition, a step that breaks out, or a step after which the run
goes on. -/

theorem scan_failed {s : State A} {b : UInt8} (h : step s b = none) (p : Nat) (bs : List UInt8) :
    scan stop s p (b :: bs) = ([], .failed p) := by
  rw [scan, h]

theorem scan_breaks {s s' : State A} {b : UInt8} {acts : List A} (h : step s b = some (acts, s'))
    (hstop : (untilStop stop acts).2 = true) (p : Nat) (bs : List UInt8) :
    scan stop s p (b :: bs) = ((untilStop stop acts).1.map (p, ·), .broke s' (p + 1)) := by
  rw [scan, h]
  simp only [hstop, if_true]

theorem scan_goes_on {s s' : State A} {b : UInt8} {acts : List A} (h : step s b = some (acts, s'))
    (hgo : (untilStop stop acts).2 = false) (p : Nat) (bs : List UInt8) :
    scan stop s p (b :: bs) =
      ((untilStop stop acts).1.map (p, ·) ++ (scan stop s' (p + 1) bs).1,
        (scan stop s' (p + 1) bs).2) := by
  rw [scan, h]
  simp only [hgo, if_false, Bool.false_eq_true]

theorem scan_cons_cases (s : State A) (p : Nat) (b : UInt8) (bs : List UInt8) :
    (step s b = none ∧ scan stop s p (b :: bs) = ([], .failed p)) ∨
      (∃ acts s', step s b = some (acts, s') ∧ (untilStop stop acts).2 = true ∧
        scan stop s p (b :: bs) = ((untilStop stop acts).1.map (p, ·), .broke s' (p + 1))) ∨
      ∃ acts s', step s b = some (acts, s') ∧ (untilStop stop acts).2 = false ∧
        scan stop s p (b :: bs) =
          ((untilStop stop acts).1.map (p, ·) ++ (scan stop s' (p + 1) bs).1,
            (scan stop s' (p + 1) bs).2) := by
  cases hstep : step s b with
  | none => exact .inl ⟨rfl, scan_failed stop hstep p bs⟩
  | some r =>
      obtain ⟨acts, s'⟩ := r
      cases hstop : (untilStop stop acts).2 with
      | true => exact .inr (.inl ⟨acts, s', rfl, hstop, scan_breaks stop hstep hstop p bs⟩)
      | false => exact .inr (.inr ⟨acts, s', rfl, hstop, scan_goes_on stop hstep hstop p bs⟩)

/-- The loop runs the actions that `scan` lists. -/
theorem exec_eq (s : State A) (p : Nat) (bs : List UInt8) (x : σ) :
    exec act stop s p bs x =
      (runEvents act (scan stop s p bs).1 x).map fun y =>
        (((scan stop s p bs).2.result p bs.length).1,
          ((scan stop s p bs).2.result p bs.length).2, y) := by
  induction bs generalizing s p x with
  | nil => rfl
  | cons b bs ih =>
      rw [exec]
      obtain ⟨hstep, hscan⟩ | ⟨acts, s', hstep, hstop, hscan⟩ | ⟨acts, s', hstep, hgo, hscan⟩ :=
        scan_cons_cases stop s p b bs
      · rw [hscan, hstep]
        rfl
      · rw [hscan, hstep]
        simp only [runActs_eq, hstop]
        cases runEvents act ((untilStop stop acts).1.map (p, ·)) x <;> rfl
      · rw [hscan, hstep]
        simp only [runActs_eq, hgo, runEvents_append]
        cases runEvents act ((untilStop stop acts).1.map (p, ·)) x with
        | error err => rfl
        | ok y =>
            refine (ih s' (p + 1) y).trans ?_
            have hres : ∀ o : Outcome A,
                o.result (p + 1) bs.length = o.result p (b :: bs).length := by
              intro o
              cases o <;> simp [Outcome.result, Nat.add_comm, Nat.add_left_comm]
            rw [hres]
            rfl

/-- A run over two parts goes on with the second part where the first left it. -/
theorem scan_append (s : State A) (p : Nat) (us vs : List UInt8) :
    scan stop s p (us ++ vs) =
      match scan stop s p us with
      | (es, .running s') =>
          (es ++ (scan stop s' (p + us.length) vs).1, (scan stop s' (p + us.length) vs).2)
      | r => r := by
  induction us generalizing s p with
  | nil => rfl
  | cons u us ih =>
      rw [List.cons_append]
      obtain ⟨hstep, hscan⟩ | ⟨acts, s', hstep, hstop, hscan⟩ | ⟨acts, s', hstep, hgo, hscan⟩ :=
        scan_cons_cases stop s p u us
      · rw [hscan, scan_failed stop hstep]
      · rw [hscan, scan_breaks stop hstep hstop]
      · rw [hscan, scan_goes_on stop hstep hgo, ih]
        rcases hrest : scan stop s' (p + 1) us with ⟨es, o⟩
        have hlen : p + 1 + us.length = p + (u :: us).length := by
          rw [List.length_cons]
          omega
        cases o with
        | running s'' => simp only [hlen, List.append_assoc]
        | broke s'' q => rfl
        | failed q => rfl

/-- The same outcome with positions counted from an origin `k` bytes earlier. -/
def Outcome.shift (k : Nat) : Outcome A → Outcome A
  | .running s => .running s
  | .broke s q => .broke s (k + q)
  | .failed q => .failed (k + q)

theorem scan_shift (s : State A) (k p : Nat) (bs : List UInt8) :
    scan stop s (k + p) bs =
      ((scan stop s p bs).1.map fun e => (k + e.1, e.2), (scan stop s p bs).2.shift k) := by
  induction bs generalizing s p with
  | nil => rfl
  | cons b bs ih =>
      obtain ⟨hstep, hscan⟩ | ⟨acts, s', hstep, hstop, hscan⟩ | ⟨acts, s', hstep, hgo, hscan⟩ :=
        scan_cons_cases stop s p b bs
      · rw [hscan, scan_failed stop hstep]
        rfl
      · rw [hscan, scan_breaks stop hstep hstop]
        simp only [List.map_map, Function.comp_def, Outcome.shift, Nat.add_assoc]
      · rw [hscan, scan_goes_on stop hstep hgo, Nat.add_assoc, ih]
        simp only [List.map_append, List.map_map, Function.comp_def]

omit [DecidableEq A] in
/-- The actions of one byte happen at its position. -/
theorem fst_of_mem_map {e : Nat × A} {p : Nat} {acts : List A} (h : e ∈ acts.map (p, ·)) :
    e.1 = p := by
  obtain ⟨a, -, rfl⟩ := List.mem_map.mp h
  rfl

/-- The actions of a run happen at the bytes of the run. -/
theorem scan_position {s : State A} {p : Nat} {bs : List UInt8} {e : Nat × A}
    (he : e ∈ (scan stop s p bs).1) : p ≤ e.1 ∧ e.1 < p + bs.length := by
  induction bs generalizing s p with
  | nil => cases he
  | cons b bs ih =>
      rw [List.length_cons]
      obtain ⟨-, hscan⟩ | ⟨acts, s', -, -, hscan⟩ | ⟨acts, s', -, -, hscan⟩ :=
        scan_cons_cases stop s p b bs
      · rw [hscan] at he
        cases he
      · rw [hscan] at he
        have hnow := fst_of_mem_map he
        omega
      · rw [hscan] at he
        obtain he | he := List.mem_append.mp he
        · have hnow := fst_of_mem_map he
          omega
        · obtain ⟨hle, hlt⟩ := ih he
          omega

/-- The actions of a run come in the order of their bytes. -/
theorem scan_sorted (s : State A) (p : Nat) (bs : List UInt8) :
    (scan stop s p bs).1.Pairwise fun e f => e.1 ≤ f.1 := by
  induction bs generalizing s p with
  | nil => exact .nil
  | cons b bs ih =>
      have hnow : ∀ l : List A, (l.map (p, ·)).Pairwise fun e f => e.1 ≤ f.1 := by
        intro l
        rw [List.pairwise_map]
        exact List.pairwise_of_forall fun _ _ => Nat.le_refl p
      obtain ⟨-, hscan⟩ | ⟨acts, s', -, -, hscan⟩ | ⟨acts, s', -, -, hscan⟩ :=
        scan_cons_cases stop s p b bs
      · rw [hscan]
        exact .nil
      · rw [hscan]
        exact hnow _
      · rw [hscan, List.pairwise_append]
        refine ⟨hnow _, ih s' (p + 1), ?_⟩
        intro e he f hf
        rw [fst_of_mem_map he]
        exact Nat.le_of_succ_le (scan_position stop hf).1

/-- A run breaks out after one of its bytes. -/
theorem scan_broke_position {s s' : State A} {p q : Nat} {bs : List UInt8}
    (h : (scan stop s p bs).2 = .broke s' q) : p < q ∧ q ≤ p + bs.length := by
  induction bs generalizing s p with
  | nil => cases h
  | cons b bs ih =>
      rw [List.length_cons]
      obtain ⟨-, hscan⟩ | ⟨acts, t, -, -, hscan⟩ | ⟨acts, t, -, -, hscan⟩ :=
        scan_cons_cases stop s p b bs
      · rw [hscan] at h
        cases h
      · rw [hscan] at h
        cases h
        omega
      · rw [hscan] at h
        have hpos := ih h
        omega

omit [DecidableEq A] in
theorem untilStop_stops (acts : List A) :
    (untilStop stop acts).2 = true ↔ ∃ a ∈ acts, stop a := by
  induction acts with
  | nil => simp [untilStop]
  | cons a as ih =>
      rw [untilStop]
      split
      · next h => simp [h]
      · next h => simp [h, ih]

variable {stop} in
/-- A step of a closed machine breaks out exactly in a final state. -/
theorem untilStop_eq_final {a : A} (hstop : ∀ b, stop b = true ↔ b = a) {s s' : State A}
    {b : UInt8} {acts : List A} (h : ∀ e ∈ s, e.Closes a) (hstep : step s b = some (acts, s')) :
    (untilStop stop acts).2 = final s' := by
  rw [Bool.eq_iff_iff, untilStop_stops, ← (step_closes h hstep).2]
  simp only [hstop, exists_eq_right]

/-- A run of a closed machine breaks out exactly in a final state. -/
theorem scan_closes {a : A} (hstop : ∀ b, stop b = true ↔ b = a) {s : State A} (p : Nat)
    (bs : List UInt8) (h : ∀ e ∈ s, e.Closes a) (hfinal : final s = false) :
    match (scan stop s p bs).2 with
    | .running s' => (∀ e ∈ s', e.Closes a) ∧ final s' = false
    | .broke s' _ => final s' = true
    | .failed _ => True := by
  induction bs generalizing s p with
  | nil => exact ⟨h, hfinal⟩
  | cons b bs ih =>
      obtain ⟨-, hscan⟩ | ⟨acts, s', hstep, hbreak, hscan⟩ | ⟨acts, s', hstep, hgo, hscan⟩ :=
        scan_cons_cases stop s p b bs
      · rw [hscan]
        trivial
      · rw [hscan]
        exact (untilStop_eq_final hstop h hstep).symm.trans hbreak
      · rw [hscan]
        exact ih (p + 1) (step_closes h hstep).1
          ((untilStop_eq_final hstop h hstep).symm.trans hgo)

end Exec

end Sylar.Lib.Ragel

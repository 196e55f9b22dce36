import Sylar.Lib.RagelWords

/-!
# Runs through the parts of an expression

A run is in some part of an expression, and what stands around the part says
what happens when the part is left: the leaving actions, and the expressions
that come next. In a part without actions nothing happens until a byte leaves it,
so a run is followed from one part to the next. What is known of a state is which
expressions may be in it, and that it has one for every word that can still
follow.
-/

namespace Sylar.Lib.Ragel

variable {A : Type}

/-- One layer around a part of an expression. -/
inductive Frame (A : Type) where
  | cat (f : Expr A)
  | leave (ord : Nat) (a : A)

def Frame.wrap : Frame A → Expr A → Expr A
  | .cat f, e => e.seq f
  | .leave ord a, e => .leave ord a e

/-- What stands around a part, the innermost layer first. -/
abbrev Context (A : Type) := List (Frame A)

/-- The actions and priorities that are pending at a place. -/
abbrev Pending (A : Type) := List (Nat × A) × List (Nat × Nat)

namespace Context

def plug (k : Context A) (e : Expr A) : Expr A := k.foldl (fun e f => f.wrap e) e

/-- The transitions on a byte that leaves the part. -/
def follow : Context A → Pending A → UInt8 → List (Trans A)
  | [], _, _ => []
  | .leave ord a :: k, r, c => follow k ((ord, a) :: r.1, r.2) c
  | .cat f :: k, r, c =>
      (f.delta c).map (fun t => ((t.addActs r.1).addPrios r.2).map (plug k)) ++
        match f.out with
        | some q => follow k (r.1 ++ q.1, r.2 ++ q.2) c
        | none => []

/-- What is pending if the word ends with the part. -/
def exit : Context A → Pending A → Option (Pending A)
  | [], r => some r
  | .leave ord a :: k, r => exit k ((ord, a) :: r.1, r.2)
  | .cat f :: k, r =>
      match f.out with
      | some q => exit k (r.1 ++ q.1, r.2 ++ q.2)
      | none => none

/-- Bytes that may leave the part. -/
def firsts : Context A → ByteSet
  | [] => .none
  | .leave _ _ :: k => firsts k
  | .cat f :: k => if f.out.isSome then f.firsts.union (firsts k) else f.firsts

variable (k : Context A) (e : Expr A)

theorem delta_seq (f : Expr A) (c : UInt8) :
    (e.seq f).delta c = (e.delta c).map (Trans.map (Expr.seq · f)) ++
      match e.out with
      | some r => (f.delta c).map fun t => (t.addActs r.1).addPrios r.2
      | none => [] := by
  have hcat : (Expr.cat e f).delta c = (e.delta c).map (Trans.map (Expr.seq · f)) ++
      match e.out with
      | some r => (f.delta c).map fun t => (t.addActs r.1).addPrios r.2
      | none => [] := by
    rw [Expr.delta]
    cases e.out <;> rfl
  cases e with
  | eps => simp [Expr.seq, Expr.delta, Expr.out, Trans.addActs, Trans.addPrios]
  | _ => exact hcat

theorem out_seq (f : Expr A) :
    (e.seq f).out = e.out.bind fun r => f.out.map fun q => (r.1 ++ q.1, r.2 ++ q.2) := by
  have hcat : (Expr.cat e f).out =
      e.out.bind fun r => f.out.map fun q => (r.1 ++ q.1, r.2 ++ q.2) := by
    rw [Expr.out]
    cases e.out <;> cases f.out <;> rfl
  cases e with
  | eps => cases hf : f.out <;> simp [Expr.seq, Expr.out, hf]
  | _ => exact hcat

/-- A transition stays in the part or leaves it. -/
theorem delta_plug (c : UInt8) :
    (plug k e).delta c = (e.delta c).map (Trans.map (plug k)) ++
      match e.out with
      | some r => follow k r c
      | none => [] := by
  induction k generalizing e with
  | nil =>
      have hid : Trans.map (plug ([] : Context A)) = id := rfl
      rw [hid, List.map_id]
      cases e.out <;> simp [plug, follow]
  | cons f k ih =>
      change (plug k (f.wrap e)).delta c = _
      rw [ih]
      cases f with
      | leave ord a =>
          rw [Frame.wrap, Expr.delta, Expr.out, List.map_map]
          cases e.out <;> rfl
      | cat f =>
          rw [Frame.wrap, delta_seq, out_seq, List.map_append, List.map_map, List.append_assoc]
          congr 1
          cases e.out with
          | none => rfl
          | some r =>
              dsimp only [Option.bind_some]
              rw [follow, List.map_map]
              congr 1
              cases f.out <;> rfl

theorem out_plug : (plug k e).out = e.out.bind (exit k) := by
  induction k generalizing e with
  | nil =>
      change e.out = e.out.bind some
      cases e.out <;> rfl
  | cons f k ih =>
      change (plug k (f.wrap e)).out = _
      rw [ih]
      cases f with
      | leave ord a =>
          rw [Frame.wrap, Expr.out]
          cases e.out <;> rfl
      | cat f =>
          rw [Frame.wrap, out_seq]
          cases e.out with
          | none => rfl
          | some r =>
              dsimp only [Option.bind_some]
              rw [exit]
              cases f.out <;> rfl

variable {k}

theorem follow_of_not_firsts {c : UInt8} (h : (firsts k).mem c = false) (r : Pending A) :
    follow k r c = [] := by
  induction k generalizing r with
  | nil => rfl
  | cons f k ih =>
      cases f with
      | leave ord a => exact ih h _
      | cat f =>
          rw [firsts] at h
          rw [follow]
          cases hf : f.out with
          | none =>
              simp only [hf, Option.isSome_none, Bool.false_eq_true, if_false] at h
              rw [Expr.delta_of_not_firsts h]
              rfl
          | some q =>
              rw [hf, Option.isSome_some, if_pos rfl] at h
              have hsides : f.firsts.mem c = false ∧ (firsts k).mem c = false := by
                rw [← Bool.not_eq_true, ByteSet.mem_union, not_or] at h
                exact h.imp Bool.eq_false_iff.mpr Bool.eq_false_iff.mpr
              rw [Expr.delta_of_not_firsts hsides.1]
              exact ih hsides.2 _

/-- The expressions that are a silent part in a context. -/
def within (k : Context A) (m : ByteSet) : Set (Expr A) :=
  {e | ∃ g : Expr A, g.silent m = true ∧ e = plug k g}

/-- The transitions of such an expression. -/
theorem delta_within {m : ByteSet} {e : Expr A} (he : e ∈ within k m) {c : UInt8} {t : Trans A}
    (ht : t ∈ e.delta c) :
    (m.mem c = true ∧ t.acts = [] ∧ t.next ∈ within k m) ∨
      (e.out.isSome = (exit k ([], [])).isSome ∧ t ∈ follow k ([], []) c) := by
  obtain ⟨g, hg, rfl⟩ := he
  rw [delta_plug] at ht
  obtain ht | ht := List.mem_append.mp ht
  · obtain ⟨u, hu, rfl⟩ := List.mem_map.mp ht
    obtain ⟨hc, hacts, hnext⟩ := Expr.delta_silent hg c u hu
    exact .inl ⟨hc, hacts, u.next, hnext, rfl⟩
  · right
    rw [out_plug]
    cases hout : g.out with
    | none => simp [hout] at ht
    | some r =>
        rw [hout] at ht
        cases Expr.out_silent hg r hout
        exact ⟨rfl, ht⟩

theorem out_within {m : ByteSet} {e : Expr A} (he : e ∈ within k m) {r : Pending A}
    (hr : e.out = some r) :
    exit k ([], []) = some r ∧ ∀ c, ∀ t ∈ follow k ([], []) c, t ∈ e.delta c := by
  obtain ⟨g, hg, rfl⟩ := he
  rw [out_plug] at hr
  obtain ⟨q, hq, hr⟩ := Option.bind_eq_some_iff.mp hr
  cases Expr.out_silent hg q hq
  refine ⟨hr, fun c t ht => ?_⟩
  rw [delta_plug, hq]
  exact List.mem_append_right _ ht

end Context

/-- On the bytes of `m` the expressions of `S` run no action and stay in `S`. -/
def Quiet (S : Set (Expr A)) (m : ByteSet) : Prop :=
  ∀ e ∈ S, ∀ c, m.mem c = true → ∀ t ∈ e.delta c, t.acts = [] ∧ t.next ∈ S

theorem Quiet.union {S T : Set (Expr A)} {m : ByteSet} (hS : Quiet S m) (hT : Quiet T m) :
    Quiet (S ∪ T) m := by
  rintro e (he | he) c hc t ht
  · exact (hS e he c hc t ht).imp_right .inl
  · exact (hT e he c hc t ht).imp_right .inr

/-- Nothing happens in a silent part on bytes that do not leave it. -/
theorem quiet_within {k : Context A} {m n : ByteSet} (h : n.apart (Context.firsts k)) :
    Quiet (Context.within k m) n := by
  intro e he c hc t ht
  obtain ⟨-, hacts, hnext⟩ | ⟨-, hfollow⟩ := Context.delta_within he ht
  · exact ⟨hacts, hnext⟩
  · rw [Context.follow_of_not_firsts (ByteSet.not_mem_of_apart h hc)] at hfollow
    cases hfollow

/-- The actions that run at the end of the input. -/
def pending [DecidableEq A] (s : State A) : List A :=
  ordered (s.flatMap fun e => (e.out.getD ([], [])).1)

section Runs

variable [DecidableEq A] {σ ε : Type} (act : A → Nat → σ → Except ε σ)

/-- A whole input: the machine runs over it, the actions at its end run, and the result counts
if the state is final. -/
def parse (s : State A) (w : List UInt8) (x : σ) : Except ε (Option σ) := do
  match ← exec act (fun _ => false) s 0 w x with
  | (none, _, _) => .ok none
  | (some s, p, x) =>
      let x ← runEvents act ((pending s).map (p, ·)) x
      .ok (if final s then some x else none)

/-- A run over `w` from the expression `e` has reached the state. -/
structure Reached (e : Expr A) (x₀ : σ) (w : List UInt8) (s : State A) (x : σ) : Prop where
  run : exec act (fun _ => false) [e] 0 w x₀ = .ok (some s, w.length, x)
  unprioritized : ∀ f ∈ s, f.unprioritized
  viable : ∀ v, w ++ v ∈ e.lang → ∃ f ∈ s, v ∈ f.lang

variable {act} {e : Expr A} {x₀ x x' : σ} {w : List UInt8} {s s' : State A} {c : UInt8}

theorem Reached.start (he : e.unprioritized) (x₀ : σ) : Reached act e x₀ [] [e] x₀ :=
  ⟨rfl, by simpa using he, by simp⟩

omit [DecidableEq A] in
theorem untilStop_never (acts : List A) : untilStop (fun _ => false) acts = (acts, false) := by
  induction acts with
  | nil => rfl
  | cons a acts ih => simp [untilStop, ih]

theorem exec_concat {p q : Nat} (h : exec act (fun _ => false) s p w x = .ok (some s', q, x'))
    (c : UInt8) :
    exec act (fun _ => false) s p (w ++ [c]) x =
      match step s' c with
      | none => .ok (none, q, x')
      | some (acts, t) => (runEvents act (acts.map (q, ·)) x').map fun y => (some t, q + 1, y) := by
  induction w generalizing s p x with
  | nil =>
      cases h
      rw [List.nil_append, exec]
      cases step s' c with
      | none => rfl
      | some r =>
          dsimp only
          rw [runActs_eq, untilStop_never]
          cases runEvents act (r.1.map (q, ·)) x' <;> rfl
  | cons b w ih =>
      rw [exec] at h
      rw [List.cons_append, exec]
      cases hstep : step s b with
      | none =>
          rw [hstep] at h
          cases h
      | some r =>
          rw [hstep] at h
          dsimp only at h ⊢
          rw [runActs_eq, untilStop_never] at h ⊢
          cases hrun : runEvents act (r.1.map (p, ·)) x with
          | error err =>
              rw [hrun] at h
              cases h
          | ok y =>
              rw [hrun] at h
              exact ih h

/-- Where no transition has a priority all of them are taken. -/
theorem step_unprioritized (h : ∀ f ∈ s, f.unprioritized) (hne : ∃ f ∈ s, f.delta c ≠ []) :
    step s c = some (actions (s.flatMap (Expr.delta c)),
      ((s.flatMap (Expr.delta c)).map Trans.next).eraseDups) := by
  have htaken : taken s c = s.flatMap (Expr.delta c) := by
    apply List.filter_eq_self.mpr
    intro t ht
    obtain ⟨f, hf, ht⟩ := List.mem_flatMap.mp ht
    have hprios := (Expr.delta_unprioritized (h f hf) c t ht).1
    have hbeaten : (s.flatMap (Expr.delta c)).any t.beatenBy = false := by
      rw [List.any_eq_false]
      intro u _
      simp [Trans.beatenBy, hprios]
    rw [hbeaten]
    rfl
  obtain ⟨f, hf, hdelta⟩ := hne
  obtain ⟨t, ht⟩ := List.exists_mem_of_ne_nil _ hdelta
  have hmem : t ∈ s.flatMap (Expr.delta c) := List.mem_flatMap.mpr ⟨f, hf, ht⟩
  rw [step, htaken]
  cases hall : s.flatMap (Expr.delta c) with
  | nil =>
      rw [hall] at hmem
      cases hmem
  | cons u us => rfl

/-- One byte of a word that can still follow. The actions that run are given as a set. -/
theorem Reached.step (h : Reached act e x₀ w s x) {v : List UInt8} (hv : w ++ c :: v ∈ e.lang)
    {l : List (Nat × A)} (hl : ∀ a, (∃ f ∈ s, ∃ t ∈ f.delta c, a ∈ t.acts) ↔ a ∈ l)
    (hplaced : Placed l) (hrun : runEvents act ((ordered l).map (w.length, ·)) x = .ok x') :
    ∃ s', Reached act e x₀ (w ++ [c]) s' x' ∧
      ∀ f, f ∈ s' ↔ ∃ g ∈ s, ∃ t ∈ g.delta c, t.next = f := by
  have hnext : ∀ v, w ++ c :: v ∈ e.lang → ∃ f ∈ s, ∃ t ∈ f.delta c, v ∈ t.next.lang := by
    intro v hv
    obtain ⟨f, hf, hv⟩ := h.viable _ hv
    exact ⟨f, hf, Expr.cons_mem_lang.mp hv⟩
  obtain ⟨f, hf, t, ht, -⟩ := hnext v hv
  have hstep := step_unprioritized h.unprioritized ⟨f, hf, List.ne_nil_of_mem ht⟩
  have hacts : actions (s.flatMap (Expr.delta c)) = ordered l := by
    rw [actions_eq_ordered]
    refine ordered_congr (fun a => ?_) hplaced
    rw [← hl a]
    simp only [List.mem_flatMap]
    constructor
    · rintro ⟨t, ⟨f, hf, ht⟩, ha⟩
      exact ⟨f, hf, t, ht, ha⟩
    · rintro ⟨f, hf, t, ht, ha⟩
      exact ⟨t, ⟨f, hf, ht⟩, ha⟩
  have hmem : ∀ f, f ∈ ((s.flatMap (Expr.delta c)).map Trans.next).eraseDups ↔
      ∃ g ∈ s, ∃ t ∈ g.delta c, t.next = f := by
    intro f
    simp only [List.mem_eraseDups, List.mem_map, List.mem_flatMap]
    constructor
    · rintro ⟨t, ⟨g, hg, ht⟩, hf⟩
      exact ⟨g, hg, t, ht, hf⟩
    · rintro ⟨g, hg, t, ht, hf⟩
      exact ⟨t, ⟨g, hg, ht⟩, hf⟩
  refine ⟨_, ⟨?_, fun f hf => ?_, fun v hv => ?_⟩, hmem⟩
  · rw [exec_concat h.run, hstep]
    dsimp only
    rw [hacts, hrun, List.length_append]
    rfl
  · obtain ⟨g, hg, t, ht, rfl⟩ := (hmem f).mp hf
    exact (Expr.delta_unprioritized (h.unprioritized g hg) c t ht).2
  · rw [List.append_assoc] at hv
    obtain ⟨g, hg, t, ht, hv⟩ := hnext v hv
    exact ⟨t.next, (hmem _).mpr ⟨g, hg, t, ht, rfl⟩, hv⟩

/-- A byte on which all transitions run the same actions. -/
theorem Reached.step_same (h : Reached act e x₀ w s x) {v : List UInt8}
    (hv : w ++ c :: v ∈ e.lang) {l : List (Nat × A)} (hl : ∀ f ∈ s, ∀ t ∈ f.delta c, t.acts = l)
    (hplaced : Placed l) (hrun : runEvents act ((ordered l).map (w.length, ·)) x = .ok x') :
    ∃ s', Reached act e x₀ (w ++ [c]) s' x' ∧
      ∀ f, f ∈ s' ↔ ∃ g ∈ s, ∃ t ∈ g.delta c, t.next = f := by
  refine h.step hv (fun a => ⟨?_, fun ha => ?_⟩) hplaced hrun
  · rintro ⟨f, hf, t, ht, ha⟩
    exact hl f hf t ht ▸ ha
  · obtain ⟨f, hf, hv⟩ := h.viable _ hv
    obtain ⟨t, ht, -⟩ := Expr.cons_mem_lang.mp hv
    exact ⟨f, hf, t, ht, (hl f hf t ht).symm ▸ ha⟩

/-- A byte on which some transitions run `l` and the others a part `k` of it. -/
theorem Reached.step_two (h : Reached act e x₀ w s x) {v : List UInt8}
    (hv : w ++ c :: v ∈ e.lang) {k l : List (Nat × A)} (hsub : k ⊆ l) (hplaced : Placed l)
    (hl : ∀ f ∈ s, ∀ t ∈ f.delta c, t.acts = k ∨ t.acts = l) {y z : σ}
    (hk : runEvents act ((ordered k).map (w.length, ·)) x = .ok y)
    (hrun : runEvents act ((ordered l).map (w.length, ·)) x = .ok z) :
    ∃ s' x', Reached act e x₀ (w ++ [c]) s' x' ∧
      (∀ f, f ∈ s' ↔ ∃ g ∈ s, ∃ t ∈ g.delta c, t.next = f) ∧
      (x' = y ∨ x' = z) ∧ ((∃ f ∈ s, ∃ t ∈ f.delta c, t.acts = l) → x' = z) := by
  by_cases hall : ∃ f ∈ s, ∃ t ∈ f.delta c, t.acts = l
  · obtain ⟨f₀, hf₀, t₀, ht₀, hl₀⟩ := hall
    have hmem : ∀ a, (∃ f ∈ s, ∃ t ∈ f.delta c, a ∈ t.acts) ↔ a ∈ l := by
      intro a
      constructor
      · rintro ⟨f, hf, t, ht, ha⟩
        obtain heq | heq := hl f hf t ht
        · exact hsub (heq ▸ ha)
        · exact heq ▸ ha
      · intro ha
        exact ⟨f₀, hf₀, t₀, ht₀, hl₀.symm ▸ ha⟩
    obtain ⟨s', h', hs'⟩ := h.step hv hmem hplaced hrun
    exact ⟨s', z, h', hs', .inr rfl, fun _ => rfl⟩
  · have hk' : ∀ f ∈ s, ∀ t ∈ f.delta c, t.acts = k := fun f hf t ht =>
      (hl f hf t ht).resolve_right fun heq => hall ⟨f, hf, t, ht, heq⟩
    obtain ⟨s', h', hs'⟩ := h.step_same hv hk' (fun x hx y hy => hplaced x (hsub hx) y (hsub hy)) hk
    exact ⟨s', y, h', hs', .inl rfl, fun hex => absurd hex hall⟩

/-- Bytes on which nothing happens. -/
theorem Reached.quiet {S : Set (Expr A)} {m : ByteSet} (hS : Quiet S m) {u v : List UInt8}
    (h : Reached act e x₀ w s x) (hs : ∀ f ∈ s, f ∈ S) (hu : ∀ c ∈ u, m.mem c = true)
    (hv : w ++ u ++ v ∈ e.lang) :
    ∃ s', Reached act e x₀ (w ++ u) s' x ∧ ∀ f ∈ s', f ∈ S := by
  induction u generalizing w s with
  | nil => exact ⟨s, by simpa using h, hs⟩
  | cons c u ih =>
      obtain ⟨hc, hu⟩ := List.forall_mem_cons.mp hu
      obtain ⟨s', h', hs'⟩ := h.step_same (v := u ++ v) (by simpa using hv)
        (fun f hf t ht => (hS f (hs f hf) c hc t ht).1) (by simp [Placed]) rfl
      have hsub : ∀ f ∈ s', f ∈ S := by
        intro f hf
        obtain ⟨g, hg, t, ht, rfl⟩ := (hs' f).mp hf
        exact (hS g (hs g hg) c hc t ht).2
      obtain ⟨s'', h'', hs''⟩ := ih h' hsub hu (by simpa using hv)
      exact ⟨s'', by simpa using h'', hs''⟩

/-- A part that starts with an entering action and is silent otherwise. If it is empty the
action is still pending. -/
theorem Reached.field {k : Context A} {ord : Nat} {a : A} {g : Expr A} {m : ByteSet}
    (h : Reached act e x₀ w s x) (hs : ∀ f ∈ s, f = k.plug (.enter ord a g))
    (hg : g.silent m = true) (hk : m.apart k.firsts) {u v : List UInt8}
    (hu : ∀ c ∈ u, m.mem c = true) (hv : w ++ u ++ v ∈ e.lang)
    (hact : act a w.length x = .ok x') :
    ∃ s' y, Reached act e x₀ (w ++ u) s' y ∧
      ((u = [] ∧ y = x ∧ ∀ f ∈ s', f = k.plug (.enter ord a g)) ∨
        (u ≠ [] ∧ y = x' ∧ ∀ f ∈ s', f ∈ k.within m)) := by
  cases u with
  | nil => exact ⟨s, x, by simpa using h, .inl ⟨rfl, rfl, hs⟩⟩
  | cons c u =>
      obtain ⟨hc, hu⟩ := List.forall_mem_cons.mp hu
      have hdelta : ∀ f ∈ s, ∀ t ∈ f.delta c, t.acts = [(ord, a)] ∧ t.next ∈ k.within m := by
        intro f hf t ht
        rw [hs f hf, Context.delta_plug] at ht
        obtain ht | ht := List.mem_append.mp ht
        · obtain ⟨t', ht', rfl⟩ := List.mem_map.mp ht
          obtain ⟨t'', ht'', rfl⟩ := List.mem_map.mp ht'
          obtain ⟨-, hacts, hnext⟩ := Expr.delta_silent hg c t'' ht''
          refine ⟨?_, t''.next, hnext, rfl⟩
          simp [Trans.map, Trans.addActs, hacts]
        · split at ht
          · rw [Context.follow_of_not_firsts (ByteSet.not_mem_of_apart hk hc)] at ht
            cases ht
          · cases ht
      have hrun : runEvents act ((ordered [(ord, a)]).map (w.length, ·)) x = .ok x' := by
        change (act a w.length x >>= fun x => .ok x) = _
        rw [hact]
        rfl
      obtain ⟨s', h', hs'⟩ := h.step_same (v := u ++ v) (by simpa using hv)
        (fun f hf t ht => (hdelta f hf t ht).1) (by simp [Placed]) hrun
      have hsub : ∀ f ∈ s', f ∈ k.within m := by
        intro f hf
        obtain ⟨g, hg, t, ht, rfl⟩ := (hs' f).mp hf
        exact (hdelta g hg t ht).2
      obtain ⟨s'', h'', hs''⟩ := h'.quiet (quiet_within hk) hsub hu (v := v) (by simpa using hv)
      exact ⟨s'', x', by simpa using h'', .inr ⟨by simp, rfl, hs''⟩⟩

/-- The end of a word. -/
theorem Reached.parse (h : Reached act e x₀ w s x) (hw : w ∈ e.lang) {l : List (Nat × A)}
    (hl : ∀ a, (∃ f ∈ s, ∃ r, f.out = some r ∧ a ∈ r.1) ↔ a ∈ l) (hplaced : Placed l)
    (hrun : runEvents act ((ordered l).map (w.length, ·)) x = .ok x') :
    parse act [e] w x₀ = .ok (some x') := by
  have hfinal : final s = true := by
    obtain ⟨f, hf, hnil⟩ := h.viable [] (by simpa using hw)
    exact List.any_eq_true.mpr ⟨f, hf, Expr.nil_mem_lang.mp hnil⟩
  have hpending : pending s = ordered l := by
    refine ordered_congr (fun a => ?_) hplaced
    rw [← hl a, List.mem_flatMap]
    refine exists_congr fun f => and_congr_right fun _ => ?_
    cases f.out <;> simp
  rw [Ragel.parse, h.run]
  change (runEvents act ((pending s).map (w.length, ·)) x >>= _) = _
  rw [hpending, hrun, hfinal]
  rfl

/-- The end of a word at which the same actions are pending everywhere. -/
theorem Reached.parse_same (h : Reached act e x₀ w s x) (hw : w ∈ e.lang) {l : List (Nat × A)}
    (hl : ∀ f ∈ s, ∀ r, f.out = some r → r.1 = l) (hplaced : Placed l)
    (hrun : runEvents act ((ordered l).map (w.length, ·)) x = .ok x') :
    Ragel.parse act [e] w x₀ = .ok (some x') := by
  refine h.parse hw (fun a => ⟨?_, fun ha => ?_⟩) hplaced hrun
  · rintro ⟨f, hf, r, hr, ha⟩
    exact hl f hf r hr ▸ ha
  · obtain ⟨f, hf, hnil⟩ := h.viable [] (by simpa using hw)
    obtain ⟨r, hr⟩ := Option.isSome_iff_exists.mp (Expr.nil_mem_lang.mp hnil)
    exact ⟨f, hf, r, hr, (hl f hf r hr).symm ▸ ha⟩

/-- A run ends in a final state only at the end of a word. -/
theorem mem_lang_of_exec {p q : Nat} (h : exec act (fun _ => false) s p w x = .ok (some s', q, x'))
    {f : Expr A} (hf : f ∈ s') {v : List UInt8} (hv : v ∈ f.lang) : ∃ g ∈ s, w ++ v ∈ g.lang := by
  induction w generalizing s p x with
  | nil =>
      cases h
      exact ⟨f, hf, hv⟩
  | cons b w ih =>
      rw [exec] at h
      cases hstep : step s b with
      | none =>
          rw [hstep] at h
          cases h
      | some r =>
          rw [hstep] at h
          dsimp only at h
          rw [runActs_eq, untilStop_never] at h
          cases hrun : runEvents act (r.1.map (p, ·)) x with
          | error err =>
              rw [hrun] at h
              cases h
          | ok y =>
              rw [hrun] at h
              obtain ⟨g, hg, hw⟩ := ih h
              obtain ⟨ts, hts, -, hnext⟩ := exists_taken hstep
              rw [hnext] at hg
              obtain ⟨t, ht, rfl⟩ := List.mem_map.mp (List.mem_eraseDups.mp hg)
              obtain ⟨g', hg', ht'⟩ := hts t ht
              exact ⟨g', hg', Expr.cons_mem_lang.mpr ⟨t, ht', hw⟩⟩

theorem mem_lang_of_parse (h : parse act [e] w x₀ = .ok (some x)) : w ∈ e.lang := by
  rw [Ragel.parse] at h
  cases hexec : exec act (fun _ => false) [e] 0 w x₀ with
  | error err =>
      rw [hexec] at h
      cases h
  | ok r =>
      obtain ⟨s, p, y⟩ := r
      rw [hexec] at h
      cases s with
      | none => cases h
      | some s =>
          change (runEvents act ((pending s).map (p, ·)) y >>= _) = _ at h
          cases hrun : runEvents act ((pending s).map (p, ·)) y with
          | error err =>
              rw [hrun] at h
              cases h
          | ok z =>
              rw [hrun] at h
              cases hfinal : final s with
              | false =>
                  rw [hfinal] at h
                  cases h
              | true =>
                  obtain ⟨f, hf, hout⟩ := List.any_eq_true.mp hfinal
                  obtain ⟨g, hg, hw⟩ := mem_lang_of_exec hexec hf (Expr.nil_mem_lang.mpr hout)
                  rw [List.mem_singleton.mp hg, List.append_nil] at hw
                  exact hw

end Runs

end Sylar.Lib.Ragel

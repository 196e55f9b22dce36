import Sylar.Lib.Ragel

/-!
# What an expression says about the runs of its machine

Two properties of an expression that its transitions keep, so that they hold in
every state that a run goes through. One says with which bytes a run can be
complete, the other that an action never runs before another one has run.
-/

namespace Sylar.Lib.Ragel

variable {A : Type}

/-- The bytes of the first set are bytes of the second. -/
def ByteSet.within (k m : ByteSet) : Bool := k.mask &&& m.mask = k.mask

theorem ByteSet.mem_of_within {k m : ByteSet} {c : UInt8} (h : k.within m) (hc : k.mem c) :
    m.mem c := by
  have hmask : k.mask &&& m.mask = k.mask := of_decide_eq_true h
  rw [ByteSet.mem, ← hmask, Nat.testBit_and, Bool.and_eq_true] at hc
  exact hc.2

namespace Expr

/-- Every word of the expression is empty or ends with a byte of the set. -/
def endsIn (m : ByteSet) : Expr A → Bool
  | .eps => true
  | .set k => k.within m
  | .cat _ f => f.endsIn m && f.out.isNone
  | .alt e f => e.endsIn m && f.endsIn m
  | .star _ => false
  | .enter _ _ e | .finish _ _ e | .leave _ _ e => e.endsIn m
  | .enterPrio _ _ e | .finishPrio _ _ e | .allPrio _ _ e => e.endsIn m

theorem endsIn_seq {m : ByteSet} {e f : Expr A} (hf : f.endsIn m) (hout : f.out.isNone) :
    (seq e f).endsIn m ∧ (seq e f).out.isNone := by
  have hcat : (Expr.cat e f).endsIn m ∧ (Expr.cat e f).out.isNone := by
    rw [Option.isNone_iff_eq_none] at hout
    constructor
    · simp [endsIn, hf, hout]
    · simp [out, hout]
  cases e with
  | eps => exact ⟨hf, hout⟩
  | _ => exact hcat

/-- A transition that completes the expression is one on a byte of the set. -/
theorem delta_endsIn {m : ByteSet} (c : UInt8) {e : Expr A} (h : e.endsIn m) :
    ∀ t ∈ e.delta c, (t.next.out.isSome → m.mem c) ∧ t.next.endsIn m := by
  induction e with
  | eps => simp [delta]
  | set k =>
      intro t ht
      obtain ⟨hc, rfl⟩ := mem_delta_set ht
      exact ⟨fun _ => ByteSet.mem_of_within h hc, rfl⟩
  | cat e f ihe ihf =>
      replace h := Bool.and_eq_true_iff.mp h
      intro t ht
      obtain ⟨u, hu, rfl⟩ | ⟨r, he, u, hu, rfl⟩ := mem_delta_cat ht
      · obtain ⟨hends, hnone⟩ := endsIn_seq (e := u.next) h.1 h.2
        refine ⟨?_, hends⟩
        intro hsome
        rw [Option.isNone_iff_eq_none] at hnone
        simp [Trans.map, hnone] at hsome
      · exact ihf h.1 u hu
  | alt e f ihe ihf =>
      replace h := Bool.and_eq_true_iff.mp h
      intro t ht
      obtain ht | ht := List.mem_append.mp ht
      · exact ihe h.1 t ht
      · exact ihf h.2 t ht
  | star e ih => cases h
  | enter ord b e ih | leave ord b e ih | enterPrio key prio e ih | allPrio key prio e ih =>
      intro t ht
      obtain ⟨u, hu, rfl⟩ := List.mem_map.mp ht
      obtain ⟨hbyte, hends⟩ := ih h u hu
      refine ⟨?_, hends⟩
      intro hsome
      apply hbyte
      simpa [Trans.map, Trans.addActs, Trans.addPrios, out] using hsome
  | finish ord b e ih | finishPrio key prio e ih =>
      intro t ht
      obtain ⟨u, hu, rfl⟩ := List.mem_map.mp ht
      split
      · exact ih h u hu
      · exact ih h u hu

/-- The action `b` never runs before `a` has run, nor on the same byte. The action
`a` must run on the byte that leaves its expression, and `b` not inside it. -/
def guarded [DecidableEq A] (a b : A) : Expr A → Bool
  | .eps => true
  | .set _ => true
  | .cat e f => (e.guarded a b && f.guarded a b) || opens a b e f
  | .alt e f => e.guarded a b && f.guarded a b
  | .star e => e.guarded a b
  | .enter _ d e | .finish _ d e | .leave _ d e => d ≠ b && e.guarded a b
  | .enterPrio _ _ e | .finishPrio _ _ e | .allPrio _ _ e => e.guarded a b
where
  opens (a b : A) : Expr A → Expr A → Bool
    | .leave _ d n, .cat (.set _) _ => d = a && a ≠ b && !n.mentions b
    | _, _ => false

variable [DecidableEq A] {a b : A}

theorem opens_iff {e f : Expr A} :
    guarded.opens a b e f ↔
      ∃ ord n m v, e = .leave ord a n ∧ f = .cat (.set m) v ∧ a ≠ b ∧ n.mentions b = false := by
  constructor
  · intro h
    rw [guarded.opens.eq_def] at h
    split at h
    · simp only [Bool.and_eq_true, decide_eq_true_eq, Bool.not_eq_true'] at h
      obtain ⟨⟨rfl, hne⟩, hfree⟩ := h
      exact ⟨_, _, _, _, rfl, rfl, hne, hfree⟩
    · cases h
  · rintro ⟨ord, n, m, v, rfl, rfl, hne, hfree⟩
    simp [guarded.opens, hne, hfree]

theorem guarded_seq {e f : Expr A} (he : e.guarded a b) (hf : f.guarded a b) :
    (seq e f).guarded a b := by
  have hcat : (Expr.cat e f).guarded a b := by simp [guarded, he, hf]
  cases e with
  | eps => exact hf
  | _ => exact hcat

theorem out_guarded {e : Expr A} (h : e.guarded a b) :
    ∀ r, e.out = some r → ∀ x ∈ r.1, x.2 ≠ b := by
  induction e with
  | eps => simp [out]
  | set m => simp [out]
  | cat e f ihe ihf =>
      intro r hr x hx
      simp only [guarded, Bool.or_eq_true, Bool.and_eq_true] at h
      obtain ⟨p, q, he, hf, rfl⟩ := out_cat_some hr
      obtain ⟨hge, hgf⟩ | hopens := h
      · obtain hx | hx := List.mem_append.mp hx
        · exact ihe hge p he x hx
        · exact ihf hgf q hf x hx
      · obtain ⟨ord, n, m, v, -, rfl, -⟩ := opens_iff.mp hopens
        cases hf
  | alt e f ihe ihf =>
      intro r hr x hx
      replace h := Bool.and_eq_true_iff.mp h
      obtain ⟨p, q, he, hf, rfl⟩ | he | hf := out_alt_some hr
      · obtain hx | hx := List.mem_append.mp hx
        · exact ihe h.1 p he x hx
        · exact ihf h.2 q hf x hx
      · exact ihe h.1 r he x hx
      · exact ihf h.2 r hf x hx
  | star e ih =>
      intro r hr x hx
      obtain rfl | he := out_star_some hr
      · cases hx
      · exact ih h r he x hx
  | enter ord d e ih | leave ord d e ih =>
      intro r hr x hx
      simp only [guarded, Bool.and_eq_true, decide_eq_true_eq] at h
      obtain ⟨p, he, rfl⟩ := Option.map_eq_some_iff.mp hr
      obtain rfl | hx := List.mem_cons.mp hx
      · exact h.1
      · exact ih h.2 p he x hx
  | finish ord d e ih =>
      simp only [guarded, Bool.and_eq_true] at h
      exact ih h.2
  | enterPrio key prio e ih =>
      intro r hr x hx
      obtain ⟨p, he, rfl⟩ := Option.map_eq_some_iff.mp hr
      exact ih h p he x hx
  | finishPrio key prio e ih => exact ih h
  | allPrio key prio e ih => exact ih h

end Expr

namespace Trans

variable [DecidableEq A] {a b : A}

/-- A transition does not run `b`, and runs `a` or leads to an expression in which
`a` still comes first. -/
def Guards (a b : A) (t : Trans A) : Prop :=
  (∀ x ∈ t.acts, x.2 ≠ b) ∧ ((∃ x ∈ t.acts, x.2 = a) ∨ t.next.guarded a b)

theorem Guards.map {t : Trans A} (h : Guards a b t) {f : Expr A → Expr A}
    (hf : ∀ e, e.guarded a b → (f e).guarded a b) : Guards a b (t.map f) :=
  ⟨h.1, h.2.imp_right (hf _)⟩

theorem Guards.addActs {t : Trans A} (h : Guards a b t) {acts : List (Nat × A)}
    (hacts : ∀ x ∈ acts, x.2 ≠ b) : Guards a b (t.addActs acts) := by
  constructor
  · intro x hx
    obtain hx | hx := List.mem_append.mp hx
    · exact hacts x hx
    · exact h.1 x hx
  · obtain ⟨x, hx, hxa⟩ | hnext := h.2
    · exact Or.inl ⟨x, List.mem_append_right _ hx, hxa⟩
    · exact Or.inr hnext

end Trans

namespace Expr

variable [DecidableEq A] {a b : A}

/-- The transitions of an expression that ends with running `a`, before a byte of a set. -/
theorem delta_opens {e f : Expr A} {c : UInt8} (h : guarded.opens a b e f) :
    ∀ t ∈ (Expr.cat e f).delta c, t.Guards a b := by
  obtain ⟨ord, n, m, v, rfl, rfl, hne, hfree⟩ := opens_iff.mp h
  intro t ht
  obtain ht | ht := List.mem_append.mp ht
  · obtain ⟨u, hu, rfl⟩ := List.mem_map.mp ht
    obtain ⟨w, hw, rfl⟩ := List.mem_map.mp hu
    obtain ⟨hacts, hnext⟩ := delta_mentions c hfree w hw
    refine ⟨hacts, Or.inr ?_⟩
    have hstill : guarded.opens a b (.leave ord a w.next) (.cat (.set m) v) :=
      opens_iff.mpr ⟨ord, w.next, m, v, rfl, rfl, hne, hnext⟩
    simp [Trans.map, seq, guarded, hstill]
  · cases hout : n.out with
    | none => simp [out, hout] at ht
    | some r =>
        simp only [out, hout, Option.map_some] at ht
        obtain ⟨u, hu, rfl⟩ := List.mem_map.mp ht
        have hnone : u.acts = [] := by
          simp only [delta, out, List.append_nil] at hu
          obtain ⟨w, hw, rfl⟩ := List.mem_map.mp hu
          split at hw
          · obtain rfl := List.mem_singleton.mp hw
            rfl
          · cases hw
        refine ⟨?_, Or.inl ⟨(ord, a), List.mem_append_left _ List.mem_cons_self, rfl⟩⟩
        intro x hx
        simp only [Trans.addPrios, Trans.addActs, hnone, List.append_nil] at hx
        obtain rfl | hx := List.mem_cons.mp hx
        · exact hne
        · exact out_mentions hfree r hout x hx

theorem delta_guarded (c : UInt8) {e : Expr A} (h : e.guarded a b) :
    ∀ t ∈ e.delta c, t.Guards a b := by
  induction e with
  | eps => simp [delta]
  | set m =>
      intro t ht
      obtain ⟨-, rfl⟩ := mem_delta_set ht
      exact ⟨by simp, Or.inr rfl⟩
  | cat e f ihe ihf =>
      simp only [guarded, Bool.or_eq_true, Bool.and_eq_true] at h
      obtain ⟨hge, hgf⟩ | hopens := h
      · intro t ht
        obtain ⟨u, hu, rfl⟩ | ⟨r, he, u, hu, rfl⟩ := mem_delta_cat ht
        · exact (ihe hge u hu).map fun _ hnext => guarded_seq hnext hgf
        · exact (ihf hgf u hu).addActs (out_guarded hge r he)
      · exact delta_opens hopens
  | alt e f ihe ihf =>
      simp only [guarded, Bool.and_eq_true] at h
      intro t ht
      obtain ht | ht := List.mem_append.mp ht
      · exact ihe h.1 t ht
      · exact ihf h.2 t ht
  | star e ih =>
      intro t ht
      obtain ⟨u, hu, rfl⟩ := List.mem_map.mp ht
      exact (ih h u hu).map fun _ hnext => guarded_seq hnext h
  | enter ord d e ih =>
      simp only [guarded, Bool.and_eq_true, decide_eq_true_eq] at h
      intro t ht
      obtain ⟨u, hu, rfl⟩ := List.mem_map.mp ht
      exact (ih h.2 u hu).addActs (by simpa using h.1)
  | finish ord d e ih =>
      simp only [guarded, Bool.and_eq_true, decide_eq_true_eq] at h
      intro t ht
      obtain ⟨u, hu, rfl⟩ := List.mem_map.mp ht
      have hkeep : ∀ e : Expr A, e.guarded a b → (Expr.finish ord d e).guarded a b := by
        intro e he
        simp [guarded, h.1, he]
      split
      · exact ((ih h.2 u hu).addActs (by simpa using h.1)).map hkeep
      · exact (ih h.2 u hu).map hkeep
  | leave ord d e ih =>
      simp only [guarded, Bool.and_eq_true, decide_eq_true_eq] at h
      intro t ht
      obtain ⟨u, hu, rfl⟩ := List.mem_map.mp ht
      refine (ih h.2 u hu).map ?_
      intro e he
      simp [guarded, h.1, he]
  | enterPrio key prio e ih | allPrio key prio e ih =>
      intro t ht
      obtain ⟨u, hu, rfl⟩ := List.mem_map.mp ht
      exact ih h u hu
  | finishPrio key prio e ih =>
      intro t ht
      obtain ⟨u, hu, rfl⟩ := List.mem_map.mp ht
      split
      · exact ih h u hu
      · exact ih h u hu

end Expr

section Runs

variable [DecidableEq A] {a b : A} {s s' : State A} {c : UInt8}

theorem step_endsIn {m : ByteSet} {acts : List A} (h : ∀ e ∈ s, e.endsIn m)
    (hstep : step s c = some (acts, s')) :
    (∀ e ∈ s', e.endsIn m) ∧ (final s' → m.mem c) := by
  obtain ⟨ts, hts, -, rfl⟩ := exists_taken hstep
  have hnext : ∀ e ∈ (ts.map Trans.next).eraseDups, (e.out.isSome → m.mem c) ∧ e.endsIn m := by
    intro e he
    obtain ⟨t, ht, rfl⟩ := List.mem_map.mp (List.mem_eraseDups.mp he)
    obtain ⟨f, hf, htf⟩ := hts t ht
    exact Expr.delta_endsIn c (h f hf) t htf
  refine ⟨fun e he => (hnext e he).2, ?_⟩
  intro hfinal
  obtain ⟨e, he, hout⟩ := List.any_eq_true.mp hfinal
  exact (hnext e he).1 hout

theorem step_guarded {acts : List A} (h : ∀ e ∈ s, e.guarded a b)
    (hstep : step s c = some (acts, s')) :
    b ∉ acts ∧ (a ∈ acts ∨ ∀ e ∈ s', e.guarded a b) := by
  obtain ⟨ts, hts, rfl, rfl⟩ := exists_taken hstep
  have hall : ∀ t ∈ ts, t.Guards a b := by
    intro t ht
    obtain ⟨e, he, hte⟩ := hts t ht
    exact Expr.delta_guarded c (h e he) t hte
  constructor
  · rw [mem_actions]
    rintro ⟨t, ht, x, hx, hxb⟩
    exact (hall t ht).1 x hx hxb
  · by_cases ha : a ∈ actions ts
    · exact Or.inl ha
    · right
      intro e he
      obtain ⟨t, ht, rfl⟩ := List.mem_map.mp (List.mem_eraseDups.mp he)
      refine (hall t ht).2.resolve_left ?_
      rintro ⟨x, hx, hxa⟩
      exact ha (mem_actions.mpr ⟨t, ht, x, hx, hxa⟩)

variable (stop : A → Bool)

/-- A run of a closed machine breaks out on a byte that its words end with. -/
theorem scan_broke_byte {m : ByteSet} (hstop : ∀ b, stop b = true ↔ b = a) {p q : Nat}
    {bs : List UInt8} (hcloses : ∀ e ∈ s, e.Closes a) (hends : ∀ e ∈ s, e.endsIn m)
    (h : (scan stop s p bs).2 = .broke s' q) :
    ∃ us c vs, bs = us ++ c :: vs ∧ q = p + us.length + 1 ∧ m.mem c := by
  induction bs generalizing s p with
  | nil => cases h
  | cons d bs ih =>
      obtain ⟨-, hscan⟩ | ⟨acts, t, hstep, hbreak, hscan⟩ | ⟨acts, t, hstep, -, hscan⟩ :=
        scan_cons_cases stop s p d bs
      · rw [hscan] at h
        cases h
      · rw [hscan] at h
        cases h
        have hfinal := (untilStop_eq_final hstop hcloses hstep).symm.trans hbreak
        exact ⟨[], d, bs, rfl, rfl, (step_endsIn hends hstep).2 hfinal⟩
      · rw [hscan] at h
        obtain ⟨us, c, vs, rfl, rfl, hc⟩ :=
          ih (step_closes hcloses hstep).1 (step_endsIn hends hstep).1 h
        refine ⟨d :: us, c, vs, rfl, ?_, hc⟩
        rw [List.length_cons]
        omega

omit [DecidableEq A] in
/-- The actions that run on a byte are all of them unless one breaks out. -/
theorem untilStop_fst (acts : List A) :
    (∀ x ∈ (untilStop stop acts).1, x ∈ acts) ∧
      ((untilStop stop acts).2 = false → (untilStop stop acts).1 = acts) := by
  induction acts with
  | nil => simp [untilStop]
  | cons x acts ih =>
      rw [untilStop]
      split
      · simp
      · refine ⟨?_, fun h => congrArg (x :: ·) (ih.2 h)⟩
        intro y hy
        obtain rfl | hy := List.mem_cons.mp hy
        · exact List.mem_cons_self
        · exact List.mem_cons_of_mem _ (ih.1 y hy)

omit [DecidableEq A] in
/-- An element that is not in the first part stands behind the whole of it. -/
theorem exists_append_of_not_mem {x : Nat × A} {now rest before after : List (Nat × A)}
    (hx : x ∉ now) (h : now ++ rest = before ++ x :: after) :
    ∃ more, before = now ++ more ∧ rest = more ++ x :: after := by
  obtain ⟨more, hbefore, hrest⟩ | ⟨more, hnow, hrest⟩ := List.append_eq_append_iff.mp h
  · exact ⟨more, hbefore, hrest⟩
  · cases more with
    | nil => exact ⟨[], by simpa using hnow.symm, hrest.symm⟩
    | cons y more =>
        cases hrest
        rw [hnow] at hx
        exact absurd (List.mem_append_right _ List.mem_cons_self) hx

/-- In a run of a guarded machine `a` runs before `b` does. -/
theorem scan_guarded {p q : Nat} {bs : List UInt8} (h : ∀ e ∈ s, e.guarded a b)
    {before after : List (Nat × A)} (hrun : (scan stop s p bs).1 = before ++ (q, b) :: after) :
    ∃ r, (r, a) ∈ before := by
  induction bs generalizing s p before with
  | nil => exact absurd hrun (by simp [scan])
  | cons d bs ih =>
      have hnow : ∀ acts : List A, b ∉ acts →
          (q, b) ∉ (untilStop stop acts).1.map (p, ·) := by
        intro acts hb hmem
        obtain ⟨x, hx, heq⟩ := List.mem_map.mp hmem
        cases heq
        exact hb ((untilStop_fst stop acts).1 b hx)
      obtain ⟨-, hscan⟩ | ⟨acts, t, hstep, -, hscan⟩ | ⟨acts, t, hstep, hgo, hscan⟩ :=
        scan_cons_cases stop s p d bs
      · rw [hscan] at hrun
        exact absurd hrun (by simp)
      · rw [hscan] at hrun
        have hmem : (q, b) ∈ before ++ (q, b) :: after :=
          List.mem_append_right _ List.mem_cons_self
        rw [← hrun] at hmem
        exact absurd hmem (hnow acts (step_guarded h hstep).1)
      · rw [hscan] at hrun
        obtain ⟨hb, hnext⟩ := step_guarded h hstep
        obtain ⟨more, rfl, hrest⟩ := exists_append_of_not_mem (hnow acts hb) hrun
        obtain ha | hguard := hnext
        · refine ⟨p, List.mem_append_left _ ?_⟩
          rw [(untilStop_fst stop acts).2 hgo]
          exact List.mem_map_of_mem ha
        · obtain ⟨r, hr⟩ := ih hguard hrest
          exact ⟨r, List.mem_append_right _ hr⟩

end Runs

end Sylar.Lib.Ragel

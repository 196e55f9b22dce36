import Sylar.Lib.RagelRuns
import Mathlib.Computability.Language

/-!
# The words of an expression

The transitions of an expression and the places at which it can end are those of
the language that it denotes, whatever actions and priorities it carries. Two
properties that transitions keep describe the parts of a machine in which
nothing happens: expressions without priorities, and expressions that read only
bytes of a set and carry no action either.
-/

namespace Sylar.Lib.Ragel

variable {A : Type}

theorem ByteSet.mem_union {m n : ByteSet} {c : UInt8} :
    (m.union n).mem c = true ↔ m.mem c = true ∨ n.mem c = true := by
  rw [ByteSet.mem, ByteSet.union, Nat.testBit_or, Bool.or_eq_true]
  rfl

theorem ByteSet.mem_byte {k : Nat} {c : UInt8} : (ByteSet.byte k).mem c = true ↔ c.toNat = k := by
  rw [ByteSet.mem, ByteSet.byte, Nat.shiftLeft_eq, Nat.one_mul, Nat.testBit_two_pow,
    decide_eq_true_iff]
  exact eq_comm

/-- No byte is in both sets. -/
def ByteSet.apart (m n : ByteSet) : Bool := m.mask &&& n.mask = 0

theorem ByteSet.not_mem_of_apart {m n : ByteSet} {c : UInt8} (h : m.apart n)
    (hc : m.mem c = true) : n.mem c = false := by
  have hmask : m.mask &&& n.mask = 0 := of_decide_eq_true h
  have hbit : (m.mask &&& n.mask).testBit c.toNat = false := by rw [hmask, Nat.zero_testBit]
  rw [Nat.testBit_and] at hbit
  rw [ByteSet.mem] at hc ⊢
  rwa [hc, Bool.true_and] at hbit

namespace Expr

/-- The words of an expression. -/
def lang : Expr A → Language UInt8
  | .eps => 1
  | .set m => {w | ∃ c, m.mem c = true ∧ w = [c]}
  | .cat e f => e.lang * f.lang
  | .alt e f => e.lang + f.lang
  | .star e => KStar.kstar e.lang
  | .enter _ _ e | .finish _ _ e | .leave _ _ e => e.lang
  | .enterPrio _ _ e | .finishPrio _ _ e | .allPrio _ _ e => e.lang

theorem mem_lang_set {m : ByteSet} {w : List UInt8} :
    w ∈ (Expr.set m : Expr A).lang ↔ ∃ c, m.mem c = true ∧ w = [c] := Iff.rfl

theorem mem_lang_alt {e f : Expr A} {w : List UInt8} :
    w ∈ (Expr.alt e f).lang ↔ w ∈ e.lang ∨ w ∈ f.lang := Iff.rfl

theorem mem_lang_eps {w : List UInt8} : w ∈ (Expr.eps : Expr A).lang ↔ w = [] := Iff.rfl

theorem mem_lang_cat {e f : Expr A} {w : List UInt8} :
    w ∈ (Expr.cat e f).lang ↔ ∃ u ∈ e.lang, ∃ v ∈ f.lang, u ++ v = w := Language.mem_mul

theorem append_mem_lang {e f : Expr A} {u v : List UInt8} (hu : u ∈ e.lang) (hv : v ∈ f.lang) :
    u ++ v ∈ (Expr.cat e f).lang := mem_lang_cat.mpr ⟨u, hu, v, hv, rfl⟩

/-- A literal string is its only word. -/
theorem mem_lang_str {s : String} (h : s.toList.all (·.toNat < 256) = true) {w : List UInt8} :
    w ∈ (str s : Expr A).lang ↔ w = s.toList.map fun c => .ofNat c.toNat := by
  have hseq : ∀ e f : Expr A, (str.seq' e f).lang = e.lang * f.lang := by
    intro e f
    cases f with
    | eps => exact (mul_one e.lang).symm
    | _ => rfl
  rw [str]
  generalize s.toList = l at h ⊢
  induction l generalizing w with
  | nil => exact mem_lang_eps
  | cons c l ih =>
      obtain ⟨hc, hl⟩ := Bool.and_eq_true_iff.mp h
      rw [List.foldr_cons, hseq, Language.mem_mul, List.map_cons]
      constructor
      · rintro ⟨u, ⟨d, hd, rfl⟩, v, hv, rfl⟩
        rw [(ih hl).mp hv, ← ByteSet.mem_byte.mp hd, UInt8.ofNat_toNat]
        rfl
      · rintro rfl
        refine ⟨_, ⟨_, ?_, rfl⟩, _, (ih hl).mpr rfl, rfl⟩
        exact ByteSet.mem_byte.mpr (UInt8.toNat_ofNat_of_lt' (of_decide_eq_true hc))

/-- An optional part behind a delimiter. -/
theorem mem_lang_opt_cat {d e : Expr A} {b : UInt8} (hd : ∀ {u}, u ∈ d.lang ↔ u = [b])
    {w : List UInt8} : w ∈ (opt (.cat d e)).lang ↔
      ∃ o : Option (List UInt8), (∀ t ∈ o, t ∈ e.lang) ∧ o.elim [] (b :: ·) = w := by
  rw [opt, mem_lang_alt, mem_lang_cat, mem_lang_eps]
  constructor
  · rintro (⟨u, hu, t, ht, rfl⟩ | rfl)
    · rw [hd.mp hu]
      exact ⟨some t, by rintro _ ⟨⟩; exact ht, rfl⟩
    · exact ⟨none, by simp, rfl⟩
  · rintro ⟨o, ho, rfl⟩
    cases o with
    | none => exact .inr rfl
    | some t => exact .inl ⟨[b], hd.mpr rfl, t, ho t rfl, rfl⟩

theorem lang_seq (e f : Expr A) : (seq e f).lang = e.lang * f.lang := by
  cases e with
  | eps => exact (one_mul f.lang).symm
  | _ => rfl

/-- An expression can end at once exactly if the empty word is one of its words. -/
theorem nil_mem_lang {e : Expr A} : [] ∈ e.lang ↔ e.out.isSome = true := by
  induction e with
  | eps => simp [mem_lang_eps, out]
  | set m => simp [mem_lang_set, out]
  | cat e f ihe ihf =>
      have hnil : [] ∈ (Expr.cat e f).lang ↔ [] ∈ e.lang ∧ [] ∈ f.lang := by
        rw [mem_lang_cat]
        constructor
        · rintro ⟨u, hu, v, hv, huv⟩
          obtain ⟨rfl, rfl⟩ := List.append_eq_nil_iff.mp huv
          exact ⟨hu, hv⟩
        · rintro ⟨hu, hv⟩
          exact ⟨[], hu, [], hv, rfl⟩
      rw [hnil, ihe, ihf, out]
      cases e.out <;> cases f.out <;> simp
  | alt e f ihe ihf =>
      rw [mem_lang_alt, ihe, ihf, out]
      cases e.out <;> cases f.out <;> simp
  | star e ih => exact iff_of_true (Language.nil_mem_kstar e.lang) rfl
  | enter ord a e ih | leave ord a e ih | enterPrio key prio e ih =>
      rw [out, Option.isSome_map]
      exact ih
  | finish ord a e ih | finishPrio key prio e ih | allPrio key prio e ih => exact ih

/-- A word of a product starts in the first factor, or in the second if the first can be
skipped. -/
theorem cons_mem_mul {l k : Language UInt8} {c : UInt8} {w : List UInt8} :
    c :: w ∈ l * k ↔ (∃ u v, c :: u ∈ l ∧ v ∈ k ∧ u ++ v = w) ∨ [] ∈ l ∧ c :: w ∈ k := by
  rw [Language.mem_mul]
  constructor
  · rintro ⟨u, hu, v, hv, huv⟩
    cases u with
    | nil => exact .inr ⟨hu, huv ▸ hv⟩
    | cons d u =>
        obtain ⟨rfl, rfl⟩ := List.cons.inj huv
        exact .inl ⟨u, v, hu, hv, rfl⟩
  · rintro (⟨u, v, hu, hv, rfl⟩ | ⟨hnil, hw⟩)
    · exact ⟨c :: u, hu, v, hv, rfl⟩
    · exact ⟨[], hnil, c :: w, hw, rfl⟩

theorem cons_mem_kstar {l : Language UInt8} {c : UInt8} {w : List UInt8} :
    c :: w ∈ KStar.kstar l ↔ ∃ u v, c :: u ∈ l ∧ v ∈ KStar.kstar l ∧ u ++ v = w := by
  constructor
  · intro h
    obtain ⟨ws, hws, hall⟩ := Language.mem_kstar_iff_exists_nonempty.mp h
    cases ws with
    | nil => cases hws
    | cons u ws =>
        obtain ⟨hu, hne⟩ := hall u List.mem_cons_self
        obtain ⟨d, u, rfl⟩ := List.exists_cons_of_ne_nil hne
        obtain ⟨rfl, rfl⟩ := List.cons.inj hws
        refine ⟨u, ws.flatten, hu, ?_, rfl⟩
        exact Language.join_mem_kstar fun v hv => (hall v (List.mem_cons_of_mem _ hv)).1
  · rintro ⟨u, v, hu, hv, rfl⟩
    obtain ⟨ws, rfl, hall⟩ := hv
    refine ⟨(c :: u) :: ws, rfl, ?_⟩
    exact List.forall_mem_cons.mpr ⟨hu, hall⟩

/-- The transitions of an expression lead to what may follow the byte. -/
theorem cons_mem_lang {e : Expr A} {c : UInt8} {w : List UInt8} :
    c :: w ∈ e.lang ↔ ∃ t ∈ e.delta c, w ∈ t.next.lang := by
  induction e generalizing w with
  | eps => simp [mem_lang_eps, delta]
  | set m =>
      rw [mem_lang_set, delta]
      split
      · next hc =>
          simp only [List.mem_singleton, exists_eq_left, mem_lang_eps]
          constructor
          · rintro ⟨d, -, hd⟩
            exact (List.cons.inj hd).2
          · rintro rfl
            exact ⟨c, hc, rfl⟩
      · next hc =>
          simp only [List.not_mem_nil, false_and, exists_false, iff_false]
          rintro ⟨d, hd, heq⟩
          exact hc ((List.cons.inj heq).1 ▸ hd)
  | cat e f ihe ihf =>
      have hleft : (∃ t ∈ (e.delta c).map (Trans.map (seq · f)), w ∈ t.next.lang) ↔
          ∃ u v, c :: u ∈ e.lang ∧ v ∈ f.lang ∧ u ++ v = w := by
        constructor
        · rintro ⟨t, ht, hw⟩
          obtain ⟨t', ht', rfl⟩ := List.mem_map.mp ht
          simp only [Trans.map, lang_seq] at hw
          obtain ⟨u, hu, v, hv, rfl⟩ := Language.mem_mul.mp hw
          exact ⟨u, v, ihe.mpr ⟨t', ht', hu⟩, hv, rfl⟩
        · rintro ⟨u, v, hu, hv, rfl⟩
          obtain ⟨t, ht, hu⟩ := ihe.mp hu
          refine ⟨_, List.mem_map_of_mem ht, ?_⟩
          simp only [Trans.map, lang_seq]
          exact Language.mem_mul.mpr ⟨u, hu, v, hv, rfl⟩
      rw [lang, cons_mem_mul, ← hleft, nil_mem_lang, ihf, delta]
      simp only [List.mem_append, or_and_right, exists_or]
      refine or_congr Iff.rfl ?_
      cases e.out with
      | none => simp
      | some r => simp [Trans.addActs, Trans.addPrios]
  | alt e f ihe ihf =>
      rw [mem_lang_alt, ihe, ihf, delta]
      simp only [List.mem_append, or_and_right, exists_or]
  | star e ih =>
      rw [lang, cons_mem_kstar, delta]
      constructor
      · rintro ⟨u, v, hu, hv, rfl⟩
        obtain ⟨t, ht, hu⟩ := ih.mp hu
        refine ⟨_, List.mem_map_of_mem ht, ?_⟩
        simp only [Trans.map, lang_seq]
        exact Language.mem_mul.mpr ⟨u, hu, v, hv, rfl⟩
      · rintro ⟨t, ht, hw⟩
        obtain ⟨t', ht', rfl⟩ := List.mem_map.mp ht
        simp only [Trans.map, lang_seq] at hw
        obtain ⟨u, hu, v, hv, rfl⟩ := Language.mem_mul.mp hw
        exact ⟨u, v, ih.mpr ⟨t', ht', hu⟩, hv, rfl⟩
  | enter ord a e ih | leave ord a e ih | enterPrio key prio e ih | allPrio key prio e ih =>
      simp only [lang, delta, ih, List.mem_map, exists_exists_and_eq_and]
      rfl
  | finish ord a e ih | finishPrio key prio e ih =>
      simp only [lang, delta, ih, List.mem_map, exists_exists_and_eq_and]
      refine exists_congr fun t => and_congr_right fun _ => ?_
      split <;> rfl

/-- The word is one of the expression, read byte by byte. -/
def accepts : Expr A → List UInt8 → Bool
  | e, [] => e.out.isSome
  | e, c :: w => (e.delta c).any fun t => t.next.accepts w

theorem accepts_iff {e : Expr A} {w : List UInt8} : e.accepts w = true ↔ w ∈ e.lang := by
  induction w generalizing e with
  | nil => exact nil_mem_lang.symm
  | cons c w ih =>
      rw [accepts, List.any_eq_true, cons_mem_lang]
      exact exists_congr fun t => and_congr_right fun _ => ih

instance (e : Expr A) (w : List UInt8) : Decidable (w ∈ e.lang) := decidable_of_iff _ accepts_iff

theorem mem_delta_byte {k : Nat} {c : UInt8} {t : Trans A} :
    t ∈ (byte k : Expr A).delta c ↔ c.toNat = k ∧ t = ⟨[], [], .eps⟩ := by
  rw [← ByteSet.mem_byte]
  by_cases hc : (ByteSet.byte k).mem c = true
  · simp [delta, byte, hc]
  · simp [delta, byte, hc]

/-- The transitions of an expression that starts with a fixed byte. -/
theorem mem_delta_byte_cat {k : Nat} {e : Expr A} {c : UInt8} {t : Trans A} :
    t ∈ (Expr.cat (byte k) e).delta c ↔ c.toNat = k ∧ t = ⟨[], [], e⟩ := by
  rw [← ByteSet.mem_byte]
  by_cases hc : (ByteSet.byte k).mem c = true
  · simp [delta, byte, out, hc, Trans.map, seq]
  · simp [delta, byte, out, hc]

theorem delta_opt (e : Expr A) (c : UInt8) : (opt e).delta c = e.delta c := List.append_nil _

/-! ### Expressions without priorities -/

def unprioritized : Expr A → Bool
  | .eps | .set _ => true
  | .cat e f | .alt e f => e.unprioritized && f.unprioritized
  | .star e | .enter _ _ e | .finish _ _ e | .leave _ _ e => e.unprioritized
  | .enterPrio .. | .finishPrio .. | .allPrio .. => false

theorem out_unprioritized {e : Expr A} (h : e.unprioritized) :
    ∀ r, e.out = some r → r.2 = [] := by
  induction e with
  | eps => simp [out]
  | set m => simp [out]
  | cat e f ihe ihf =>
      replace h := Bool.and_eq_true_iff.mp h
      intro r hr
      obtain ⟨p, q, he, hf, rfl⟩ := out_cat_some hr
      exact List.append_eq_nil_iff.mpr ⟨ihe h.1 p he, ihf h.2 q hf⟩
  | alt e f ihe ihf =>
      replace h := Bool.and_eq_true_iff.mp h
      intro r hr
      obtain ⟨p, q, he, hf, rfl⟩ | he | hf := out_alt_some hr
      · exact List.append_eq_nil_iff.mpr ⟨ihe h.1 p he, ihf h.2 q hf⟩
      · exact ihe h.1 r he
      · exact ihf h.2 r hf
  | star e ih =>
      intro r hr
      obtain rfl | he := out_star_some hr
      · rfl
      · exact ih h r he
  | enter ord a e ih | leave ord a e ih =>
      intro r hr
      obtain ⟨p, he, rfl⟩ := Option.map_eq_some_iff.mp hr
      exact ih h p he
  | finish ord a e ih => exact ih h
  | enterPrio key prio e ih | finishPrio key prio e ih | allPrio key prio e ih => cases h

theorem unprioritized_seq {e f : Expr A} (he : e.unprioritized) (hf : f.unprioritized) :
    (seq e f).unprioritized := by
  have hcat : (Expr.cat e f).unprioritized := Bool.and_eq_true_iff.mpr ⟨he, hf⟩
  cases e with
  | eps => exact hf
  | _ => exact hcat

theorem delta_unprioritized {e : Expr A} (h : e.unprioritized) (c : UInt8) :
    ∀ t ∈ e.delta c, t.prios = [] ∧ t.next.unprioritized := by
  induction e with
  | eps => simp [delta]
  | set m =>
      intro t ht
      obtain ⟨-, rfl⟩ := mem_delta_set ht
      exact ⟨rfl, rfl⟩
  | cat e f ihe ihf =>
      replace h := Bool.and_eq_true_iff.mp h
      intro t ht
      obtain ⟨u, hu, rfl⟩ | ⟨r, he, u, hu, rfl⟩ := mem_delta_cat ht
      · obtain ⟨hprios, hnext⟩ := ihe h.1 u hu
        exact ⟨hprios, unprioritized_seq hnext h.2⟩
      · obtain ⟨hprios, hnext⟩ := ihf h.2 u hu
        exact ⟨List.append_eq_nil_iff.mpr ⟨out_unprioritized h.1 r he, hprios⟩, hnext⟩
  | alt e f ihe ihf =>
      replace h := Bool.and_eq_true_iff.mp h
      intro t ht
      obtain ht | ht := List.mem_append.mp ht
      · exact ihe h.1 t ht
      · exact ihf h.2 t ht
  | star e ih =>
      intro t ht
      obtain ⟨u, hu, rfl⟩ := List.mem_map.mp ht
      obtain ⟨hprios, hnext⟩ := ih h u hu
      exact ⟨hprios, unprioritized_seq hnext h⟩
  | enter ord a e ih | leave ord a e ih =>
      intro t ht
      obtain ⟨u, hu, rfl⟩ := List.mem_map.mp ht
      exact ih h u hu
  | finish ord a e ih =>
      intro t ht
      obtain ⟨u, hu, rfl⟩ := List.mem_map.mp ht
      split
      · exact ih h u hu
      · exact ih h u hu
  | enterPrio key prio e ih | finishPrio key prio e ih | allPrio key prio e ih => cases h

/-! ### Expressions in which nothing happens -/

/-- The expression reads only bytes of the set, and carries no actions and no priorities. -/
def silent (m : ByteSet) : Expr A → Bool
  | .eps => true
  | .set k => k.within m
  | .cat e f | .alt e f => e.silent m && f.silent m
  | .star e => e.silent m
  | .enter .. | .finish .. | .leave .. => false
  | .enterPrio .. | .finishPrio .. | .allPrio .. => false

variable {m : ByteSet}

theorem out_silent {e : Expr A} (h : e.silent m) : ∀ r, e.out = some r → r = ([], []) := by
  induction e with
  | eps => simp [out]
  | set k => simp [out]
  | cat e f ihe ihf =>
      replace h := Bool.and_eq_true_iff.mp h
      intro r hr
      obtain ⟨p, q, he, hf, rfl⟩ := out_cat_some hr
      rw [ihe h.1 p he, ihf h.2 q hf]
      rfl
  | alt e f ihe ihf =>
      replace h := Bool.and_eq_true_iff.mp h
      intro r hr
      obtain ⟨p, q, he, hf, rfl⟩ | he | hf := out_alt_some hr
      · rw [ihe h.1 p he, ihf h.2 q hf]
        rfl
      · exact ihe h.1 r he
      · exact ihf h.2 r hf
  | star e ih =>
      intro r hr
      obtain rfl | he := out_star_some hr
      · rfl
      · exact ih h r he
  | enter | finish | leave | enterPrio | finishPrio | allPrio => cases h

theorem silent_seq {e f : Expr A} (he : e.silent m) (hf : f.silent m) : (seq e f).silent m := by
  have hcat : (Expr.cat e f).silent m := Bool.and_eq_true_iff.mpr ⟨he, hf⟩
  cases e with
  | eps => exact hf
  | _ => exact hcat

theorem delta_silent {e : Expr A} (h : e.silent m) (c : UInt8) :
    ∀ t ∈ e.delta c, m.mem c = true ∧ t.acts = [] ∧ t.next.silent m := by
  induction e with
  | eps => simp [delta]
  | set k =>
      intro t ht
      obtain ⟨hc, rfl⟩ := mem_delta_set ht
      exact ⟨ByteSet.mem_of_within h hc, rfl, rfl⟩
  | cat e f ihe ihf =>
      replace h := Bool.and_eq_true_iff.mp h
      intro t ht
      obtain ⟨u, hu, rfl⟩ | ⟨r, he, u, hu, rfl⟩ := mem_delta_cat ht
      · obtain ⟨hc, hacts, hnext⟩ := ihe h.1 u hu
        exact ⟨hc, hacts, silent_seq hnext h.2⟩
      · obtain ⟨hc, hacts, hnext⟩ := ihf h.2 u hu
        cases out_silent h.1 r he
        exact ⟨hc, hacts, hnext⟩
  | alt e f ihe ihf =>
      replace h := Bool.and_eq_true_iff.mp h
      intro t ht
      obtain ht | ht := List.mem_append.mp ht
      · exact ihe h.1 t ht
      · exact ihf h.2 t ht
  | star e ih =>
      intro t ht
      obtain ⟨u, hu, rfl⟩ := List.mem_map.mp ht
      obtain ⟨hc, hacts, hnext⟩ := ih h u hu
      exact ⟨hc, hacts, silent_seq hnext h⟩
  | enter | finish | leave | enterPrio | finishPrio | allPrio => cases h

/-- The words of such an expression are made of the bytes of the set. -/
theorem mem_of_silent {e : Expr A} (h : e.silent m) {w : List UInt8} (hw : w ∈ e.lang) :
    ∀ c ∈ w, m.mem c = true := by
  induction w generalizing e with
  | nil => simp
  | cons c w ih =>
      obtain ⟨t, ht, hw⟩ := cons_mem_lang.mp hw
      obtain ⟨hc, -, hnext⟩ := delta_silent h c t ht
      exact List.forall_mem_cons.mpr ⟨hc, ih hnext hw⟩

/-- Bytes that an expression may start with. -/
def firsts : Expr A → ByteSet
  | .eps => .none
  | .set m => m
  | .cat e f => if e.out.isSome then e.firsts.union f.firsts else e.firsts
  | .alt e f => e.firsts.union f.firsts
  | .star e | .enter _ _ e | .finish _ _ e | .leave _ _ e => e.firsts
  | .enterPrio _ _ e | .finishPrio _ _ e | .allPrio _ _ e => e.firsts

theorem mem_firsts {e : Expr A} {c : UInt8} {t : Trans A} (ht : t ∈ e.delta c) :
    e.firsts.mem c = true := by
  induction e generalizing t with
  | eps => simp [delta] at ht
  | set m => exact (mem_delta_set ht).1
  | cat e f ihe ihf =>
      rw [firsts]
      obtain ⟨u, hu, rfl⟩ | ⟨r, he, u, hu, rfl⟩ := mem_delta_cat ht
      · split
        · exact ByteSet.mem_union.mpr (.inl (ihe hu))
        · exact ihe hu
      · rw [he]
        exact ByteSet.mem_union.mpr (.inr (ihf hu))
  | alt e f ihe ihf =>
      obtain ht | ht := List.mem_append.mp ht
      · exact ByteSet.mem_union.mpr (.inl (ihe ht))
      · exact ByteSet.mem_union.mpr (.inr (ihf ht))
  | star e ih | enter ord a e ih | finish ord a e ih | leave ord a e ih =>
      obtain ⟨u, hu, rfl⟩ := List.mem_map.mp ht
      exact ih hu
  | enterPrio key prio e ih | finishPrio key prio e ih | allPrio key prio e ih =>
      obtain ⟨u, hu, rfl⟩ := List.mem_map.mp ht
      exact ih hu

theorem delta_of_not_firsts {e : Expr A} {c : UInt8} (h : e.firsts.mem c = false) :
    e.delta c = [] := by
  apply List.eq_nil_iff_forall_not_mem.mpr
  intro t ht
  rw [mem_firsts ht] at h
  cases h

end Expr

/-! ### The order of the actions -/

section Order

variable [DecidableEq A]

/-- Actions in the order of their places, each once. -/
def ordered (l : List (Nat × A)) : List A := ((l.foldr insertAct []).map Prod.snd).eraseDups

theorem actions_eq_ordered (ts : List (Trans A)) : actions ts = ordered (ts.flatMap Trans.acts) :=
  rfl

/-- No place has two actions. -/
def Placed (l : List (Nat × A)) : Prop := ∀ x ∈ l, ∀ y ∈ l, x.1 = y.1 → x = y

instance (l : List (Nat × A)) : Decidable (Placed l) :=
  inferInstanceAs (Decidable (∀ x ∈ l, ∀ y ∈ l, x.1 = y.1 → x = y))

omit [DecidableEq A] in
theorem pairwise_insertAct {l : List (Nat × A)} (h : l.Pairwise fun x y => x.1 ≤ y.1)
    (z : Nat × A) : (insertAct z l).Pairwise fun x y => x.1 ≤ y.1 := by
  induction l with
  | nil => exact List.pairwise_singleton _ _
  | cons y l ih =>
      obtain ⟨hy, hl⟩ := List.pairwise_cons.mp h
      rw [insertAct]
      split
      · next hle =>
          refine List.pairwise_cons.mpr ⟨?_, h⟩
          exact List.forall_mem_cons.mpr ⟨hle, fun x hx => Nat.le_trans hle (hy x hx)⟩
      · next hlt =>
          refine List.pairwise_cons.mpr ⟨fun x hx => ?_, ih hl⟩
          obtain rfl | hx := mem_insertAct.mp hx
          · exact Nat.le_of_lt (Nat.lt_of_not_le hlt)
          · exact hy x hx

omit [DecidableEq A] in
theorem pairwise_foldr_insertAct (l : List (Nat × A)) :
    (l.foldr insertAct []).Pairwise fun x y => x.1 ≤ y.1 := by
  induction l with
  | nil => exact .nil
  | cons y l ih => exact pairwise_insertAct ih y

theorem eraseDups_map_snd (x : Nat × A) (l : List (Nat × A)) :
    ((x :: l).map Prod.snd).eraseDups =
      x.2 :: ((l.filter fun y => !y.2 == x.2).map Prod.snd).eraseDups := by
  rw [List.map_cons, List.eraseDups_cons, List.filter_map]
  rfl

/-- Two sorted lists of the same actions are the same but for repetitions. -/
theorem eraseDups_congr (n : Nat) : ∀ l k : List (Nat × A), l.length ≤ n →
    (∀ x, x ∈ l ↔ x ∈ k) → Placed l → (l.Pairwise fun x y => x.1 ≤ y.1) →
    (k.Pairwise fun x y => x.1 ≤ y.1) →
    (l.map Prod.snd).eraseDups = (k.map Prod.snd).eraseDups := by
  induction n with
  | zero =>
      intro l k hn hmem _ _ _
      obtain rfl := List.length_eq_zero_iff.mp (Nat.le_zero.mp hn)
      have hk : k = [] := by
        apply List.eq_nil_iff_forall_not_mem.mpr
        intro x hx
        simpa using (hmem x).mpr hx
      rw [hk]
  | succ n ih =>
      intro l k hn hmem hplaced hl hk
      cases l with
      | nil =>
          have hk : k = [] :=
            List.eq_nil_iff_forall_not_mem.mpr fun x hx => by simpa using (hmem x).mpr hx
          rw [hk]
      | cons x l =>
          cases k with
          | nil => simpa using (hmem x).mp List.mem_cons_self
          | cons y k =>
              obtain ⟨hx, hl'⟩ := List.pairwise_cons.mp hl
              obtain ⟨hy, hk'⟩ := List.pairwise_cons.mp hk
              -- Both start with the action at the lowest place.
              have hxy : x.1 ≤ y.1 := by
                obtain heq | hmem' := List.mem_cons.mp ((hmem y).mpr List.mem_cons_self)
                · exact Nat.le_of_eq (congrArg Prod.fst heq.symm)
                · exact hx y hmem'
              have hyx : y.1 ≤ x.1 := by
                obtain heq | hmem' := List.mem_cons.mp ((hmem x).mp List.mem_cons_self)
                · exact Nat.le_of_eq (congrArg Prod.fst heq.symm)
                · exact hy x hmem'
              obtain rfl : x = y := hplaced x List.mem_cons_self y
                ((hmem y).mpr List.mem_cons_self) (Nat.le_antisymm hxy hyx)
              rw [eraseDups_map_snd, eraseDups_map_snd]
              congr 1
              apply ih
              · refine Nat.le_trans (List.length_filter_le _ _) ?_
                exact Nat.le_of_succ_le_succ hn
              · intro z
                simp only [List.mem_filter, Bool.not_eq_true', beq_eq_false_iff_ne]
                refine and_congr_left fun hne => ?_
                have hzx : z ≠ x := fun h => hne (congrArg Prod.snd h)
                simpa [hzx] using hmem z
              · intro z hz w hw
                exact hplaced z (List.mem_cons_of_mem x (List.mem_of_mem_filter hz)) w
                  (List.mem_cons_of_mem x (List.mem_of_mem_filter hw))
              · exact hl'.filter _
              · exact hk'.filter _

/-- The order of the actions depends on the set of them alone. -/
theorem ordered_congr {l k : List (Nat × A)} (hmem : ∀ x, x ∈ l ↔ x ∈ k) (hk : Placed k) :
    ordered l = ordered k := by
  apply eraseDups_congr _ _ _ (Nat.le_refl _)
  · intro x
    rw [mem_foldr_insertAct, mem_foldr_insertAct, hmem]
  · intro x hx y hy
    rw [mem_foldr_insertAct, hmem] at hx hy
    exact hk x hx y hy
  · exact pairwise_foldr_insertAct l
  · exact pairwise_foldr_insertAct k

end Order

end Sylar.Lib.Ragel

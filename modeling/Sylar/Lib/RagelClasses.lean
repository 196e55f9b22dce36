import Sylar.Lib.RagelRuns
import Sylar.Lib.RagelWords

/-!
# Runs of a machine over known texts

A step depends on its byte only through the sets that the byte is held against. A class of
bytes that each of these sets contains or avoids as a whole is left by one step for all of its
bytes, so that the step on one of them says where the machine goes on the others.

A run that ends in a state and neither fails nor breaks out is continued by a run from that state.
-/

namespace Sylar.Lib.Ragel

variable {A : Type}

theorem ByteSet.mem_diff {m n : ByteSet} {c : UInt8} :
    (m.diff n).mem c = true ↔ m.mem c = true ∧ n.mem c = false := by
  simp only [ByteSet.mem, ByteSet.diff, Nat.testBit_xor, Nat.testBit_and]
  cases m.mask.testBit c.toNat <;> cases n.mask.testBit c.toNat <;> decide

namespace Expr

/-- The next step does not tell the bytes of the class from one another. -/
def uniform (k : ByteSet) : Expr A → Bool
  | .eps => true
  | .set m => k.within m || k.apart m
  | .cat e f => e.uniform k && (e.out.isNone || f.uniform k)
  | .alt e f => e.uniform k && f.uniform k
  | .star e => e.uniform k
  | .enter _ _ e | .finish _ _ e | .leave _ _ e => e.uniform k
  | .enterPrio _ _ e | .finishPrio _ _ e | .allPrio _ _ e => e.uniform k

/-- All bytes of the class have the same transitions. -/
theorem delta_eq_of_uniform {k : ByteSet} {e : Expr A} (h : e.uniform k) {b c : UInt8}
    (hb : k.mem b) (hc : k.mem c) : e.delta b = e.delta c := by
  induction e with
  | eps => rfl
  | set m =>
      obtain hin | hout := Bool.or_eq_true_iff.mp h
      · simp only [delta, ByteSet.mem_of_within hin hb, ByteSet.mem_of_within hin hc]
      · simp only [delta, ByteSet.not_mem_of_apart hout hb, ByteSet.not_mem_of_apart hout hc]
  | cat e f ihe ihf =>
      obtain ⟨he, hf⟩ := Bool.and_eq_true_iff.mp h
      rw [delta, delta, ihe he]
      congr 1
      cases hout : e.out with
      | none => rfl
      | some r =>
          have hf : f.uniform k := by simpa [hout] using hf
          simp only [ihf hf]
  | alt e f ihe ihf =>
      obtain ⟨he, hf⟩ := Bool.and_eq_true_iff.mp h
      rw [delta, delta, ihe he, ihf hf]
  | star e ih | enter ord a e ih | finish ord a e ih | leave ord a e ih
  | enterPrio key prio e ih | finishPrio key prio e ih | allPrio key prio e ih =>
      rw [delta, delta, ih h]

end Expr

variable [DecidableEq A]

/-- The state after some bytes; the empty one where a byte has no transition. -/
def stateThrough (s : State A) (w : List UInt8) : State A :=
  w.foldl (fun s b => ((step s b).map Prod.snd).getD []) s

/-- All bytes of the class are left with the same actions, as one of them shows. -/
def exits (s : State A) (k : ByteSet) (b : UInt8) (acts : List A) : Bool :=
  k.mem b && s.all (Expr.uniform k) && (step s b).map Prod.fst = some acts

theorem step_of_exits {s : State A} {k : ByteSet} {b : UInt8} {acts : List A}
    (h : exits s k b acts) {c : UInt8} (hc : k.mem c) :
    step s c = some (acts, stateThrough s [b]) := by
  simp only [exits, Bool.and_eq_true, decide_eq_true_eq] at h
  obtain ⟨⟨hb, huniform⟩, hstep⟩ := h
  have hdelta : s.flatMap (Expr.delta c) = s.flatMap (Expr.delta b) := by
    apply List.flatMap_congr
    intro e he
    exact Expr.delta_eq_of_uniform (List.all_eq_true.mp huniform e he) hc hb
  have hsame : step s c = step s b := by rw [step, step, taken, taken, hdelta]
  obtain ⟨r, hr, rfl⟩ := Option.map_eq_some_iff.mp hstep
  have hstate : stateThrough s [b] = r.2 := by
    rw [stateThrough, List.foldl_cons, List.foldl_nil, hr]
    rfl
  rw [hsame, hr, hstate]

/-- The class leads to a state that is known. -/
def leads (s : State A) (k : ByteSet) (b : UInt8) (acts : List A) (t : State A) : Bool :=
  exits s k b acts && stateThrough s [b] = t

theorem step_of_leads {s t : State A} {k : ByteSet} {b : UInt8} {acts : List A}
    (h : leads s k b acts t) {c : UInt8} (hc : k.mem c) : step s c = some (acts, t) := by
  obtain ⟨hexits, ht⟩ := Bool.and_eq_true_iff.mp h
  rw [step_of_exits hexits hc, of_decide_eq_true ht]

section Counted

/-! A token of bounded length, with an action at its end, in front of one byte that is not in it. -/

variable (ord ord' : Nat) (d a : A) (m k : ByteSet) (g h : Expr A)

/-- The state in which at most `n` more bytes of the token may come. -/
def countedState (n : Nat) : State A :=
  [.finish ord d (.cat (.cat (.leave ord' a (Expr.upTo (.set m) n)) (.cat (.set k) g)) h)]

omit [DecidableEq A] in
theorem out_upTo_set (n : Nat) : (Expr.upTo (.set m) n : Expr A).out = some ([], []) := by
  cases n with
  | zero => rfl
  | succ n => rfl

omit [DecidableEq A] in
theorem delta_upTo_set (n : Nat) (c : UInt8) :
    (Expr.upTo (.set m) n : Expr A).delta c =
      if m.mem c ∧ 0 < n then [⟨[], [], Expr.upTo (.set m) (n - 1)⟩] else [] := by
  cases n with
  | zero => simp [Expr.upTo, Expr.delta]
  | succ n =>
      by_cases hc : m.mem c
      · simp [Expr.upTo, Expr.opt, Expr.delta, Expr.out, hc, Trans.map, Expr.seq]
      · simp [Expr.upTo, Expr.opt, Expr.delta, Expr.out, hc]

variable {ord ord' d a m k g h} {n : Nat} {c : UInt8}

omit [DecidableEq A] in
theorem taken_single {e : Expr A} {t : Trans A} (he : e.delta c = [t]) (ht : t.prios = []) :
    taken [e] c = [t] := by
  simp [taken, he, Trans.beatenBy, ht]

/-- A byte of the token. -/
theorem step_counted (hm : m.mem c) (hk : k.mem c = false) :
    step (countedState ord ord' d a m k g h (n + 1)) c =
      some ([], countedState ord ord' d a m k g h n) := by
  have hdelta : (Expr.finish ord d (.cat (.cat (.leave ord' a (Expr.upTo (.set m) (n + 1)))
      (.cat (.set k) g)) h)).delta c =
        [⟨[], [], .finish ord d (.cat (.cat (.leave ord' a (Expr.upTo (.set m) n))
          (.cat (.set k) g)) h)⟩] := by
    simp [Expr.delta, delta_upTo_set, Expr.out, out_upTo_set, hm, hk, Trans.map, Expr.seq]
  rw [countedState, step, taken_single hdelta rfl]
  rfl

/-- The byte behind the token. -/
theorem step_counted_end (hm : m.mem c = false) (hk : k.mem c) (hh : h.out = none) :
    step (countedState ord ord' d a m k g h n) c =
      some ([a], [.finish ord d (Expr.seq g h)]) := by
  have hnext : (Expr.seq g h).out = none := by
    cases g <;> simp [Expr.seq, Expr.out, hh]
  have hdelta : (Expr.finish ord d (.cat (.cat (.leave ord' a (Expr.upTo (.set m) n))
      (.cat (.set k) g)) h)).delta c =
        [⟨[(ord', a)], [], .finish ord d (Expr.seq g h)⟩] := by
    have hseq : Expr.seq .eps g = g := rfl
    simp [Expr.delta, delta_upTo_set, Expr.out, out_upTo_set, hm, hk, hnext, Trans.map, hseq,
      Trans.addActs, Trans.addPrios]
  rw [countedState, step, taken_single hdelta rfl]
  rfl

end Counted

/-- The actions on the bytes from position `p` on, and the state behind them. -/
def walk (s : State A) (p : Nat) : List UInt8 → Option (List (Nat × A) × State A)
  | [] => some ([], s)
  | b :: w => do
      let (acts, t) ← step s b
      let (es, r) ← walk t (p + 1) w
      some (acts.map (p, ·) ++ es, r)

section Runs

variable (stop : A → Bool)

/-- The bytes from position `p` on lead from one state to another, with these actions. -/
def Runs (s : State A) (p : Nat) (w : List UInt8) (es : List (Nat × A)) (t : State A) : Prop :=
  scan stop s p w = (es, .running t)

variable {stop} {s t r : State A} {p : Nat} {u v w : List UInt8} {es fs : List (Nat × A)}

theorem Runs.nil : Runs stop s p [] [] s := rfl

theorem Runs.append (h : Runs stop s p u es t) (h' : Runs stop t (p + u.length) v fs r) :
    Runs stop s p (u ++ v) (es ++ fs) r := by
  rw [Runs, scan_append, h]
  simp only
  rw [h']

/-- A run on which nothing happens goes before another one. -/
theorem Runs.append_silent (h : Runs stop s p u [] t) (h' : Runs stop t (p + u.length) v fs r) :
    Runs stop s p (u ++ v) fs r := h.append h'

/-- A run after which the machine breaks out. -/
theorem Runs.append_broke (h : Runs stop s p u es t) {q : Nat}
    (h' : scan stop t (p + u.length) v = (fs, .broke r q)) :
    scan stop s p (u ++ v) = (es ++ fs, .broke r q) := by
  rw [scan_append, h]
  simp only
  rw [h']

/-- One byte whose actions do not break out. -/
theorem Runs.cons {b : UInt8} {acts : List A} (h : step s b = some (acts, t))
    (hgo : untilStop stop acts = (acts, false)) (h' : Runs stop t (p + 1) w fs r) :
    Runs stop s p (b :: w) (acts.map (p, ·) ++ fs) r := by
  have hstop : (untilStop stop acts).2 = false := congrArg Prod.snd hgo
  rw [Runs, scan_goes_on stop h hstop, h', hgo]

/-- One byte without an action. -/
theorem Runs.cons_silent {b : UInt8} (h : step s b = some ([], t))
    (h' : Runs stop t (p + 1) w fs r) : Runs stop s p (b :: w) fs r :=
  Runs.cons h rfl h'

omit [DecidableEq A] in
theorem untilStop_of_forall {acts : List A} (h : ∀ a ∈ acts, stop a = false) :
    untilStop stop acts = (acts, false) := by
  induction acts with
  | nil => rfl
  | cons a acts ih =>
      have hrest := ih fun b hb => h b (List.mem_cons_of_mem _ hb)
      simp only [untilStop, h a List.mem_cons_self, hrest, Bool.false_eq_true, if_false]

/-- A walk is a run if none of its actions breaks out. -/
theorem Runs.of_walk (h : walk s p w = some (es, t)) (hes : ∀ e ∈ es, stop e.2 = false) :
    Runs stop s p w es t := by
  induction w generalizing s p es with
  | nil =>
      cases h
      exact .nil
  | cons b w ih =>
      obtain ⟨⟨acts, r⟩, hstep, h⟩ := Option.bind_eq_some_iff.mp h
      obtain ⟨⟨fs, r'⟩, hrest, h⟩ := Option.bind_eq_some_iff.mp h
      cases h
      refine .cons hstep (untilStop_of_forall ?_) (ih hrest ?_)
      · intro a ha
        exact hes (p, a) (List.mem_append_left _ (List.mem_map_of_mem ha))
      · intro e he
        exact hes e (List.mem_append_right _ he)

theorem Runs.shift (h : Runs stop s 0 w es t) (p : Nat) :
    Runs stop s p w (es.map fun e => (p + e.1, e.2)) t := by
  rw [Runs] at h
  have hshift := scan_shift stop s p 0 w
  rw [h] at hshift
  exact hshift

/-- A class of bytes in which a state stays. -/
theorem Runs.loop {k : ByteSet} (hstep : ∀ b, k.mem b → step s b = some ([], s))
    (hw : ∀ b ∈ w, k.mem b) : Runs stop s p w [] s := by
  induction w generalizing p with
  | nil => exact .nil
  | cons b w ih =>
      exact .cons_silent (hstep b (hw b List.mem_cons_self))
        (ih fun c hc => hw c (List.mem_cons_of_mem _ hc))

/-- The bytes of a token that is short enough. -/
theorem Runs.counted {ord ord' : Nat} {d a : A} {m k : ByteSet} {g h : Expr A} {n : Nat}
    (hk : m.apart k) (hw : ∀ b ∈ w, m.mem b) (hlen : w.length ≤ n) :
    Runs stop (countedState ord ord' d a m k g h n) p w []
      (countedState ord ord' d a m k g h (n - w.length)) := by
  induction w generalizing p n with
  | nil => exact .nil
  | cons b w ih =>
      obtain ⟨n, rfl⟩ := Nat.exists_eq_add_of_le' (Nat.succ_le_of_lt (Nat.zero_lt_of_lt hlen))
      have hb := hw b List.mem_cons_self
      have hrest := ih (n := n) (p := p + 1) (fun c hc => hw c (List.mem_cons_of_mem _ hc))
        (Nat.le_of_succ_le_succ hlen)
      rw [List.length_cons, Nat.add_sub_add_right]
      exact .cons_silent (step_counted hb (ByteSet.not_mem_of_apart hk hb)) hrest

end Runs

end Sylar.Lib.Ragel

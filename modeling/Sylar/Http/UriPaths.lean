import Sylar.Http.UriAuthority

/-!
# Scheme and path of a URI

A string without a scheme starts as one with a scheme does, until a byte comes
that no scheme has. The path of an absolute URI with an authority is the only one
that has actions.
-/

namespace Sylar.Http

open Sylar.Lib Sylar.Lib.Ragel Sylar.Lib.Ragel.Expr

namespace UriMachine

open UriGrammar

def pathBytes : ByteSet := pcharNc.union (.ofChars ":%/")
def segmentBytes : ByteSet := pcharNc.union (.ofChars "%")
def schemeBytes : ByteSet := (ByteSet.alpha.union .digit).union (.ofChars "+-.")

/-- The context of a path without actions. -/
def inPath (n : Nat) : Context UriAction := [.cat (tailAt n)]

def inScheme : Context UriAction :=
  [.leave 1 .saveScheme, .cat (.cat (str ":") (.cat hierAt (tailAt 10)))]

/-- The context of the first segment of a path without a scheme. -/
def inSegment : Context UriAction := [.cat segments, .cat (tailAt 20)]

theorem schemeName_silent : schemeName.silent schemeBytes = true := by rfl
theorem segmentNzNc_silent : segmentNzNc.silent segmentBytes = true := by rfl
theorem pathRootless_silent : pathRootless.silent pathBytes = true := by rfl
theorem pathAbempty_silent : pathAbempty.silent pathBytes = true := by rfl

variable {r : Form} {u w t v : Text} {s : State UriAction} {x y : UriParse} {c : UInt8} {n : Nat}

/-! ### Paths without actions -/

/-- What the bytes that start the tail, or the end of the string, do in one expression. -/
structure LeadsToTail (n : Nat) (l : List (Nat × UriAction)) (f : Expr UriAction) : Prop where
  fragment : ∀ t ∈ f.delta 35, t = ⟨l, [], fragmentAt n⟩
  query : ∀ t ∈ f.delta 63, t = ⟨l, [], (inQuery n).plug (.enter n .marku queryText)⟩
  finish : ∀ q, f.out = some q → q.1 = l

theorem AtTail.of_leads {l : List (Nat × UriAction)} (hplaced : Placed l)
    (h : ∀ f ∈ s, LeadsToTail n l f) : AtTail n l s := by
  refine ⟨⟨hplaced, fun f hf t ht => ?_, fun f hf => (h f hf).finish⟩, fun f hf t ht => ?_⟩
  · rw [(h f hf).fragment t ht]
    exact ⟨rfl, rfl⟩
  · rw [(h f hf).query t ht]
    exact ⟨rfl, rfl⟩

/-- The bytes of the part do not start the tail, so what surrounds the part decides. -/
theorem leadsToTail_within {k : Context UriAction} {m : ByteSet} {l : List (Nat × UriAction)}
    {f : Expr UriAction} (hf : f ∈ k.within m) (hm : m.mem 35 = false ∧ m.mem 63 = false)
    (hfragment : ∀ t ∈ k.follow ([], []) 35, t = ⟨l, [], fragmentAt n⟩)
    (hquery : ∀ t ∈ k.follow ([], []) 63,
      t = ⟨l, [], (inQuery n).plug (.enter n .marku queryText)⟩)
    (hfinish : ∀ q, k.exit ([], []) = some q → q.1 = l) : LeadsToTail n l f := by
  have hleaves : ∀ c, m.mem c = false → ∀ t ∈ f.delta c, t ∈ k.follow ([], []) c := by
    intro c hc t ht
    obtain ⟨hmem, -⟩ | ⟨-, hfollow⟩ := Context.delta_within hf ht
    · rw [hc] at hmem
      cases hmem
    · exact hfollow
  constructor
  · exact fun t ht => hfragment t (hleaves 35 hm.1 t ht)
  · exact fun t ht => hquery t (hleaves 63 hm.2 t ht)
  · exact fun q hq => hfinish q (Context.out_within hf hq).1

theorem leadsToTail_path {f : Expr UriAction} (hf : f ∈ (inPath n).within pathBytes) :
    LeadsToTail n [] f := by
  apply leadsToTail_within hf (by decide)
  · exact fun t ht => List.mem_singleton.mp ht
  · exact fun t ht => List.mem_singleton.mp ht
  · rintro q ⟨⟩
    rfl

theorem quiet_inPath (n : Nat) : Quiet ((inPath n).within pathBytes) pathBytes := by
  apply quiet_within
  change pathBytes.apart (inPath 0).firsts = true
  decide

/-- The rest of a path without actions. -/
theorem path_rest (h : At u w s x) (hs : ∀ f ∈ s, f ∈ (inPath n).within pathBytes)
    (ht : ∀ c ∈ t, pathBytes.mem c = true) (hv : w ++ t ++ v ∈ machine.lang) :
    ∃ s', At u (w ++ t) s' x ∧ AtTail n [] s' := by
  obtain ⟨s', h', hs'⟩ := h.quiet (quiet_inPath n) hs ht hv
  exact ⟨s', h', AtTail.of_leads (by simp [Placed]) fun f hf => leadsToTail_path (hs' f hf)⟩

/-- Behind the first slash an authority or the path may follow. -/
def slashed (r : Form) : Set (Expr UriAction) :=
  {(inPath r.tailPlace).plug (.cat (str "/") (.cat r.authority r.path)),
    (inPath r.tailPlace).plug (opt (.cat segmentNz segments))}

theorem mem_slashed {f g : Expr UriAction} {t : Trans UriAction}
    (hf : f = (inPath r.tailPlace).plug (.cat (str "/") (.cat r.authority r.path)))
    (hg : g = (inPath r.tailPlace).plug (opt (.cat segmentNz segments)))
    (ht : t ∈ [(⟨[], [], f⟩ : Trans UriAction), ⟨[], [], g⟩]) :
    t.acts = [] ∧ t.next ∈ slashed r := by
  obtain rfl | ht := List.mem_cons.mp ht
  · exact ⟨rfl, .inl hf⟩
  · obtain rfl := List.mem_singleton.mp ht
    exact ⟨rfl, .inr hg⟩

theorem slash_hier (hs : ∀ f ∈ s, f = Expr.cat hierAt (tailAt 10)) :
    ∀ f ∈ s, ∀ t ∈ f.delta 47, t.acts = [] ∧ t.next ∈ slashed .absolute := by
  intro f hf t ht
  rw [hs f hf] at ht
  exact mem_slashed (r := .absolute) rfl rfl ht

theorem slash_machine (hs : ∀ f ∈ s, f = machine) :
    ∀ f ∈ s, ∀ t ∈ f.delta 47, t.acts = [] ∧ t.next ∈ slashed .relative := by
  intro f hf t ht
  rw [hs f hf] at ht
  exact mem_slashed (r := .relative) rfl rfl ht

/-- The first slash of a string or of what follows its scheme. -/
theorem first_slash (h : At u w s x)
    (hs : ∀ f ∈ s, ∀ t ∈ f.delta 47, t.acts = [] ∧ t.next ∈ slashed r)
    (hv : w ++ 47 :: v ∈ machine.lang) :
    ∃ s', At u (w ++ [47]) s' x ∧ ∀ f ∈ s', f ∈ slashed r := by
  obtain ⟨s', h', hs'⟩ := h.step_same hv (fun f hf t ht => (hs f hf t ht).1) (by simp [Placed]) rfl
  refine ⟨s', h', fun f hf => ?_⟩
  obtain ⟨g, hg, t, ht, rfl⟩ := (hs' f).mp hf
  exact (hs g hg t ht).2

/-- The second slash starts an authority. -/
theorem second_slash (h : At u w s x) (hs : ∀ f ∈ s, f ∈ slashed r)
    (hv : w ++ 47 :: v ∈ machine.lang) :
    ∃ s', At u (w ++ [47]) s' x ∧ ∀ f ∈ s', f = r.outer.plug r.authority := by
  have hdelta : ∀ f ∈ s, ∀ t ∈ f.delta 47, t.acts = [] ∧ t.next = r.outer.plug r.authority := by
    intro f hf t ht
    obtain rfl | rfl := hs f hf
    · obtain rfl : t = ⟨[], [], r.outer.plug r.authority⟩ := by
        cases r <;> exact List.mem_singleton.mp ht
      exact ⟨rfl, rfl⟩
    · cases r <;> cases ht
  obtain ⟨s', h', hs'⟩ := h.step_same hv (fun f hf t ht => (hdelta f hf t ht).1)
    (by simp [Placed]) rfl
  refine ⟨s', h', fun f hf => ?_⟩
  obtain ⟨g, hg, t, ht, rfl⟩ := (hs' f).mp hf
  exact (hdelta g hg t ht).2

/-- Any other byte, or the end of the path, goes on with the path. -/
theorem path_behind_slash (h : At u w s x) (hs : ∀ f ∈ s, f ∈ slashed r)
    (ht : ∀ c ∈ t, pathBytes.mem c = true) (hne : ∀ c ∈ t.head?, c ≠ 47)
    (hv : w ++ t ++ v ∈ machine.lang) :
    ∃ s', At u (w ++ t) s' x ∧ AtTail r.tailPlace [] s' := by
  cases t with
  | nil =>
      refine ⟨s, by simpa using h, AtTail.of_leads (by simp [Placed]) fun f hf => ?_⟩
      obtain rfl | rfl := hs f hf
      · constructor
        · intro t ht
          cases r <;> cases ht
        · intro t ht
          cases r <;> cases ht
        · intro q hq
          cases r <;> cases hq
      · have hin : (inPath r.tailPlace).plug (opt (.cat segmentNz segments)) ∈
            (inPath r.tailPlace).within pathBytes := ⟨_, by rfl, rfl⟩
        exact leadsToTail_path hin
  | cons c t =>
      obtain ⟨hc, ht⟩ := List.forall_mem_cons.mp ht
      have hslash : c ≠ 47 := hne c rfl
      have hdelta : ∀ f ∈ s, ∀ t ∈ f.delta c,
          t.acts = [] ∧ t.next ∈ (inPath r.tailPlace).within pathBytes := by
        intro f hf t ht
        obtain rfl | rfl := hs f hf
        · rw [Context.delta_plug] at ht
          obtain ht | ht := List.mem_append.mp ht
          · obtain ⟨t₁, ht₁, rfl⟩ := List.mem_map.mp ht
            obtain ⟨hc, -⟩ := mem_delta_byte_cat.mp ht₁
            exact absurd (eq_ofNat hc) hslash
          · cases ht
        · have hin : (inPath r.tailPlace).plug (opt (.cat segmentNz segments)) ∈
              (inPath r.tailPlace).within pathBytes := ⟨_, by rfl, rfl⟩
          exact quiet_inPath _ _ hin c hc t ht
      obtain ⟨s', h', hs'⟩ := h.step_same (v := t ++ v) (by simpa using hv)
        (fun f hf t ht => (hdelta f hf t ht).1) (by simp [Placed]) rfl
      have hin : ∀ f ∈ s', f ∈ (inPath r.tailPlace).within pathBytes := by
        intro f hf
        obtain ⟨g, hg, t, ht, rfl⟩ := (hs' f).mp hf
        exact (hdelta g hg t ht).2
      obtain ⟨s'', h'', htail⟩ := path_rest h' hin ht (v := v) (by simpa using hv)
      exact ⟨s'', by simpa using h'', htail⟩

/-! ### The start of the string -/

/-- A byte that is not a slash starts neither an authority nor an absolute path. -/
theorem delta_part {e f : G} (hc : c ≠ 47) {t : Trans UriAction}
    (ht : t ∈ (alts [cats [str "//", e], pathAbsolute, f, pathEmpty] : G).delta c) :
    t ∈ f.delta c := by
  obtain ht | ht := List.mem_append.mp ht
  · obtain ht | ht := List.mem_append.mp ht
    · obtain ⟨t₁, ht₁, rfl⟩ := List.mem_map.mp ht
      exact absurd (eq_ofNat (mem_delta_byte_cat.mp ht₁).1) hc
    · cases ht
  · obtain ht | ht := List.mem_append.mp ht
    · exact absurd (eq_ofNat (mem_delta_byte_cat.mp ht).1) hc
    · exact (List.mem_append.mp ht).resolve_right List.not_mem_nil

/-- The first byte of a scheme or of a path that does not start with a slash. -/
theorem delta_machine (hc : segmentBytes.mem c = true) {t : Trans UriAction}
    (ht : t ∈ machine.delta c) :
    (t.acts = [(0, .marku)] ∧ t.next ∈ inScheme.within schemeBytes) ∨
      (t.acts = [] ∧ t.next ∈ inSegment.within segmentBytes) := by
  have hslash : c ≠ 47 := by
    rintro rfl
    exact absurd hc (by decide)
  obtain ht | ht := List.mem_append.mp ht
  · left
    change t ∈ (inScheme.plug (.enter 0 .marku schemeName)).delta c at ht
    rw [Context.delta_plug] at ht
    obtain ht | ht := List.mem_append.mp ht
    · obtain ⟨t₁, ht₁, rfl⟩ := List.mem_map.mp ht
      obtain ⟨t₂, ht₂, rfl⟩ := List.mem_map.mp ht₁
      obtain ⟨-, hacts, hnext⟩ := delta_silent schemeName_silent c t₂ ht₂
      refine ⟨?_, t₂.next, hnext, rfl⟩
      simp [Trans.map, Trans.addActs, hacts]
    · cases ht
  · right
    change t ∈ ((inPath 20).plug relativeAt).delta c at ht
    rw [Context.delta_plug] at ht
    obtain ht | ht := List.mem_append.mp ht
    · obtain ⟨t₁, ht₁, rfl⟩ := List.mem_map.mp ht
      have hin : pathNoscheme ∈ Context.within [.cat segments] segmentBytes :=
        ⟨segmentNzNc, segmentNzNc_silent, rfl⟩
      obtain ⟨-, hacts, g, hg, hnext⟩ | ⟨hout, -⟩ :=
        Context.delta_within hin (delta_part (e := .cat _ _) hslash ht₁)
      · exact ⟨hacts, g, hg, congrArg (inPath 20).plug hnext⟩
      · cases hout
    · have hfirst : (inPath 20).firsts.mem c = false :=
        ByteSet.not_mem_of_apart (m := segmentBytes) (by decide) hc
      change t ∈ (inPath 20).follow _ _ at ht
      rw [Context.follow_of_not_firsts hfirst] at ht
      cases ht

/-- The states in which a scheme or the first segment of a path is read. -/
def starting : Set (Expr UriAction) := inScheme.within schemeBytes ∪ inSegment.within segmentBytes

theorem quiet_starting : Quiet starting segmentBytes := by
  apply Quiet.union
  · exact quiet_within (by decide)
  · exact quiet_within (by decide)

theorem starting_next (hs' : ∀ f, f ∈ s ↔ ∃ g ∈ [machine], ∃ t ∈ g.delta c, t.next = f)
    (hc : segmentBytes.mem c = true) : ∀ f ∈ s, f ∈ starting := by
  intro f hf
  obtain ⟨g, hg, t, ht, rfl⟩ := (hs' f).mp hf
  rw [List.mem_singleton.mp hg] at ht
  exact (delta_machine hc ht).imp And.right And.right

/-- The machine before the first byte. -/
theorem at_start (u : Text) : At u [] [machine] ⟨.new, none⟩ :=
  Reached.start machine_unprioritized _

/-- The text of a scheme and the colon behind it. -/
theorem scheme_text {a : Text} (ha : a ∈ schemeName.lang) (hv : a ++ 58 :: v ∈ machine.lang)
    (hu : u = a ++ t) :
    ∃ s', At u (a ++ [58]) s' ⟨{ Uri.new with scheme := a }, none⟩ ∧
      ∀ f ∈ s', f = Expr.cat hierAt (tailAt 10) := by
  cases a with
  | nil => exact absurd (nil_mem_lang.mp ha) (by decide)
  | cons c a =>
      have hbytes : ∀ b ∈ c :: a, segmentBytes.mem b = true := fun b hb =>
        ByteSet.mem_of_within (k := schemeBytes) (by decide)
          (mem_of_silent schemeName_silent ha b hb)
      obtain ⟨hc, hbytes⟩ := List.forall_mem_cons.mp hbytes
      obtain ⟨s₁, y, h₁, hs₁, -, hy⟩ := (at_start u).step_two (c := c) (v := a ++ 58 :: v)
        (k := []) (l := [(0, .marku)]) (by simpa using hv) (by simp) (by simp [Placed])
        (fun f hf t ht => by
          rw [List.mem_singleton.mp hf] at ht
          exact ((delta_machine hc ht).imp And.left And.left).symm) rfl rfl
      have hmark : ∃ f ∈ [machine], ∃ t ∈ f.delta c, t.acts = [(0, UriAction.marku)] := by
        obtain ⟨t, ht, -⟩ := cons_mem_lang.mp ha
        refine ⟨machine, List.mem_singleton_self _,
          (t.addActs [(0, .marku)]).map inScheme.plug, ?_, ?_⟩
        · refine List.mem_append_left _ ?_
          change _ ∈ (inScheme.plug (.enter 0 .marku schemeName)).delta c
          rw [Context.delta_plug]
          exact List.mem_append_left _ (List.mem_map_of_mem (List.mem_map_of_mem ht))
        · obtain ⟨-, hacts, -⟩ := delta_silent schemeName_silent c t ht
          simp [Trans.map, Trans.addActs, hacts]
      rw [hy hmark] at h₁
      obtain ⟨s₂, h₂, hs₂⟩ := h₁.quiet quiet_starting (starting_next hs₁ hc) hbytes
        (v := 58 :: v) (by simpa using hv)
      have hdelta : ∀ f ∈ s₂, ∀ t ∈ f.delta 58, t.acts = [(1, .saveScheme)] ∧
          t.next = Expr.cat hierAt (tailAt 10) := by
        intro f hf t ht
        obtain hf | hf := hs₂ f hf
        · obtain ⟨hc, -⟩ | ⟨-, hexit⟩ := Context.delta_within hf ht
          · exact absurd hc (by decide)
          · obtain rfl := List.mem_singleton.mp hexit
            exact ⟨rfl, rfl⟩
        · obtain ⟨hc, -⟩ | ⟨-, hexit⟩ := Context.delta_within hf ht
          · exact absurd hc (by decide)
          · cases hexit
      have htext : textAt u 0 ((([] ++ [c] ++ a).length : Int) - (0 : Nat)) = .ok (c :: a) := by
        rw [hu]
        simpa using textAt_middle [] (c :: a) t
      obtain ⟨s₃, h₃, hs₃⟩ := h₂.step_same (c := 58) (v := v) (by simpa using hv)
        (fun f hf t ht => (hdelta f hf t ht).1) (by simp [Placed])
        (bind_of_ok (action_save htext Uri.new).1 rfl)
      refine ⟨s₃, by simpa using h₃, fun f hf => ?_⟩
      obtain ⟨g, hg, t, ht, rfl⟩ := (hs₃ f).mp hf
      exact (hdelta g hg t ht).2

/-! ### Paths without an authority -/

/-- A path that can only start with a slash. -/
theorem slash_cases {e : G} (hsilent : e.silent pathBytes = true)
    (hfirsts : e.firsts.within (.byte 47) = true) {a : Text} (ha : a ∈ e.lang) :
    a = [] ∨ ∃ b, a = 47 :: b ∧ ∀ c ∈ b, pathBytes.mem c = true := by
  cases a with
  | nil => exact .inl rfl
  | cons c b =>
      right
      obtain ⟨t, ht, -⟩ := cons_mem_lang.mp ha
      rw [eq_ofNat (ByteSet.mem_byte.mp (ByteSet.mem_of_within hfirsts (mem_firsts ht)))]
      exact ⟨b, rfl, (List.forall_mem_cons.mp (mem_of_silent hsilent ha)).2⟩

theorem atTail_starting (hs : ∀ f ∈ s, f ∈ starting) : AtTail 20 [] s := by
  apply AtTail.of_leads (by simp [Placed])
  intro f hf
  obtain hf | hf := hs f hf
  · -- a scheme has no way to the tail
    apply leadsToTail_within hf (by decide)
    · exact fun t ht => by cases ht
    · exact fun t ht => by cases ht
    · exact fun q hq => by cases hq
  · apply leadsToTail_within hf (by decide)
    · exact fun t ht => List.mem_singleton.mp ht
    · exact fun t ht => List.mem_singleton.mp ht
    · rintro q ⟨⟩
      rfl

/-- A path without a scheme and without a slash in front. -/
theorem noscheme_text {a : Text} (ha : a ∈ pathNoscheme.lang) (hv : a ++ v ∈ machine.lang) :
    ∃ s' y, At u a s' y ∧ y.uri = .new ∧ AtTail 20 [] s' := by
  obtain ⟨a, hsegment, b, hb, rfl⟩ := mem_lang_cat.mp ha
  cases a with
  | nil => exact absurd (nil_mem_lang.mp hsegment) (by decide)
  | cons c a =>
      have hbytes := mem_of_silent segmentNzNc_silent hsegment
      obtain ⟨hc, hbytes⟩ := List.forall_mem_cons.mp hbytes
      obtain ⟨s₁, y, h₁, hs₁, hy, -⟩ := (at_start u).step_two (c := c) (v := a ++ b ++ v)
        (k := []) (l := [(0, .marku)]) (by simpa using hv) (by simp) (by simp [Placed])
        (fun f hf t ht => by
          rw [List.mem_singleton.mp hf] at ht
          exact ((delta_machine hc ht).imp And.left And.left).symm) rfl rfl
      have hnew : y.uri = .new := by
        obtain rfl | rfl := hy
        · rfl
        · rfl
      obtain ⟨s₂, h₂, hs₂⟩ := h₁.quiet quiet_starting (starting_next hs₁ hc) hbytes (v := b ++ v)
        (by simpa using hv)
      obtain rfl | ⟨b, rfl, hrest⟩ := slash_cases (e := segments) (by rfl) (by decide) hb
      · exact ⟨s₂, y, by simpa using h₂, hnew, atTail_starting hs₂⟩
      · have hdelta : ∀ f ∈ s₂, ∀ t ∈ f.delta 47, t.acts = [] ∧
            t.next ∈ (inPath 20).within pathBytes := by
          intro f hf t ht
          obtain hf | hf := hs₂ f hf
          · obtain ⟨hc, -⟩ | ⟨-, hexit⟩ := Context.delta_within hf ht
            · exact absurd hc (by decide)
            · cases hexit
          · obtain ⟨hc, -⟩ | ⟨-, hexit⟩ := Context.delta_within hf ht
            · exact absurd hc (by decide)
            · obtain rfl := List.mem_singleton.mp hexit
              exact ⟨rfl, .cat segment segments, by rfl, rfl⟩
        obtain ⟨s₃, h₃, hs₃⟩ := h₂.step_same (c := 47) (v := b ++ v) (by simpa using hv)
          (fun f hf t ht => (hdelta f hf t ht).1) (by simp [Placed]) rfl
        have hin : ∀ f ∈ s₃, f ∈ (inPath 20).within pathBytes := by
          intro f hf
          obtain ⟨g, hg, t, ht, rfl⟩ := (hs₃ f).mp hf
          exact (hdelta g hg t ht).2
        obtain ⟨s₄, h₄, htail⟩ := path_rest h₃ hin hrest (v := v) (by simpa using hv)
        exact ⟨s₄, y, by simpa using h₄, hnew, htail⟩

/-- A path behind a scheme and without a slash in front. -/
theorem rootless_text {a : Text} (h : At u w s x) (hs : ∀ f ∈ s, f = Expr.cat hierAt (tailAt 10))
    (ha : a ∈ pathRootless.lang) (hv : w ++ a ++ v ∈ machine.lang) :
    ∃ s', At u (w ++ a) s' x ∧ AtTail 10 [] s' := by
  cases a with
  | nil => exact absurd (nil_mem_lang.mp ha) (by decide)
  | cons c a =>
      have hbytes := mem_of_silent pathRootless_silent ha
      obtain ⟨hc, hbytes⟩ := List.forall_mem_cons.mp hbytes
      have hslash : c ≠ 47 := by
        rintro rfl
        obtain ⟨t, ht, -⟩ := cons_mem_lang.mp ha
        exact absurd (mem_firsts ht) (by decide)
      have hdelta : ∀ f ∈ s, ∀ t ∈ f.delta c,
          t.acts = [] ∧ t.next ∈ (inPath 10).within pathBytes := by
        intro f hf t ht
        rw [hs f hf] at ht
        change t ∈ ((inPath 10).plug hierAt).delta c at ht
        rw [Context.delta_plug] at ht
        obtain ht | ht := List.mem_append.mp ht
        · obtain ⟨t₁, ht₁, rfl⟩ := List.mem_map.mp ht
          obtain ⟨-, hacts, hnext⟩ :=
            delta_silent pathRootless_silent c t₁ (delta_part (e := .cat _ _) hslash ht₁)
          exact ⟨hacts, t₁.next, hnext, rfl⟩
        · have hfirst : (inPath 10).firsts.mem c = false :=
            ByteSet.not_mem_of_apart (m := pathBytes) (by decide) hc
          change t ∈ (inPath 10).follow _ _ at ht
          rw [Context.follow_of_not_firsts hfirst] at ht
          cases ht
      obtain ⟨s₁, h₁, hs₁⟩ := h.step_same (v := a ++ v) (by simpa using hv)
        (fun f hf t ht => (hdelta f hf t ht).1) (by simp [Placed]) rfl
      have hin : ∀ f ∈ s₁, f ∈ (inPath 10).within pathBytes := by
        intro f hf
        obtain ⟨g, hg, t, ht, rfl⟩ := (hs₁ f).mp hf
        exact (hdelta g hg t ht).2
      obtain ⟨s₂, h₂, htail⟩ := path_rest h₁ hin hbytes (v := v) (by simpa using hv)
      exact ⟨s₂, by simpa using h₂, htail⟩

/-- What follows the slash of an absolute path. -/
theorem absolute_cases {a : Text} (ha : a ∈ pathAbsolute.lang) :
    ∃ b, a = 47 :: b ∧ (∀ c ∈ b, pathBytes.mem c = true) ∧ ∀ c ∈ b.head?, c ≠ 47 := by
  obtain ⟨a₁, ha₁, b, hb, rfl⟩ := mem_lang_cat.mp ha
  obtain ⟨c, hc, rfl⟩ := mem_lang_set.mp ha₁
  rw [eq_ofNat (ByteSet.mem_byte.mp hc)]
  have hsilent : (opt (.cat segmentNz segments) : G).silent pathBytes = true := by rfl
  refine ⟨b, rfl, mem_of_silent hsilent hb, ?_⟩
  cases b with
  | nil => simp
  | cons d b =>
      rintro _ ⟨⟩ rfl
      obtain ⟨t, ht, -⟩ := cons_mem_lang.mp hb
      exact absurd (mem_firsts ht) (by decide)

/-- A path with a slash in front. -/
theorem absolute_text {a : Text} (h : At u w s x)
    (hs : ∀ f ∈ s, ∀ t ∈ f.delta 47, t.acts = [] ∧ t.next ∈ slashed r)
    (ha : a ∈ pathAbsolute.lang) (hv : w ++ a ++ v ∈ machine.lang) :
    ∃ s', At u (w ++ a) s' x ∧ AtTail r.tailPlace [] s' := by
  obtain ⟨b, rfl, hbytes, hne⟩ := absolute_cases ha
  obtain ⟨s₁, h₁, hs₁⟩ := first_slash (v := b ++ v) h hs (by simpa using hv)
  obtain ⟨s₂, h₂, htail⟩ := path_behind_slash h₁ hs₁ hbytes hne (v := v) (by simpa using hv)
  exact ⟨s₂, by simpa using h₂, htail⟩

theorem atTail_hier (hs : ∀ f ∈ s, f = Expr.cat hierAt (tailAt 10)) : AtTail 10 [] s := by
  apply AtTail.of_leads (by simp [Placed])
  intro f hf
  rw [hs f hf]
  constructor
  · exact fun t ht => List.mem_singleton.mp ht
  · exact fun t ht => List.mem_singleton.mp ht
  · rintro q ⟨⟩
    rfl

theorem atTail_machine : AtTail 20 [] [machine] := by
  apply AtTail.of_leads (by simp [Placed])
  intro f hf
  rw [List.mem_singleton.mp hf]
  constructor
  · exact fun t ht => List.mem_singleton.mp ht
  · exact fun t ht => List.mem_singleton.mp ht
  · rintro q ⟨⟩
    rfl

/-! ### Paths behind an authority -/

namespace Form

/-- What the first byte of the path runs, or its end if it is empty. -/
def pathEnter : Form → List (Nat × UriAction)
  | .absolute => [(8, .markh)]
  | .relative => []

/-- What the end of the path runs. -/
def pathLeave : Form → List (Nat × UriAction)
  | .absolute => [(9, .savePath)]
  | .relative => []

/-- The context of the path. -/
def inPath : Form → Context UriAction
  | .absolute => [.leave 9 .savePath, .cat (tailAt 10)]
  | .relative => UriMachine.inPath 20

end Form

theorem follow_slash {l : List (Nat × UriAction)} {t : Trans UriAction}
    (ht : t ∈ r.outer.follow (l, []) 47) :
    t.acts = l ++ r.pathEnter ∧ t.next = r.inPath.plug (.cat segment segments) := by
  have hcases : ∀ e : Trans UriAction, t ∈ [e, e] → t = e := by
    intro e he
    simpa using he
  obtain rfl : t = ⟨l ++ r.pathEnter, [], r.inPath.plug (.cat segment segments)⟩ := by
    cases r <;> exact hcases _ ht
  exact ⟨rfl, rfl⟩

/-- Behind an authority the path may be empty. -/
theorem Ended.atTail {l : List (Nat × UriAction)} (h : Ended r l s)
    (hplaced : Placed (l ++ (r.pathLeave ++ r.pathEnter))) :
    AtTail r.tailPlace (l ++ (r.pathLeave ++ r.pathEnter)) s := by
  have hnil : l ++ (r.pathLeave ++ r.pathEnter) ++ [] = l ++ (r.pathLeave ++ r.pathEnter) :=
    List.append_nil _
  apply AtTail.of_leads hplaced
  intro f hf
  constructor
  · intro t ht
    have hfollow := h.next 35 (by decide) f hf t ht
    rw [← hnil]
    cases r <;> exact List.mem_singleton.mp hfollow
  · intro t ht
    have hfollow := h.next 63 (by decide) f hf t ht
    rw [← hnil]
    cases r <;> exact List.mem_singleton.mp hfollow
  · intro q hq
    have hexit := h.finish f hf q hq
    rw [← hnil]
    cases r <;> cases hexit <;> rfl

theorem atTail_inPath (hs : ∀ f ∈ s, f ∈ r.inPath.within pathBytes) :
    AtTail r.tailPlace r.pathLeave s := by
  apply AtTail.of_leads (by cases r <;> decide)
  intro f hf
  apply leadsToTail_within (hs f hf) (by decide)
  · intro t ht
    cases r <;> exact List.mem_singleton.mp ht
  · intro t ht
    cases r <;> exact List.mem_singleton.mp ht
  · intro q hq
    cases r <;> cases hq <;> rfl

/-- A path behind an authority that is not empty. -/
theorem abempty_text {l : List (Nat × UriAction)} (h : At u w s x) (hs : Ended r l s)
    (ht : ∀ c ∈ t, pathBytes.mem c = true) (hplaced : Placed (l ++ r.pathEnter))
    (hrun : runEvents (UriParse.action u) ((ordered (l ++ r.pathEnter)).map (w.length, ·)) x =
      .ok y)
    (hv : w ++ 47 :: t ++ v ∈ machine.lang) :
    ∃ s', At u (w ++ 47 :: t) s' y ∧ AtTail r.tailPlace r.pathLeave s' := by
  have hdelta : ∀ f ∈ s, ∀ t ∈ f.delta 47,
      t.acts = l ++ r.pathEnter ∧ t.next = r.inPath.plug (.cat segment segments) :=
    fun f hf t ht => follow_slash (hs.next 47 (by decide) f hf t ht)
  obtain ⟨s₁, h₁, hs₁⟩ := h.step_same (c := 47) (v := t ++ v) (by simpa using hv)
    (fun f hf t ht => (hdelta f hf t ht).1) hplaced hrun
  have hin : ∀ f ∈ s₁, f ∈ r.inPath.within pathBytes := by
    intro f hf
    obtain ⟨g, hg, t, ht, rfl⟩ := (hs₁ f).mp hf
    exact ⟨.cat segment segments, by rfl, (hdelta g hg t ht).2⟩
  have hquiet : Quiet (r.inPath.within pathBytes) pathBytes :=
    quiet_within (by cases r <;> decide)
  obtain ⟨s₂, h₂, hs₂⟩ := h₁.quiet hquiet hin ht (v := v) (by simpa using hv)
  exact ⟨s₂, by simpa using h₂, atTail_inPath hs₂⟩

theorem abempty_cases {a : Text} (ha : a ∈ pathAbempty.lang) :
    a = [] ∨ ∃ b, a = 47 :: b ∧ ∀ c ∈ b, pathBytes.mem c = true :=
  slash_cases pathAbempty_silent (by decide) ha

end UriMachine

end Sylar.Http

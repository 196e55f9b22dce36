import Sylar.Http.UriRuns
import Mathlib.Data.List.TakeWhile

/-!
# The authority of a URI

Until an `@` comes the machine reads the text as a userinfo and, side by side
with it, as a host and a port. The port has an action at its first digit, which
moves the mark in a userinfo as well. The leaving actions of host and port run
together with what comes next.
-/

namespace Sylar.Http

open Sylar.Lib Sylar.Lib.Ragel Sylar.Lib.Ragel.Expr

namespace UriMachine

open UriGrammar

/-- An authority of an absolute URI or of a relative reference. -/
inductive Form where
  | absolute
  | relative

namespace Form

/-- The place of the first action of the authority. -/
def place : Form → Nat
  | .absolute => 2
  | .relative => 14

/-- The place of the first action of the query. -/
def tailPlace : Form → Nat
  | .absolute => 10
  | .relative => 20

def path : Form → G
  | .absolute => pathAt
  | .relative => pathAbempty

/-- What stands behind the authority. -/
def outer (r : Form) : Context UriAction := [.cat r.path, .cat (tailAt r.tailPlace)]

def authority (r : Form) : G := authorityAt r.place
def hostPort (r : Form) : G := UriMachine.hostPort r.place

def inUserinfo (r : Form) : Context UriAction :=
  .leave (r.place + 1) .saveUserinfo :: .cat (str "@") :: .cat r.hostPort :: r.outer

def inHost (r : Form) : Context UriAction :=
  .leave (r.place + 3) .saveHost :: .cat (portPart r.place) :: r.outer

def inLiteral (r : Form) : Context UriAction := .cat (str "]") :: r.inHost

def inPort (r : Form) : Context UriAction := .leave (r.place + 5) .savePort :: r.outer

end Form

def literal : G := .alt ipv6Address ipvFuture
def hostName : G := .alt ipv4Address regName

def userinfoBytes : ByteSet := (unreserved.union subDelims).union (.ofChars ":%")
def hostBytes : ByteSet := ((unreserved.union subDelims).union (.ofChars "%")).union (.byte 2)
def literalBytes : ByteSet := ((unreserved.union subDelims).union (.ofChars ":")).union (.byte 2)

/-- The bytes of an authority. -/
def authorityBytes : ByteSet := (userinfoBytes.union hostBytes).union (.ofChars "@[]")

theorem userinfo_silent : userinfo.silent userinfoBytes = true := by rfl
theorem literal_silent : literal.silent literalBytes = true := by rfl
theorem hostName_silent : hostName.silent hostBytes = true := by rfl
theorem port_silent : port.silent .digit = true := by rfl

variable (r : Form) {u w t v : Text} {s : State UriAction} {x y : UriParse} {c : UInt8}
  {l : List (Nat × UriAction)}

/-- The states in which a userinfo is read. -/
def readsUserinfo : Set (Expr UriAction) := r.inUserinfo.within userinfoBytes

def readsHost : Set (Expr UriAction) := r.inHost.within hostBytes

def readsPort : Set (Expr UriAction) := r.inPort.within .digit

/-- The port before its first digit. -/
def portStart : Expr UriAction := r.inPort.plug (.enter (r.place + 4) .markh port)

/-! ### The first byte -/

/-- The start of an authority, or of its host behind a userinfo. -/
def opening : Bool → G
  | true => r.authority
  | false => r.hostPort

/-- What the start of an authority runs on top of its host. -/
def prior : Bool → List (Nat × UriAction)
  | true => [(r.place, .markh)]
  | false => []

theorem eq_ofNat {k : Nat} (h : c.toNat = k) : c = .ofNat k := by rw [← h, UInt8.ofNat_toNat]

/-- The first byte of a host, or the colon behind an empty one. -/
theorem delta_hostPort {n : Nat} {t : Trans UriAction} (ht : t ∈ (hostPort n).delta c) :
    (t.acts = [(n + 2, .markh)] ∧ ∃ g, t.next = .cat (.leave (n + 3) .saveHost g) (portPart n) ∧
      ((hostBytes.mem c = true ∧ g.silent hostBytes = true) ∨
        (c = 91 ∧ g = .cat literal (str "]")))) ∨
      (c = 58 ∧ t = ⟨[(n + 3, .saveHost), (n + 2, .markh)], [], portAt n⟩) := by
  rw [hostPort, delta] at ht
  obtain ht | ht := List.mem_append.mp ht
  · left
    obtain ⟨t₁, ht₁, rfl⟩ := List.mem_map.mp ht
    obtain ⟨t₂, ht₂, rfl⟩ := List.mem_map.mp ht₁
    obtain ⟨t₃, ht₃, rfl⟩ := List.mem_map.mp ht₂
    obtain ht₃ | ht₃ := List.mem_append.mp ht₃
    · obtain ⟨hc, rfl⟩ := mem_delta_byte_cat.mp ht₃
      exact ⟨rfl, _, rfl, .inr ⟨eq_ofNat hc, rfl⟩⟩
    · obtain ⟨hc, hacts, hnext⟩ := delta_silent hostName_silent c t₃ ht₃
      refine ⟨?_, t₃.next, rfl, .inl ⟨hc, hnext⟩⟩
      simp [Trans.map, Trans.addActs, hacts]
  · right
    change t ∈ ((portPart n).delta c).map _ at ht
    obtain ⟨t₁, ht₁, rfl⟩ := List.mem_map.mp ht
    rw [portPart, delta_opt] at ht₁
    obtain ⟨hc, rfl⟩ := mem_delta_byte_cat.mp ht₁
    exact ⟨eq_ofNat hc, rfl⟩

theorem outer_firsts : authorityBytes.apart r.outer.firsts = true := by
  cases r <;> decide

/-- The first byte of an authority. -/
theorem delta_opening {b : Bool} {t : Trans UriAction} (hc : authorityBytes.mem c = true)
    (ht : t ∈ (r.outer.plug (opening r b)).delta c) :
    (b = true ∧ t.acts = [(r.place, .markh)] ∧ t.next ∈ readsUserinfo r ∧
        userinfoBytes.mem c = true) ∨
      (b = true ∧ c = 64 ∧ t.acts = [(r.place, .markh), (r.place + 1, .saveUserinfo)] ∧
        t.next = r.outer.plug r.hostPort) ∨
      (t.acts = prior r b ++ [(r.place + 2, .markh)] ∧
        ((hostBytes.mem c = true ∧ t.next ∈ readsHost r) ∨
          (c = 91 ∧ t.next = r.inLiteral.plug literal))) ∨
      (c = 58 ∧ t.acts = prior r b ++ [(r.place + 3, .saveHost), (r.place + 2, .markh)] ∧
        t.next = portStart r) := by
  rw [Context.delta_plug] at ht
  have hfollow : ∀ q, r.outer.follow q c = [] := fun q =>
    Context.follow_of_not_firsts (ByteSet.not_mem_of_apart (outer_firsts r) hc) q
  obtain ⟨t₀, ht₀, rfl⟩ : ∃ t' ∈ (opening r b).delta c, t = t'.map r.outer.plug := by
    obtain ht | ht := List.mem_append.mp ht
    · obtain ⟨t', ht', rfl⟩ := List.mem_map.mp ht
      exact ⟨t', ht', rfl⟩
    · split at ht
      · rw [hfollow] at ht
        cases ht
      · cases ht
  have hhost : ∀ t₁ ∈ r.hostPort.delta c, ∀ p : List (Nat × UriAction),
      (p ++ t₁.acts = p ++ [(r.place + 2, .markh)] ∧
        ((hostBytes.mem c = true ∧ r.outer.plug t₁.next ∈ readsHost r) ∨
          (c = 91 ∧ r.outer.plug t₁.next = r.inLiteral.plug literal))) ∨
      (c = 58 ∧ p ++ t₁.acts = p ++ [(r.place + 3, .saveHost), (r.place + 2, .markh)] ∧
        r.outer.plug t₁.next = portStart r) := by
    intro t₁ ht₁ p
    obtain ⟨hacts, g, hnext, hg⟩ | ⟨hc, rfl⟩ := delta_hostPort ht₁
    · left
      refine ⟨by rw [hacts], ?_⟩
      rw [hnext]
      obtain ⟨hc, hsilent⟩ | ⟨hc, rfl⟩ := hg
      · exact .inl ⟨hc, g, hsilent, rfl⟩
      · exact .inr ⟨hc, rfl⟩
    · exact .inr ⟨hc, rfl, rfl⟩
  cases b with
  | false => exact .inr (.inr (hhost t₀ ht₀ []))
  | true =>
      obtain ⟨t₁, ht₁, rfl⟩ := List.mem_map.mp ht₀
      obtain ht₁ | ht₁ := List.mem_append.mp ht₁
      · obtain ⟨t₂, ht₂, rfl⟩ := List.mem_map.mp ht₁
        rw [userinfoPart, delta_opt] at ht₂
        have hin : (Expr.cat (.leave (r.place + 1) .saveUserinfo userinfo) (str "@") : G) ∈
            Context.within [.leave (r.place + 1) .saveUserinfo, .cat (str "@")] userinfoBytes :=
          ⟨userinfo, userinfo_silent, rfl⟩
        obtain ⟨hc, hacts, g, hsilent, hnext⟩ | ⟨-, hexit⟩ := Context.delta_within hin ht₂
        · left
          refine ⟨rfl, ?_, ?_, hc⟩
          · simp [Trans.map, Trans.addActs, hacts]
          · exact ⟨g, hsilent, by rw [Trans.map, Trans.addActs, Trans.map, hnext]; rfl⟩
        · right
          left
          obtain hexit | hexit := List.mem_append.mp hexit
          · obtain ⟨t₃, ht₃, rfl⟩ := List.mem_map.mp hexit
            obtain ⟨hc, rfl⟩ := mem_delta_byte.mp ht₃
            exact ⟨rfl, eq_ofNat hc, rfl, rfl⟩
          · cases hexit
      · obtain ⟨t₂, ht₂, rfl⟩ := List.mem_map.mp ht₁
        exact .inr (.inr (hhost t₂ ht₂ [(r.place, .markh)]))

/-! ### The bytes behind it -/

variable {r}

theorem delta_readsUserinfo {f : Expr UriAction} (hf : f ∈ readsUserinfo r) {t : Trans UriAction}
    (ht : t ∈ f.delta c) :
    (userinfoBytes.mem c = true ∧ t.acts = [] ∧ t.next ∈ readsUserinfo r) ∨
      (c = 64 ∧ t.acts = [(r.place + 1, .saveUserinfo)] ∧ t.next = r.outer.plug r.hostPort) := by
  obtain hin | ⟨-, hexit⟩ := Context.delta_within hf ht
  · exact .inl hin
  · right
    obtain hexit | hexit := List.mem_append.mp hexit
    · obtain ⟨t₁, ht₁, rfl⟩ := List.mem_map.mp hexit
      obtain ⟨hc, rfl⟩ := mem_delta_byte.mp ht₁
      exact ⟨eq_ofNat hc, rfl, rfl⟩
    · cases hexit

/-- A userinfo is not the end of a string. -/
theorem nil_not_mem_readsUserinfo {f : Expr UriAction} (hf : f ∈ readsUserinfo r) :
    [] ∉ f.lang := by
  intro hnil
  obtain ⟨q, hq⟩ := Option.isSome_iff_exists.mp (nil_mem_lang.mp hnil)
  obtain ⟨hexit, -⟩ := Context.out_within hf hq
  cases hexit

theorem delta_readsHost {f : Expr UriAction} (hf : f ∈ readsHost r) {t : Trans UriAction}
    (ht : t ∈ f.delta c) :
    (hostBytes.mem c = true ∧ t.acts = [] ∧ t.next ∈ readsHost r) ∨
      (c = 58 ∧ t.acts = [(r.place + 3, .saveHost)] ∧ t.next = portStart r) ∨
      t ∈ r.outer.follow ([(r.place + 3, .saveHost)], []) c := by
  obtain hin | ⟨-, hexit⟩ := Context.delta_within hf ht
  · exact .inl hin
  · right
    obtain hexit | hexit := List.mem_append.mp hexit
    · obtain ⟨t₁, ht₁, rfl⟩ := List.mem_map.mp hexit
      rw [portPart, delta_opt] at ht₁
      obtain ⟨hc, rfl⟩ := mem_delta_byte_cat.mp ht₁
      exact .inl ⟨eq_ofNat hc, rfl, rfl⟩
    · exact .inr hexit

theorem delta_portStart {t : Trans UriAction} (ht : t ∈ (portStart r).delta c) :
    (ByteSet.digit.mem c = true ∧ t.acts = [(r.place + 4, .markh)] ∧ t.next ∈ readsPort r) ∨
      t ∈ r.outer.follow ([(r.place + 5, .savePort), (r.place + 4, .markh)], []) c := by
  rw [portStart, Context.delta_plug] at ht
  obtain ht | ht := List.mem_append.mp ht
  · obtain ⟨t₁, ht₁, rfl⟩ := List.mem_map.mp ht
    obtain ⟨t₂, ht₂, rfl⟩ := List.mem_map.mp ht₁
    obtain ⟨hc, hacts, hnext⟩ := delta_silent port_silent c t₂ ht₂
    refine .inl ⟨hc, ?_, t₂.next, hnext, rfl⟩
    simp [Trans.map, Trans.addActs, hacts]
  · exact .inr ht

/-- Bytes of an authority do not leave it. -/
theorem follow_outer (hc : authorityBytes.mem c = true) (q : Pending UriAction) :
    r.outer.follow q c = [] :=
  Context.follow_of_not_firsts (ByteSet.not_mem_of_apart (outer_firsts r) hc) q

theorem quiet_userinfo_host : Quiet (readsUserinfo r ∪ readsHost r) hostBytes := by
  apply Quiet.union
  · exact quiet_within (by cases r <;> decide)
  · exact quiet_within (by cases r <;> decide)

theorem quiet_userinfo_port : Quiet (readsUserinfo r ∪ readsPort r) userinfoBytes := by
  apply Quiet.union
  · exact quiet_within (by cases r <;> decide)
  · exact quiet_within (by cases r <;> decide)

/-! ### The host -/

theorem run_markh (hlist : ordered l = [.markh]) (x : UriParse) :
    runEvents (UriParse.action u) ((ordered l).map (w.length, ·)) x =
      .ok ⟨x.uri, some w.length⟩ := by
  rw [hlist]
  rfl

theorem host_cases {a : Text} (ha : a ∈ host.lang) :
    a ∈ hostName.lang ∨ ∃ l ∈ literal.lang, a = 91 :: (l ++ [93]) := by
  obtain ha | ha := mem_lang_alt.mp ha
  · right
    obtain ⟨a₁, ha₁, a₂, ha₂, rfl⟩ := mem_lang_cat.mp ha
    obtain ⟨l, hl, a₃, ha₃, rfl⟩ := mem_lang_cat.mp ha₂
    obtain ⟨c₁, hc₁, rfl⟩ := mem_lang_set.mp ha₁
    obtain ⟨c₃, hc₃, rfl⟩ := mem_lang_set.mp ha₃
    refine ⟨l, hl, ?_⟩
    rw [eq_ofNat (ByteSet.mem_byte.mp hc₁), eq_ofNat (ByteSet.mem_byte.mp hc₃)]
    rfl
  · exact .inl ha

/-- The host is read up to the byte behind it: nothing has happened yet if it is empty. -/
def HostRead (r : Form) (b : Bool) (w a : Text) (x : UriParse) (s : State UriAction)
    (y : UriParse) : Prop :=
  (a = [] ∧ y = x ∧ ∀ f ∈ s, f = r.outer.plug (opening r b)) ∨
    (a ≠ [] ∧ y = ⟨x.uri, some w.length⟩ ∧ ∀ f ∈ s, f ∈ readsUserinfo r ∪ readsHost r)

/-- The first byte of a host name. -/
theorem host_first {b : Bool} (h : At u w s x) (hs : ∀ f ∈ s, f = r.outer.plug (opening r b))
    (hc : hostBytes.mem c = true) (hv : w ++ c :: v ∈ machine.lang) :
    ∃ s', At u (w ++ [c]) s' ⟨x.uri, some w.length⟩ ∧
      ∀ f ∈ s', f ∈ readsUserinfo r ∪ readsHost r := by
  have hauthority : authorityBytes.mem c = true :=
    ByteSet.mem_union.mpr (.inl (ByteSet.mem_union.mpr (.inr hc)))
  have hne : ∀ k : UInt8, hostBytes.mem k = false → c ≠ k := by
    rintro k hk rfl
    rw [hc] at hk
    cases hk
  have hdelta : ∀ f ∈ s, ∀ t ∈ f.delta c,
      (t.acts = [(r.place, .markh)] ∧ b = true ∨
        t.acts = prior r b ++ [(r.place + 2, .markh)]) ∧
      t.next ∈ readsUserinfo r ∪ readsHost r := by
    intro f hf t ht
    rw [hs f hf] at ht
    obtain ⟨hb, hacts, hnext, -⟩ | ⟨-, hc', -⟩ | ⟨hacts, hnext⟩ | ⟨hc', -⟩ :=
      delta_opening r hauthority ht
    · exact ⟨.inl ⟨hacts, hb⟩, .inl hnext⟩
    · exact absurd hc' (hne 64 (by decide))
    · obtain ⟨-, hnext⟩ | ⟨hc', -⟩ := hnext
      · exact ⟨.inr hacts, .inr hnext⟩
      · exact absurd hc' (hne 91 (by decide))
    · exact absurd hc' (hne 58 (by decide))
  have hsub : ∀ s' : State UriAction, (∀ f, f ∈ s' ↔ ∃ g ∈ s, ∃ t ∈ g.delta c, t.next = f) →
      ∀ f ∈ s', f ∈ readsUserinfo r ∪ readsHost r := by
    intro s' hs' f hf
    obtain ⟨g, hg, t, ht, rfl⟩ := (hs' f).mp hf
    exact (hdelta g hg t ht).2
  cases b with
  | false =>
      obtain ⟨s', h', hs'⟩ := h.step_same hv (l := [(r.place + 2, .markh)])
        (fun f hf t ht => (hdelta f hf t ht).1.resolve_left fun hb => Bool.false_ne_true hb.2)
        (by simp [Placed]) (run_markh (by cases r <;> rfl) x)
      exact ⟨s', h', hsub s' hs'⟩
  | true =>
      obtain ⟨s', y, h', hs', hy, -⟩ := h.step_two hv (k := [(r.place, .markh)])
        (l := [(r.place, .markh), (r.place + 2, .markh)]) (by simp) (by cases r <;> decide)
        (fun f hf t ht => (hdelta f hf t ht).1.imp_left And.left)
        (run_markh (by cases r <;> rfl) x) (run_markh (by cases r <;> rfl) x)
      obtain rfl : y = ⟨x.uri, some w.length⟩ := hy.elim id id
      exact ⟨s', h', hsub s' hs'⟩

/-- The text of a host. -/
theorem host_text {b : Bool} {a : Text} (h : At u w s x)
    (hs : ∀ f ∈ s, f = r.outer.plug (opening r b)) (ha : a ∈ host.lang)
    (hv : w ++ a ++ v ∈ machine.lang) :
    ∃ s' y, At u (w ++ a) s' y ∧ HostRead r b w a x s' y := by
  obtain ha | ⟨l, hl, rfl⟩ := host_cases ha
  · cases a with
    | nil => exact ⟨s, x, by simpa using h, .inl ⟨rfl, rfl, hs⟩⟩
    | cons c a =>
        have hbytes := mem_of_silent hostName_silent ha
        obtain ⟨hc, hbytes⟩ := List.forall_mem_cons.mp hbytes
        obtain ⟨s', h', hs'⟩ := host_first (v := a ++ v) h hs hc (by simpa using hv)
        obtain ⟨s'', h'', hs''⟩ := h'.quiet quiet_userinfo_host hs' hbytes (v := v)
          (by simpa using hv)
        exact ⟨s'', _, by simpa using h'', .inr ⟨by simp, rfl, hs''⟩⟩
  · have hdelta : ∀ f ∈ s, ∀ t ∈ f.delta 91, t.acts = prior r b ++ [(r.place + 2, .markh)] ∧
        t.next = r.inLiteral.plug literal := by
      intro f hf t ht
      rw [hs f hf] at ht
      obtain ⟨-, -, -, hc⟩ | ⟨-, hc, -⟩ | ⟨hacts, hnext⟩ | ⟨hc, -⟩ :=
        delta_opening r (by decide) ht
      · exact absurd hc (by decide)
      · exact absurd hc (by decide)
      · obtain ⟨hc, -⟩ | ⟨-, hnext⟩ := hnext
        · exact absurd hc (by decide)
        · exact ⟨hacts, hnext⟩
      · exact absurd hc (by decide)
    obtain ⟨s₁, h₁, hs₁⟩ := h.step_same (c := 91) (v := l ++ 93 :: v) (by simpa using hv)
      (fun f hf t ht => (hdelta f hf t ht).1) (by cases r <;> cases b <;> decide)
      (run_markh (by cases r <;> cases b <;> rfl) x)
    have hin : ∀ f ∈ s₁, f ∈ r.inLiteral.within literalBytes := by
      intro f hf
      obtain ⟨g, hg, t, ht, rfl⟩ := (hs₁ f).mp hf
      exact ⟨literal, literal_silent, (hdelta g hg t ht).2⟩
    have hquiet : Quiet (r.inLiteral.within literalBytes) literalBytes :=
      quiet_within (by cases r <;> decide)
    obtain ⟨s₂, h₂, hs₂⟩ := h₁.quiet hquiet hin
      (mem_of_silent literal_silent hl) (v := 93 :: v) (by simpa using hv)
    have hclose : ∀ f ∈ s₂, ∀ t ∈ f.delta 93, t.acts = [] ∧ t.next ∈ readsHost r := by
      intro f hf t ht
      obtain ⟨hc, -⟩ | ⟨-, hexit⟩ := Context.delta_within (hs₂ f hf) ht
      · exact absurd hc (by decide)
      · obtain hexit | hexit := List.mem_append.mp hexit
        · obtain ⟨t₁, ht₁, rfl⟩ := List.mem_map.mp hexit
          obtain ⟨-, rfl⟩ := mem_delta_byte.mp ht₁
          exact ⟨rfl, .eps, rfl, rfl⟩
        · cases hexit
    obtain ⟨s₃, h₃, hs₃⟩ := h₂.step_same (c := 93) (v := v) (by simpa using hv)
      (fun f hf t ht => (hclose f hf t ht).1) (by simp [Placed]) rfl
    refine ⟨s₃, _, by simpa using h₃, .inr ⟨by simp, rfl, fun f hf => ?_⟩⟩
    obtain ⟨g, hg, t, ht, rfl⟩ := (hs₃ f).mp hf
    exact .inr (hclose g hg t ht).2

/-! ### The port -/

/-- The expressions that are there behind the colon of a host. -/
def behindColon (r : Form) : Set (Expr UriAction) := readsUserinfo r ∪ {portStart r}

/-- A transition on the last byte of a string that ends with its host or port is none of the
userinfo. -/
theorem exists_last (h : At u w s x) (hend : w ++ [c] ∈ machine.lang) :
    ∃ f ∈ s, ∃ t ∈ f.delta c, t.next ∉ readsUserinfo r := by
  obtain ⟨f, hf, hlang⟩ := h.viable [c] hend
  obtain ⟨t, ht, hnil⟩ := cons_mem_lang.mp hlang
  exact ⟨f, hf, t, ht, fun hin => nil_not_mem_readsUserinfo hin hnil⟩

/-- The colon behind a host saves the host. -/
theorem colon {b : Bool} {a : Text} (h : At u (w ++ a) s y) (hread : HostRead r b w a x s y)
    (hend : w ++ a ++ [58] ∈ machine.lang) (hv : w ++ a ++ 58 :: v ∈ machine.lang)
    (hu : u = w ++ a ++ t) :
    ∃ s', At u (w ++ a ++ [58]) s' ⟨{ x.uri with host := a }, some w.length⟩ ∧
      ∀ f ∈ s', f ∈ behindColon r := by
  obtain ⟨f₀, hf₀, t₀, ht₀, hlast⟩ := exists_last (r := r) h hend
  obtain ⟨rfl, rfl, hs⟩ | ⟨-, rfl, hs⟩ := hread
  · -- An empty host: its mark is set on the colon as well.
    have hdelta : ∀ f ∈ s, ∀ t ∈ f.delta 58,
        (b = true ∧ t.acts = [(r.place, .markh)] ∧ t.next ∈ readsUserinfo r) ∨
        (t.acts = prior r b ++ [(r.place + 3, .saveHost), (r.place + 2, .markh)] ∧
          t.next = portStart r) := by
      intro f hf t ht
      rw [hs f hf] at ht
      obtain ⟨hb, hacts, hnext, -⟩ | ⟨-, hc, -⟩ | ⟨-, ⟨hc, -⟩ | ⟨hc, -⟩⟩ | ⟨-, hacts, hnext⟩ :=
        delta_opening r (by decide) ht
      · exact .inl ⟨hb, hacts, hnext⟩
      · exact absurd hc (by decide)
      · exact absurd hc (by decide)
      · exact absurd hc (by decide)
      · exact .inr ⟨hacts, hnext⟩
    have hrun : runEvents (UriParse.action u)
        ((ordered (prior r b ++ [(r.place + 3, .saveHost), (r.place + 2, .markh)])).map
          ((w ++ []).length, ·)) y =
          .ok ⟨{ y.uri with host := [] }, some (w ++ []).length⟩ := by
      rw [show ordered (prior r b ++ [(r.place + 3, .saveHost), (r.place + 2, .markh)]) =
        [.markh, .saveHost] by cases r <;> cases b <;> rfl]
      refine bind_of_ok rfl (bind_of_ok (action_saveHost (textAt_here ?_) y.uri) rfl)
      simp [hu]
    have hsub : ∀ s' : State UriAction, (∀ f, f ∈ s' ↔ ∃ g ∈ s, ∃ t ∈ g.delta 58, t.next = f) →
        ∀ f ∈ s', f ∈ behindColon r := by
      intro s' hs' f hf
      obtain ⟨g, hg, t, ht, rfl⟩ := (hs' f).mp hf
      exact (hdelta g hg t ht).imp (fun hin => hin.2.2) (fun hin => hin.2)
    obtain hlast' | ⟨hacts₀, -⟩ := hdelta f₀ hf₀ t₀ ht₀
    · exact absurd hlast'.2.2 hlast
    · cases b with
      | false =>
          obtain ⟨s', h', hs'⟩ := h.step_same hv
            (fun f hf t ht => ((hdelta f hf t ht).resolve_left fun hb =>
              Bool.false_ne_true hb.1).1) (by cases r <;> decide) hrun
          exact ⟨s', by simpa using h', hsub s' hs'⟩
      | true =>
          obtain ⟨s', z, h', hs', -, hz⟩ := h.step_two hv (k := [(r.place, .markh)])
            (by simp [prior]) (by cases r <;> decide)
            (fun f hf t ht => (hdelta f hf t ht).imp (fun hin => hin.2.1) (fun hin => hin.1))
            (run_markh (by cases r <;> rfl) y) hrun
          rw [hz ⟨f₀, hf₀, t₀, ht₀, hacts₀⟩] at h'
          exact ⟨s', by simpa using h', hsub s' hs'⟩
  · have hdelta : ∀ f ∈ s, ∀ t ∈ f.delta 58, (t.acts = [] ∧ t.next ∈ readsUserinfo r) ∨
        (t.acts = [(r.place + 3, .saveHost)] ∧ t.next = portStart r) := by
      intro f hf t ht
      obtain hf | hf := hs f hf
      · obtain ⟨-, hin⟩ | ⟨hc, -⟩ := delta_readsUserinfo hf ht
        · exact .inl hin
        · exact absurd hc (by decide)
      · obtain ⟨hc, -⟩ | ⟨-, hexit⟩ | hexit := delta_readsHost hf ht
        · exact absurd hc (by decide)
        · exact .inr hexit
        · rw [follow_outer (by decide)] at hexit
          cases hexit
    have hrun : runEvents (UriParse.action u)
        ((ordered [(r.place + 3, UriAction.saveHost)]).map ((w ++ a).length, ·))
          ⟨x.uri, some w.length⟩ = .ok ⟨{ x.uri with host := a }, some w.length⟩ := by
      refine bind_of_ok (action_saveHost ?_ x.uri) rfl
      rw [hu]
      exact textAt_middle w a t
    obtain ⟨s', z, h', hs', -, hz⟩ := h.step_two hv (k := []) (by simp) (by simp [Placed])
      (fun f hf t ht => (hdelta f hf t ht).imp And.left And.left) rfl hrun
    obtain ⟨-, hlast'⟩ | ⟨hacts₀, -⟩ := hdelta f₀ hf₀ t₀ ht₀
    · exact absurd hlast' hlast
    rw [hz ⟨f₀, hf₀, t₀, ht₀, hacts₀⟩] at h'
    refine ⟨s', h', fun f hf => ?_⟩
    obtain ⟨g, hg, t, ht, rfl⟩ := (hs' f).mp hf
    exact (hdelta g hg t ht).imp And.right And.right

/-- The first digit behind the colon moves the mark, in a userinfo too. -/
theorem digit_step (h : At u w s x) (hs : ∀ f ∈ s, f ∈ behindColon r)
    (hc : ByteSet.digit.mem c = true) (hend : w ++ [c] ∈ machine.lang)
    (hv : w ++ c :: v ∈ machine.lang) :
    ∃ s', At u (w ++ [c]) s' ⟨x.uri, some w.length⟩ ∧
      ∀ f ∈ s', f ∈ readsUserinfo r ∪ readsPort r := by
  have hauthority : authorityBytes.mem c = true :=
    ByteSet.mem_of_within (k := .digit) (by decide) hc
  have hdelta : ∀ f ∈ s, ∀ t ∈ f.delta c, (t.acts = [] ∧ t.next ∈ readsUserinfo r) ∨
      (t.acts = [(r.place + 4, .markh)] ∧ t.next ∈ readsPort r) := by
    intro f hf t ht
    obtain hf | hf := hs f hf
    · obtain ⟨-, hin⟩ | ⟨rfl, -⟩ := delta_readsUserinfo hf ht
      · exact .inl hin
      · exact absurd hc (by decide)
    · rw [hf] at ht
      obtain ⟨-, hin⟩ | hexit := delta_portStart ht
      · exact .inr hin
      · rw [follow_outer hauthority] at hexit
        cases hexit
  obtain ⟨s', z, h', hs', -, hz⟩ := h.step_two hv (k := []) (by simp)
    (by simp [Placed]) (fun f hf t ht => (hdelta f hf t ht).imp And.left And.left) rfl
    (run_markh (by cases r <;> rfl) x)
  obtain ⟨f₀, hf₀, t₀, ht₀, hlast⟩ := exists_last (r := r) h hend
  obtain ⟨-, hlast'⟩ | ⟨hacts₀, -⟩ := hdelta f₀ hf₀ t₀ ht₀
  · exact absurd hlast' hlast
  rw [hz ⟨f₀, hf₀, t₀, ht₀, hacts₀⟩] at h'
  refine ⟨s', h', fun f hf => ?_⟩
  obtain ⟨g, hg, t, ht, rfl⟩ := (hs' f).mp hf
  exact (hdelta g hg t ht).imp And.right And.right

/-! ### The userinfo -/

/-- The `@` saves the text from the mark on as the userinfo. -/
theorem at_sign {uri : Uri} {m : Nat} (h : At u w s ⟨uri, some m⟩)
    (hs : ∀ f ∈ s, f ∈ readsUserinfo r ∪ readsHost r ∪ behindColon r ∪ readsPort r)
    (hv : w ++ 64 :: v ∈ machine.lang) (ht : textAt u m ((w.length : Int) - m) = .ok t) :
    ∃ s', At u (w ++ [64]) s' ⟨{ uri with userinfo := t }, none⟩ ∧
      ∀ f ∈ s', f = r.outer.plug r.hostPort := by
  have huserinfo : ∀ f ∈ readsUserinfo r, ∀ t ∈ f.delta 64,
      t.acts = [(r.place + 1, .saveUserinfo)] ∧ t.next = r.outer.plug r.hostPort := by
    intro f hf t ht
    obtain ⟨hc, -⟩ | ⟨-, hin⟩ := delta_readsUserinfo hf ht
    · exact absurd hc (by decide)
    · exact hin
  have hdelta : ∀ f ∈ s, ∀ t ∈ f.delta 64,
      t.acts = [(r.place + 1, .saveUserinfo)] ∧ t.next = r.outer.plug r.hostPort := by
    intro f hf t ht
    obtain ((hf | hf) | hf | hf) | hf := hs f hf
    · exact huserinfo f hf t ht
    · obtain ⟨hc, -⟩ | ⟨hc, -⟩ | hexit := delta_readsHost hf ht
      · exact absurd hc (by decide)
      · exact absurd hc (by decide)
      · rw [follow_outer (by decide)] at hexit
        cases hexit
    · exact huserinfo f hf t ht
    · rw [hf] at ht
      obtain ⟨hc, -⟩ | hexit := delta_portStart ht
      · exact absurd hc (by decide)
      · rw [follow_outer (by decide)] at hexit
        cases hexit
    · obtain ⟨hc, -⟩ | ⟨-, hexit⟩ := Context.delta_within hf ht
      · exact absurd hc (by decide)
      · change t ∈ r.outer.follow _ _ at hexit
        rw [follow_outer (by decide)] at hexit
        cases hexit
  obtain ⟨s', h', hs'⟩ := h.step_same hv (fun f hf t ht => (hdelta f hf t ht).1)
    (by simp [Placed]) (bind_of_ok (action_save ht uri).2.1 rfl)
  refine ⟨s', h', fun f hf => ?_⟩
  obtain ⟨g, hg, t, ht, rfl⟩ := (hs' f).mp hf
  exact (hdelta g hg t ht).2

/-- A userinfo up to its first colon could be a host. -/
theorem takeWhile_userinfo {a : Text} (ha : a ∈ userinfo.lang) :
    a.takeWhile (· ≠ 58) ∈ host.lang := by
  obtain ⟨ws, rfl, hws⟩ := ha
  refine .inr (.inr ?_)
  induction ws with
  | nil => exact Language.nil_mem_kstar _
  | cons b ws ih =>
      obtain ⟨hb, hws⟩ := List.forall_mem_cons.mp hws
      -- A piece without a colon is one of the host as well.
      have hpiece : (∀ c ∈ b, c ≠ 58) →
          b ∈ (Expr.alt (.set (unreserved.union subDelims)) pctEncoded : G).lang →
          ((b :: ws).flatten.takeWhile (· ≠ 58)) ∈ regName.lang := by
        intro hne hb
        obtain ⟨vs, hvs, hall⟩ := ih hws
        rw [List.flatten_cons, List.takeWhile_append_of_pos (by simpa using hne), hvs]
        exact ⟨b :: vs, rfl, List.forall_mem_cons.mpr ⟨hb, hall⟩⟩
      obtain ⟨c, hc, rfl⟩ | hb := hb
      · by_cases hcolon : c = 58
        · rw [hcolon]
          exact Language.nil_mem_kstar _
        · refine hpiece (by simpa using hcolon) (.inl ⟨c, ?_, rfl⟩)
          refine (ByteSet.mem_union.mp hc).resolve_right fun hc => hcolon ?_
          exact eq_ofNat (ByteSet.mem_byte.mp hc)
      · refine hpiece (fun c hc he => ?_) (.inr hb)
        have hsilent : (pctEncoded : G).silent (ByteSet.xdigit.union (.ofChars "%")) = true := by
          rfl
        have hmem := mem_of_silent hsilent hb c hc
        rw [he] at hmem
        exact absurd hmem (by decide)

theorem mem_hostPort {n : Nat} {a : Text} (ha : a ∈ host.lang) {d : Option Text}
    (hd : ∀ t ∈ d, t ∈ port.lang) : a ++ d.elim [] (58 :: ·) ∈ (hostPort n).lang := by
  refine append_mem_lang (e := hostAt n) ha ?_
  cases d with
  | none => exact .inr rfl
  | some d => exact .inl (append_mem_lang (u := [58]) ⟨58, by decide, rfl⟩ (hd d rfl))

/-- What is kept of a userinfo: if a digit follows its first colon, only what follows. -/
def keptUserinfo (a : Text) : Text :=
  match a.dropWhile (· ≠ 58) with
  | _ :: d :: v => if ByteSet.digit.mem d then d :: v else a
  | _ => a

theorem keptUserinfo_of_digit {a : Text} {b d : UInt8} (h : a.dropWhile (· ≠ 58) = b :: d :: v)
    (hd : ByteSet.digit.mem d = true) : keptUserinfo a = d :: v := by
  rw [keptUserinfo, h]
  exact if_pos hd

theorem keptUserinfo_of_not_digit {a : Text}
    (h : ∀ b d v, a.dropWhile (· ≠ 58) = b :: d :: v → ByteSet.digit.mem d = false) :
    keptUserinfo a = a := by
  unfold keptUserinfo
  split
  · next b d v hcons =>
      rw [h b d v hcons]
      rfl
  · rfl

/-- The `@` in front of which the whole userinfo is still marked. -/
theorem at_sign_kept {a : Text} {uri : Uri} (h : At u (w ++ a) s ⟨uri, some w.length⟩)
    (hs : ∀ f ∈ s, f ∈ readsUserinfo r ∪ readsHost r ∪ behindColon r ∪ readsPort r)
    (hv : w ++ a ++ 64 :: v ∈ machine.lang) (hu : u = w ++ a ++ t) (hkept : keptUserinfo a = a) :
    ∃ s', At u (w ++ a ++ [64]) s' ⟨{ uri with userinfo := keptUserinfo a }, none⟩ ∧
      ∀ f ∈ s', f = r.outer.plug r.hostPort := by
  apply at_sign h hs hv
  rw [hkept, hu]
  exact textAt_middle w a t

/-- What follows the first colon of a userinfo, and the `@` behind it. -/
theorem userinfo_behind_colon {a d : Text} {uri : Uri}
    (h : At u (w ++ a ++ [58]) s ⟨uri, some w.length⟩) (hs : ∀ f ∈ s, f ∈ behindColon r)
    (ha : ∀ c ∈ a, c ≠ 58) (hd : ∀ c ∈ d, userinfoBytes.mem c = true)
    (hport : ∀ c, ByteSet.digit.mem c = true → w ++ a ++ [58] ++ [c] ∈ machine.lang)
    (hv : w ++ (a ++ 58 :: d) ++ 64 :: v ∈ machine.lang) (hu : u = w ++ (a ++ 58 :: d) ++ t) :
    ∃ s', At u (w ++ (a ++ 58 :: d) ++ [64]) s'
        ⟨{ uri with userinfo := keptUserinfo (a ++ 58 :: d) }, none⟩ ∧
      ∀ f ∈ s', f = r.outer.plug r.hostPort := by
  have hdrop : (a ++ 58 :: d).dropWhile (· ≠ 58) = 58 :: d := by
    rw [List.dropWhile_append_of_pos (by simpa using ha)]
    rfl
  cases d with
  | nil =>
      apply at_sign_kept (by simpa using h) (fun f hf => .inl (.inr (hs f hf))) hv hu
      refine keptUserinfo_of_not_digit fun b d v hcons => ?_
      rw [hdrop] at hcons
      cases hcons
  | cons c d =>
      obtain ⟨hc, hd⟩ := List.forall_mem_cons.mp hd
      by_cases hdigit : ByteSet.digit.mem c = true
      · obtain ⟨s₁, h₁, hs₁⟩ := digit_step (v := d ++ 64 :: v) h hs hdigit (hport c hdigit)
          (by simpa using hv)
        obtain ⟨s₂, h₂, hs₂⟩ := h₁.quiet quiet_userinfo_port hs₁ hd (v := 64 :: v)
          (by simpa using hv)
        rw [keptUserinfo_of_digit hdrop hdigit]
        have htext : textAt u (w ++ a ++ [58]).length
            (((w ++ a ++ [58] ++ (c :: d)).length : Int) - (w ++ a ++ [58]).length) =
              .ok (c :: d) := by
          rw [hu, show w ++ (a ++ 58 :: c :: d) ++ t = w ++ a ++ [58] ++ (c :: d) ++ t by simp]
          exact textAt_middle _ _ _
        rw [show w ++ a ++ [58] ++ [c] ++ d = w ++ a ++ [58] ++ (c :: d) by simp] at h₂
        obtain ⟨s₃, h₃, hs₃⟩ := at_sign h₂
          (fun f hf => (hs₂ f hf).elim (fun hf => .inl (.inl (.inl hf))) .inr)
          (by simpa using hv) htext
        exact ⟨s₃, by simpa using h₃, hs₃⟩
      · have hauthority : authorityBytes.mem c = true :=
          ByteSet.mem_union.mpr (.inl (ByteSet.mem_union.mpr (.inl hc)))
        have hdelta : ∀ f ∈ s, ∀ t ∈ f.delta c, t.acts = [] ∧ t.next ∈ readsUserinfo r := by
          intro f hf t ht
          obtain hf | hf := hs f hf
          · obtain ⟨-, hin⟩ | ⟨rfl, -⟩ := delta_readsUserinfo hf ht
            · exact hin
            · exact absurd hc (by decide)
          · rw [hf] at ht
            obtain ⟨hc, -⟩ | hexit := delta_portStart ht
            · exact absurd hc hdigit
            · rw [follow_outer hauthority] at hexit
              cases hexit
        obtain ⟨s₁, h₁, hs₁⟩ := h.step_same (v := d ++ 64 :: v) (by simpa using hv)
          (fun f hf t ht => (hdelta f hf t ht).1) (by simp [Placed]) rfl
        have hin : ∀ f ∈ s₁, f ∈ readsUserinfo r ∪ readsPort r := by
          intro f hf
          obtain ⟨g, hg, t, ht, rfl⟩ := (hs₁ f).mp hf
          exact .inl (hdelta g hg t ht).2
        obtain ⟨s₂, h₂, hs₂⟩ := h₁.quiet quiet_userinfo_port hin hd (v := 64 :: v)
          (by simpa using hv)
        apply at_sign_kept (by simpa using h₂)
          (fun f hf => (hs₂ f hf).elim (fun hf => .inl (.inl (.inl hf))) .inr) hv hu
        refine keptUserinfo_of_not_digit fun b d v hcons => ?_
        rw [hdrop] at hcons
        cases hcons
        exact Bool.eq_false_iff.mpr hdigit

/-- The userinfo and the `@` behind it. -/
theorem userinfo_text {a : Text} (h : At u w s x) (hs : ∀ f ∈ s, f = r.outer.plug r.authority)
    (ha : a ∈ userinfo.lang) (hhost : ∀ v ∈ r.hostPort.lang, w ++ v ∈ machine.lang)
    (hv : w ++ a ++ 64 :: v ∈ machine.lang) (hu : u = w ++ a ++ t) :
    ∃ s' b, At u (w ++ a ++ [64]) s'
        ⟨{ x.uri with userinfo := keptUserinfo a, host := b }, none⟩ ∧
      ∀ f ∈ s', f = r.outer.plug r.hostPort := by
  have hname := takeWhile_userinfo ha
  have hbytes := mem_of_silent userinfo_silent ha
  have hsplit := List.takeWhile_append_dropWhile (p := fun c : UInt8 => decide (c ≠ 58)) (l := a)
  have hclear : ∀ c ∈ a.takeWhile (· ≠ 58), c ≠ 58 := fun c hc => by
    simpa using List.mem_takeWhile_imp hc
  generalize a.takeWhile (· ≠ 58) = name at hname hsplit hclear
  cases hrest : a.dropWhile (· ≠ 58) with
  | nil =>
      rw [hrest, List.append_nil] at hsplit
      subst hsplit
      have hkept : keptUserinfo name = name :=
        keptUserinfo_of_not_digit fun b d v hcons => by rw [hrest] at hcons; cases hcons
      obtain ⟨s', y, h', hread⟩ := host_text (b := true) h hs hname hv
      obtain ⟨rfl, rfl, hs'⟩ | ⟨-, rfl, hs'⟩ := hread
      · -- An empty userinfo: its mark is set on the `@`.
        have hdelta : ∀ f ∈ s', ∀ t ∈ f.delta 64,
            t.acts = [(r.place, .markh), (r.place + 1, .saveUserinfo)] ∧
              t.next = r.outer.plug r.hostPort := by
          intro f hf t ht
          rw [hs' f hf] at ht
          obtain ⟨-, -, -, hc⟩ | ⟨-, -, hin⟩ | ⟨-, ⟨hc, -⟩ | ⟨hc, -⟩⟩ | ⟨hc, -⟩ :=
            delta_opening r (by decide) ht
          · exact absurd hc (by decide)
          · exact hin
          · exact absurd hc (by decide)
          · exact absurd hc (by decide)
          · exact absurd hc (by decide)
        have hlist : ordered [(r.place, UriAction.markh), (r.place + 1, .saveUserinfo)] =
            [.markh, .saveUserinfo] := by cases r <;> rfl
        have hrun : runEvents (UriParse.action u)
            ((ordered [(r.place, UriAction.markh), (r.place + 1, .saveUserinfo)]).map
              ((w ++ []).length, ·)) y = .ok ⟨{ y.uri with userinfo := [] }, none⟩ := by
          rw [hlist]
          refine bind_of_ok rfl (bind_of_ok ?_ rfl)
          exact (action_save (textAt_here (by simp [hu])) y.uri).2.1
        obtain ⟨s₁, h₁, hs₁⟩ := h'.step_same hv (fun f hf t ht => (hdelta f hf t ht).1)
          (by cases r <;> decide) hrun
        refine ⟨s₁, y.uri.host, by simpa [hkept] using h₁, fun f hf => ?_⟩
        obtain ⟨g, hg, t, ht, rfl⟩ := (hs₁ f).mp hf
        exact (hdelta g hg t ht).2
      · obtain ⟨s₁, h₁, hs₁⟩ :=
          at_sign_kept h' (fun f hf => .inl (.inl (hs' f hf))) hv hu hkept
        exact ⟨s₁, x.uri.host, h₁, hs₁⟩
  | cons c d =>
      have hc : c = 58 := by
        have hhead := List.head?_dropWhile_not (fun c : UInt8 => decide (c ≠ 58)) a
        rw [hrest] at hhead
        simpa using hhead
      subst hc
      rw [hrest] at hsplit
      subst hsplit
      have hend : w ++ name ++ [58] ∈ machine.lang := by
        simpa using hhost _ (mem_hostPort hname (d := some []) (by simp [nil_mem_lang, port, out]))
      obtain ⟨s', y, h', hread⟩ := host_text (b := true) (v := 58 :: d ++ 64 :: v) h hs hname
        (by simpa using hv)
      obtain ⟨s₁, h₁, hs₁⟩ := colon (v := d ++ 64 :: v) (t := 58 :: d ++ t) h' hread hend
        (by simpa using hv) (by simpa using hu)
      have hport : ∀ c, ByteSet.digit.mem c = true → w ++ name ++ [58] ++ [c] ∈ machine.lang := by
        intro c hc
        have hdigits : [c] ∈ port.lang := ⟨[[c]], by simp, by simpa using ⟨c, hc, rfl⟩⟩
        simpa using hhost _ (mem_hostPort hname (d := some [c]) (by simpa using hdigits))
      obtain ⟨s₂, h₂, hs₂⟩ := userinfo_behind_colon (d := d) h₁ hs₁ hclear
        (fun c hc => hbytes c (by simp [hc])) hport hv hu
      exact ⟨s₂, name, h₂, hs₂⟩

/-! ### The end of the authority -/

/-- A byte that leaves the authority, or the end of the string, runs `l` first. -/
structure Ended (r : Form) (l : List (Nat × UriAction)) (s : State UriAction) : Prop where
  next : ∀ c, authorityBytes.mem c = false → ∀ f ∈ s, ∀ t ∈ f.delta c,
    t ∈ r.outer.follow (l, []) c
  finish : ∀ f ∈ s, ∀ q, f.out = some q → r.outer.exit (l, []) = some q

def portText (d : Option Text) : Text := d.elim [] (58 :: ·)

/-- The actions that are left to run at the end of the authority. -/
def closing (r : Form) (b : Bool) (a : Text) : Option Text → List (Nat × UriAction)
  | none =>
      if a = [] then prior r b ++ [(r.place + 3, .saveHost), (r.place + 2, .markh)]
      else [(r.place + 3, .saveHost)]
  | some [] => [(r.place + 5, .savePort), (r.place + 4, .markh)]
  | some (_ :: _) => [(r.place + 5, .savePort)]

/-- The parser at the end of the authority, with the host read from `w` on. -/
def afterHost (x : UriParse) (w a : Text) : Option Text → UriParse
  | none => if a = [] then x else ⟨x.uri, some w.length⟩
  | some [] => ⟨{ x.uri with host := a }, some w.length⟩
  | some (_ :: _) => ⟨{ x.uri with host := a }, some (w ++ a ++ [58]).length⟩

theorem not_mem_of_authority {m : ByteSet} (hm : m.within authorityBytes = true)
    (hc : authorityBytes.mem c = false) : ¬ m.mem c = true := by
  intro hmem
  rw [ByteSet.mem_of_within hm hmem] at hc
  cases hc

/-- A userinfo has no way out of the authority. -/
theorem readsUserinfo_ended {f : Expr UriAction} (hf : f ∈ readsUserinfo r) :
    (∀ c, authorityBytes.mem c = false → f.delta c = []) ∧ f.out = none := by
  constructor
  · intro c hc
    apply List.eq_nil_iff_forall_not_mem.mpr
    intro t ht
    obtain ⟨hmem, -⟩ | ⟨rfl, -⟩ := delta_readsUserinfo hf ht
    · exact not_mem_of_authority (by decide) hc hmem
    · exact absurd hc (by decide)
  · apply Option.eq_none_iff_forall_ne_some.mpr
    intro q hq
    exact nil_not_mem_readsUserinfo hf (nil_mem_lang.mpr (by rw [hq]; rfl))

/-- Next to a userinfo, the rest of a state decides what ends the authority. -/
theorem Ended.of_rest {l : List (Nat × UriAction)}
    (hnext : ∀ c, authorityBytes.mem c = false → ∀ f ∈ s, f ∉ readsUserinfo r → ∀ t ∈ f.delta c,
      t ∈ r.outer.follow (l, []) c)
    (hfinish : ∀ f ∈ s, f ∉ readsUserinfo r → ∀ q, f.out = some q →
      r.outer.exit (l, []) = some q) : Ended r l s := by
  constructor
  · intro c hc f hf t ht
    by_cases hin : f ∈ readsUserinfo r
    · rw [(readsUserinfo_ended hin).1 c hc] at ht
      cases ht
    · exact hnext c hc f hf hin t ht
  · intro f hf q hq
    by_cases hin : f ∈ readsUserinfo r
    · rw [(readsUserinfo_ended hin).2] at hq
      cases hq
    · exact hfinish f hf hin q hq

theorem ended_opening {b : Bool} (hs : ∀ f ∈ s, f = r.outer.plug (opening r b)) :
    Ended r (prior r b ++ [(r.place + 3, .saveHost), (r.place + 2, .markh)]) s := by
  have hout : (opening r b).out =
      some (prior r b ++ [(r.place + 3, .saveHost), (r.place + 2, .markh)], []) := by
    cases r <;> cases b <;> rfl
  constructor
  · intro c hc f hf t ht
    have hfirsts : (opening r b).firsts.within authorityBytes = true := by
      cases r <;> cases b <;> decide
    have hfirst : (opening r b).firsts.mem c = false :=
      Bool.eq_false_iff.mpr (not_mem_of_authority hfirsts hc)
    rw [hs f hf, Context.delta_plug, delta_of_not_firsts hfirst, hout] at ht
    exact ht
  · intro f hf q hq
    rw [hs f hf, Context.out_plug, hout] at hq
    exact hq

theorem ended_host (hs : ∀ f ∈ s, f ∈ readsUserinfo r ∪ readsHost r) :
    Ended r [(r.place + 3, .saveHost)] s := by
  apply Ended.of_rest
  · intro c hc f hf hin t ht
    obtain ⟨hmem, -⟩ | ⟨rfl, -⟩ | hexit := delta_readsHost ((hs f hf).resolve_left hin) ht
    · exact absurd hmem (not_mem_of_authority (by decide) hc)
    · exact absurd hc (by decide)
    · exact hexit
  · intro f hf hin q hq
    exact (Context.out_within ((hs f hf).resolve_left hin) hq).1

theorem ended_colon (hs : ∀ f ∈ s, f ∈ behindColon r) :
    Ended r [(r.place + 5, .savePort), (r.place + 4, .markh)] s := by
  apply Ended.of_rest
  · intro c hc f hf hin t ht
    rw [(hs f hf).resolve_left hin] at ht
    obtain ⟨hmem, -⟩ | hexit := delta_portStart ht
    · exact absurd hmem (not_mem_of_authority (by decide) hc)
    · exact hexit
  · intro f hf hin q hq
    rw [(hs f hf).resolve_left hin, portStart, Context.out_plug] at hq
    exact hq

theorem ended_port (hs : ∀ f ∈ s, f ∈ readsUserinfo r ∪ readsPort r) :
    Ended r [(r.place + 5, .savePort)] s := by
  apply Ended.of_rest
  · intro c hc f hf hin t ht
    obtain ⟨hmem, -⟩ | ⟨-, hexit⟩ := Context.delta_within ((hs f hf).resolve_left hin) ht
    · exact absurd hmem (not_mem_of_authority (by decide) hc)
    · exact hexit
  · intro f hf hin q hq
    exact (Context.out_within ((hs f hf).resolve_left hin) hq).1

/-- The host and the port, up to the end of the authority. -/
theorem hostPort_text {b : Bool} {a : Text} {d : Option Text} (h : At u w s x)
    (hs : ∀ f ∈ s, f = r.outer.plug (opening r b)) (ha : a ∈ host.lang)
    (hd : ∀ t ∈ d, t ∈ port.lang) (hhost : ∀ v ∈ r.hostPort.lang, w ++ v ∈ machine.lang)
    (hv : w ++ a ++ portText d ++ v ∈ machine.lang) (hu : u = w ++ a ++ portText d ++ t) :
    ∃ s', At u (w ++ a ++ portText d) s' (afterHost x w a d) ∧ Ended r (closing r b a d) s' := by
  obtain ⟨s₁, y, h₁, hread⟩ := host_text (v := portText d ++ v) h hs ha (by simpa using hv)
  cases d with
  | none =>
      refine ⟨s₁, ?_⟩
      obtain ⟨rfl, rfl, hs₁⟩ | ⟨hne, rfl, hs₁⟩ := hread
      · exact ⟨by simpa [portText, afterHost] using h₁, ended_opening hs₁⟩
      · rw [closing, afterHost, if_neg hne, if_neg hne]
        exact ⟨by simpa [portText] using h₁, ended_host hs₁⟩
  | some d =>
      have hend : w ++ a ++ [58] ∈ machine.lang := by
        simpa using hhost _ (mem_hostPort ha (d := some []) (by simp [nil_mem_lang, port, out]))
      obtain ⟨s₂, h₂, hs₂⟩ := colon (v := d ++ v) (t := 58 :: d ++ t) h₁ hread hend
        (by simpa [portText] using hv) (by simpa [portText] using hu)
      cases d with
      | nil => exact ⟨s₂, h₂, ended_colon hs₂⟩
      | cons c d =>
          have hdigits := mem_of_silent port_silent (hd _ rfl)
          obtain ⟨hc, hdigits⟩ := List.forall_mem_cons.mp hdigits
          have hone : [c] ∈ port.lang := ⟨[[c]], by simp, by simpa using ⟨c, hc, rfl⟩⟩
          have hend : w ++ a ++ [58] ++ [c] ∈ machine.lang := by
            simpa using hhost _ (mem_hostPort ha (d := some [c]) (by simpa using hone))
          obtain ⟨s₃, h₃, hs₃⟩ := digit_step (v := d ++ v) h₂ hs₂ hc hend
            (by simpa [portText] using hv)
          have hbytes : ∀ c ∈ d, userinfoBytes.mem c = true := fun c hc =>
            ByteSet.mem_of_within (k := .digit) (by decide) (hdigits c hc)
          obtain ⟨s₄, h₄, hs₄⟩ := h₃.quiet quiet_userinfo_port hs₃ hbytes (v := v)
            (by simpa [portText] using hv)
          exact ⟨s₄, by simpa [portText, afterHost] using h₄, ended_port hs₄⟩

end UriMachine

end Sylar.Http

import Sylar.Lib.Decimals
import Sylar.Http.SizeLine
import Sylar.Http.UriComponents

/-!
# `Uri::toString`

The text that a URI is printed as, and what `Create` makes of it. The text always
has `://` in it, so it can be read back only if there is a scheme; then the host may
be empty, and a path that was empty or lost is printed as a slash.
-/

namespace Sylar.Http

open Sylar.Lib Sylar.Lib.Ragel Sylar.Lib.Ragel.Expr

namespace Uri

def isDefaultPort (u : Uri) : Bool :=
  if u.port = 0 then true
  else if u.scheme = ascii "http" then u.port = 80
  else if u.scheme = ascii "https" then u.port = 443
  else false

/-- What `dump` writes, as a string. -/
def toString (u : Uri) : Text :=
  u.scheme ++ ascii "://" ++ u.userinfo ++ (if u.userinfo = [] then [] else ascii "@") ++ u.host ++
    (if u.isDefaultPort then [] else ascii ":" ++ Numerals.decimal u.port.toNat) ++ u.getPath ++
    (if u.query = [] then [] else ascii "?") ++ u.query ++
    (if u.fragment = [] then [] else ascii "#") ++ u.fragment

/-- The parts of a URI are words of the grammar, and its userinfo is kept by `Create`. -/
structure Printable (u : Uri) : Prop where
  scheme : u.scheme ∈ UriGrammar.schemeName.lang
  userinfo : u.userinfo ∈ UriGrammar.userinfo.lang
  kept : UriMachine.keptUserinfo u.userinfo = u.userinfo
  host : u.host ∈ UriGrammar.host.lang
  path : u.getPath ∈ UriGrammar.pathAbempty.lang
  query : u.query ∈ UriGrammar.queryText.lang
  fragment : u.fragment ∈ UriGrammar.queryText.lang

/-- The URI that is read back: a default port is not printed, and an empty path is a slash. -/
def normal (u : Uri) : Uri :=
  { u with path := u.getPath, port := if u.isDefaultPort then 0 else u.port }

section Normal

variable (u : Uri)

theorem getPath_ne_nil : u.getPath ≠ [] := by
  unfold getPath
  split
  · decide
  · assumption

theorem getPath_normal : u.normal.getPath = u.getPath := if_neg u.getPath_ne_nil

/-- The port that is not printed is the one that `getPort` supplies. -/
theorem getPort_normal : u.normal.getPort = u.getPort := by
  have hhttps : ascii "https" ≠ ascii "http" := by decide
  unfold normal getPort isDefaultPort
  by_cases hport : u.port = 0
  · simp [hport]
  · by_cases hhttp : u.scheme = ascii "http"
    · by_cases hdefault : u.port = 80 <;> simp [hport, hhttp, hdefault]
    · by_cases hsecure : u.scheme = ascii "https"
      · by_cases hdefault : u.port = 443 <;> simp [hport, hsecure, hhttps, hdefault]
      · simp [hport, hhttp, hsecure]

theorem isDefaultPort_normal : u.normal.isDefaultPort = u.isDefaultPort := by
  cases hdefault : u.isDefaultPort with
  | true =>
      have hzero : u.normal.port = 0 := if_pos hdefault
      rw [isDefaultPort, if_pos hzero]
  | false =>
      have hsame : u.normal.port = u.port := if_neg (by simp [hdefault])
      rw [isDefaultPort, hsame]
      exact hdefault

theorem toString_normal : u.normal.toString = u.toString := by
  unfold toString
  rw [getPath_normal, isDefaultPort_normal]
  cases hdefault : u.isDefaultPort with
  | true => rfl
  | false =>
      have hsame : u.normal.port = u.port := if_neg (by simp [hdefault])
      rw [hsame]
      rfl

end Normal

/-- A part that is printed with its delimiter, unless it is empty. -/
def present (t : Text) : Option Text := if t = [] then none else some t

@[simp]
theorem getD_present (t : Text) : (present t).getD [] = t := by
  unfold present
  split
  · next h => exact h.symm
  · rfl

theorem mem_of_present {e : UriGrammar.G} {t : Text} (h : t ∈ e.lang) :
    ∀ w ∈ present t, w ∈ e.lang := by
  intro w hw
  unfold present at hw
  split at hw
  · cases hw
  · cases hw
    exact h

theorem decimal_mem_port (n : Nat) : Numerals.decimal n ∈ UriGrammar.port.lang := by
  refine ⟨(Numerals.decimal n).map fun b => [b], ?_, fun w hw => ?_⟩
  · rw [← List.flatMap_def, List.flatMap_singleton']
  · obtain ⟨b, hb, rfl⟩ := List.mem_map.mp hw
    have hdigit : ∀ b : UInt8, (Numerals.digit 10 b).isSome → ByteSet.digit.mem b = true :=
      forall_byte (by decide +kernel)
    exact ⟨b, hdigit b (Numerals.isSome_digit_of_mem_decimal hb), rfl⟩

/-- What is kept of a userinfo is one again. -/
theorem keptUserinfo_mem {t : Text} (ht : t ∈ UriGrammar.userinfo.lang) :
    UriMachine.keptUserinfo t ∈ UriGrammar.userinfo.lang := by
  -- what follows the first colon starts with a new piece
  have hrest : ∀ b v, t.dropWhile (· ≠ 58) = b :: v → v ∈ UriGrammar.userinfo.lang := by
    obtain ⟨ws, rfl, hws⟩ := ht
    induction ws with
    | nil => exact fun b v h => by cases h
    | cons w ws ih =>
        obtain ⟨hw, hws⟩ := List.forall_mem_cons.mp hws
        intro b v hdrop
        rw [List.flatten_cons] at hdrop
        by_cases hcolon : w = [58]
        · rw [hcolon] at hdrop
          cases hdrop
          exact ⟨ws, rfl, hws⟩
        · have hne : ∀ c ∈ w, c ≠ 58 := by
            obtain ⟨c, -, rfl⟩ | hw := hw
            · simpa using hcolon
            · rintro _ hc rfl
              have hsilent : (UriGrammar.pctEncoded).silent
                  (ByteSet.xdigit.union (.ofChars "%")) = true := by rfl
              exact absurd (mem_of_silent hsilent hw 58 hc) (by decide)
          rw [List.dropWhile_append_of_pos (by simpa using hne)] at hdrop
          exact ih hws b v hdrop
  unfold UriMachine.keptUserinfo
  split
  · next b c v hdrop =>
      split
      · exact hrest b (c :: v) hdrop
      · exact ht
  · exact ht

namespace Printable

variable {u : Uri} (h : u.Printable)

/-- The components that are printed. -/
def components : Components where
  scheme := some u.scheme
  authority := some
    { userinfo := present u.userinfo
      host := u.host
      port := if u.isDefaultPort then none else some (Numerals.decimal u.port.toNat)
      userinfo_mem := mem_of_present h.userinfo
      host_mem := h.host
      port_mem := by
        intro t ht
        split at ht
        · cases ht
        · cases ht
          exact decimal_mem_port _ }
  path := u.getPath
  query := present u.query
  fragment := present u.fragment
  scheme_mem := by
    rintro _ ⟨⟩
    exact h.scheme
  path_mem := h.path
  query_mem := mem_of_present h.query
  fragment_mem := mem_of_present h.fragment

theorem text_components : h.components.text = u.toString := by
  have hpart : ∀ (c : UInt8) (t : Text),
      (present t).elim [] (c :: ·) = (if t = [] then [] else [c]) ++ t := by
    intro c t
    unfold present
    split
    · next ht => rw [ht]; rfl
    · rfl
  have huserinfo : (present u.userinfo).elim [] (· ++ [64]) =
      u.userinfo ++ (if u.userinfo = [] then [] else [64]) := by
    unfold present
    split
    · next ht => rw [ht]; rfl
    · rfl
  have hport : (if u.isDefaultPort then none else some (Numerals.decimal u.port.toNat)).elim []
        (58 :: ·) =
      (if u.isDefaultPort then [] else ascii ":" ++ Numerals.decimal u.port.toNat) := by
    split <;> rfl
  simp only [Components.text, components, Authority.text, Option.elim_some, hpart, huserinfo,
    hport, toString, List.append_assoc, List.cons_append, List.nil_append]
  rfl

theorem portValue_components :
    h.components.portValue = if u.isDefaultPort then 0 else u.port.toNat := by
  rw [Components.portValue, Components.portDigits]
  change Numerals.numeral 10 0
    ((if u.isDefaultPort then none else some (Numerals.decimal u.port.toNat)).getD []) = _
  split
  · rfl
  · exact Numerals.numeral_decimal _

theorem stored_components : h.components.stored = u.normal := by
  have huserinfo : ((present u.userinfo).map UriMachine.keptUserinfo).getD [] = u.userinfo := by
    unfold present
    split
    · next ht => exact ht.symm
    · exact h.kept
  have hport : UInt16.ofNat (if u.isDefaultPort then 0 else u.port.toNat) =
      if u.isDefaultPort then 0 else u.port := by
    split
    · rfl
    · exact UInt16.ofNat_toNat
  have hkeeps : h.components.keepsPath = true := by
    have hdigits := Numerals.decimal_ne_nil u.port.toNat
    simp [Components.keepsPath, components, hdigits]
  rw [Components.stored, hkeeps, h.portValue_components, hport]
  simp only [components, Option.bind_some, huserinfo, getD_present, if_true]
  rfl

include h in
/-- The printed text is read back. -/
theorem create_toString : Uri.create u.toString = .ok (some u.normal) := by
  rw [← h.text_components, ← h.stored_components]
  refine h.components.create_text ?_
  rw [h.portValue_components]
  split
  · exact Nat.zero_le _
  · exact Nat.le_of_lt_succ u.port.toNat_lt

end Printable

/-- Behind a scheme, what `Create` has stored can be printed. -/
theorem stored_printable {d : Components} (hscheme : d.scheme.isSome = true)
    (hkept : UriMachine.keptUserinfo d.stored.userinfo = d.stored.userinfo) :
    d.stored.Printable := by
  have hempty : ∀ {e : UriGrammar.G} {o : Option Text}, [] ∈ e.lang → (∀ t ∈ o, t ∈ e.lang) →
      o.getD [] ∈ e.lang := by
    intro e o hnil ho
    cases o with
    | none => exact hnil
    | some t => exact ho t rfl
  obtain ⟨k, hk⟩ := Option.isSome_iff_exists.mp hscheme
  refine ⟨?_, ?_, hkept, ?_, ?_, hempty (nil_mem_lang.mpr rfl) d.query_mem,
    hempty (nil_mem_lang.mpr rfl) d.fragment_mem⟩
  · rw [Components.stored, hk]
    exact d.scheme_mem k hk
  · refine hempty (nil_mem_lang.mpr rfl) fun t ht => ?_
    obtain ⟨w, hw, rfl⟩ := Option.map_eq_some_iff.mp ht
    obtain ⟨a, -, ha⟩ := Option.bind_eq_some_iff.mp hw
    exact keptUserinfo_mem (a.userinfo_mem w ha)
  · refine hempty (nil_mem_lang.mpr rfl) fun t ht => ?_
    obtain ⟨a, -, rfl⟩ := Option.map_eq_some_iff.mp ht
    exact a.host_mem
  · unfold getPath
    split
    · decide
    · next hpath =>
        -- a path is stored only behind an authority
        have hkeeps : d.keepsPath = true := by
          by_contra hlost
          exact hpath (if_neg hlost)
        have hstored : d.stored.path = d.path := if_pos hkeeps
        obtain ⟨-, hany⟩ := Bool.and_eq_true_iff.mp hkeeps
        rw [Option.any_eq_true] at hany
        obtain ⟨a, ha, -⟩ := hany
        have hmem := d.path_mem
        rw [ha] at hmem
        rw [hstored]
        exact hmem

theorem create_colon (t : Text) : Uri.create (58 :: t) = .ok none := by
  rw [Uri.create, UriMachine.start_main]
  rfl

end Uri

end Sylar.Http

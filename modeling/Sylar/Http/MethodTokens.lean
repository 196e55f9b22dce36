import Mathlib.Data.List.Find
import Mathlib.Data.List.TakeWhile
import Sylar.Http.RequestParser
import Sylar.Lib.Cutting

/-!
# The method of a request

`on_request_method` gives the start of the token to `CharsToHttpMethod`, which does not
know where the token ends.
-/

namespace Sylar.Http

open Sylar.Lib

/-- `StringToHttpMethod`: `strcmp` stops at a NUL. -/
def stringToHttpMethod (m : Text) : Option HttpMethod :=
  (httpMethodMap.find? fun entry => ascii entry.2 = m.takeWhile (· ≠ 0)).map Prod.fst

/-- `HttpMethodToString`. The index of `INVALID_METHOD` is that of the end of the table. -/
def httpMethodToString (m : Option HttpMethod) : String :=
  (httpMethodMap.map Prod.snd).getD (m.elim httpMethodMap.length HttpMethod.ctorIdx) "<unknow>"

/-- The bytes of the method tokens in question. -/
def isTokenByte (c : UInt8) : Bool := (65 ≤ c && c ≤ 90) || (48 ≤ c && c ≤ 57)

/-- The token `t` is matched as a whole when ` ` and `rest` follow it. -/
structure MatchedExactly (t rest : Text) : Prop where
  known : ∀ m, ascii (httpMethodToString (some m)) = t → ∀ p : HttpRequestParser,
    p.onRequestMethod (t ++ 32 :: rest) = { p with data := { p.data with method := m } }
  unknown : (∀ m, ascii (httpMethodToString (some m)) ≠ t) → ∀ p : HttpRequestParser,
    p.onRequestMethod (t ++ 32 :: rest) = { p with error := 1000 }
  chars : charsToHttpMethod (t ++ 32 :: rest) = stringToHttpMethod t

/-- No name of a method begins another one. -/
theorem httpMethodMap_prefix_free : ∀ a ∈ httpMethodMap, ∀ b ∈ httpMethodMap,
    (ascii a.2).isPrefixOf (ascii b.2) = true → a = b := by decide +kernel

theorem stringToHttpMethod_name : ∀ entry ∈ httpMethodMap,
    stringToHttpMethod (ascii entry.2) = some entry.1 := by decide +kernel

theorem httpMethodMap_ctorIdx (m : HttpMethod) :
    httpMethodMap[m.ctorIdx]? = some (m, httpMethodToString (some m)) := by
  cases m <;> rfl

theorem mem_httpMethodMap (m : HttpMethod) : (m, httpMethodToString (some m)) ∈ httpMethodMap :=
  List.mem_of_getElem? (httpMethodMap_ctorIdx m)

theorem httpMethodToString_fst : ∀ entry ∈ httpMethodMap,
    httpMethodToString (some entry.1) = entry.2 := by decide +kernel

theorem takeWhile_of_not_mem {t : Text} (ht : 0 ∉ t) : t.takeWhile (· ≠ 0) = t :=
  List.takeWhile_eq_self_iff.2 fun c hc => decide_eq_true fun h : c = 0 => ht (h ▸ hc)

theorem stringToHttpMethod_eq_some_iff {t : Text} (ht : 0 ∉ t) {m : HttpMethod} :
    stringToHttpMethod t = some m ↔ ascii (httpMethodToString (some m)) = t := by
  constructor
  · intro h
    obtain ⟨entry, hfind, rfl⟩ := Option.map_eq_some_iff.1 h
    have hname := List.find?_some hfind
    rw [takeWhile_of_not_mem ht, decide_eq_true_iff] at hname
    rw [httpMethodToString_fst entry (List.mem_of_find?_eq_some hfind), hname]
  · rintro rfl
    exact stringToHttpMethod_name (m, httpMethodToString (some m)) (mem_httpMethodMap m)

/-- The only name with a blank. -/
theorem eq_msearch_of_blank : ∀ entry ∈ httpMethodMap, 32 ∈ ascii entry.2 →
    entry = (.MSEARCH, "M - SEARCH") := by decide +kernel

/-- The names with which the memory behind a token can start. -/
theorem name_prefix_iff {t rest : Text} (ht : 32 ∉ t) {entry : HttpMethod × String}
    (hentry : entry ∈ httpMethodMap) :
    (ascii entry.2).isPrefixOf (t ++ 32 :: rest) = true ↔
      ascii entry.2 <+: t ∨
        entry = (.MSEARCH, "M - SEARCH") ∧ t = ascii "M" ∧ ascii "- SEARCH" <+: rest := by
  rw [List.isPrefixOf_iff_prefix]
  by_cases hblank : 32 ∈ ascii entry.2
  · obtain rfl := eq_msearch_of_blank entry hentry hblank
    have hname : ascii "M - SEARCH" = ascii "M" ++ 32 :: ascii "- SEARCH" := by decide
    have hnot : ¬ ascii "M - SEARCH" <+: t := fun h => ht (h.subset hblank)
    rw [or_iff_right hnot, and_iff_right rfl, hname, append_cons_prefix_iff (by decide) ht,
      eq_comm]
  · rw [prefix_append_cons_iff hblank]
    refine ⟨Or.inl, fun h => h.resolve_right ?_⟩
    rintro ⟨rfl, -⟩
    exact hblank (by decide)

/-- The two lookups decide what the parser does. -/
theorem matchedExactly_of_chars {t rest : Text} (ht : 0 ∉ t)
    (h : charsToHttpMethod (t ++ 32 :: rest) = stringToHttpMethod t) : MatchedExactly t rest where
  known m hm p := by
    rw [HttpRequestParser.onRequestMethod, h, (stringToHttpMethod_eq_some_iff ht).2 hm]
  unknown hnone p := by
    have hstring : stringToHttpMethod t = none := by
      rw [Option.eq_none_iff_forall_ne_some]
      intro m hm
      exact hnone m ((stringToHttpMethod_eq_some_iff ht).1 hm)
    rw [HttpRequestParser.onRequestMethod, h, hstring]
  chars := h

/-- A name that the memory starts with makes the token known. -/
theorem exists_name_of_matched {t rest : Text} (ht : 0 ∉ t) (h : MatchedExactly t rest)
    {entry : HttpMethod × String} (hentry : entry ∈ httpMethodMap)
    (hname : (ascii entry.2).isPrefixOf (t ++ 32 :: rest) = true) :
    ∃ m, ascii (httpMethodToString (some m)) = t := by
  have hsome : (httpMethodMap.find? fun e => (ascii e.2).isPrefixOf (t ++ 32 :: rest)).isSome :=
    List.find?_isSome.2 ⟨entry, hentry, hname⟩
  obtain ⟨found, hfound⟩ := Option.isSome_iff_exists.1 hsome
  have hchars : charsToHttpMethod (t ++ 32 :: rest) = some found.1 := by
    rw [charsToHttpMethod, hfound]
    rfl
  exact ⟨found.1, (stringToHttpMethod_eq_some_iff ht).1 (h.chars ▸ hchars)⟩

/-- A token is matched as a whole if and only if no name of a method is a proper part at its
beginning, and it is not the beginning of the name with blanks. -/
theorem method_matched_iff (t rest : Text) (ht : ∀ c ∈ t, isTokenByte c) :
    MatchedExactly t rest ↔
      (∀ entry ∈ httpMethodMap, ascii entry.2 <+: t → ascii entry.2 = t) ∧
        ¬ (t = ascii "M" ∧ ascii "- SEARCH" <+: rest) := by
  have hblank : 32 ∉ t := fun h => absurd (ht 32 h) (by decide)
  have hnul : 0 ∉ t := fun h => absurd (ht 0 h) (by decide)
  constructor
  · intro h
    constructor
    · intro entry hentry hname
      obtain ⟨m, rfl⟩ := exists_name_of_matched hnul h hentry
        ((name_prefix_iff hblank hentry).2 (Or.inl hname))
      have heq := httpMethodMap_prefix_free entry hentry _ (mem_httpMethodMap m)
        (List.isPrefixOf_iff_prefix.2 hname)
      rw [heq]
    · rintro ⟨rfl, hrest⟩
      have hentry : (HttpMethod.MSEARCH, "M - SEARCH") ∈ httpMethodMap := by decide
      obtain ⟨m, hm⟩ := exists_name_of_matched hnul h hentry
        ((name_prefix_iff hblank hentry).2 (Or.inr ⟨rfl, rfl, hrest⟩))
      have hstring := (stringToHttpMethod_eq_some_iff hnul).2 hm
      have hnone : stringToHttpMethod (ascii "M") = none := by decide +kernel
      rw [hnone] at hstring
      cases hstring
  · rintro ⟨hnames, hsearch⟩
    apply matchedExactly_of_chars hnul
    rw [charsToHttpMethod, stringToHttpMethod, takeWhile_of_not_mem hnul]
    congr 1
    apply List.find?_congr
    intro entry hentry
    rw [Bool.eq_iff_iff, name_prefix_iff hblank hentry, decide_eq_true_iff]
    constructor
    · rintro (hname | ⟨-, hmsearch⟩)
      · exact hnames entry hentry hname
      · exact absurd hmsearch hsearch
    · intro hname
      exact Or.inl (hname ▸ List.prefix_refl _)

theorem method_matched_iff_get :
    MatchedExactly (ascii "GET") (ascii "/ HTTP/1.1") := by
  refine (method_matched_iff (ascii "GET") (ascii "/ HTTP/1.1") (by decide +kernel)).2 ⟨?_, ?_⟩
  · decide +kernel
  · rintro ⟨h, -⟩
    revert h
    decide

/-- `GETX` is taken for `GET`. -/
theorem getx_is_not_refused :
    charsToHttpMethod (ascii "GETX / HTTP/1.1") = some .GET ∧
      stringToHttpMethod (ascii "GETX") = none ∧
      ¬ MatchedExactly (ascii "GETX") (ascii "/ HTTP/1.1") := by
  have hchars : charsToHttpMethod (ascii "GETX / HTTP/1.1") = some .GET := by decide +kernel
  have hstring : stringToHttpMethod (ascii "GETX") = none := by decide +kernel
  refine ⟨hchars, hstring, fun h => ?_⟩
  have heq := h.chars
  rw [hstring] at heq
  exact absurd (hchars.symm.trans heq) (by decide)

end Sylar.Http

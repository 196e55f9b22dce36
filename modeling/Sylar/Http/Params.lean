import Mathlib.Data.List.Lex
import Sylar.Common.UrlCoding
import Sylar.Lib.Cutting
import Sylar.Lib.OrderedSet

/-!
# Parameters and cookies of a request

`PARSE_PARAM` looks for `=` first and for the separator behind it. What it inserts is
compared with the pairs of the segments between the separators.
-/

namespace Sylar.Http

open Sylar.Lib
open Sylar.Common (urlDecode)

/-- `m.insert(std::make_pair(key, val))`: a key that is there keeps its entry. -/
def HeaderMap.insert (entry : Text × Text) (m : HeaderMap) : HeaderMap :=
  OrderedSet.insert (fun a b => caseInsensitiveLess a.1 b.1) entry m

/-- `getHeader` with the default `""`. -/
def HttpRequest.getHeader (key : Text) (r : HttpRequest) : Text :=
  (HeaderMap.find key r.headers).getD []

/-- `strcasestr(haystack, needle) != nullptr`. -/
def strcasestr (haystack needle : Text) : Bool :=
  (caseKey haystack).tails.any (caseKey needle).isPrefixOf

/-- `StringUtil::Trim`. -/
def trim (delimit str : Text) : Text :=
  ((str.dropWhile (· ∈ delimit)).reverse.dropWhile (· ∈ delimit)).reverse

/-- The default of `delimit`. -/
def blanks : Text := ascii " \t\r\n"

section Scan

variable (flag : UInt8) (trim : Text → Text)

/-- `PARSE_PARAM` from `pos` on: the pairs it inserts, in their order. The search for `flag`
starts at the `=`, which is no separator. -/
def parseParam (str : Text) : List (Text × Text) :=
  match hkey : cutAt 61 str with
  | none => []
  | some (key, tail) =>
      match hvalue : cutAt flag tail with
      | none => [(trim key, urlDecode true tail)]
      | some (value, next) =>
          have _hlt := (length_lt_of_cutAt hvalue).trans (length_lt_of_cutAt hkey)
          (trim key, urlDecode true value) :: parseParam next
termination_by str.length

/-- The pair of a segment, if it has a `=`. -/
def segmentPair (segment : Text) : Option (Text × Text) :=
  (cutAt 61 segment).map fun parts => (trim parts.1, urlDecode true parts.2)

/-- The pairs of the segments that have a `=`. -/
def splitPairs (str : Text) : List (Text × Text) := (str.splitOn flag).filterMap (segmentPair trim)

end Scan

/-- An `HttpRequest` with the fields that its accessors fill. -/
structure ParamRequest where
  request : HttpRequest
  parserParamFlag : UInt8
  params : HeaderMap
  cookies : HeaderMap
  deriving DecidableEq, Repr

namespace ParamRequest

/-- A request as the constructor and the parser leave it. -/
def ofParsed (request : HttpRequest) : ParamRequest where
  request
  parserParamFlag := 0
  params := []
  cookies := []

def initQueryParam (r : ParamRequest) : ParamRequest :=
  if r.parserParamFlag &&& 0x1 ≠ 0 then r
  else
    { r with
      params := (parseParam 38 id r.request.query).foldl (fun m entry => m.insert entry) r.params
      parserParamFlag := r.parserParamFlag ||| 0x1 }

end ParamRequest

/-- The test of `initBodyParam`. -/
def HttpRequest.isForm (r : HttpRequest) : Bool :=
  strcasestr (r.getHeader (ascii "content-type")) (ascii "application/x-www-form-urlencoded")

namespace ParamRequest

def initBodyParam (r : ParamRequest) : ParamRequest :=
  if r.parserParamFlag &&& 0x2 ≠ 0 then r
  else if !r.request.isForm then { r with parserParamFlag := r.parserParamFlag ||| 0x2 }
  else
    { r with
      params := (parseParam 38 id r.request.body).foldl (fun m entry => m.insert entry) r.params
      parserParamFlag := r.parserParamFlag ||| 0x2 }

def initCookies (r : ParamRequest) : ParamRequest :=
  let cookie := r.request.getHeader (ascii "cookie")
  if r.parserParamFlag &&& 0x4 ≠ 0 then r
  else if cookie = [] then { r with parserParamFlag := r.parserParamFlag ||| 0x4 }
  else
    { r with
      cookies :=
        (parseParam 59 (trim blanks) cookie).foldl (fun m entry => m.insert entry) r.cookies
      parserParamFlag := r.parserParamFlag ||| 0x4 }

end ParamRequest

/-- Lower case as a whole, without an end at NUL. -/
def lower (s : Text) : Text := s.map toLower

/-- The insertions are those of the pairs, and the map holds the first pair of every key up to
case. -/
def ReadAs (inserted : List (Text × Text)) (m : HeaderMap) (pairs : List (Text × Text)) : Prop :=
  inserted = pairs ∧ ∀ entry, entry ∈ m ↔ OrderedSet.IsFirst (fun e => lower e.1) pairs entry

/-- What the three scans are for. -/
structure ParamsRead (r : HttpRequest) : Prop where
  query : ReadAs (parseParam 38 id r.query) (ParamRequest.ofParsed r).initQueryParam.params
    (splitPairs 38 id r.query)
  body : r.isForm → ReadAs (parseParam 38 id r.query ++ parseParam 38 id r.body)
    (ParamRequest.ofParsed r).initQueryParam.initBodyParam.params
    (splitPairs 38 id r.query ++ splitPairs 38 id r.body)
  cookies : ReadAs (parseParam 59 (trim blanks) (r.getHeader (ascii "cookie")))
    (ParamRequest.ofParsed r).initCookies.cookies
    (splitPairs 59 (trim blanks) (r.getHeader (ascii "cookie")))

/-- No segment without a `=` stands in front of one with a `=`. -/
def NoneSkipped (flag : UInt8) (str : Text) : Prop :=
  (str.splitOn flag).Pairwise fun s t => 61 ∈ t → 61 ∈ s

instance (flag : UInt8) (str : Text) : Decidable (NoneSkipped flag str) :=
  inferInstanceAs (Decidable (List.Pairwise _ _))

/-- Two keys that are the same up to case when they are cut at a NUL are the same up to case. -/
def KeysApart (pairs : List (Text × Text)) : Prop :=
  ∀ a ∈ pairs, ∀ b ∈ pairs, caseKey a.1 = caseKey b.1 → lower a.1 = lower b.1

section Scan

variable {flag : UInt8} {trim : Text → Text}

theorem parseParam_of_not_mem {str : Text} (h : 61 ∉ str) : parseParam flag trim str = [] := by
  rw [parseParam]
  split
  · rfl
  · next heq => rw [cutAt_eq_none_iff.2 h] at heq; cases heq

theorem segmentPair_of_not_mem {segment : Text} (h : 61 ∉ segment) :
    segmentPair trim segment = none := by
  rw [segmentPair, cutAt_eq_none_iff.2 h]
  rfl

theorem segmentPair_append {key : Text} (h : 61 ∉ key) (value : Text) :
    segmentPair trim (key ++ 61 :: value) = some (trim key, urlDecode true value) := by
  rw [segmentPair, cutAt_append h]
  rfl

/-- One round: the key ends at the first `=`, the value at the flag if there is one. -/
theorem parseParam_append {key : Text} (hkey : 61 ∉ key) (tail : Text) :
    parseParam flag trim (key ++ 61 :: tail) =
      match cutAt flag tail with
      | none => [(trim key, urlDecode true tail)]
      | some (value, next) => (trim key, urlDecode true value) :: parseParam flag trim next := by
  have hcut := cutAt_append hkey tail
  rw [parseParam]
  split
  · next heq => rw [hcut] at heq; cases heq
  · next heq =>
      rw [hcut] at heq
      cases heq
      split
      · next heq => simp only [heq]
      · next heq => simp only [heq]

theorem parseParam_last {key tail : Text} (hkey : 61 ∉ key) (htail : flag ∉ tail) :
    parseParam flag trim (key ++ 61 :: tail) = [(trim key, urlDecode true tail)] := by
  rw [parseParam_append hkey, cutAt_eq_none_iff.2 htail]

theorem parseParam_cut {key value : Text} (hkey : 61 ∉ key) (hvalue : flag ∉ value)
    (next : Text) :
    parseParam flag trim (key ++ 61 :: (value ++ flag :: next)) =
      (trim key, urlDecode true value) :: parseParam flag trim next := by
  rw [parseParam_append hkey, cutAt_append hvalue]

/-- Everything in front of the first `=` becomes the first key. -/
theorem exists_parseParam (flag : UInt8) (trim : Text → Text) {key : Text} (hkey : 61 ∉ key)
    (tail : Text) :
    ∃ val rest, parseParam flag trim (key ++ 61 :: tail) = (trim key, val) :: rest := by
  cases hcut : cutAt flag tail with
  | none => exact ⟨_, _, parseParam_last hkey (cutAt_eq_none_iff.1 hcut)⟩
  | some parts =>
      obtain ⟨rfl, hvalue⟩ := cutAt_eq_some hcut
      exact ⟨_, _, parseParam_cut hkey hvalue parts.2⟩

theorem splitPairs_last {segment : Text} (h : flag ∉ segment) :
    splitPairs flag trim segment = (segmentPair trim segment).toList := by
  rw [splitPairs, List.splitOn_eq_singleton h, List.filterMap_cons, List.filterMap_nil]
  cases segmentPair trim segment with
  | none => rfl
  | some pair => rfl

theorem splitPairs_cut {segment : Text} (h : flag ∉ segment) (next : Text) :
    splitPairs flag trim (segment ++ flag :: next) =
      (segmentPair trim segment).toList ++ splitPairs flag trim next := by
  rw [splitPairs, List.splitOn_append_cons_self_of_not_mem h, List.filterMap_cons]
  cases segmentPair trim segment with
  | none => rfl
  | some pair => rfl

theorem noneSkipped_cut {segment : Text} (h : flag ∉ segment) (next : Text) :
    NoneSkipped flag (segment ++ flag :: next) ↔
      (∀ t ∈ next.splitOn flag, 61 ∈ t → 61 ∈ segment) ∧ NoneSkipped flag next := by
  rw [NoneSkipped, List.splitOn_append_cons_self_of_not_mem h, List.pairwise_cons, NoneSkipped]

/-- A key of a segment has no separator. -/
theorem not_mem_key {str : Text} {entry : Text × Text} (htrim : ∀ s, flag ∈ trim s → flag ∈ s)
    (h : entry ∈ splitPairs flag trim str) : flag ∉ entry.1 := by
  obtain ⟨segment, hsegment, hpair⟩ := List.mem_filterMap.1 h
  obtain ⟨parts, hcut, rfl⟩ := Option.map_eq_some_iff.1 hpair
  intro hmem
  apply not_mem_of_mem_splitOn hsegment
  rw [(cutAt_eq_some hcut).1]
  exact List.mem_append_left _ (htrim _ hmem)

/-- The scan reads the pairs of the segments if and only if none without a `=` is skipped. -/
theorem parseParam_eq_iff (flag : UInt8) (trim : Text → Text) (hflag : flag ≠ 61)
    (htrim : ∀ s, flag ∈ trim s ↔ flag ∈ s) (str : Text) :
    parseParam flag trim str = splitPairs flag trim str ↔ NoneSkipped flag str := by
  induction str using cut_induction flag with
  | last str hstr =>
      refine iff_of_true ?_ ?_
      · rw [splitPairs_last hstr]
        cases hcut : cutAt 61 str with
        | none =>
            have hnot := cutAt_eq_none_iff.1 hcut
            rw [parseParam_of_not_mem hnot, segmentPair_of_not_mem hnot]
            rfl
        | some parts =>
            obtain ⟨rfl, hkey⟩ := cutAt_eq_some hcut
            have htail : flag ∉ parts.2 := fun h =>
              hstr (List.mem_append_right _ (List.mem_cons_of_mem _ h))
            rw [parseParam_last hkey htail, segmentPair_append hkey]
            rfl
      · rw [NoneSkipped, List.splitOn_eq_singleton hstr]
        exact List.pairwise_singleton _ _
  | cut segment next hsegment ih =>
      rw [splitPairs_cut hsegment, noneSkipped_cut hsegment]
      cases hcut : cutAt 61 segment with
      | some parts =>
          obtain ⟨rfl, hkey⟩ := cutAt_eq_some hcut
          have hvalue : flag ∉ parts.2 := fun h =>
            hsegment (List.mem_append_right _ (List.mem_cons_of_mem _ h))
          have hhead : ∀ t ∈ next.splitOn flag, 61 ∈ t → 61 ∈ parts.1 ++ 61 :: parts.2 :=
            fun _ _ _ => List.mem_append_right _ List.mem_cons_self
          rw [List.append_assoc, List.cons_append, parseParam_cut hkey hvalue,
            segmentPair_append hkey, Option.toList_some, List.singleton_append, List.cons_inj_right,
            ih, and_iff_right hhead]
      | none =>
          have hkey := cutAt_eq_none_iff.1 hcut
          rw [segmentPair_of_not_mem hkey, Option.toList_none, List.nil_append]
          cases hnext : cutAt 61 next with
          | none =>
              -- no further pair is read
              have hnot := cutAt_eq_none_iff.1 hnext
              have hstr : 61 ∉ segment ++ flag :: next := by
                simp [hkey, hnot, hflag.symm]
              have hhead : ∀ t ∈ next.splitOn flag, 61 ∈ t → 61 ∈ segment := fun t ht hmem =>
                absurd ((exists_mem_splitOn_iff hflag.symm).1 ⟨t, ht, hmem⟩) hnot
              rw [parseParam_of_not_mem hstr, and_iff_right hhead, ← ih,
                parseParam_of_not_mem hnot]
          | some parts =>
              -- the segment becomes a part of the next key
              obtain ⟨rfl, hfront⟩ := cutAt_eq_some hnext
              refine iff_of_false ?_ ?_
              · intro heq
                have hlong : 61 ∉ segment ++ flag :: parts.1 := by
                  simp [hkey, hfront, hflag.symm]
                obtain ⟨val, rest, hparse⟩ := exists_parseParam flag trim hlong parts.2
                rw [List.append_assoc, List.cons_append] at hparse
                rw [hparse] at heq
                have hmem := not_mem_key (fun s => (htrim s).1) (heq ▸ List.mem_cons_self)
                exact hmem ((htrim _).2 (List.mem_append_right _ List.mem_cons_self))
              · rintro ⟨hhead, -⟩
                obtain ⟨t, ht, hmem⟩ := (exists_mem_splitOn_iff hflag.symm).2
                  (List.mem_append_right parts.1 List.mem_cons_self)
                exact hkey (hhead t ht hmem)

end Scan

theorem toLower_eq_zero_iff (b : UInt8) : toLower b = 0 ↔ b = 0 := by
  rw [toLower]
  split
  · next h =>
      obtain ⟨hlow, hhigh⟩ := h
      rw [UInt8.le_iff_toNat_le] at hlow hhigh
      have hlow : 65 ≤ b.toNat := hlow
      have hhigh : b.toNat ≤ 90 := hhigh
      have hsum : (b + 32).toNat = b.toNat + 32 := by
        rw [UInt8.toNat_add]
        exact Nat.mod_eq_of_lt (Nat.lt_of_le_of_lt (Nat.add_le_add_right hhigh 32) (by decide))
      refine iff_of_false ?_ ?_
      · intro hzero
        rw [hzero] at hsum
        exact absurd hsum (Nat.succ_ne_zero _).symm
      · rintro rfl
        exact absurd hlow (by decide)
  · rfl

/-- Keys that are the same up to case are the same for the map. -/
theorem caseKey_eq_of_lower {s t : Text} (h : lower s = lower t) : caseKey s = caseKey t := by
  have hkey : ∀ u : Text, caseKey u = ((lower u).takeWhile (· ≠ 0)).map UInt8.toNat := by
    intro u
    rw [lower, List.takeWhile_map, List.map_map, caseKey]
    congr 2
    funext b
    simp [toLower_eq_zero_iff]
  rw [hkey, hkey, h]

theorem comparesBy_caseKey :
    OrderedSet.ComparesBy (fun a b : Text × Text => caseInsensitiveLess a.1 b.1)
      fun entry => caseKey entry.1 :=
  fun _ _ => decide_eq_true_iff

theorem mem_dropWhile_iff {p : UInt8 → Bool} {c : UInt8} (hc : p c = false) {s : Text} :
    c ∈ s.dropWhile p ↔ c ∈ s := by
  conv_rhs => rw [← List.takeWhile_append_dropWhile (p := p) (l := s), List.mem_append]
  refine ⟨Or.inr, fun h => h.resolve_left fun hmem => ?_⟩
  have htrue := List.mem_takeWhile_imp hmem
  rw [hc] at htrue
  cases htrue

theorem mem_trim_iff {delimit : Text} {c : UInt8} (hc : c ∉ delimit) (s : Text) :
    c ∈ trim delimit s ↔ c ∈ s := by
  have hfalse : decide (c ∈ delimit) = false := decide_eq_false hc
  rw [trim, List.mem_reverse, mem_dropWhile_iff hfalse, List.mem_reverse,
    mem_dropWhile_iff hfalse]

/-- The map keeps the first of the pairs that are inserted, as C strings up to case. -/
theorem readAs_iff {inserted pairs : List (Text × Text)} :
    ReadAs inserted (inserted.foldl (fun m entry => HeaderMap.insert entry m) []) pairs ↔
      inserted = pairs ∧ KeysApart pairs := by
  refine and_congr_right ?_
  rintro rfl
  rw [KeysApart, ← OrderedSet.isFirst_iff_isFirst_iff fun _ _ => caseKey_eq_of_lower]
  refine forall_congr' fun entry => iff_congr ?_ Iff.rfl
  rw [show (fun m entry => HeaderMap.insert entry m) = fun s x =>
      OrderedSet.insert (fun a b => caseInsensitiveLess a.1 b.1) x s from rfl,
    OrderedSet.mem_foldl_insert comparesBy_caseKey List.Pairwise.nil]
  simp

namespace ParamRequest

section Fresh

variable (r : ParamRequest)

theorem initQueryParam_eq (h : r.parserParamFlag &&& 0x1 = 0) :
    r.initQueryParam =
      { r with
        params := (parseParam 38 id r.request.query).foldl (fun m entry => m.insert entry) r.params
        parserParamFlag := r.parserParamFlag ||| 0x1 } :=
  if_neg (not_not.2 h)

theorem initQueryParam_self (h : r.parserParamFlag &&& 0x1 ≠ 0) : r.initQueryParam = r := if_pos h

theorem initBodyParam_eq (h : r.parserParamFlag &&& 0x2 = 0) :
    r.initBodyParam =
      { r with
        params := (if r.request.isForm then parseParam 38 id r.request.body else []).foldl
          (fun m entry => m.insert entry) r.params
        parserParamFlag := r.parserParamFlag ||| 0x2 } := by
  rw [initBodyParam, if_neg (not_not.2 h)]
  cases r.request.isForm with
  | false => rfl
  | true => rfl

theorem initBodyParam_self (h : r.parserParamFlag &&& 0x2 ≠ 0) : r.initBodyParam = r := if_pos h

theorem initCookies_eq (h : r.parserParamFlag &&& 0x4 = 0) :
    r.initCookies =
      { r with
        cookies := (parseParam 59 (trim blanks) (r.request.getHeader (ascii "cookie"))).foldl
          (fun m entry => m.insert entry) r.cookies
        parserParamFlag := r.parserParamFlag ||| 0x4 } := by
  rw [initCookies, if_neg (not_not.2 h)]
  split
  · next hcookie =>
      rw [hcookie, parseParam_of_not_mem List.not_mem_nil]
      rfl
  · rfl

theorem initCookies_self (h : r.parserParamFlag &&& 0x4 ≠ 0) : r.initCookies = r := if_pos h

end Fresh

end ParamRequest

/-- The parameters and cookies are those of the segments if and only if no segment without a `=`
stands in front of one with a `=`, and a NUL makes no two keys the same. -/
theorem params_read_iff (r : HttpRequest) :
    ParamsRead r ↔
      (NoneSkipped 38 r.query ∧ KeysApart (splitPairs 38 id r.query)) ∧
      (r.isForm → NoneSkipped 38 r.body ∧
        KeysApart (splitPairs 38 id r.query ++ splitPairs 38 id r.body)) ∧
      NoneSkipped 59 (r.getHeader (ascii "cookie")) ∧
        KeysApart (splitPairs 59 (trim blanks) (r.getHeader (ascii "cookie"))) := by
  have hparam := parseParam_eq_iff 38 id (by decide) fun _ => Iff.rfl
  have hcookie := parseParam_eq_iff 59 (trim blanks) (by decide) (mem_trim_iff (by decide))
  have hquery : ReadAs (parseParam 38 id r.query) (ParamRequest.ofParsed r).initQueryParam.params
      (splitPairs 38 id r.query) ↔
        NoneSkipped 38 r.query ∧ KeysApart (splitPairs 38 id r.query) := by
    rw [← hparam, ParamRequest.initQueryParam_eq _ UInt8.zero_and]
    exact readAs_iff
  have hcookies : ReadAs (parseParam 59 (trim blanks) (r.getHeader (ascii "cookie")))
      (ParamRequest.ofParsed r).initCookies.cookies
      (splitPairs 59 (trim blanks) (r.getHeader (ascii "cookie"))) ↔
        NoneSkipped 59 (r.getHeader (ascii "cookie")) ∧
          KeysApart (splitPairs 59 (trim blanks) (r.getHeader (ascii "cookie"))) := by
    rw [← hcookie, ParamRequest.initCookies_eq _ UInt8.zero_and]
    exact readAs_iff
  have hbody : NoneSkipped 38 r.query → r.isForm → (ReadAs
      (parseParam 38 id r.query ++ parseParam 38 id r.body)
      (ParamRequest.ofParsed r).initQueryParam.initBodyParam.params
      (splitPairs 38 id r.query ++ splitPairs 38 id r.body) ↔
        NoneSkipped 38 r.body ∧
          KeysApart (splitPairs 38 id r.query ++ splitPairs 38 id r.body)) := by
    intro hskipped hform
    have hform : (ParamRequest.ofParsed r).request.isForm = true := hform
    have hflag : ((0 : UInt8) ||| 0x1) &&& 0x2 = 0 := by decide
    rw [ParamRequest.initQueryParam_eq _ UInt8.zero_and, ParamRequest.initBodyParam_eq _ hflag,
      ← hparam r.body]
    simp only [hform, if_true]
    rw [← List.foldl_append]
    refine readAs_iff.trans (and_congr_left' ?_)
    rw [(hparam r.query).2 hskipped, List.append_cancel_left_eq]
  constructor
  · rintro ⟨hq, hb, hc⟩
    have hq := hquery.1 hq
    exact ⟨hq, fun hform => (hbody hq.1 hform).1 (hb hform), hcookies.1 hc⟩
  · rintro ⟨hq, hb, hc⟩
    exact ⟨hquery.2 hq, fun hform => (hbody hq.1 hform).2 (hb hform), hcookies.2 hc⟩

/-- A segment without a `=` is read into the key of the next one. -/
theorem skipped_segment_joins_key :
    (ParamRequest.ofParsed { HttpRequest.new with query := ascii "a&b=1" }).initQueryParam.params =
        [(ascii "a&b", ascii "1")] ∧
      ¬ ParamsRead { HttpRequest.new with query := ascii "a&b=1" } := by
  refine ⟨by decide +kernel, fun h => ?_⟩
  have hskipped := (parseParam_eq_iff 38 id (by decide) (fun _ => Iff.rfl) _).1 h.query.1
  exact absurd hskipped (by decide)

end Sylar.Http

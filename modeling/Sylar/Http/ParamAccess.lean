import Sylar.Http.Params

/-!
# The accessors of parameters and cookies

`getParam` and `hasParam` fill the map before they look into it, `getParamAs` and
`cheakGetParamAs` look into it as it is; likewise for the cookies. The instances are those at
`std::string`, where `boost::lexical_cast` is the identity.
-/

namespace Sylar.Http

/-- `getAs<MapType, std::string>`. -/
def getAs (m : HeaderMap) (key dflt : Text) : Text :=
  match HeaderMap.find key m with
  | none => dflt
  | some val => val

/-- `checkGetAs<MapType, std::string>`: the return value and `val`. -/
def checkGetAs (m : HeaderMap) (key dflt : Text) : Bool × Text :=
  match HeaderMap.find key m with
  | none => (false, dflt)
  | some val => (true, val)

namespace ParamRequest

def getParam (key dflt : Text) (r : ParamRequest) : Text × ParamRequest :=
  let r := r.initQueryParam.initBodyParam
  ((HeaderMap.find key r.params).getD dflt, r)

def getCookie (key dflt : Text) (r : ParamRequest) : Text × ParamRequest :=
  let r := r.initCookies
  ((HeaderMap.find key r.cookies).getD dflt, r)

/-- The value is what is written to `*val`; without a value the call returns `false`. -/
def hasParam (key : Text) (r : ParamRequest) : Option Text × ParamRequest :=
  let r := r.initQueryParam.initBodyParam
  (HeaderMap.find key r.params, r)

def hasCookie (key : Text) (r : ParamRequest) : Option Text × ParamRequest :=
  let r := r.initCookies
  (HeaderMap.find key r.cookies, r)

def getParamAs (key dflt : Text) (r : ParamRequest) : Text := getAs r.params key dflt

def getCookieAs (key dflt : Text) (r : ParamRequest) : Text := getAs r.cookies key dflt

def cheakGetParamAs (key dflt : Text) (r : ParamRequest) : Bool × Text :=
  checkGetAs r.params key dflt

def cheakGetCookieAs (key dflt : Text) (r : ParamRequest) : Bool × Text :=
  checkGetAs r.cookies key dflt

end ParamRequest

/-- `m_params` or `m_cookies`. -/
inductive MapName where
  | params
  | cookies
  deriving DecidableEq, Repr

/-- A call of an accessor, with the map it is about. -/
inductive Call where
  | get (name : MapName) (key dflt : Text)
  | has (name : MapName) (key : Text)
  | getAs (name : MapName) (key dflt : Text)
  | cheakGetAs (name : MapName) (key dflt : Text)
  deriving DecidableEq, Repr

/-- A text, or whether the key was found and with which text. -/
inductive Answer where
  | value (val : Text)
  | found (val : Option Text)
  deriving DecidableEq, Repr

namespace Call

/-- A check that fails gives its default to `val`, which is no answer. -/
def checked (result : Bool × Text) : Answer := .found (if result.1 then some result.2 else none)

def answer : Call → ParamRequest → Answer × ParamRequest
  | .get .params key dflt, r => (r.getParam key dflt).map .value id
  | .get .cookies key dflt, r => (r.getCookie key dflt).map .value id
  | .has .params key, r => (r.hasParam key).map .found id
  | .has .cookies key, r => (r.hasCookie key).map .found id
  | .getAs .params key dflt, r => (.value (r.getParamAs key dflt), r)
  | .getAs .cookies key dflt, r => (.value (r.getCookieAs key dflt), r)
  | .cheakGetAs .params key dflt, r => (checked (r.cheakGetParamAs key dflt), r)
  | .cheakGetAs .cookies key dflt, r => (checked (r.cheakGetCookieAs key dflt), r)

/-- The accessor of the same purpose that fills the map. -/
def filling : Call → Call
  | .getAs name key dflt => .get name key dflt
  | .cheakGetAs name key _ => .has name key
  | call => call

/-- The call fills the map. -/
def fills (name : MapName) : Call → Bool
  | .get name' _ _ => name' = name
  | .has name' _ => name' = name
  | _ => false

end Call

/-- The request after a sequence of calls. -/
def run (calls : List Call) (r : ParamRequest) : ParamRequest :=
  calls.foldl (fun r call => (call.answer r).2) r

/-- Every call answers as the filling accessor of the same purpose does on the request as it was
parsed. -/
def AccessorsAgree (r : HttpRequest) (calls : List Call) : Prop :=
  ∀ prior call later, calls = prior ++ call :: later →
    (call.answer (run prior (.ofParsed r))).1 = (call.filling.answer (.ofParsed r)).1

/-- The map of a request as it was parsed, when it is filled. -/
def parsedMap (r : HttpRequest) : MapName → HeaderMap
  | .params => (ParamRequest.ofParsed r).initQueryParam.initBodyParam.params
  | .cookies => (ParamRequest.ofParsed r).initCookies.cookies

/-- A call of `getAs` or `cheakGetAs` comes after its map has been filled, or it asks for a key
that is not in the filled map either, or whose value there is the default. -/
def Call.InTime (r : HttpRequest) (hasBeenFilled : MapName → Prop) : Call → Prop
  | .get _ _ _ => True
  | .has _ _ => True
  | .getAs name key dflt =>
      hasBeenFilled name ∨ (HeaderMap.find key (parsedMap r name)).getD dflt = dflt
  | .cheakGetAs name key _ => hasBeenFilled name ∨ HeaderMap.find key (parsedMap r name) = none

/-- Every call is in time, the maps being filled by the calls before it. -/
def AllInTime (r : HttpRequest) (calls : List Call) : Prop :=
  ∀ prior call later, calls = prior ++ call :: later →
    call.InTime r fun name => ∃ filler ∈ prior, filler.fills name

/-- `m_parserParamFlag` when the maps have been filled. -/
def flagOf (params cookies : Bool) : UInt8 :=
  (if params then 0x3 else 0) ||| if cookies then 0x4 else 0

theorem flagOf_true_params : ∀ cookies,
    flagOf true cookies &&& 0x1 ≠ 0 ∧ flagOf true cookies &&& 0x2 ≠ 0 := by decide

theorem flagOf_false_params : ∀ cookies,
    flagOf false cookies &&& 0x1 = 0 ∧ (flagOf false cookies ||| 0x1) &&& 0x2 = 0 ∧
      flagOf false cookies ||| 0x1 ||| 0x2 = flagOf true cookies := by decide

theorem flagOf_true_cookies : ∀ params, flagOf params true &&& 0x4 ≠ 0 := by decide

theorem flagOf_false_cookies : ∀ params,
    flagOf params false &&& 0x4 = 0 ∧ flagOf params false ||| 0x4 = flagOf params true := by decide

section States

variable (r : HttpRequest)

/-- The request with the maps that have been filled. -/
def filled (params cookies : Bool) : ParamRequest where
  request := r
  parserParamFlag := flagOf params cookies
  params := if params then parsedMap r .params else []
  cookies := if cookies then parsedMap r .cookies else []

theorem ofParsed_eq_filled : ParamRequest.ofParsed r = filled r false false := rfl

theorem parsedMap_params :
    parsedMap r .params =
      (if r.isForm then parseParam 38 id r.body else []).foldl
        (fun m entry => HeaderMap.insert entry m)
        ((parseParam 38 id r.query).foldl (fun m entry => HeaderMap.insert entry m) []) := by
  obtain ⟨hquery, hbody, -⟩ := flagOf_false_params false
  rw [parsedMap, ParamRequest.initQueryParam_eq (.ofParsed r) hquery,
    ParamRequest.initBodyParam_eq _ hbody]
  rfl

theorem parsedMap_cookies :
    parsedMap r .cookies =
      (parseParam 59 (trim blanks) (r.getHeader (ascii "cookie"))).foldl
        (fun m entry => HeaderMap.insert entry m) [] := by
  rw [parsedMap, ParamRequest.initCookies_eq (.ofParsed r) (flagOf_false_cookies false).1]
  rfl

theorem filled_initParams (params cookies : Bool) :
    (filled r params cookies).initQueryParam.initBodyParam = filled r true cookies := by
  cases params with
  | true =>
      obtain ⟨hquery, hbody⟩ := flagOf_true_params cookies
      rw [ParamRequest.initQueryParam_self (filled r true cookies) hquery,
        ParamRequest.initBodyParam_self (filled r true cookies) hbody]
  | false =>
      obtain ⟨hquery, hbody, hflag⟩ := flagOf_false_params cookies
      rw [ParamRequest.initQueryParam_eq (filled r false cookies) hquery,
        ParamRequest.initBodyParam_eq _ hbody, filled, filled, ← hflag, if_pos rfl,
        parsedMap_params]
      rfl

theorem filled_initCookies (params cookies : Bool) :
    (filled r params cookies).initCookies = filled r params true := by
  cases cookies with
  | true => exact ParamRequest.initCookies_self (filled r params true) (flagOf_true_cookies params)
  | false =>
      obtain ⟨hcookies, hflag⟩ := flagOf_false_cookies params
      rw [ParamRequest.initCookies_eq (filled r params false) hcookies, filled, filled, ← hflag,
        if_pos (rfl : true = true), parsedMap_cookies]
      rfl

@[simp] theorem filled_params (cookies : Bool) :
    (filled r true cookies).params = parsedMap r .params := rfl

@[simp] theorem filled_cookies (params : Bool) :
    (filled r params true).cookies = parsedMap r .cookies := rfl

/-- Which map has been filled. -/
def isFilled (params cookies : Bool) : MapName → Bool
  | .params => params
  | .cookies => cookies

variable (params cookies : Bool) (name : MapName) (key dflt : Text)

theorem answer_state (call : Call) :
    (call.answer (filled r params cookies)).2 =
      filled r (params || call.fills .params) (cookies || call.fills .cookies) := by
  cases call with
  | get name key dflt =>
      cases name <;>
        simp [Call.answer, ParamRequest.getParam, ParamRequest.getCookie, filled_initParams,
          filled_initCookies, Call.fills]
  | has name key =>
      cases name <;>
        simp [Call.answer, ParamRequest.hasParam, ParamRequest.hasCookie, filled_initParams,
          filled_initCookies, Call.fills]
  | getAs name key dflt => cases name <;> simp [Call.answer, Call.fills]
  | cheakGetAs name key dflt => cases name <;> simp [Call.answer, Call.fills]

/-- The state after some calls is known from the calls that fill a map. -/
theorem run_filled (calls : List Call) :
    run calls (filled r params cookies) =
      filled r (params || calls.any (Call.fills .params))
        (cookies || calls.any (Call.fills .cookies)) := by
  induction calls generalizing params cookies with
  | nil => rw [List.any_nil, List.any_nil, Bool.or_false, Bool.or_false, run, List.foldl_nil]
  | cons call calls ih =>
      have hrun : run (call :: calls) (filled r params cookies) =
          run calls (call.answer (filled r params cookies)).2 := rfl
      rw [hrun, answer_state, ih, List.any_cons, List.any_cons, Bool.or_assoc, Bool.or_assoc]

theorem answer_get :
    ((Call.get name key dflt).answer (filled r params cookies)).1 =
      .value ((HeaderMap.find key (parsedMap r name)).getD dflt) := by
  cases name with
  | params => simp [Call.answer, ParamRequest.getParam, filled_initParams]
  | cookies => simp [Call.answer, ParamRequest.getCookie, filled_initCookies]

theorem answer_has :
    ((Call.has name key).answer (filled r params cookies)).1 =
      .found (HeaderMap.find key (parsedMap r name)) := by
  cases name with
  | params => simp [Call.answer, ParamRequest.hasParam, filled_initParams]
  | cookies => simp [Call.answer, ParamRequest.hasCookie, filled_initCookies]

theorem getAs_eq (m : HeaderMap) : getAs m key dflt = (HeaderMap.find key m).getD dflt := by
  rw [getAs]
  cases HeaderMap.find key m with
  | none => rfl
  | some val => rfl

theorem checked_checkGetAs (m : HeaderMap) :
    Call.checked (checkGetAs m key dflt) = .found (HeaderMap.find key m) := by
  rw [checkGetAs]
  cases HeaderMap.find key m with
  | none => rfl
  | some val => rfl

theorem answer_getAs :
    ((Call.getAs name key dflt).answer (filled r params cookies)).1 =
      .value ((HeaderMap.find key
        (if isFilled params cookies name then parsedMap r name else [])).getD dflt) := by
  cases name with
  | params => exact congrArg Answer.value (getAs_eq key dflt _)
  | cookies => exact congrArg Answer.value (getAs_eq key dflt _)

theorem answer_cheakGetAs :
    ((Call.cheakGetAs name key dflt).answer (filled r params cookies)).1 =
      .found (HeaderMap.find key
        (if isFilled params cookies name then parsedMap r name else [])) := by
  cases name with
  | params => exact checked_checkGetAs key dflt _
  | cookies => exact checked_checkGetAs key dflt _

theorem answer_eq_iff (call : Call) :
    (call.answer (filled r params cookies)).1 = (call.filling.answer (filled r false false)).1 ↔
      call.InTime r fun name => isFilled params cookies name := by
  cases call with
  | get name key dflt => exact iff_of_true ((answer_get ..).trans (answer_get ..).symm) trivial
  | has name key => exact iff_of_true ((answer_has ..).trans (answer_has ..).symm) trivial
  | getAs name key dflt =>
      rw [Call.filling, answer_getAs, answer_get, Answer.value.injEq, Call.InTime]
      cases isFilled params cookies name with
      | true => exact iff_of_true rfl (Or.inl rfl)
      | false =>
          rw [or_iff_right Bool.false_ne_true]
          exact eq_comm
  | cheakGetAs name key dflt =>
      rw [Call.filling, answer_cheakGetAs, answer_has, Answer.found.injEq, Call.InTime]
      cases isFilled params cookies name with
      | true => exact iff_of_true rfl (Or.inl rfl)
      | false =>
          rw [or_iff_right Bool.false_ne_true]
          exact eq_comm

end States

/-- The accessors agree along a sequence of calls if and only if `getAs` and `cheakGetAs` ask
for a key of the request only after another accessor has filled the map. -/
theorem accessors_agree_iff (r : HttpRequest) (calls : List Call) :
    AccessorsAgree r calls ↔ AllInTime r calls := by
  refine forall_congr' fun prior => forall_congr' fun call => forall_congr' fun later =>
    imp_congr_right fun _ => ?_
  rw [ofParsed_eq_filled, run_filled, answer_eq_iff]
  have hfilled : (fun name => isFilled (false || prior.any (Call.fills .params))
      (false || prior.any (Call.fills .cookies)) name = true) =
        fun name => ∃ filler ∈ prior, filler.fills name := by
    funext name
    cases name <;> simp [isFilled]
  rw [hfilled]

/-- `getParamAs` before `getParam` does not find the parameter. -/
theorem getParamAs_before_getParam :
    let r := { HttpRequest.new with query := ascii "a=1" }
    (ParamRequest.ofParsed r).getParamAs (ascii "a") [] = [] ∧
      ((ParamRequest.ofParsed r).getParam (ascii "a") []).1 = ascii "1" ∧
      ¬ AccessorsAgree r [.getAs .params (ascii "a") []] := by
  refine ⟨rfl, by decide +kernel, fun h => ?_⟩
  have hanswer := h [] _ [] rfl
  revert hanswer
  decide +kernel

end Sylar.Http

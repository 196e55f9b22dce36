import Sylar.Http.Pipelined
import Sylar.Http.RequestStates

/-!
# A dumped request is received as it was sent

The callbacks that the machine makes on a dumped request build the request again. The fields
arrive with the connection and the length of the body, as `dump` writes them.
-/

namespace Sylar.Http

open Sylar.Lib Sylar.Lib.Ragel Sylar.Net RequestStates

/-- The fields in the order in which `dump` writes them. -/
def HttpRequest.sentFields (r : HttpRequest) : List (Text × Text) :=
  connectionField r.close :: (ownFields r.headers ++ lengthField r.body)

/-- What `dump` writes before the body. -/
def HttpRequest.head (r : HttpRequest) : Text :=
  r.startText ++ crlf ++ (fieldsText r.sentFields ++ crlf)

theorem HttpRequest.dump_eq (r : HttpRequest) : r.dump = r.head ++ r.body := by
  have hfields : fieldsText r.sentFields =
      connectionText r.close ++ crlf ++
        (dumpHeaders r.headers ++ fieldsText (lengthField r.body)) := by
    rw [sentFields, ← fieldText_connectionField, ← fieldsText_ownFields]
    simp only [fieldsText, List.flatMap_cons, List.flatMap_append]
  rw [dump, head, hfields, ← fieldsText_lengthField]
  simp only [List.append_assoc]

/-- A request that can be sent: its parts are texts of the grammar, and its headers are a map
without a length, which `dump` adds. -/
structure HttpRequest.Sendable (relaxed : Bool) (r : HttpRequest) : Prop where
  method : r.method ≠ .MSEARCH
  version : r.version = 0x10 ∨ r.version = 0x11
  path : PlainPath relaxed r.path
  query : escaped (queryBytes relaxed) r.query
  fragment : escaped (queryBytes relaxed) r.fragment
  fields : ∀ i ∈ r.headers, PlainField i
  sorted : HeaderMap.Sorted r.headers
  length : HeaderMap.find (ascii "content-length") r.headers = none

variable {relaxed : Bool} {r : HttpRequest}

theorem HttpRequest.Sendable.sentFields (h : r.Sendable relaxed) :
    ∀ i ∈ r.sentFields, PlainField i := by
  intro i hi
  obtain rfl | hi := List.mem_cons.mp hi
  · exact plainField_connectionField r.close
  · obtain hi | hi := List.mem_append.mp hi
    · exact h.fields i (List.mem_filter.mp hi).1
    · exact plainField_lengthField hi

section Run

/-- The places in the head of a request. -/
def HttpRequest.targetStart (r : HttpRequest) : Nat :=
  (ascii (httpMethodToString (some r.method)) ++ ascii " ").length

def HttpRequest.target (r : HttpRequest) : Text :=
  r.path ++ ((if r.query = [] then [] else ascii "?") ++ (r.query ++
    ((if r.fragment = [] then [] else ascii "#") ++ (r.fragment ++ ascii " "))))

def HttpRequest.versionStart (r : HttpRequest) : Nat := r.targetStart + r.target.length

def HttpRequest.fieldsStart (r : HttpRequest) : Nat :=
  r.versionStart + (versionText r.version ++ crlf).length

theorem HttpRequest.head_eq (r : HttpRequest) :
    r.head = (ascii (httpMethodToString (some r.method)) ++ ascii " ") ++
      (r.target ++ ((versionText r.version ++ crlf) ++ (fieldsText r.sentFields ++ crlf))) := by
  simp only [head, startText, target, List.append_assoc]

def HttpRequest.fieldsStop (r : HttpRequest) : Nat :=
  r.fieldsStart + (fieldsText r.sentFields).length

/-- The actions on the head. -/
def HttpRequest.headEvents (r : HttpRequest) : List (Nat × RequestAction) :=
  [(0, .mark), (0 + (ascii (httpMethodToString (some r.method))).length, .requestMethod)] ++
    (targetEvents r.targetStart r.path r.query r.fragment ++
      ([(r.versionStart, .mark), (r.versionStart + 8, .httpVersion)] ++
        (fieldsEvents r.fieldsStart r.sentFields ++
          [(r.fieldsStop, .startField), (r.fieldsStop + 1, .done)])))

theorem HttpRequest.length_head (r : HttpRequest) : r.head.length = r.fieldsStop + 2 := by
  rw [head_eq, fieldsStop, fieldsStart, versionStart, targetStart]
  simp only [List.length_append, crlf, List.length_cons, List.length_nil]
  omega

theorem HttpRequest.Sendable.scan_head (h : r.Sendable relaxed) :
    ∃ s, scan HttpRequestParser.stop (requestStart relaxed) 0 r.head =
      (r.headEvents, .broke s r.head.length) := by
  obtain ⟨s, hend⟩ := scan_headEnd (p := r.fieldsStop)
  have hfields := (runs_fields (p := r.fieldsStart) h.sentFields).append_broke hend
  have hversion := (runs_version (p := r.versionStart) h.version).append_broke hfields
  have htarget :=
    (runs_target (p := r.targetStart) h.path h.query h.fragment).append_broke hversion
  have hmethod := runs_method (p := 0) relaxed h.method
  refine ⟨s, ?_⟩
  rw [length_head, head_eq]
  refine hmethod.append_broke ?_
  rw [Nat.zero_add]
  exact htarget

end Run

section Callbacks

/-! The callbacks find the parts of the head at their places. -/

variable {env : RequestEnv} {head u t v : Text} {i j n : Nat}

theorem textAt_between (hhead : head = u ++ (t ++ v)) (hi : i = u.length)
    (hj : j = u.length + t.length) : textAt head i ((j : Int) - i) = .ok t := by
  have hlen : ((j : Int) - i).toNat = t.length := by omega
  rw [textAt, if_neg (by omega), hlen, hhead, hi]
  rw [if_neg (by simp only [List.length_append]; omega), List.drop_left, List.take_left]

theorem callback_path (hhead : head = u ++ (t ++ v)) (hi : i = u.length)
    (hj : j = u.length + t.length) :
    (Token.path i j).callback env (memory n head) = .ok (.path t) := by
  simp [Token.callback, Token.callback.text, memory, Window.offset, textAt_between hhead hi hj]

theorem callback_query (hhead : head = u ++ (t ++ v)) (hi : i = u.length)
    (hj : j = u.length + t.length) :
    (Token.query (some i) j).callback env (memory n head) = .ok (.query t) := by
  simp [Token.callback, queryOffset, memory, textAt_between hhead hi hj]

theorem callback_fragment (hhead : head = u ++ (t ++ v)) (hi : i = u.length)
    (hj : j = u.length + t.length) :
    (Token.fragment i j).callback env (memory n head) = .ok (.fragment t) := by
  simp [Token.callback, Token.callback.text, memory, Window.offset, textAt_between hhead hi hj]

theorem callback_version (hhead : head = u ++ (t ++ v)) (hi : i = u.length)
    (hj : j = u.length + t.length) :
    (Token.version i j).callback env (memory n head) = .ok (.version t) := by
  simp [Token.callback, Token.callback.text, memory, Window.offset, textAt_between hhead hi hj]

/-- The callbacks on a request target. -/
def targetCallbacks (path query fragment : Text) : List Callback :=
  .path path :: ((if query = [] then [] else [.query query]) ++
    if fragment = [] then [] else [.fragment fragment])

theorem calls_target {m : Marks} {path query fragment : Text}
    (hhead : head = u ++ ((path ++ ((if query = [] then [] else ascii "?") ++ (query ++
      ((if fragment = [] then [] else ascii "#") ++ (fragment ++ ascii " "))))) ++ v)) :
    Calls env (memory n head) (tokens m (targetEvents u.length path query fragment))
      (targetCallbacks path query fragment) := by
  have hquestion : ascii "?" = [63] := by decide
  have hsign : ascii "#" = [35] := by decide
  rw [hquestion, hsign] at hhead
  have hpath : ∀ j, j = u.length + path.length →
      (Token.path u.length j).callback env (memory n head) = .ok (.path path) := by
    intro j hj
    exact callback_path (by rw [hhead, List.append_assoc]) rfl hj
  cases query with
  | nil =>
      cases fragment with
      | nil => exact .cons (hpath _ rfl) .nil
      | cons c f =>
          refine .cons (hpath _ rfl) (.cons ?_ .nil)
          refine callback_fragment (u := u ++ (path ++ [35])) (v := ascii " " ++ v) ?_ ?_ ?_
          · rw [hhead]
            simp
          · simp [queryEnd, Marks.after, Nat.add_assoc]
          · simp [queryEnd, Nat.add_assoc]
  | cons b q =>
      have hquery : ∀ i j, i = u.length + path.length + 1 → j = i + (b :: q).length →
          (Token.query (some i) j).callback env (memory n head) = .ok (.query (b :: q)) := by
        intro i j hi hj
        refine callback_query (u := u ++ (path ++ [63]))
          (v := (if fragment = [] then [] else [35]) ++ (fragment ++ (ascii " " ++ v))) ?_ ?_ ?_
        · rw [hhead]
          simp
        · rw [hi]
          simp [Nat.add_assoc]
        · rw [hj, hi]
          simp [Nat.add_assoc]
      cases fragment with
      | nil => exact .cons (hpath _ rfl) (.cons (hquery _ _ rfl rfl) .nil)
      | cons c f =>
          refine .cons (hpath _ rfl) (.cons (hquery _ _ rfl rfl) (.cons ?_ .nil))
          refine callback_fragment (u := u ++ (path ++ (63 :: b :: q ++ [35])))
            (v := ascii " " ++ v) ?_ ?_ ?_
          · rw [hhead]
            simp
          · simp [queryEnd, Marks.after]
            omega
          · simp [queryEnd]
            omega

/-- The name of a field at the start of its line. -/
theorem textAt_name {i : Text × Text} (hhead : head = u ++ (fieldText i ++ v)) :
    textAt head u.length (i.1.length : Nat) = .ok i.1 := by
  have hsplit : head = u ++ (i.1 ++ (ascii ": " ++ (i.2 ++ (crlf ++ v)))) := by
    rw [hhead, fieldText]
    simp only [List.append_assoc]
  have hlen : ((u.length + i.1.length : Nat) : Int) - (u.length : Nat) = (i.1.length : Nat) := by
    omega
  rw [← hlen]
  exact textAt_between hsplit rfl rfl

/-- The value of a field, two bytes behind the name. -/
theorem textAt_value {i : Text × Text} (hhead : head = u ++ (fieldText i ++ v)) :
    textAt head (u.length + i.1.length + 2)
      ((u.length + i.1.length + 2 + i.2.length : Nat) -
        (u.length + i.1.length + 2 : Nat) : Int) = .ok i.2 := by
  have hsep : ascii ": " = [58, 32] := by decide
  refine textAt_between (u := u ++ (i.1 ++ [58, 32])) (v := crlf ++ v) ?_ ?_ ?_
  · rw [hhead, fieldText, hsep]
    simp
  · simp [Nat.add_assoc]
  · simp [Nat.add_assoc]

theorem calls_field {m : Marks} {i : Text × Text} (hi : PlainField i)
    (hhead : head = u ++ (fieldText i ++ v)) :
    Calls env (memory n head) (tokens m (fieldEvents u.length i)) [.field i.1 i.2] := by
  have hpos : 0 < i.1.length := List.length_pos_iff.mpr hi.name_ne
  refine .cons ?_ .nil
  simp only [Token.callback, Marks.after, Token.callback.text, memory, Window.offset,
    Window.nameLength, Nat.zero_le, if_true, Nat.max_zero, Nat.sub_zero, Nat.add_sub_cancel_left]
  rw [if_neg (Nat.ne_of_gt hpos), textAt_name hhead, textAt_value hhead]
  rfl

theorem calls_fields {m : Marks} {fields : List (Text × Text)} (h : ∀ i ∈ fields, PlainField i)
    (hhead : head = u ++ (fieldsText fields ++ v)) :
    Calls env (memory n head) (tokens m (fieldsEvents u.length fields))
      (fields.map fun i => .field i.1 i.2) := by
  induction fields generalizing m u with
  | nil => exact .nil
  | cons i fields ih =>
      rw [fieldsText, List.flatMap_cons, ← fieldsText, List.append_assoc] at hhead
      rw [fieldsEvents, tokens_append]
      refine calls_append_iff.mpr ⟨[.field i.1 i.2], _, rfl, ?_, ?_⟩
      · exact calls_field (h i List.mem_cons_self) hhead
      · rw [← List.length_append]
        refine ih (fun j hj => h j (List.mem_cons_of_mem _ hj)) ?_
        rw [hhead, List.append_assoc]

/-- The callbacks on the head of a request. -/
def HttpRequest.headCallbacks (r : HttpRequest) : List Callback :=
  [.method r.head] ++ (targetCallbacks r.path r.query r.fragment ++
    ([.version (versionText r.version)] ++ r.sentFields.map fun i => .field i.1 i.2))

theorem HttpRequest.Sendable.calls_head (h : r.Sendable relaxed) :
    Calls env (memory n r.head) (tokens .init r.headEvents) r.headCallbacks := by
  rw [headEvents, tokens_append, tokens_append, tokens_append, tokens_append]
  refine calls_append_iff.mpr ⟨_, _, rfl, ?_, calls_append_iff.mpr ⟨_, _, rfl, ?_,
    calls_append_iff.mpr ⟨_, _, rfl, ?_, calls_append_iff.mpr
      ⟨_, [], (List.append_nil _).symm, ?_, .nil⟩⟩⟩⟩
  · exact .cons rfl .nil
  · exact calls_target r.head_eq
  · have hwidth : (versionText r.version).length = 8 := by
      obtain hv | hv := h.version <;> rw [hv] <;> decide
    refine .cons (callback_version
      (u := (ascii (httpMethodToString (some r.method)) ++ ascii " ") ++ r.target)
      (v := crlf ++ (fieldsText r.sentFields ++ crlf)) ?_ ?_ ?_) .nil
    · rw [head_eq]
      simp only [List.append_assoc]
    · simp [versionStart, targetStart, Marks.after, Nat.add_assoc]
    · simp [versionStart, targetStart, hwidth, Nat.add_assoc]
  · have hstart : r.fieldsStart = ((ascii (httpMethodToString (some r.method)) ++ ascii " ") ++
        (r.target ++ (versionText r.version ++ crlf))).length := by
      simp only [fieldsStart, versionStart, targetStart, List.length_append]
      omega
    rw [hstart]
    refine calls_fields (v := crlf) h.sentFields ?_
    rw [head_eq]
    simp only [List.append_assoc]

end Callbacks

section Data

theorem runCallbacks_fields (fields : List (Text × Text)) (x : HttpRequestParser) :
    runCallbacks (fields.map fun i => .field i.1 i.2) x =
      { x with data := { x.data with
        close := fields.foldl (fun c i => HttpRequestParser.closeAfter i.1 i.2 c) x.data.close
        headers := HeaderMap.setAll fields x.data.headers } } := by
  induction fields generalizing x with
  | nil => rfl
  | cons i fields ih => exact ih (x.onRequestHttpField i.1 i.2)

theorem runCallbacks_target (path query fragment : Text) (x : HttpRequestParser)
    (hquery : x.data.query = []) (hfragment : x.data.fragment = []) :
    runCallbacks (targetCallbacks path query fragment) x =
      { x with data := { x.data with path := path, query := query, fragment := fragment } } := by
  obtain ⟨c, ⟨method, version, close, path', query', fragment', body, headers⟩, error⟩ := x
  cases hquery
  cases hfragment
  cases query <;> cases fragment <;> rfl

/-- The memory that starts with the name of a method and a blank. -/
theorem charsToHttpMethod_name {m : HttpMethod} (hm : m ≠ .MSEARCH) (rest : Text) :
    charsToHttpMethod (ascii (httpMethodToString (some m)) ++ 32 :: rest) = some m := by
  have hentry := mem_httpMethodMap m
  have hblank : 32 ∉ ascii (httpMethodToString (some m)) := by
    intro hmem
    exact hm (congrArg Prod.fst (eq_msearch_of_blank _ hentry hmem))
  have hone : ascii (httpMethodToString (some m)) ≠ ascii "M" := by
    cases m <;> decide
  have hsome : (httpMethodMap.find? fun e => (ascii e.2).isPrefixOf
      (ascii (httpMethodToString (some m)) ++ 32 :: rest)).isSome :=
    List.find?_isSome.2 ⟨_, hentry, (name_prefix_iff hblank hentry).2 (.inl (List.prefix_refl _))⟩
  obtain ⟨found, hfound⟩ := Option.isSome_iff_exists.1 hsome
  have hmem := List.mem_of_find?_eq_some hfound
  rw [charsToHttpMethod, hfound]
  have hstarts := List.find?_some hfound
  obtain hname | ⟨-, hshort, -⟩ := (name_prefix_iff hblank hmem).1 hstarts
  · have heq := httpMethodMap_prefix_free found hmem _ hentry (List.isPrefixOf_iff_prefix.2 hname)
    rw [heq]
    rfl
  · exact absurd hshort hone

/-- The flag that the fields of a request leave is its own. -/
theorem closeAfter_sentFields (r : HttpRequest) (c : Bool) :
    r.sentFields.foldl (fun c i => HttpRequestParser.closeAfter i.1 i.2 c) c = r.close := by
  rw [HttpRequest.sentFields, List.foldl_cons, closeAfter_connectionField]
  apply foldl_closeAfter_of_others
  intro i hi
  obtain hi | hi := List.mem_append.mp hi
  · exact ownFields_others hi
  · exact lengthField_others hi

/-- What a lookup finds in the fields of a request when they are received. -/
theorem find_sentFields (h : r.Sendable relaxed) (key : Text) :
    HeaderMap.find key (HeaderMap.setAll r.sentFields []) =
      if sameIgnoringCase (ascii "connection") key then
        some (connectionField r.close).2
      else if r.body ≠ [] ∧ sameIgnoringCase (ascii "content-length") key then
        some (Numerals.decimal r.body.length)
      else HeaderMap.find key r.headers := by
  rw [HeaderMap.find_setAll, HeaderMap.find_nil, Option.or_none, HttpRequest.sentFields,
    List.reverse_cons, List.reverse_append, HeaderMap.find_append, HeaderMap.find_append,
    find_lengthField, find_ownFields h.sorted, find_connectionField]
  by_cases hkey : sameIgnoringCase (ascii "connection") key
  · have hother : sameIgnoringCase (ascii "content-length") key = false := by
      rw [← sameIgnoringCase_comm, ← sameIgnoringCase_congr hkey]
      exact fieldNames.2 ("connection", "content-length") (by simp)
    simp [hkey, hother]
  · simp only [hkey, Bool.false_eq_true, if_false, Option.or_none]
    split
    · rfl
    · rfl

/-- The request as it arrives: with the fields that `dump` has written. -/
def HttpRequest.received (r : HttpRequest) : HttpRequest :=
  { r with headers := HeaderMap.setAll r.sentFields [] }

theorem HttpRequest.Sendable.runCallbacks_head (h : r.Sendable relaxed) (queryStart : Nat) :
    runCallbacks r.headCallbacks (.new relaxed queryStart) =
      ⟨.init relaxed queryStart, { r.received with body := [] }, 0⟩ := by
  have hmethod : charsToHttpMethod r.head = some r.method := by
    have hblank : ascii " " = [32] := by decide
    rw [head_eq, hblank, List.append_assoc]
    exact charsToHttpMethod_name h.method _
  have hversion := versionOf_versionText h.version
  have hstart : runCallbacks [.method r.head] (.new relaxed queryStart) =
      ⟨.init relaxed queryStart, { HttpRequest.new with method := r.method }, 0⟩ := by
    simp only [runCallbacks, List.foldl_cons, List.foldl_nil, Callback.run,
      HttpRequestParser.onRequestMethod, hmethod]
    rfl
  have hline : ∀ x : HttpRequestParser, runCallbacks [.version (versionText r.version)] x =
      { x with data := { x.data with version := r.version } } := by
    intro x
    simp only [runCallbacks, List.foldl_cons, List.foldl_nil, Callback.run,
      HttpRequestParser.onRequestVersion, hversion]
  rw [headCallbacks, runCallbacks_append, runCallbacks_append, runCallbacks_append, hstart,
    runCallbacks_target _ _ _ _ rfl rfl, hline, runCallbacks_fields, closeAfter_sentFields]
  rfl

theorem Calls.mapM_eq {env : RequestEnv} {W : Windows} {ts : List Token} {cbs : List Callback}
    (h : Calls env W ts cbs) : ts.mapM (Token.callback env W) = .ok cbs := by
  induction h with
  | nil => rfl
  | cons hcb _ ih =>
      rw [List.mapM_cons, hcb, ih]
      rfl

theorem HttpRequest.Sendable.parseHead {env : RequestEnv} (h : r.Sendable env.relaxed) :
    parseHead env r.head =
      some ⟨.init env.relaxed env.queryStart, { r.received with body := [] }, 0⟩ := by
  obtain ⟨s, hscan⟩ := h.scan_head
  have hcalls : Calls env (memory r.head.length r.head) (tokens .init r.headEvents)
      r.headCallbacks := h.calls_head
  have hrun : requestRun env r.head = (r.headEvents, .broke s r.head.length) := hscan
  rw [Http.parseHead, requestTokens, hrun, hcalls.mapM_eq]
  simp only [h.runCallbacks_head, and_self, if_true]

/-- `boost::lexical_cast` of the decimal numerals that `dump` writes. -/
def CastsLengths (cast : Text → Option UInt64) : Prop :=
  ∀ n : Nat, n < 2 ^ 63 → cast (Numerals.decimal n) = some (.ofNat n)

theorem toInt_ofNat_toInt64 {n : Nat} (hn : n < 2 ^ 63) : (UInt64.ofNat n).toInt64.toInt = n := by
  have hsigned : (UInt64.ofNat n).toInt64.toInt = ((UInt64.ofNat n).toNat : Int).bmod (2 ^ 64) :=
    BitVec.toInt_eq_toNat_bmod (UInt64.ofNat n).toBitVec
  rw [hsigned, UInt64.toNat_ofNat_of_lt' (Nat.lt_trans hn (by decide)), Int.bmod_def]
  omega

theorem HttpRequest.Sendable.contentLength {env : RequestEnv} (h : r.Sendable env.relaxed)
    (hcast : CastsLengths env.cast) (hbody : r.body.length < 2 ^ 63) (c : HttpParser) :
    HttpSession.contentLength env ⟨c, { r.received with body := [] }, 0⟩ = r.body.length := by
  have hfind := find_sentFields h (ascii "content-length")
  have hother : sameIgnoringCase (ascii "connection") (ascii "content-length") = false :=
    fieldNames.2 ("connection", "content-length") (by simp)
  have hself : sameIgnoringCase (ascii "content-length") (ascii "content-length") = true :=
    sameIgnoringCase_iff.mpr rfl
  rw [hother, hself, h.length] at hfind
  rw [HttpSession.contentLength, HttpRequestParser.getContentLength]
  simp only [received, hfind]
  by_cases hempty : r.body = []
  · simp [hempty]
  · simp only [ne_eq, hempty, not_false_eq_true, and_self, Bool.false_eq_true, if_false, if_true,
      hcast _ hbody, Option.getD_some]
    exact toInt_ofNat_toInt64 hbody

/-- A request that can be sent, as the session sees it on the wire. -/
def HttpRequest.Sendable.wire {env : RequestEnv} (h : r.Sendable env.relaxed)
    (hcast : CastsLengths env.cast) (hbody : r.body.length < 2 ^ 63) : Wire env where
  head := r.head
  body := r.body
  parser := ⟨.init env.relaxed env.queryStart, { r.received with body := [] }, 0⟩
  parses := h.parseHead
  announced := by
    rw [h.contentLength hcast hbody]
    rfl

/-- What `recvRequest` returns, and what it leaves. -/
theorem HttpRequest.Sendable.exec_recvRequest {env : RequestEnv} (h : r.Sendable env.relaxed)
    (hcast : CastsLengths env.cast) (hbody : r.body.length < 2 ^ 63) {reads : List Text}
    {more : Text} (hne : ∀ piece ∈ reads, piece ≠ []) (hreads : reads.flatten = r.dump ++ more)
    (hfirst : r.head.length ≤ (firstRead env reads).length) :
    (HttpSession.recvRequest env).exec ⟨reads, false⟩ =
      (.ok (some r.received),
        ⟨Pieces.skip (max r.dump.length (firstRead env reads).length) reads, false⟩) := by
  have hbytes : reads.flatten = (h.wire hcast hbody).bytes ++ more := by
    rw [hreads, HttpRequest.dump_eq]
    rfl
  have hcall := Http.exec_recvRequest (h.wire hcast hbody) hne hbytes hfirst
  rw [hcall, HttpRequest.dump_eq]
  rfl

end Data

/-- A buffer of 256 zero bytes, and a cast that reads every decimal numeral. -/
def numeralEnv : RequestEnv where
  buffer := List.replicate 256 0
  relaxed := false
  queryStart := 0
  cast text := some (.ofNat (Numerals.numeral 10 0 text))

theorem castsLengths_numeralEnv : CastsLengths numeralEnv.cast := by
  intro n _
  exact congrArg (fun k => some (UInt64.ofNat k)) (Numerals.numeral_decimal n)

def postRequest : HttpRequest where
  method := .POST
  version := 0x11
  close := false
  path := ascii "/a/%41"
  query := ascii "x=1"
  fragment := ascii "top"
  body := ascii "hello"
  headers := [(ascii "Accept", ascii "text/html, */*"), (ascii "Host", ascii "a.example:80")]

theorem postRequest_sendable : postRequest.Sendable false where
  method := by decide
  version := by decide
  path := ⟨by decide, by decide, by decide +kernel⟩
  query := by decide +kernel
  fragment := by decide +kernel
  fields i hi := by
    obtain rfl | hi := List.mem_cons.mp hi
    · constructor <;> decide +kernel
    · obtain rfl := List.mem_singleton.mp hi
      constructor <;> decide +kernel
  sorted := by
    unfold HeaderMap.Sorted
    decide +kernel
  length := by decide +kernel

end Sylar.Http

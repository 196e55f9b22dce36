import Sylar.Http.Chunked
import Sylar.Http.RequestWire
import Sylar.Http.ResponseStates

/-!
# A dumped response is received as it was sent

As for requests, the actions of the machine on a dumped response build the response again. The
reason of a response without one is the text of its status, and of several cookies the last one
is kept.
-/

namespace Sylar.Http

open Sylar.Lib Sylar.Lib.Ragel Sylar.Net ResponseStates

section Actions

/-- The parser has this response, no error and no mark behind `n`, and expects no chunks. -/
structure Parsed (n : Nat) (data : HttpResponse) (x : HttpResponseParser) : Prop where
  data : x.data = data
  error : x.error = 0
  chunked : x.parser.chunked = false
  nread : x.parser.nread = 0
  mark : x.parser.mark ≤ n
  fieldStart : x.parser.fieldStart ≤ n
  fieldLen : x.parser.fieldLen ≤ n

/-- The actions take a parser at one place to a parser at another. -/
def Yields (buffer : Text) (es : List (Nat × ResponseAction)) (n n' : Nat)
    (data data' : HttpResponse) : Prop :=
  ∀ x, Parsed n data x →
    ∃ y, runEvents (HttpResponseParser.action buffer) es x = .ok y ∧ Parsed n' data' y

variable {buffer u v : Text} {es fs : List (Nat × ResponseAction)} {n n' n'' : Nat}
  {data data' data'' : HttpResponse}

theorem Yields.append (h : Yields buffer es n n' data data')
    (h' : Yields buffer fs n' n'' data' data'') : Yields buffer (es ++ fs) n n'' data data'' := by
  intro x hx
  obtain ⟨y, hy, hparsed⟩ := h x hx
  obtain ⟨z, hz, hparsed'⟩ := h' y hparsed
  refine ⟨z, ?_, hparsed'⟩
  rw [runEvents_append, hy]
  exact hz

/-- The first byte of a name marks its start; a pending action closes the connection. -/
theorem runEvents_firstActs (closed : Bool) (b : UInt8) (p : Nat) (x : HttpResponseParser) :
    runEvents (HttpResponseParser.action buffer) ((firstActs closed b).map (p, ·)) x =
      .ok (x.setParser fun c => { c with fieldStart := p, close := closed || c.close }) := by
  cases closed with
  | false => rfl
  | true =>
      by_cases hb : toLower b = 116
      · rw [firstActs, if_neg (by decide), if_pos hb]
        rfl
      · rw [firstActs, if_neg (by decide), if_neg hb]
        rfl

/-- The response after a field. -/
def HttpResponse.withField (i : Text × Text) (r : HttpResponse) : HttpResponse :=
  { r with close := HttpRequestParser.closeAfter i.1 i.2 r.close }.setHeader i.1 i.2

theorem yields_field (closed measured : Bool) {i : Text × Text} (hi : PlainField i)
    (hbuffer : buffer = u ++ (fieldText i ++ v)) :
    Yields buffer (fieldEvents closed measured u.length i) u.length (u ++ fieldText i).length
      data (data.withField i) := by
  have hpos : i.1.length ≠ 0 := Nat.ne_of_gt (List.length_pos_iff.mpr hi.name_ne)
  have hname := textAt_name hbuffer
  have hvalue := textAt_value hbuffer
  have hlen : (u ++ fieldText i).length = u.length + i.1.length + 2 + i.2.length + 2 := by
    have hsep : ascii ": " = [58, 32] := by decide
    simp [fieldText, hsep, crlf]
    omega
  intro x hx
  refine ⟨(x.setParser fun c => { c with
    fieldStart := u.length, close := closed || c.close, fieldLen := i.1.length,
    mark := u.length + i.1.length + 2,
    contentLen := if measured then Numerals.toInt (Numerals.strtol 10
      (buffer.drop (u.length + i.1.length + 2))) else c.contentLen }).onResponseHttpField
        i.1 i.2, ?_, ?_⟩
  · have hsub : u.length + i.1.length - u.length = i.1.length := Nat.add_sub_cancel_left _ _
    rw [fieldEvents, runEvents_append, runEvents_firstActs]
    cases measured <;>
      simp only [valueActs, List.map_cons, List.map_nil, List.cons_append, List.nil_append,
        if_true, if_false, Bool.false_eq_true, runEvents, HttpResponseParser.action,
        HttpResponseParser.setParser, bind, Except.bind, hsub, if_neg hpos, hname, hvalue]
  · obtain ⟨hdata, herror, hchunked, hnread, -, -, -⟩ := hx
    rw [hlen]
    refine ⟨?_, herror, hchunked, hnread, ?_, ?_, ?_⟩
    · rw [← hdata]
      rfl
    · show u.length + i.1.length + 2 ≤ _
      omega
    · show u.length ≤ _
      omega
    · show i.1.length ≤ _
      omega

/-- The response after some fields. -/
def HttpResponse.withFields (fields : List (Text × Text)) (r : HttpResponse) : HttpResponse :=
  fields.foldl (fun r i => r.withField i) r

theorem HttpResponse.withFields_eq (fields : List (Text × Text)) (r : HttpResponse) :
    r.withFields fields =
      { r with
        close := fields.foldl (fun c i => HttpRequestParser.closeAfter i.1 i.2 c) r.close
        headers := HeaderMap.setAll fields r.headers } := by
  induction fields generalizing r with
  | nil => rfl
  | cons i fields ih => exact ih (r.withField i)

theorem HttpResponse.withFields_append (fields more : List (Text × Text)) (r : HttpResponse) :
    r.withFields (fields ++ more) = (r.withFields fields).withFields more := List.foldl_append

theorem yields_fields {fields : List (Text × Text)} (h : ∀ i ∈ fields, PlainField i)
    (hbuffer : buffer = u ++ (fieldsText fields ++ v)) :
    Yields buffer (fieldsEvents u.length fields) u.length (u ++ fieldsText fields).length data
      (data.withFields fields) := by
  induction fields generalizing u data with
  | nil =>
      intro x hx
      rw [fieldsText, List.flatMap_nil, List.append_nil]
      exact ⟨x, rfl, hx⟩
  | cons i fields ih =>
      rw [fieldsText_cons] at hbuffer ⊢
      have hfirst : Yields buffer (fieldEvents false false u.length i) u.length
          (u ++ fieldText i).length data (data.withField i) :=
        yields_field false false (h i List.mem_cons_self) (by rw [hbuffer, List.append_assoc])
      have hrest : Yields buffer _ (u ++ fieldText i).length _ (data.withField i) _ :=
        ih (fun j hj => h j (List.mem_cons_of_mem _ hj)) (by rw [hbuffer]; simp)
      have hlen : u.length + (fieldText i).length = (u ++ fieldText i).length :=
        List.length_append.symm
      rw [List.append_assoc] at hrest
      rw [fieldsEvents, hlen]
      exact hfirst.append hrest

/-- The line end behind the last field does not change the response. -/
theorem yields_headEnd (closed : Bool) (p n : Nat) :
    Yields buffer ((endActs closed).map (p, ·) ++ [(p + 1, .done)]) n n data data := by
  intro x hx
  obtain ⟨hdata, herror, hchunked, hnread, hmark, hstart, hlen⟩ := hx
  cases closed with
  | false => exact ⟨_, rfl, hdata, herror, hchunked, hnread, hmark, hstart, hlen⟩
  | true => exact ⟨_, rfl, hdata, herror, hchunked, hnread, hmark, hstart, hlen⟩

theorem yields_statusLine {ver : UInt8} (hver : ver = 0x10 ∨ ver = 0x11) {status : Nat}
    (hstatus : status < 2 ^ 31) {reason : Text}
    (hbuffer : buffer = (versionText ver ++ ascii " ") ++
      ((Numerals.decimal status ++ (32 :: (reason ++ crlf))) ++ v)) :
    Yields buffer (statusEvents (Numerals.decimal status) reason) 0
      (9 + (Numerals.decimal status).length + 1 + reason.length + 2) .new
      { HttpResponse.new with version := ver, status := status, reason := reason } := by
  have hwidth : (versionText ver).length = 8 := by
    obtain rfl | rfl := hver <;> decide
  have hwidth' : (versionText ver ++ ascii " ").length = 9 := by
    rw [List.length_append, hwidth]
    decide
  have hversion : textAt buffer 0 ((8 : Nat) - (0 : Nat) : Int) = .ok (versionText ver) := by
    refine textAt_between (u := [])
      (v := ascii " " ++ ((Numerals.decimal status ++ (32 :: (reason ++ crlf))) ++ v)) ?_ rfl ?_
    · rw [hbuffer, List.append_assoc]
      rfl
    · rw [hwidth]
      rfl
  have hknown := versionOf_versionText hver
  have hdigits : buffer.drop 9 =
      Numerals.decimal status ++ (32 :: (reason ++ crlf) ++ v) := by
    rw [hbuffer, ← hwidth', List.drop_left, List.append_assoc]
  have hnumber : Numerals.toInt (Numerals.strtol 10 (buffer.drop 9)) = status := by
    have hnumeral : Numerals.IsNumeral 10 (Numerals.decimal status) :=
      ⟨Numerals.decimal_ne_nil status, fun b => Numerals.isSome_digit_of_mem_decimal⟩
    have hblank : ∀ c ∈ (32 :: (reason ++ crlf) ++ v).head?, Numerals.digit 10 c = none := by
      intro c hc
      cases hc
      decide
    rw [hdigits, Numerals.strtol_decimal hnumeral hblank, Numerals.numeral_decimal,
      Numerals.toInt_of_lt hstatus]
    rw [Numerals.numeral_decimal]
    omega
  have hreason : textAt buffer (9 + (Numerals.decimal status).length + 1)
      ((9 + (Numerals.decimal status).length + 1 + reason.length : Nat) -
        (9 + (Numerals.decimal status).length + 1 : Nat) : Int) = .ok reason := by
    refine textAt_between (u := (versionText ver ++ ascii " ") ++
      (Numerals.decimal status ++ [32])) (v := crlf ++ v) ?_ ?_ ?_
    · rw [hbuffer]
      simp
    · rw [List.length_append, hwidth', List.length_append]
      rfl
    · rw [List.length_append, hwidth', List.length_append]
      rfl
  intro x hx
  obtain ⟨hdata, herror, hchunked, hnread, -, hstart, hlen⟩ := hx
  refine ⟨{ x with
    parser := { x.parser with
      mark := 9 + (Numerals.decimal status).length + 1, status := status }
    data := { x.data with version := ver, status := status, reason := reason } }, ?_, ?_⟩
  · simp only [statusEvents, runEvents, HttpResponseParser.action, HttpResponseParser.setParser,
      bind, Except.bind, hversion, HttpResponseParser.onResponseVersion, hknown, hnumber,
      HttpResponseParser.onResponseStatus, hreason, HttpResponseParser.onResponseReason]
  · refine ⟨?_, herror, hchunked, hnread, ?_, ?_, ?_⟩
    · rw [← hdata]
    · show 9 + (Numerals.decimal status).length + 1 ≤ _
      omega
    · exact hstart.trans (Nat.zero_le _)
    · exact hlen.trans (Nat.zero_le _)

end Actions

section Head

/-- The reason that `dump` writes. -/
def HttpResponse.reasonText (r : HttpResponse) : Text :=
  if r.reason = [] then ascii (httpStatusToString r.status) else r.reason

def cookieFields (cookies : List Text) : List (Text × Text) :=
  cookies.map fun c => (ascii "Set-Cookie", c)

/-- The fields in the order in which `dump` writes them. -/
def HttpResponse.sentFields (cookies : List Text) (r : HttpResponse) : List (Text × Text) :=
  ownFields r.headers ++ (connectionField r.close :: (cookieFields cookies ++ lengthField r.body))

/-- What `dump` writes before the body. -/
def HttpResponse.head (cookies : List Text) (r : HttpResponse) : Text :=
  r.startText ++ crlf ++ (fieldsText (r.sentFields cookies) ++ crlf)

theorem HttpResponse.two_le_length_head (cookies : List Text) (r : HttpResponse) :
    2 ≤ (r.head cookies).length := by
  rw [head]
  simp only [List.length_append, crlf, List.length_cons, List.length_nil]
  omega

theorem fieldsText_cookieFields (cookies : List Text) :
    fieldsText (cookieFields cookies) =
      cookies.flatMap fun i => ascii "Set-Cookie: " ++ i ++ crlf := by
  have hname : ascii "Set-Cookie: " = ascii "Set-Cookie" ++ ascii ": " := by decide
  rw [fieldsText, cookieFields, List.flatMap_map, hname]
  rfl

theorem HttpResponse.dump_eq (cookies : List Text) (r : HttpResponse) :
    r.dump cookies = r.head cookies ++ r.body := by
  have hfields : fieldsText (r.sentFields cookies) =
      dumpHeaders r.headers ++ ((connectionText r.close ++ crlf) ++
        (fieldsText (cookieFields cookies) ++ fieldsText (lengthField r.body))) := by
    rw [sentFields, ← fieldText_connectionField, ← fieldsText_ownFields, fieldsText_append,
      ← fieldsText_append (cookieFields cookies)]
    rfl
  rw [dump, head, hfields, ← fieldsText_lengthField, fieldsText_cookieFields]
  simp only [List.append_assoc]

/-- A response that can be sent: its parts are texts of the grammar, its headers are a map without
a length, which `dump` adds, and its body is sent as it is. -/
structure HttpResponse.Sendable (cookies : List Text) (r : HttpResponse) : Prop where
  version : r.version = 0x10 ∨ r.version = 0x11
  status : 0 ≤ r.status ∧ r.status < 2 ^ 31
  reason : ∀ b ∈ r.reason, reasonBytes.mem b
  fields : ∀ i ∈ r.headers, PlainField i
  length : HeaderMap.find (ascii "content-length") r.headers = none
  transfer : HeaderMap.find (ascii "transfer-encoding") r.headers = none
  sorted : HeaderMap.Sorted r.headers
  cookies : ∀ c ∈ cookies, PlainField (ascii "Set-Cookie", c)
  encoding : ∀ text, HeaderMap.find (ascii "content-encoding") r.headers = some text →
    sameIgnoringCase text (ascii "gzip") = false ∧ sameIgnoringCase text (ascii "deflate") = false

variable {cookies : List Text} {r : HttpResponse}

/-- A name that a lookup does not find is not the name of a field. -/
theorem lower_ne_of_find {m : HeaderMap} {key : Text} (hkey : lower key = key)
    (hfind : HeaderMap.find key m = none) {i : Text × Text} (hi : i ∈ m) : lower i.1 ≠ key := by
  induction m with
  | nil => cases hi
  | cons j m ih =>
      rw [HeaderMap.find_cons] at hfind
      split at hfind
      · cases hfind
      · next hother =>
          obtain rfl | hi := List.mem_cons.mp hi
          · intro hname
            exact hother (sameIgnoringCase_iff.mpr (caseKey_eq_of_lower (hname.trans hkey.symm)))
          · exact ih hfind hi

theorem HttpResponse.Sendable.ownFields (h : r.Sendable cookies) :
    ∀ i ∈ ownFields r.headers, PlainField i ∧ lower i.1 ∉ specialNames := by
  intro i hi
  have hmem : i ∈ r.headers := (List.mem_filter.mp hi).1
  have hconnection : lower i.1 ≠ ascii "connection" := by
    refine lower_ne_of_find (by decide) ?_ hi
    apply HeaderMap.find_eq_none_of_forall
    intro j hj
    exact (Bool.not_eq_true' _).mp (List.mem_filter.mp hj).2
  have hlength := lower_ne_of_find (by decide) h.length hmem
  have htransfer := lower_ne_of_find (by decide) h.transfer hmem
  refine ⟨h.fields i hmem, ?_⟩
  simp only [specialNames, List.mem_cons, List.not_mem_nil, or_false, not_or]
  exact ⟨hlength, hconnection, htransfer⟩

theorem HttpResponse.Sendable.cookieFields (h : r.Sendable cookies) :
    ∀ i ∈ cookieFields cookies, PlainField i ∧ lower i.1 ∉ specialNames := by
  intro i hi
  obtain ⟨c, hc, rfl⟩ := List.mem_map.mp hi
  have hname : lower (ascii "Set-Cookie") ∉ specialNames := by decide +kernel
  exact ⟨h.cookies c hc, hname⟩

theorem digit_of_mem_decimal (n : Nat) : ∀ b ∈ Numerals.decimal n, ByteSet.digit.mem b := by
  have hall : ∀ b, (Numerals.digit 10 b).isSome → ByteSet.digit.mem b :=
    forall_byte (by decide +kernel)
  exact fun b hb => hall b (Numerals.isSome_digit_of_mem_decimal hb)

/-- The texts of the states are plain. -/
theorem httpStatusToString_mem (s : Int) :
    ascii (httpStatusToString s) ≠ [] ∧ ∀ b ∈ ascii (httpStatusToString s), reasonBytes.mem b := by
  have hprintable : ∀ b : UInt8, 32 ≤ b → reasonBytes.mem b := forall_byte (by decide +kernel)
  have hall : ((-1, "<unknow>") :: httpStatusMap).all fun entry =>
      !(ascii entry.2).isEmpty && (ascii entry.2).all (32 ≤ ·) := by decide +kernel
  have htext : ∃ code, (code, httpStatusToString s) ∈ (-1, "<unknow>") :: httpStatusMap := by
    rw [httpStatusToString]
    cases hs : httpStatusMap.lookup s with
    | none => exact ⟨-1, List.mem_cons_self⟩
    | some text =>
        obtain ⟨l, l', hmap, -⟩ := List.lookup_eq_some_iff.mp hs
        exact ⟨s, List.mem_cons_of_mem _ (by rw [hmap]; simp)⟩
  obtain ⟨code, hcode⟩ := htext
  have hentry := List.all_eq_true.mp hall _ hcode
  rw [Bool.and_eq_true, Bool.not_eq_true', List.isEmpty_eq_false_iff, List.all_eq_true] at hentry
  exact ⟨hentry.1, fun b hb => hprintable b (of_decide_eq_true (hentry.2 b hb))⟩

theorem HttpResponse.Sendable.reasonText (h : r.Sendable cookies) :
    r.reasonText ≠ [] ∧ ∀ b ∈ r.reasonText, reasonBytes.mem b := by
  rw [HttpResponse.reasonText]
  split
  · exact httpStatusToString_mem r.status
  · next hne => exact ⟨hne, h.reason⟩

/-- The status line. -/
def HttpResponse.statusLine (r : HttpResponse) : Text :=
  (versionText r.version ++ ascii " ") ++
    (Numerals.decimal r.status.toNat ++ (32 :: (r.reasonText ++ crlf)))

theorem HttpResponse.Sendable.startText (h : r.Sendable cookies) :
    r.startText ++ crlf = r.statusLine := by
  obtain ⟨hnonneg, hlt⟩ := h.status
  have hmod : r.status % 4294967296 = r.status := by omega
  have hblank : ascii " " = [32] := by decide
  rw [HttpResponse.startText, HttpResponse.statusLine, hmod, HttpResponse.reasonText, hblank]
  simp

/-- What stands behind the field with the connection. -/
def tailText (fields : List (Text × Text)) (body : Text) : Text :=
  fieldsText fields ++ (fieldsText (lengthField body) ++ crlf)

/-- The actions on the lines behind the field with the connection. -/
def tailEvents (body : Text) :
    Bool → Nat → List (Text × Text) → List (Nat × ResponseAction)
  | closed, p, [] =>
      if body = [] then (endActs closed).map (p, ·) ++ [(p + 1, .done)]
      else
        let i := (ascii "Content-length", Numerals.decimal body.length)
        fieldEvents closed true p i ++
          ((endActs false).map (p + (fieldText i).length, ·) ++
            [(p + (fieldText i).length + 1, .done)])
  | closed, p, i :: fields =>
      fieldEvents closed false p i ++ tailEvents body false (p + (fieldText i).length) fields

theorem scan_tail (closed : Bool) {p : Nat} {fields : List (Text × Text)} (body : Text)
    (h : ∀ i ∈ fields, PlainField i ∧ lower i.1 ∉ specialNames) :
    scan HttpResponseParser.stop (ResponseStates.lineState closed) p (tailText fields body) =
      (tailEvents body closed p fields,
        .broke (stateThrough headEnd [10]) (p + (tailText fields body).length)) := by
  induction fields generalizing closed p with
  | nil =>
      by_cases hbody : body = []
      · rw [tailText, lengthField, tailEvents, if_pos hbody, if_pos hbody]
        exact scan_headEnd closed
      · have hscan := (runs_length (p := p) closed (Numerals.decimal_ne_nil body.length)
          (digit_of_mem_decimal _)).append_broke (scan_headEnd false)
        have htext : tailText [] body =
            fieldText (ascii "Content-length", Numerals.decimal body.length) ++ crlf := by
          rw [tailText, lengthField, if_neg hbody, fieldsText, fieldsText, List.flatMap_singleton]
          rfl
        rw [htext, tailEvents, if_neg hbody, hscan, List.length_append, Nat.add_assoc]
        rfl
  | cons i fields ih =>
      obtain ⟨hplain, hother⟩ := h i List.mem_cons_self
      have hrest := ih false (p := p + (fieldText i).length)
        fun j hj => h j (List.mem_cons_of_mem _ hj)
      have htext : tailText (i :: fields) body = fieldText i ++ tailText fields body := by
        rw [tailText, fieldsText_cons, List.append_assoc]
        rfl
      rw [htext, List.length_append, ← Nat.add_assoc]
      exact (runs_field closed hplain hother).append_broke hrest

theorem yields_tail (closed : Bool) {buffer u v : Text} {fields : List (Text × Text)}
    {body : Text} {data : HttpResponse} (h : ∀ i ∈ fields, PlainField i)
    (hbuffer : buffer = u ++ (tailText fields body ++ v)) :
    Yields buffer (tailEvents body closed u.length fields) u.length
      (u ++ fieldsText (fields ++ lengthField body)).length data
      (data.withFields (fields ++ lengthField body)) := by
  induction fields generalizing closed u data with
  | nil =>
      by_cases hbody : body = []
      · rw [tailEvents, lengthField, if_pos hbody, if_pos hbody]
        show Yields _ _ _ (u ++ []).length _ _
        rw [List.append_nil]
        exact yields_headEnd closed u.length u.length
      · have hplain : PlainField (ascii "Content-length", Numerals.decimal body.length) := by
          refine plainField_lengthField (?_ : _ ∈ lengthField body)
          rw [lengthField, if_neg hbody]
          exact List.mem_singleton_self _
        have hfield : Yields buffer (fieldEvents closed true u.length _) u.length _ data _ :=
          yields_field closed true hplain (v := crlf ++ v) (by
            rw [hbuffer, tailText, lengthField, if_neg hbody]
            simp [fieldsText])
        rw [tailEvents, lengthField, if_neg hbody, if_neg hbody, List.nil_append, fieldsText,
          List.flatMap_singleton]
        exact hfield.append (yields_headEnd false _ _)
  | cons i fields ih =>
      have hfield : Yields buffer (fieldEvents closed false u.length i) u.length
          (u ++ fieldText i).length data (data.withField i) :=
        yields_field closed false (h i List.mem_cons_self) (v := tailText fields body ++ v) (by
          rw [hbuffer, tailText, fieldsText_cons, tailText]
          simp only [List.append_assoc])
      have hrest : Yields buffer _ (u ++ fieldText i).length _ (data.withField i) _ := ih false
        (fun j hj => h j (List.mem_cons_of_mem _ hj)) (by
          rw [hbuffer, tailText, fieldsText_cons, tailText]
          simp only [List.append_assoc])
      have hlen : u.length + (fieldText i).length = (u ++ fieldText i).length :=
        List.length_append.symm
      rw [List.append_assoc] at hrest
      rw [tailEvents, hlen]
      exact hfield.append hrest

/-- The actions on the head. -/
def HttpResponse.headEvents (cookies : List Text) (r : HttpResponse) :
    List (Nat × ResponseAction) :=
  let own := r.statusLine ++ fieldsText (ownFields r.headers)
  statusEvents (Numerals.decimal r.status.toNat) r.reasonText ++
    (fieldsEvents r.statusLine.length (ownFields r.headers) ++
      (fieldEvents false false own.length (connectionField r.close) ++
        tailEvents r.body r.close (own ++ fieldText (connectionField r.close)).length
          (cookieFields cookies)))

theorem HttpResponse.Sendable.head_eq (h : r.Sendable cookies) :
    r.head cookies = r.statusLine ++ (fieldsText (Http.ownFields r.headers) ++
      (fieldText (connectionField r.close) ++ tailText (Http.cookieFields cookies) r.body)) := by
  rw [head, h.startText, sentFields, fieldsText_append, fieldsText_cons, fieldsText_append,
    tailText]
  simp only [List.append_assoc]

theorem HttpResponse.Sendable.scan_head (h : r.Sendable cookies) :
    scan HttpResponseParser.stop responseStart 0 (r.head cookies) =
      (r.headEvents cookies, .broke (stateThrough headEnd [10]) (r.head cookies).length) := by
  obtain ⟨hreason, hbytes⟩ := h.reasonText
  have htail := scan_tail r.close (p := (r.statusLine ++ fieldsText (Http.ownFields r.headers) ++
    fieldText (connectionField r.close)).length) r.body h.cookieFields
  rw [List.length_append] at htail
  have hconnection := (runs_connection r.close).append_broke htail
  rw [List.length_append] at hconnection
  have hown := (runs_fields h.ownFields).append_broke hconnection
  rw [← Nat.zero_add r.statusLine.length] at hown
  have hstatus := (runs_statusLine h.version (Numerals.decimal_ne_nil r.status.toNat)
    (digit_of_mem_decimal _) hreason hbytes).append_broke hown
  rw [h.head_eq, headEvents]
  simp only [List.length_append, Nat.zero_add, Nat.add_assoc] at hstatus ⊢
  exact hstatus

/-- The flag that the fields of a response leave is its own. -/
theorem HttpResponse.closeAfter_sentFields (cookies : List Text) (r : HttpResponse) (c : Bool) :
    (r.sentFields cookies).foldl (fun c i => HttpRequestParser.closeAfter i.1 i.2 c) c =
      r.close := by
  rw [sentFields, List.foldl_append, foldl_closeAfter_of_others fun i hi => ownFields_others hi,
    List.foldl_cons, closeAfter_connectionField]
  apply foldl_closeAfter_of_others
  intro i hi
  obtain hi | hi := List.mem_append.mp hi
  · obtain ⟨c, -, rfl⟩ := List.mem_map.mp hi
    exact fieldNames.2 ("Connection", "Set-Cookie") (by simp)
  · exact lengthField_others hi

/-- The response as it arrives: with a reason and with the fields that `dump` has written. -/
def HttpResponse.received (cookies : List Text) (r : HttpResponse) : HttpResponse :=
  { r with reason := r.reasonText, headers := HeaderMap.setAll (r.sentFields cookies) [] }

theorem HttpResponse.Sendable.yields_head (h : r.Sendable cookies) {buffer v : Text}
    (hbuffer : buffer = r.head cookies ++ v) :
    Yields buffer (r.headEvents cookies) 0 ((r.head cookies).length - 2) .new
      { r.received cookies with body := [] } := by
  have hwidth : (versionText r.version ++ ascii " ").length = 9 := by
    obtain hv | hv := h.version <;> rw [hv] <;> decide
  have hlen : r.statusLine.length = 9 + (Numerals.decimal r.status.toNat).length + 1 +
      r.reasonText.length + 2 := by
    simp only [statusLine, List.length_append, List.length_cons, crlf, List.length_nil] at hwidth ⊢
    omega
  have hstatus : ((r.status.toNat : Nat) : Int) = r.status := Int.toNat_of_nonneg h.status.1
  have hlt : r.status.toNat < 2 ^ 31 := by
    have hlt := h.status.2
    omega
  have hparts : buffer = r.statusLine ++ (fieldsText (Http.ownFields r.headers) ++
      (fieldText (connectionField r.close) ++
        (tailText (Http.cookieFields cookies) r.body ++ v))) := by
    rw [hbuffer, h.head_eq]
    simp only [List.append_assoc]
  have hstart := hparts
  rw [statusLine, List.append_assoc] at hstart
  have hline := yields_statusLine h.version hlt hstart
  rw [← hlen, hstatus] at hline
  have hown := hline.append (yields_fields (fun i hi => (h.ownFields i hi).1) hparts)
  rw [← List.append_assoc] at hparts
  have hconnection := hown.append
    (yields_field false false (plainField_connectionField r.close) hparts)
  rw [← List.append_assoc] at hparts
  have htail := hconnection.append
    (yields_tail r.close (fun i hi => (h.cookieFields i hi).1) hparts)
  have hend : (r.head cookies).length - 2 = (r.statusLine ++
      fieldsText (Http.ownFields r.headers) ++ fieldText (connectionField r.close) ++
        fieldsText (Http.cookieFields cookies ++ lengthField r.body)).length := by
    rw [h.head_eq, tailText, fieldsText_append]
    simp only [List.length_append, crlf, List.length_cons, List.length_nil]
    omega
  have hdata : ∀ data : HttpResponse,
      ((data.withFields (Http.ownFields r.headers)).withField (connectionField r.close)).withFields
        (Http.cookieFields cookies ++ lengthField r.body) =
          data.withFields (r.sentFields cookies) := by
    intro data
    rw [sentFields, withFields_append _ (connectionField r.close :: _)]
    rfl
  rw [hdata, withFields_eq, closeAfter_sentFields] at htail
  rw [hend, headEvents]
  simp only [List.append_assoc] at htail ⊢
  exact htail

end Head

section Receive

variable {env : ResponseEnv} {cookies : List Text} {r : HttpResponse}

/-- The parser stops behind a head that the buffer starts with. -/
theorem execute_responseHead (h : r.Sendable cookies) (status : Int) (unparsed rest : Text) :
    ∃ y data, (HttpResponseParser.new status).execute (r.head cookies ++ unparsed ++ 0 :: rest)
        (r.head cookies ++ unparsed).length false =
          .ok ((r.head cookies).length, unparsed ++ data, y) ∧
      y.hasError = false ∧ y.isFinished = true ∧ y.parser.chunked = false ∧
      y.data = { r.received cookies with body := [] } := by
  have hscan : scan HttpResponseParser.stop responseStart 0 (r.head cookies ++ unparsed) =
      (r.headEvents cookies, .broke (stateThrough headEnd [10]) (r.head cookies).length) := by
    rw [scan_append, h.scan_head]
  have hparsed : Parsed 0 .new
      ((HttpResponseParser.new status).setParser HttpclientParser.reset) := by
    constructor <;> rfl
  obtain ⟨x, hx, hdata, herror, hchunked, hnread, hmark, hstart, hlen⟩ :=
    h.yields_head (List.append_assoc _ unparsed (0 :: rest)) _ hparsed
  have hpos := r.two_le_length_head cookies
  have hlt : (r.head cookies).length - 2 < (r.head cookies ++ unparsed).length := by
    rw [List.length_append]
    omega
  have htake : (r.head cookies ++ unparsed ++ 0 :: rest).take (r.head cookies ++ unparsed).length =
      r.head cookies ++ unparsed := List.take_left
  have hchecked : HttpResponseParser.checked (r.head cookies ++ unparsed).length x.parser := by
    simp only [HttpResponseParser.checked, Bool.and_eq_true, decide_eq_true_eq]
    omega
  have hexec : ((HttpResponseParser.new status).setParser HttpclientParser.reset).writeExec
      (r.head cookies ++ unparsed ++ 0 :: rest) (r.head cookies ++ unparsed).length =
        .ok (some (stateThrough headEnd [10]), (r.head cookies).length, x) := by
    show exec _ _ responseStart 0 _ _ = _
    rw [htake, exec_eq, hscan]
    simp only [hx]
    rfl
  obtain ⟨-, -, -, -, -, -, -, hfinal, -⟩ := line_edges
  have hcall : (HttpResponseParser.new status).httpclientParserExecute
      (r.head cookies ++ unparsed ++ 0 :: rest) (r.head cookies ++ unparsed).length =
        .ok ((r.head cookies).length, x.setParser fun c => { c with
          cs := some (stateThrough headEnd [10]), nread := (r.head cookies).length }) := by
    refine bind_of_ok hexec ?_
    simp only [HttpResponseParser.setParser, hnread, Nat.zero_add]
    exact if_pos hchecked
  refine ⟨x.setParser fun c => { c with
    cs := some (stateThrough headEnd [10]), nread := (r.head cookies).length },
    (r.head cookies ++ unparsed ++ 0 :: rest).drop unparsed.length,
    bind_of_ok hcall ?_, ?_, hfinal, hchunked, hdata⟩
  · simp only [htake, List.drop_left]
  · exact decide_eq_false (not_not_intro herror)

/-- What a lookup finds in the fields of a response when they are received. -/
theorem find_responseFields (h : r.Sendable cookies) (key : Text) :
    HeaderMap.find key (r.received cookies).headers =
      if r.body ≠ [] ∧ sameIgnoringCase (ascii "content-length") key then
        some (Numerals.decimal r.body.length)
      else if cookies ≠ [] ∧ sameIgnoringCase (ascii "set-cookie") key then cookies.getLast?
      else if sameIgnoringCase (ascii "connection") key then some (connectionField r.close).2
      else HeaderMap.find key r.headers := by
  have hcookies : HeaderMap.find key (cookieFields cookies).reverse =
      if cookies ≠ [] ∧ sameIgnoringCase (ascii "set-cookie") key then cookies.getLast?
      else none := by
    have hsame := sameIgnoringCase_setCookie key
    obtain hnil | ⟨front, c, hconcat⟩ := List.eq_nil_or_concat cookies
    · rw [hnil]
      rfl
    · rw [hconcat, List.concat_eq_append, cookieFields, List.map_append, List.reverse_append]
      by_cases hkey : sameIgnoringCase (ascii "set-cookie") key
      · simp [HeaderMap.find_cons, hsame, hkey]
      · have hnone : HeaderMap.find key (front.map fun c => (ascii "Set-Cookie", c)).reverse =
            none := by
          apply HeaderMap.find_eq_none_of_forall
          intro i hi
          obtain ⟨d, -, rfl⟩ := List.mem_map.mp (List.mem_reverse.mp hi)
          rw [hsame]
          exact Bool.not_eq_true _ ▸ hkey
        simp [HeaderMap.find_cons, hsame, hkey, hnone]
  rw [HttpResponse.received, HeaderMap.find_setAll, HeaderMap.find_nil, Option.or_none,
    HttpResponse.sentFields, List.reverse_append, List.reverse_cons, List.reverse_append,
    HeaderMap.find_append, HeaderMap.find_append, HeaderMap.find_append, find_lengthField,
    hcookies, find_connectionField, find_ownFields h.sorted]
  have hlast : cookies ≠ [] → cookies.getLast? ≠ none := fun hne => by simpa using hne
  split
  · rfl
  · split
    · next hsome =>
        obtain ⟨c, hc⟩ := Option.ne_none_iff_exists'.mp (hlast hsome.1)
        rw [hc]
        rfl
    · split
      · rfl
      · rfl

theorem terminate_overwrite (buffer bytes : Text) :
    HttpConnection.terminate (Blocks.overwrite buffer 0 bytes) bytes.length =
      bytes ++ 0 :: buffer.drop (bytes.length + 1) := by
  rw [HttpConnection.terminate, Blocks.overwrite, Blocks.overwrite, List.take_zero,
    List.nil_append, Nat.zero_add, List.take_left, List.length_singleton,
    List.drop_length_add_append, List.drop_drop, List.append_assoc]
  rfl

/-- The head of a response that lies at the front of the first read. -/
theorem exec_recvHead (h : r.Sendable cookies) {pending : List Text} {unparsed : Text}
    (hfirst : (Socket.recv env.buffSize pending).1 = r.head cookies ++ unparsed) (rounds : Nat) :
    ∃ parser data, (HttpConnection.recvHead env (rounds + 1) (.new env.status) env.buffer 0).exec
        ⟨pending, false⟩ =
          (.ok (some (parser, unparsed ++ data, unparsed.length)),
            ⟨(Socket.recv env.buffSize pending).2, false⟩) ∧
      parser.parser.chunked = false ∧ parser.data = { r.received cookies with body := [] } := by
  have hfit := Socket.length_recv_le env.buffSize pending
  rw [hfirst, List.length_append] at hfit
  have hpos := r.two_le_length_head cookies
  have hsome : r.head cookies ++ unparsed ≠ [] := by
    rw [← List.length_pos_iff, List.length_append]
    omega
  obtain ⟨parser, data, hcall, herror, hfinished, hchunked, hparser⟩ :=
    execute_responseHead h env.status unparsed
      (env.buffer.drop ((r.head cookies ++ unparsed).length + 1))
  refine ⟨parser, data, ?_, hchunked, hparser⟩
  have hoffset : (r.head cookies ++ unparsed).length - (r.head cookies).length =
      unparsed.length := by
    rw [List.length_append, Nat.add_sub_cancel_left]
  have hroom : unparsed.length ≠ env.buffSize := by omega
  rw [HttpConnection.recvHead, Method.exec_bind_ok (Socket.exec_read _ pending), Nat.sub_zero,
    hfirst, if_neg hsome]
  simp only [Nat.add_zero, terminate_overwrite]
  rw [hcall, Method.exec_bind_ok (Method.exec_lift _ _)]
  simp only [herror, hfinished, hoffset, if_neg hroom, Bool.false_eq_true, if_false, if_true]
  rfl

/-- The body of a response, of which the buffer holds the first bytes. -/
theorem exec_recvPlain {parser : HttpResponseParser} {body unparsed more : Text} (data : Text)
    {pending : List Text} (hne : ∀ piece ∈ pending, piece ≠ [])
    (hlength : (parser.getContentLength env.cast).toInt64.toInt = body.length)
    (hbody : unparsed ++ pending.flatten = body ++ more) :
    (HttpConnection.recvPlain env parser (unparsed ++ data) unparsed.length).exec
        ⟨pending, false⟩ =
      (.ok (some (parser, body)),
        ⟨Pieces.skip (body.length - unparsed.length) pending, false⟩) := by
  rw [HttpConnection.recvPlain, hlength]
  by_cases hempty : body = []
  · rw [if_neg (by simp [hempty]), hempty]
    simp [Pieces.skip_zero hne]
  · have hpos : ((body.length : Nat) : Int) > 0 := by
      have hlen := List.length_pos_iff.mpr hempty
      omega
    rw [if_pos hpos]
    by_cases hmore : unparsed.length < body.length
    · -- The rest of the body is still to be read.
      obtain ⟨left, rfl⟩ : unparsed <+: body :=
        List.prefix_of_prefix_length_le ⟨_, hbody⟩ (List.prefix_append body more) hmore.le
      have hleft : (((unparsed ++ left).length : Nat) : Int) - (unparsed.length : Nat) =
          (left.length : Nat) := by
        rw [List.length_append]
        omega
      have hpending : pending.flatten = left ++ more := by
        rwa [List.append_assoc, List.append_right_inj] at hbody
      have hread : (Socket.readFixSize left.length : Method Socket Fault _).exec ⟨pending, false⟩ =
          (.ok (some left), ⟨Pieces.skip left.length pending, false⟩) := by
        rw [Socket.readFixSize, Socket.exec_readFixSizeLoop _ _ (Nat.le_refl _) pending hne,
          hpending, if_pos (by simp), List.take_left]
      have hcopied : (unparsed ++ data).take unparsed.length = unparsed := List.take_left
      rw [List.length_append] at hmore
      simp only [hleft, Int.toNat_natCast]
      rw [if_pos (by omega), Method.exec_bind_ok hread, if_pos (by simp), hcopied,
        List.length_append, Nat.add_sub_cancel_left]
      rfl
    · obtain ⟨rest, rfl⟩ : body <+: unparsed :=
        List.prefix_of_prefix_length_le (List.prefix_append body more) ⟨_, hbody⟩ (by omega)
      have hcopied : (if ((body.length : Nat) : Int) ≥ ((body ++ rest).length : Nat) then
          (body ++ rest ++ data).take (body ++ rest).length
          else (body ++ rest ++ data).take ((body.length : Nat) : Int).toNat) = body := by
        split
        · next hwhole =>
            have hrest : rest = [] := by
              rw [← List.length_eq_zero_iff]
              rw [List.length_append] at hwhole
              omega
            rw [List.take_left, hrest, List.append_nil]
        · rw [Int.toNat_natCast, List.append_assoc, List.take_left]
      rw [List.length_append] at hmore
      simp only [hcopied]
      rw [if_neg (by rw [List.length_append]; omega), List.length_append,
        Nat.sub_eq_zero_of_le (Nat.le_add_right _ _), Pieces.skip_zero hne]
      rfl

theorem HttpResponse.Sendable.getContentLength (h : r.Sendable cookies)
    (hcast : CastsLengths env.cast) (hbody : r.body.length < 2 ^ 63) {parser : HttpResponseParser}
    (hdata : parser.data = { r.received cookies with body := [] }) :
    (parser.getContentLength env.cast).toInt64.toInt = r.body.length := by
  have hfind := find_responseFields h (ascii "content-length")
  have hself : sameIgnoringCase (ascii "content-length") (ascii "content-length") = true :=
    sameIgnoringCase_iff.mpr rfl
  have hcookie : sameIgnoringCase (ascii "set-cookie") (ascii "content-length") = false :=
    fieldNames.2 ("set-cookie", "content-length") (by simp)
  have hconnection : sameIgnoringCase (ascii "connection") (ascii "content-length") = false :=
    fieldNames.2 ("connection", "content-length") (by simp)
  rw [hself, hcookie, hconnection, h.length] at hfind
  rw [HttpResponseParser.getContentLength, hdata]
  simp only [hfind]
  by_cases hempty : r.body = []
  · simp [hempty]
  · simp only [ne_eq, hempty, not_false_eq_true, and_self, if_true, hcast _ hbody,
      Option.getD_some]
    exact toInt_ofNat_toInt64 hbody

/-- A body that is sent as it is arrives as it is. -/
theorem HttpResponse.Sendable.decoded (h : r.Sendable cookies) {parser : HttpResponseParser}
    (hdata : parser.data = { r.received cookies with body := [] }) (body : Text) :
    HttpConnection.decoded env parser.data body = body := by
  have hfind := find_responseFields h (ascii "content-encoding")
  have hlength : sameIgnoringCase (ascii "content-length") (ascii "content-encoding") = false :=
    fieldNames.2 ("content-length", "content-encoding") (by simp)
  have hcookie : sameIgnoringCase (ascii "set-cookie") (ascii "content-encoding") = false :=
    fieldNames.2 ("set-cookie", "content-encoding") (by simp)
  have hconnection : sameIgnoringCase (ascii "connection") (ascii "content-encoding") = false :=
    fieldNames.2 ("connection", "content-encoding") (by simp)
  rw [hlength, hcookie, hconnection] at hfind
  simp only [Bool.false_eq_true, and_false, if_false] at hfind
  rw [HttpConnection.decoded, HttpResponse.getHeader, hdata, hfind]
  cases hencoding : HeaderMap.find (ascii "content-encoding") r.headers with
  | none => rfl
  | some text =>
      obtain ⟨hgzip, hdeflate⟩ := h.encoding text hencoding
      simp [hgzip, hdeflate]

theorem exec_recvBody_plain {parser : HttpResponseParser} {data body : Text} {offset : Nat}
    {s t : Socket} (hchunked : parser.parser.chunked = false) (hempty : parser.data.body = [])
    (hdecoded : HttpConnection.decoded env parser.data body = body)
    (hplain : (HttpConnection.recvPlain env parser data offset).exec s =
      (.ok (some (parser, body)), t)) :
    (HttpConnection.recvBody env parser data offset).exec s =
      (.ok (some { parser.data with body := body }), t) := by
  rw [HttpConnection.recvBody, Method.exec_bind_ok (Method.exec_get _)]
  simp only [hchunked, Bool.false_eq_true, if_false]
  rw [Method.exec_bind_ok hplain]
  simp only
  split
  · next hnil =>
      rw [hnil, ← hempty]
      rfl
  · rw [hdecoded]
    rfl

/-- One call with the head of a response at the front of its first read: it returns the response
and takes off what belongs to it, and all of its first read. -/
theorem exec_recvResponse (h : r.Sendable cookies) (hcast : CastsLengths env.cast)
    (hbody : r.body.length < 2 ^ 63) {reads : List Text} {more : Text}
    (hne : ∀ piece ∈ reads, piece ≠ []) (hreads : reads.flatten = r.dump cookies ++ more)
    (hfirst : (r.head cookies).length ≤ (Socket.recv env.buffSize reads).1.length) :
    (HttpConnection.recvResponse env).exec ⟨reads, false⟩ =
      (.ok (some (r.received cookies)), ⟨Pieces.skip (max (r.dump cookies).length
        (Socket.recv env.buffSize reads).1.length) reads, false⟩) := by
  have hsplit := Socket.recv_append_flatten env.buffSize reads
  have hleft := Socket.recv_snd env.buffSize hne
  -- The first read is the head and the bytes behind it.
  have hstart : r.head cookies <+: reads.flatten := by
    rw [hreads, HttpResponse.dump_eq, List.append_assoc]
    exact List.prefix_append _ _
  obtain ⟨unparsed, hunparsed⟩ := List.prefix_of_prefix_length_le hstart ⟨_, hsplit⟩ hfirst
  obtain ⟨parser, data, hhead, hchunked, hparser⟩ :=
    exec_recvHead h hunparsed.symm reads.flatten.length
  have hrest : unparsed ++ (Socket.recv env.buffSize reads).2.flatten = r.body ++ more := by
    rw [← hunparsed, hreads, HttpResponse.dump_eq, List.append_assoc, List.append_assoc,
      List.append_right_inj] at hsplit
    exact hsplit
  have hpieces : ∀ piece ∈ (Socket.recv env.buffSize reads).2, piece ≠ [] := by
    rw [hleft]
    exact fun piece hpiece => (Pieces.mem_skip hpiece hne).1
  have hplain := exec_recvPlain data hpieces (h.getContentLength hcast hbody hparser) hrest
  have hlen : (Socket.recv env.buffSize reads).1.length =
      (r.head cookies).length + unparsed.length := by
    rw [← hunparsed, List.length_append]
  have hskip : Pieces.skip (r.body.length - unparsed.length) (Socket.recv env.buffSize reads).2 =
      Pieces.skip (max (r.dump cookies).length
        (Socket.recv env.buffSize reads).1.length) reads := by
    rw [hleft, Pieces.skip_skip, HttpResponse.dump_eq, List.length_append]
    congr 1
    omega
  have hwhole := exec_recvBody_plain hchunked (by rw [hparser]) (h.decoded hparser _) hplain
  rw [hskip, hparser] at hwhole
  rw [recvResponse_eq (s := ⟨reads, false⟩) hhead, hwhole]
  rfl

end Receive

/-- A buffer of 256 bytes, and a cast that reads every decimal numeral. -/
def numeralResponseEnv : ResponseEnv where
  buffSize := 256
  buffer := List.replicate 257 0
  status := 0
  cast := numeralEnv.cast
  gunzip := id
  inflate := id
  length_buffer := List.length_replicate
  buffSize_lt := by decide

def notFound : HttpResponse where
  status := 404
  version := 0x11
  close := true
  reason := []
  body := ascii "no page"
  headers := [(ascii "Content-Type", ascii "text/plain"), (ascii "Server", ascii "sylar/1.0.0")]

def twoCookies : List Text := [ascii "a=1", ascii "b=2"]

theorem notFound_sendable : notFound.Sendable twoCookies where
  version := by decide
  status := by decide
  reason b hb := by cases hb
  fields i hi := by
    obtain rfl | hi := List.mem_cons.mp hi
    · constructor <;> decide +kernel
    · obtain rfl := List.mem_singleton.mp hi
      constructor <;> decide +kernel
  length := by decide +kernel
  transfer := by decide +kernel
  sorted := by
    unfold HeaderMap.Sorted
    decide +kernel
  cookies i hi := by
    obtain rfl | hi := List.mem_cons.mp hi
    · constructor <;> decide +kernel
    · obtain rfl := List.mem_singleton.mp hi
      constructor <;> decide +kernel
  encoding := by
    intro text htext
    exact absurd htext (by simp [show HeaderMap.find (ascii "content-encoding") notFound.headers =
      none by decide +kernel])

end Sylar.Http

import Sylar.Http.MethodTokens
import Sylar.Http.Params
import Sylar.Lib.Decimals

/-!
# `HttpRequest::dump` and `HttpResponse::dump`

Both write a start line, lines for the headers, a line with the length of the body if there is
one, a blank line and the body. What they write is read back as a peer does: the lines between
the first one and the first blank one are the header lines.
-/

namespace Sylar.Http

open Sylar.Lib

def crlf : Text := [13, 10]

/-- `HTTP_STATUS_MAP` with the stringized texts. -/
def httpStatusMap : List (Int × String) :=
  [(100, "Continue"), (101, "Switching Protocols"), (102, "Processing"), (200, "OK"),
    (201, "Created"), (202, "Accepted"), (203, "Non - Authoritative Information"),
    (204, "No Content"), (205, "Reset Content"), (206, "Partial Content"),
    (207, "Multi - Status"), (208, "Already Reported"), (226, "IM Used"),
    (300, "Multiple Choices"), (301, "Moved Permanently"), (302, "Found"), (303, "See Other"),
    (304, "Not Modified"), (305, "Use Proxy"), (307, "Temporary Redirect"),
    (308, "Permanent Redirect"), (400, "Bad Request"), (401, "Unauthorized"),
    (402, "Payment Required"), (403, "Forbidden"), (404, "Not Found"),
    (405, "Method Not Allowed"), (406, "Not Acceptable"),
    (407, "Proxy Authentication Required"), (408, "Request Timeout"), (409, "Conflict"),
    (410, "Gone"), (411, "Length Required"), (412, "Precondition Failed"),
    (413, "Payload Too Large"), (414, "URI Too Long"), (415, "Unsupported Media Type"),
    (416, "Range Not Satisfiable"), (417, "Expectation Failed"), (421, "Misdirected Request"),
    (422, "Unprocessable Entity"), (423, "Locked"), (424, "Failed Dependency"),
    (426, "Upgrade Required"), (428, "Precondition Required"), (429, "Too Many Requests"),
    (431, "Request Header Fields Too Large"), (451, "Unavailable For Legal Reasons"),
    (500, "Internal Server Error"), (501, "Not Implemented"), (502, "Bad Gateway"),
    (503, "Service Unavailable"), (504, "Gateway Timeout"), (505, "HTTP Version Not Supported"),
    (506, "Variant Also Negotiates"), (507, "Insufficient Storage"), (508, "Loop Detected"),
    (510, "Not Extended"), (511, "Network Authentication Required")]

def httpStatusToString (s : Int) : String := (httpStatusMap.lookup s).getD "<unknow>"

/-- `"HTTP/" << (uint32_t)(m_version >> 4) << "." << (uint32_t)(m_version & 0x0F)`. -/
def versionText (version : UInt8) : Text :=
  ascii "HTTP/" ++ Numerals.decimal (version >>> 4).toNat ++ ascii "." ++
    Numerals.decimal (version &&& 0x0F).toNat

def connectionText (close : Bool) : Text :=
  ascii "Connection: " ++ if close then ascii "close" else ascii "keep-alive"

/-- The loop over `m_headers`. -/
def dumpHeaders (headers : HeaderMap) : Text :=
  headers.flatMap fun i =>
    if sameIgnoringCase i.1 (ascii "connection") then [] else i.1 ++ ascii ": " ++ i.2 ++ crlf

/-- The end of both functions. -/
def dumpBody (body : Text) : Text :=
  if body ≠ [] then
    ascii "Content-length: " ++ Numerals.decimal body.length ++ crlf ++ crlf ++ body
  else crlf

def HttpRequest.startText (r : HttpRequest) : Text :=
  ascii (httpMethodToString (some r.method)) ++ ascii " " ++ r.path ++
    (if r.query = [] then [] else ascii "?") ++ r.query ++
    (if r.fragment = [] then [] else ascii "#") ++ r.fragment ++ ascii " " ++
    versionText r.version

def HttpRequest.dump (r : HttpRequest) : Text :=
  r.startText ++ crlf ++ (connectionText r.close ++ crlf) ++ dumpHeaders r.headers ++
    dumpBody r.body

def HttpResponse.startText (r : HttpResponse) : Text :=
  versionText r.version ++ ascii " " ++ Numerals.decimal (r.status % 4294967296).toNat ++
    ascii " " ++ if r.reason = [] then ascii (httpStatusToString r.status) else r.reason

/-- `m_cookies` is an argument: no other function of the model has it. -/
def HttpResponse.dump (cookies : List Text) (r : HttpResponse) : Text :=
  r.startText ++ crlf ++ dumpHeaders r.headers ++ (connectionText r.close ++ crlf) ++
    cookies.flatMap (fun i => ascii "Set-Cookie: " ++ i ++ crlf) ++ dumpBody r.body

/-- A message that can be dumped. -/
inductive Message where
  | request (r : HttpRequest)
  | response (r : HttpResponse) (cookies : List Text)
  deriving DecidableEq, Repr

namespace Message

def dump : Message → Text
  | .request r => r.dump
  | .response r cookies => r.dump cookies

def body : Message → Text
  | .request r => r.body
  | .response r _ => r.body

/-- The header texts that are stored and written. -/
def headerTexts (headers : HeaderMap) : List Text :=
  (headers.filter fun i => !sameIgnoringCase i.1 (ascii "connection")).map fun i =>
    i.1 ++ ascii ": " ++ i.2

/-- The texts that are written before the length, each of them with a line end. -/
def texts : Message → List Text
  | .request r => r.startText :: connectionText r.close :: headerTexts r.headers
  | .response r cookies =>
      r.startText :: (headerTexts r.headers ++ connectionText r.close ::
        cookies.map fun i => ascii "Set-Cookie: " ++ i)

end Message

/-- The lines of a text, which end with CR LF. -/
def lines : Text → List Text
  | [] => [[]]
  | [c] => [[c]]
  | c :: d :: rest =>
      if c = 13 ∧ d = 10 then [] :: lines rest
      else (lines (d :: rest)).modifyHead (c :: ·)

/-- The lines between the first one and the first blank one. -/
def headerLines (out : Text) : List Text := (lines out).tail.takeWhile (· ≠ [])

/-- The name in front of the colon is `Content-Length` up to case. -/
def isLengthLine (line : Text) : Bool :=
  match cutAt 58 line with
  | none => false
  | some (name, _) => lower name = ascii "content-length"

/-- The number behind the colon. -/
def lengthOf (line : Text) : Option Nat :=
  match cutAt 58 line with
  | none => none
  | some (_, value) =>
      let digits := trim (ascii " \t") value
      if !digits.isEmpty && digits.all fun b => (Numerals.digit 10 b).isSome then
        some (Numerals.numeral 10 0 digits)
      else none

/-- The lengths that header lines announce; `none` is one that is no number. -/
def lengths (headers : List Text) : List (Option Nat) :=
  (headers.filter isLengthLine).map lengthOf

/-- The output announces at most one length, that of the body if there is one, and none that is
positive otherwise. -/
structure OneLength (out body : Text) : Prop where
  atMostOne : (lengths (headerLines out)).length ≤ 1
  ofBody : body ≠ [] → lengths (headerLines out) = [some body.length]
  noBody : body = [] → ∀ n, some n ∈ lengths (headerLines out) → n = 0

/-- The lines that the texts of a message make, behind the first one. -/
def Message.ownLines (m : Message) : List Text := (m.texts.flatMap lines).tail

/-- The lengths that a message announces itself, in its lines before a blank one. -/
def Message.ownLengths (m : Message) : List (Option Nat) :=
  lengths (m.ownLines.takeWhile (· ≠ []))

/-- Without a body the message announces at most one length, which is not positive. With a body
it announces none; where it has a blank line, which ends the header early, it has to announce the
length of the body. -/
def Message.LengthsFit (m : Message) : Prop :=
  if m.body = [] then m.ownLengths.length ≤ 1 ∧ ∀ n, some n ∈ m.ownLengths → n = 0
  else if [] ∈ m.ownLines then m.ownLengths = [some m.body.length]
  else m.ownLengths = []

theorem lines_cons {c d : UInt8} (h : ¬ (c = 13 ∧ d = 10)) (rest : Text) :
    lines (c :: d :: rest) = (lines (d :: rest)).modifyHead (c :: ·) := by
  rw [lines, if_neg h]

theorem lines_ne_nil (t : Text) : lines t ≠ [] := by
  induction t using lines.induct with
  | case1 => exact List.cons_ne_nil _ _
  | case2 c => exact List.cons_ne_nil _ _
  | case3 c d rest h ih =>
      rw [lines, if_pos h]
      exact List.cons_ne_nil _ _
  | case4 c d rest h ih =>
      rw [lines_cons h]
      simpa using ih

/-- Behind a line end the lines start anew. -/
theorem lines_append (t u : Text) : lines (t ++ (crlf ++ u)) = lines t ++ lines u := by
  induction t using lines.induct with
  | case1 => rfl
  | case2 c =>
      have hc : ¬ (c = 13 ∧ (13 : UInt8) = 10) := fun h => absurd h.2 (by decide)
      exact lines_cons hc (10 :: u)
  | case3 c d rest h ih =>
      obtain ⟨rfl, rfl⟩ := h
      exact congrArg ([] :: ·) ih
  | case4 c d rest h ih =>
      obtain ⟨l, ls, hl⟩ := List.exists_cons_of_ne_nil (lines_ne_nil (d :: rest))
      have ih : lines (d :: (rest ++ (crlf ++ u))) = lines (d :: rest) ++ lines u := ih
      have hstep := lines_cons h (rest ++ (crlf ++ u))
      rw [ih, hl] at hstep
      rw [lines_cons h, hl]
      exact hstep

theorem lines_of_not_mem {t : Text} (h : 13 ∉ t) : lines t = [t] := by
  induction t using lines.induct with
  | case1 => rfl
  | case2 c => rfl
  | case3 c d rest hcrlf ih =>
      rw [hcrlf.1] at h
      exact absurd List.mem_cons_self h
  | case4 c d rest hcrlf ih =>
      rw [lines_cons hcrlf, ih fun hmem => h (List.mem_cons_of_mem c hmem)]
      rfl

theorem lines_flatMap (ts : List Text) (u : Text) :
    lines (ts.flatMap (· ++ crlf) ++ u) = ts.flatMap lines ++ lines u := by
  induction ts with
  | nil => rfl
  | cons t ts ih =>
      rw [List.flatMap_cons, List.append_assoc, List.append_assoc, lines_append, ih,
        List.flatMap_cons, List.append_assoc]

/-- The line with the length of the body. -/
def lengthText (n : Nat) : Text := ascii "Content-length: " ++ Numerals.decimal n

theorem not_mem_decimal {c : UInt8} (hc : Numerals.digit 10 c = none) (n : Nat) :
    c ∉ Numerals.decimal n := by
  intro hmem
  have hsome := Numerals.isSome_digit_of_mem_decimal hmem
  rw [hc] at hsome
  cases hsome

theorem cutAt_lengthText (n : Nat) :
    cutAt 58 (lengthText n) = some (ascii "Content-length", 32 :: Numerals.decimal n) := by
  have hname : 58 ∉ ascii "Content-length" := by decide
  have htext : ascii "Content-length: " = ascii "Content-length" ++ [58, 32] := by decide
  rw [lengthText, htext, List.append_assoc]
  exact cutAt_append hname (32 :: Numerals.decimal n)

theorem isLengthLine_lengthText (n : Nat) : isLengthLine (lengthText n) = true := by
  have hname : lower (ascii "Content-length") = ascii "content-length" := by decide
  rw [isLengthLine, cutAt_lengthText]
  exact decide_eq_true hname

theorem dropWhile_eq_self {p : UInt8 → Bool} {s : Text} (h : ∀ c ∈ s, ¬ p c = true) :
    s.dropWhile p = s := by
  cases s with
  | nil => rfl
  | cons c s => exact List.dropWhile_cons_of_neg (h c List.mem_cons_self)

theorem trim_decimal (n : Nat) :
    trim (ascii " \t") (32 :: Numerals.decimal n) = Numerals.decimal n := by
  have hdigit : ∀ c ∈ Numerals.decimal n, ¬ decide (c ∈ ascii " \t") = true := by
    intro c hc hmem
    have hblank : ∀ b ∈ ascii " \t", Numerals.digit 10 b = none := by decide +kernel
    exact not_mem_decimal (hblank c (of_decide_eq_true hmem)) n hc
  rw [trim, List.dropWhile_cons_of_pos (by decide), dropWhile_eq_self hdigit, dropWhile_eq_self,
    List.reverse_reverse]
  intro c hc
  exact hdigit c (List.mem_reverse.1 hc)

theorem lengthOf_lengthText (n : Nat) : lengthOf (lengthText n) = some n := by
  have hne : (Numerals.decimal n).isEmpty = false :=
    List.isEmpty_eq_false_iff.2 (Numerals.decimal_ne_nil n)
  have hdigits : ((Numerals.decimal n).all fun b => (Numerals.digit 10 b).isSome) = true :=
    List.all_eq_true.2 fun b => Numerals.isSome_digit_of_mem_decimal
  rw [lengthOf, cutAt_lengthText]
  simp only [trim_decimal, hne, hdigits, Numerals.numeral_decimal]
  rfl

theorem lines_dumpBody (body : Text) :
    lines (dumpBody body) =
      (if body = [] then [] else [lengthText body.length]) ++
        [] :: lines body := by
  by_cases h : body = []
  · rw [h]
    rfl
  · have hline : 13 ∉ lengthText body.length := by
      rw [lengthText, List.mem_append, not_or]
      exact ⟨by decide, not_mem_decimal (by decide) _⟩
    have hdump : dumpBody body = lengthText body.length ++ (crlf ++ (crlf ++ body)) := by
      rw [dumpBody, if_pos h, lengthText, List.append_assoc, List.append_assoc]
    rw [hdump, lines_append, lines_of_not_mem hline, if_neg h]
    rfl

namespace Message

theorem dumpHeaders_eq (headers : HeaderMap) :
    dumpHeaders headers = (headerTexts headers).flatMap (· ++ crlf) := by
  induction headers with
  | nil => rfl
  | cons i headers ih =>
      rw [dumpHeaders, List.flatMap_cons, ← dumpHeaders, ih]
      conv_rhs => rw [headerTexts, List.filter_cons]
      cases sameIgnoringCase i.1 (ascii "connection") with
      | true => rfl
      | false => rfl

theorem dump_eq (m : Message) : m.dump = m.texts.flatMap (· ++ crlf) ++ dumpBody m.body := by
  cases m with
  | request r =>
      simp [dump, texts, body, HttpRequest.dump, dumpHeaders_eq]
  | response r cookies =>
      simp [dump, texts, body, HttpResponse.dump, dumpHeaders_eq, List.flatMap_map]

theorem lines_dump (m : Message) :
    (lines m.dump).tail = m.ownLines ++
      ((if m.body = [] then [] else [lengthText m.body.length]) ++ [] :: lines m.body) := by
  have hne : m.texts.flatMap lines ≠ [] := by
    cases m with
    | request r => simp [texts, lines_ne_nil]
    | response r cookies => simp [texts, lines_ne_nil]
  rw [dump_eq, lines_flatMap, lines_dumpBody, List.tail_append_of_ne_nil hne, ownLines]

/-- A blank line hides what follows it. -/
theorem takeWhile_append_of_blank {ls : List Text} (h : [] ∈ ls) (more : List Text) :
    (ls ++ more).takeWhile (· ≠ []) = ls.takeWhile (· ≠ []) := by
  induction ls with
  | nil => cases h
  | cons l ls ih =>
      by_cases hl : l = []
      · simp [hl]
      · have hls : [] ∈ ls := (List.mem_cons.1 h).resolve_left (Ne.symm hl)
        simpa [hl] using ih hls

theorem takeWhile_of_no_blank {ls : List Text} (h : [] ∉ ls) (more : List Text) :
    (ls ++ more).takeWhile (· ≠ []) = ls ++ more.takeWhile (· ≠ []) :=
  List.takeWhile_append_of_pos fun l hl => decide_eq_true fun hnil : l = [] => h (hnil ▸ hl)

theorem headerLines_dump (m : Message) :
    headerLines m.dump =
      if [] ∈ m.ownLines then m.ownLines.takeWhile (· ≠ [])
      else m.ownLines ++ if m.body = [] then [] else [lengthText m.body.length] := by
  rw [headerLines, lines_dump]
  by_cases hblank : [] ∈ m.ownLines
  · rw [if_pos hblank, takeWhile_append_of_blank hblank]
  · rw [if_neg hblank, takeWhile_of_no_blank hblank]
    by_cases hbody : m.body = []
    · rw [if_pos hbody]
      rfl
    · rw [if_neg hbody]
      rfl

theorem ownLengths_of_no_blank {m : Message} (h : [] ∉ m.ownLines) :
    m.ownLengths = lengths m.ownLines := by
  have htake := takeWhile_of_no_blank h []
  rw [List.takeWhile_nil, List.append_nil] at htake
  rw [ownLengths, htake]

/-- The lengths of the output are those of the message, and that of the body unless a blank line
hides it. -/
theorem lengths_dump (m : Message) :
    lengths (headerLines m.dump) =
      m.ownLengths ++
        if [] ∈ m.ownLines ∨ m.body = [] then [] else [some m.body.length] := by
  rw [headerLines_dump]
  by_cases hblank : [] ∈ m.ownLines
  · rw [if_pos hblank, if_pos (Or.inl hblank), List.append_nil, ownLengths]
  · rw [if_neg hblank, ownLengths_of_no_blank hblank]
    by_cases hbody : m.body = []
    · rw [if_pos hbody, if_pos (Or.inr hbody), List.append_nil, List.append_nil]
    · rw [if_neg hbody, if_neg (not_or.2 ⟨hblank, hbody⟩), lengths, List.filter_append,
        List.map_append, List.filter_cons_of_pos (isLengthLine_lengthText _), List.filter_nil,
        List.map_singleton, lengthOf_lengthText, lengths]

end Message

/-- The output carries one consistent length if and only if the message does not announce one
itself where `dump` does. -/
theorem dump_one_length_iff (m : Message) : OneLength m.dump m.body ↔ m.LengthsFit := by
  have hlengths := m.lengths_dump
  rw [Message.LengthsFit]
  by_cases hbody : m.body = []
  · rw [if_pos hbody]
    rw [if_pos (Or.inr hbody), List.append_nil] at hlengths
    constructor
    · rintro ⟨hone, -, hnone⟩
      rw [hlengths] at hone hnone
      exact ⟨hone, hnone hbody⟩
    · rintro ⟨hone, hnone⟩
      rw [← hlengths] at hone hnone
      exact ⟨hone, fun hne => absurd hbody hne, fun _ => hnone⟩
  · -- with a body the lengths of the output are exactly that of the body
    have hiff : OneLength m.dump m.body ↔
        lengths (headerLines m.dump) = [some m.body.length] := by
      refine ⟨fun h => h.ofBody hbody, fun h => ⟨?_, fun _ => h, fun hnil => absurd hnil hbody⟩⟩
      rw [h]
      exact Nat.le_refl 1
    rw [if_neg hbody, hiff, hlengths]
    by_cases hblank : [] ∈ m.ownLines
    · rw [if_pos hblank, if_pos (Or.inl hblank), List.append_nil]
    · rw [if_neg hblank, if_neg (not_or.2 ⟨hblank, hbody⟩)]
      exact List.append_left_eq_self

theorem Message.ne_nil_of_mem_texts {m : Message} {t : Text} (h : t ∈ m.texts.tail) : t ≠ [] := by
  have hheader : ∀ headers : HeaderMap, t ∈ headerTexts headers → t ≠ [] := by
    intro headers hmem
    obtain ⟨i, -, rfl⟩ := List.mem_map.1 hmem
    simp [ascii]
  cases m with
  | request r =>
      obtain rfl | h := List.mem_cons.1 h
      · exact List.cons_ne_nil _ _
      · exact hheader r.headers h
  | response r cookies =>
      obtain h | h := List.mem_append.1 h
      · exact hheader r.headers h
      · obtain rfl | h := List.mem_cons.1 h
        · exact List.cons_ne_nil _ _
        · obtain ⟨i, -, rfl⟩ := List.mem_map.1 h
          exact List.cons_ne_nil _ _

/-- Where no text has a line end of its own, a message with a body fits if and only if none of the
lines that are written for its headers is a length. -/
theorem Message.lengthsFit_iff_of_plain {m : Message} (h : ∀ t ∈ m.texts, 13 ∉ t)
    (hbody : m.body ≠ []) : m.LengthsFit ↔ ∀ t ∈ m.texts.tail, ¬ isLengthLine t = true := by
  have hown : m.ownLines = m.texts.tail := by
    have hlines : m.texts.flatMap lines = m.texts := by
      rw [List.flatMap_congr fun t ht => lines_of_not_mem (h t ht)]
      exact List.flatMap_singleton' m.texts
    rw [ownLines, hlines]
  have hblank : [] ∉ m.ownLines := fun hmem => ne_nil_of_mem_texts (hown ▸ hmem) rfl
  rw [LengthsFit, if_neg hbody, if_neg hblank, ownLengths_of_no_blank hblank, hown, lengths,
    List.map_eq_nil_iff, List.filter_eq_nil_iff]

/-- A request as it is parsed has a `Content-Length` of its own, and is written with two. -/
theorem parsed_request_has_two_lengths :
    let m := Message.request
      { HttpRequest.new with
        method := .POST, body := ascii "hello",
        headers := [(ascii "Content-Length", ascii "5")] }
    lengths (headerLines m.dump) = [some 5, some 5] ∧ ¬ OneLength m.dump m.body := by
  intro m
  have htwo : lengths (headerLines m.dump) = [some 5, some 5] := by decide +kernel
  refine ⟨htwo, fun h => ?_⟩
  have hone := h.atMostOne
  rw [htwo] at hone
  exact absurd hone (by decide)

end Sylar.Http

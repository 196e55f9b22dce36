import Mathlib.Tactic.Common

/-!
# HTTP messages

The parts of `HttpRequest` and `HttpResponse` that the parsers write. Texts are
byte lists. A header map is kept sorted by `CaseInsensitiveLess`, so that two
maps with the same entries are equal lists.
-/

namespace Sylar.Http

abbrev Text := List UInt8

/-- The bytes of an ASCII literal of the source. -/
def ascii (s : String) : Text := s.toList.map fun c => UInt8.ofNat c.toNat

inductive HttpMethod where
  | DELETE | GET | HEAD | POST | PUT | CONNECT | OPTIONS | TRACE | COPY | LOCK | MKCOL | MOVE
  | PROPFIND | PROPPATCH | SEARCH | UNLOCK | BIND | REBIND | UNBIND | ACL | REPORT | MKACTIVITY
  | CHECKOUT | MERGE | MSEARCH | NOTIFY | SUBSCRIBE | UNSUBSCRIBE | PATCH | PURGE | MKCALENDAR
  | LINK | UNLINK | SOURCE
  deriving DecidableEq, Repr

/-- `HTTP_METHOD_MAP`. The stringized name of `MSEARCH` is `M - SEARCH`. -/
def httpMethodMap : List (HttpMethod × String) :=
  [(.DELETE, "DELETE"), (.GET, "GET"), (.HEAD, "HEAD"), (.POST, "POST"), (.PUT, "PUT"),
    (.CONNECT, "CONNECT"), (.OPTIONS, "OPTIONS"), (.TRACE, "TRACE"), (.COPY, "COPY"),
    (.LOCK, "LOCK"), (.MKCOL, "MKCOL"), (.MOVE, "MOVE"), (.PROPFIND, "PROPFIND"),
    (.PROPPATCH, "PROPPATCH"), (.SEARCH, "SEARCH"), (.UNLOCK, "UNLOCK"), (.BIND, "BIND"),
    (.REBIND, "REBIND"), (.UNBIND, "UNBIND"), (.ACL, "ACL"), (.REPORT, "REPORT"),
    (.MKACTIVITY, "MKACTIVITY"), (.CHECKOUT, "CHECKOUT"), (.MERGE, "MERGE"),
    (.MSEARCH, "M - SEARCH"), (.NOTIFY, "NOTIFY"), (.SUBSCRIBE, "SUBSCRIBE"),
    (.UNSUBSCRIBE, "UNSUBSCRIBE"), (.PATCH, "PATCH"), (.PURGE, "PURGE"),
    (.MKCALENDAR, "MKCALENDAR"), (.LINK, "LINK"), (.UNLINK, "UNLINK"), (.SOURCE, "SOURCE")]

/-- `CharsToHttpMethod` on the memory that starts at the pointer: the first name
that the memory starts with. `none` is `INVALID_METHOD`. -/
def charsToHttpMethod (m : Text) : Option HttpMethod :=
  (httpMethodMap.find? fun entry => (ascii entry.2).isPrefixOf m).map Prod.fst

/-- `tolower` in the C locale. -/
def toLower (b : UInt8) : UInt8 := if 65 ≤ b ∧ b ≤ 90 then b + 32 else b

/-- What `strcasecmp` sees of a string: the bytes before the first NUL, in lower case. -/
def caseKey (s : Text) : List Nat := (s.takeWhile (· ≠ 0)).map fun b => (toLower b).toNat

/-- `strcasecmp(s, t) == 0`. -/
def sameIgnoringCase (s t : Text) : Bool := caseKey s = caseKey t

def caseInsensitiveLess (s t : Text) : Bool := caseKey s < caseKey t

/-- `std::map<std::string, std::string, CaseInsensitiveLess>`. -/
abbrev HeaderMap := List (Text × Text)

namespace HeaderMap

/-- `m[key] = val`: a key that is there already keeps its spelling. -/
def set (key val : Text) : HeaderMap → HeaderMap
  | [] => [(key, val)]
  | (k, v) :: rest =>
      if caseInsensitiveLess key k then (key, val) :: (k, v) :: rest
      else if caseInsensitiveLess k key then (k, v) :: set key val rest
      else (k, val) :: rest

/-- `m.find(key)`. -/
def find (key : Text) (m : HeaderMap) : Option Text :=
  (m.find? fun entry => !caseInsensitiveLess entry.1 key && !caseInsensitiveLess key entry.1).map
    Prod.snd

end HeaderMap

/-- The fields of `HttpRequest` that parsing a request sets. -/
@[ext]
structure HttpRequest where
  method : HttpMethod
  version : UInt8
  close : Bool
  path : Text
  query : Text
  fragment : Text
  body : Text
  headers : HeaderMap
  deriving DecidableEq, Repr

/-- `HttpRequest()` with its default arguments. -/
def HttpRequest.new : HttpRequest where
  method := .GET
  version := 0x11
  close := true
  path := ascii "/"
  query := []
  fragment := []
  body := []
  headers := []

def HttpRequest.setHeader (key val : Text) (r : HttpRequest) : HttpRequest :=
  { r with headers := HeaderMap.set key val r.headers }

/-- The fields of `HttpResponse` that receiving a response sets. -/
structure HttpResponse where
  status : Int
  version : UInt8
  close : Bool
  reason : Text
  body : Text
  headers : HeaderMap
  deriving DecidableEq, Repr

/-- `HttpResponse()` with its default arguments. -/
def HttpResponse.new : HttpResponse where
  status := 200
  version := 0x11
  close := true
  reason := []
  body := []
  headers := []

def HttpResponse.setHeader (key val : Text) (r : HttpResponse) : HttpResponse :=
  { r with headers := HeaderMap.set key val r.headers }

/-- `getHeader` with the default `""`. -/
def HttpResponse.getHeader (key : Text) (r : HttpResponse) : Text :=
  (HeaderMap.find key r.headers).getD []

/-- What stops the code without a return value: a `std::string` of negative
length, an access outside the buffer, an `int` that overflows, and a loop of the
model that ran out of rounds. -/
inductive Fault where
  | lengthError
  | outsideBuffer
  | intOverflow
  | outOfRounds
  deriving DecidableEq, Repr

/-- `std::string(buffer + offset, length)`. -/
def textAt (buffer : Text) (offset : Nat) (length : Int) : Except Fault Text :=
  if length < 0 then .error .lengthError
  else if offset + length.toNat > buffer.length then .error .outsideBuffer
  else .ok ((buffer.drop offset).take length.toNat)

theorem textAt_ok {buffer t : Text} {offset : Nat} {length : Int}
    (h : textAt buffer offset length = .ok t) :
    0 ≤ length ∧ t = (buffer.drop offset).take length.toNat := by
  rw [textAt] at h
  split at h
  · cases h
  · next hneg =>
      split at h
      · cases h
      · cases h
        exact ⟨Int.not_lt.mp hneg, rfl⟩

/-- `strncmp(s, name, n) == 0`, where `s` has `n` bytes and `name` ends with NUL. -/
def sameUpTo : Text → Text → Bool
  | [], _ => true
  | x :: _, [] => x = 0
  | x :: xs, y :: ys => x = y && sameUpTo xs ys

end Sylar.Http

import Sylar.Http.RequestGrammar
import Sylar.Http.Message

/-!
# `http_parser` and `HttpRequestParser`

The parser keeps its machine state between calls. The offsets `mark` and
`field_start` are offsets into the buffer of the current call and start at 0 in
every call; `query_start` is neither reset nor initialised.

Offsets are natural numbers. The assertions at the end of
`http_parser_execute` are left out: each offset they check is the offset of a
byte of the current call.
-/

namespace Sylar.Http

open Sylar.Lib Sylar.Lib.Ragel

/-- `struct http_parser` without its callbacks; `cs` is `none` in the error state. -/
structure HttpParser where
  cs : Option (State RequestAction)
  bodyStart : Nat
  contentLen : Int
  nread : Nat
  mark : Nat
  fieldStart : Nat
  fieldLen : Nat
  queryStart : Nat
  xmlSent : Bool
  jsonSent : Bool
  deriving DecidableEq

/-- `http_parser_init`. It leaves `query_start` and `uri_relaxed` alone. -/
def HttpParser.init (relaxed : Bool) (queryStart : Nat) : HttpParser where
  cs := some (requestStart relaxed)
  bodyStart := 0
  contentLen := 0
  nread := 0
  mark := 0
  fieldStart := 0
  fieldLen := 0
  queryStart := queryStart
  xmlSent := false
  jsonSent := false

/-- The fields that `http_parser_execute` sets before it runs the machine. -/
def HttpParser.reset (len : Nat) (parser : HttpParser) : HttpParser :=
  { parser with nread := 0, mark := 0, fieldLen := len, fieldStart := 0 }

def HttpParser.hasError (parser : HttpParser) : Bool := parser.cs.isNone

/-- `http_parser_is_finished`: the states after a complete request are the final ones. -/
def HttpParser.isFinished (parser : HttpParser) : Bool := parser.cs.elim false final

/-- `HttpRequestParser`. -/
structure HttpRequestParser where
  parser : HttpParser
  data : HttpRequest
  error : Nat
  deriving DecidableEq

namespace HttpRequestParser

def new (relaxed : Bool) (queryStart : Nat) : HttpRequestParser :=
  ⟨HttpParser.init relaxed queryStart, .new, 0⟩

def onRequestMethod (memory : Text) (r : HttpRequestParser) : HttpRequestParser :=
  match charsToHttpMethod memory with
  | none => { r with error := 1000 }
  | some m => { r with data := { r.data with method := m } }

def onRequestFragment (text : Text) (r : HttpRequestParser) : HttpRequestParser :=
  { r with data := { r.data with fragment := text } }

def onRequestPath (text : Text) (r : HttpRequestParser) : HttpRequestParser :=
  { r with data := { r.data with path := text } }

def onRequestQuery (text : Text) (r : HttpRequestParser) : HttpRequestParser :=
  { r with data := { r.data with query := text } }

/-- The version byte that `on_request_version` derives from the text. -/
def versionOf (text : Text) : Option UInt8 :=
  if sameUpTo text (ascii "HTTP/1.1") then some 0x11
  else if sameUpTo text (ascii "HTTP/1.0") then some 0x10
  else none

def onRequestVersion (text : Text) (r : HttpRequestParser) : HttpRequestParser :=
  match versionOf text with
  | none => { r with error := 1001 }
  | some v => { r with data := { r.data with version := v } }

/-- The close flag after a header field. -/
def closeAfter (key value : Text) (close : Bool) : Bool :=
  if sameIgnoringCase (ascii "Connection") key then
    if sameIgnoringCase (ascii "keep-alive") value then false
    else if sameIgnoringCase (ascii "close") value then true
    else close
  else close

/-- `on_request_http_field` for a field name that is not empty. -/
def onRequestHttpField (key value : Text) (r : HttpRequestParser) : HttpRequestParser :=
  { r with
    data := { r.data with close := closeAfter key value r.data.close }.setHeader key value }

/-- Set a field of the C structure. -/
def setParser (f : HttpParser → HttpParser) (r : HttpRequestParser) : HttpRequestParser :=
  { r with parser := f r.parser }

/-- An action of the machine at offset `p` of the buffer. -/
def action (buffer : Text) (a : RequestAction) (p : Nat) (r : HttpRequestParser) :
    Except Fault HttpRequestParser :=
  let c := r.parser
  let fromMark := textAt buffer c.mark ((p : Int) - c.mark)
  match a with
  | .mark | .startValue => .ok (r.setParser fun c => { c with mark := p })
  | .startField => .ok (r.setParser fun c => { c with fieldStart := p })
  | .writeField => .ok (r.setParser fun c => { c with fieldLen := p - c.fieldStart })
  | .writeValue =>
      if c.fieldLen = 0 then .ok { r with error := 1002 }
      else do
        let key ← textAt buffer c.fieldStart c.fieldLen
        let value ← fromMark
        .ok (r.onRequestHttpField key value)
  | .requestMethod => .ok (r.onRequestMethod (buffer.drop c.mark))
  | .requestUri => .ok r
  | .fragment => do
      let text ← fromMark
      .ok (r.onRequestFragment text)
  | .startQuery => .ok (r.setParser fun c => { c with queryStart := p })
  | .queryString => do
      let text ← textAt buffer c.queryStart ((p : Int) - c.queryStart)
      .ok (r.onRequestQuery text)
  | .httpVersion => do
      let text ← fromMark
      .ok (r.onRequestVersion text)
  | .requestPath => do
      let text ← fromMark
      .ok (r.onRequestPath text)
  | .done =>
      if c.xmlSent || c.jsonSent then
        .ok (r.setParser fun c =>
          { c with bodyStart := c.mark, contentLen := (p : Int) - c.mark + 1 })
      else
        .ok (r.setParser fun c => { c with bodyStart := p + 1 })
  | .xml => .ok (r.setParser fun c => { c with xmlSent := true })
  | .json => .ok (r.setParser fun c => { c with jsonSent := true })

/-- `fbreak` is in `done` alone. -/
def stop (a : RequestAction) : Bool := a = .done

/-- `http_parser_execute(parser, buffer, len, 0)`. -/
def httpParserExecute (buffer : Text) (len : Nat) (r : HttpRequestParser) :
    Except Fault (Nat × HttpRequestParser) :=
  if len = 0 then .ok (0, r)
  else
    let r := r.setParser (HttpParser.reset len)
    match r.parser.cs with
    | none => .ok (0, r)
    | some s => do
        let (cs, p, r) ← exec (action buffer) stop s 0 (buffer.take len) r
        .ok (p, r.setParser fun c => { c with cs := cs, nread := c.nread + p })

/-- `HttpRequestParser::execute`: what was parsed is moved out of the buffer. -/
def execute (buffer : Text) (len : Nat) (r : HttpRequestParser) :
    Except Fault (Nat × Text × HttpRequestParser) := do
  let (offset, r) ← httpParserExecute buffer len r
  let rest := (buffer.take len).drop offset
  .ok (offset, rest ++ buffer.drop rest.length, r)

def isFinished (r : HttpRequestParser) : Bool := r.parser.isFinished

def hasError (r : HttpRequestParser) : Bool := r.error ≠ 0 || r.parser.hasError

/-- `getContentLength`, where `cast` is `boost::lexical_cast<uint64_t>`. -/
def getContentLength (cast : Text → Option UInt64) (r : HttpRequestParser) : UInt64 :=
  match HeaderMap.find (ascii "content-length") r.data.headers with
  | none => 0
  | some text => (cast text).getD 0

end HttpRequestParser

end Sylar.Http

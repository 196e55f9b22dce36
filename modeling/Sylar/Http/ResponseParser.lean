import Sylar.Lib.Numerals
import Sylar.Http.ResponseGrammar
import Sylar.Http.RequestParser

/-!
# `httpclient_parser` and `HttpResponseParser`

As in the request parser, the offsets count from the buffer of the current call
and start at 0 in every call. A call for a chunk starts the machine anew, and
with it the fields that the last call has set.

The callbacks for the end of the head, for a chunk and for the last chunk do
nothing in the source. A call whose closing checks fail returns -1; the `memmove`
after it then reaches outside the buffer.
-/

namespace Sylar.Http

open Sylar.Lib Sylar.Lib.Ragel

/-- `struct httpclient_parser` without its callbacks; `cs` is `none` in the error state. -/
structure HttpclientParser where
  cs : Option (State ResponseAction)
  bodyStart : Nat
  contentLen : Int
  status : Int
  chunked : Bool
  chunksDone : Bool
  close : Bool
  nread : Nat
  mark : Nat
  fieldStart : Nat
  fieldLen : Nat
  deriving DecidableEq

/-- `httpclient_parser_init`. It leaves `status` alone. -/
def HttpclientParser.init (parser : HttpclientParser) : HttpclientParser :=
  { parser with
    cs := some responseStart
    bodyStart := 0
    contentLen := -1
    chunked := false
    chunksDone := false
    mark := 0
    nread := 0
    fieldLen := 0
    fieldStart := 0
    close := false }

/-- The fields that `httpclient_parser_execute` sets before it runs the machine. -/
def HttpclientParser.reset (parser : HttpclientParser) : HttpclientParser :=
  { parser with nread := 0, mark := 0, fieldLen := 0, fieldStart := 0 }

def HttpclientParser.hasError (parser : HttpclientParser) : Bool := parser.cs.isNone

/-- `httpclient_parser_is_finished`: the machine has one final state, after `done`. -/
def HttpclientParser.isFinished (parser : HttpclientParser) : Bool := parser.cs.elim false final

/-- `HttpResponseParser`. -/
structure HttpResponseParser where
  parser : HttpclientParser
  data : HttpResponse
  error : Nat
  deriving DecidableEq

namespace HttpResponseParser

/-- The constructor; `status` is the value that the memory held. -/
def new (status : Int) : HttpResponseParser :=
  ⟨HttpclientParser.init ⟨none, 0, 0, status, false, false, false, 0, 0, 0, 0⟩, .new, 0⟩

def onResponseReason (text : Text) (r : HttpResponseParser) : HttpResponseParser :=
  { r with data := { r.data with reason := text } }

/-- `on_response_status` on the memory that starts at the pointer. -/
def onResponseStatus (memory : Text) (r : HttpResponseParser) : HttpResponseParser :=
  { r with data := { r.data with status := Numerals.toInt (Numerals.strtol 10 memory) } }

def onResponseVersion (text : Text) (r : HttpResponseParser) : HttpResponseParser :=
  match HttpRequestParser.versionOf text with
  | none => { r with error := 1001 }
  | some v => { r with data := { r.data with version := v } }

/-- `on_response_http_field` for a field name that is not empty. -/
def onResponseHttpField (key value : Text) (r : HttpResponseParser) : HttpResponseParser :=
  { r with
    data := { r.data with
      close := HttpRequestParser.closeAfter key value r.data.close }.setHeader key value }

/-- Set a field of the C structure. -/
def setParser (f : HttpclientParser → HttpclientParser) (r : HttpResponseParser) :
    HttpResponseParser :=
  { r with parser := f r.parser }

/-- An action of the machine at offset `p` of the buffer. -/
def action (buffer : Text) (a : ResponseAction) (p : Nat) (r : HttpResponseParser) :
    Except Fault HttpResponseParser :=
  let c := r.parser
  let fromMark := textAt buffer c.mark ((p : Int) - c.mark)
  let number base := Numerals.toInt (Numerals.strtol base (buffer.drop c.mark))
  match a with
  | .mark | .startValue => .ok (r.setParser fun c => { c with mark := p })
  | .startField => .ok (r.setParser fun c => { c with fieldStart := p })
  | .writeField => .ok (r.setParser fun c => { c with fieldLen := p - c.fieldStart })
  | .writeContentLen => .ok (r.setParser fun c => { c with contentLen := number 10 })
  | .writeConnectionClose => .ok (r.setParser fun c => { c with close := true })
  | .writeValue =>
      if c.fieldLen = 0 then .ok { r with error := 1002 }
      else do
        let key ← textAt buffer c.fieldStart c.fieldLen
        let value ← fromMark
        .ok (r.onResponseHttpField key value)
  | .reasonPhrase => do
      let text ← fromMark
      .ok (r.onResponseReason text)
  | .statusCode =>
      .ok ((r.setParser fun c => { c with status := number 10 }).onResponseStatus
        (buffer.drop c.mark))
  | .httpVersion => do
      let text ← fromMark
      .ok (r.onResponseVersion text)
  | .chunkSize =>
      .ok (r.setParser fun c =>
        { c with chunked := true, contentLen := number 16, chunksDone := number 16 ≤ 0 })
  | .transChunked => .ok (r.setParser fun c => { c with chunked := true })
  | .done => .ok (r.setParser fun c => { c with bodyStart := p + 1 })

/-- `fbreak` is in `done` alone. -/
def stop (a : ResponseAction) : Bool := a = .done

/-- The checks at the end of `httpclient_parser_execute`. -/
def checked (len : Nat) (c : HttpclientParser) : Bool :=
  c.mark < len && c.fieldLen ≤ len && c.fieldStart < len

/-- The generated loop over the bytes; it does not start in the error state. -/
def writeExec (buffer : Text) (len : Nat) (r : HttpResponseParser) :
    Except Fault (Option (State ResponseAction) × Nat × HttpResponseParser) :=
  match r.parser.cs with
  | none => .ok (none, 0, r)
  | some s => exec (action buffer) stop s 0 (buffer.take len) r

/-- `httpclient_parser_execute(parser, buffer, len, 0)`. -/
def httpclientParserExecute (buffer : Text) (len : Nat) (r : HttpResponseParser) :
    Except Fault (Nat × HttpResponseParser) := do
  let (cs, p, r) ← writeExec buffer len (r.setParser HttpclientParser.reset)
  let r := r.setParser fun c => { c with cs := cs, nread := c.nread + p }
  if checked len r.parser then .ok (r.parser.nread, r) else .error .outsideBuffer

/-- `HttpResponseParser::execute`: what was parsed is moved out of the buffer. -/
def execute (buffer : Text) (len : Nat) (chunck : Bool) (r : HttpResponseParser) :
    Except Fault (Nat × Text × HttpResponseParser) := do
  let r := if chunck then r.setParser HttpclientParser.init else r
  let (offset, r) ← httpclientParserExecute buffer len r
  let rest := (buffer.take len).drop offset
  .ok (offset, rest ++ buffer.drop rest.length, r)

def isFinished (r : HttpResponseParser) : Bool := r.parser.isFinished

def hasError (r : HttpResponseParser) : Bool := r.parser.hasError || r.error ≠ 0

/-- `getContentLength`, where `cast` is `boost::lexical_cast<uint64_t>`. -/
def getContentLength (cast : Text → Option UInt64) (r : HttpResponseParser) : UInt64 :=
  match HeaderMap.find (ascii "content-length") r.data.headers with
  | none => 0
  | some text => (cast text).getD 0

end HttpResponseParser

end Sylar.Http

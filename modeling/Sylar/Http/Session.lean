import Sylar.Lib.Blocks
import Sylar.Net.Stream
import Sylar.Http.RequestParser

/-!
# `HttpSession::recvRequest`

The loop reads behind the bytes that the parser has not consumed, hands the
buffer to the parser and stops at an error, at a full buffer or at a complete
request. The body is what is left in the buffer and what has still to be read.

The buffer is the whole array, so bytes of earlier reads stay behind the bytes
of the current one. Its first content is whatever the memory held.
-/

namespace Sylar.Http

open Sylar.Lib Sylar.Net

/-- What the code takes from outside: the size of the buffer, its first content,
the two fields that `http_parser_init` leaves alone, and `boost::lexical_cast`. -/
structure RequestEnv where
  buffer : Text
  relaxed : Bool
  queryStart : Nat
  cast : Text → Option UInt64

namespace HttpSession

/-- `int64_t length = parser->getContentLength()`. -/
def contentLength (env : RequestEnv) (parser : HttpRequestParser) : Int :=
  (parser.getContentLength env.cast).toInt64.toInt

/-- The part of `recvRequest` after the loop, with `offset` unparsed bytes in the buffer. -/
def recvBody (env : RequestEnv) (parser : HttpRequestParser) (data : Text) (offset : Nat) :
    Method Socket Fault (Option HttpRequest) := do
  let length := contentLength env parser
  if length > 0 then
    let copied := if length ≥ offset then data.take offset else data.take length.toNat
    let left := length - offset
    if left > 0 then
      match ← Socket.readFixSize left.toNat with
      | none =>
          Socket.close
          return none
      | some bytes => return some { parser.data with body := copied ++ bytes }
    else
      return some { parser.data with body := copied }
  else
    return some parser.data

/-- The loop of `recvRequest`. -/
def recvLoop (env : RequestEnv) :
    Nat → HttpRequestParser → Text → Nat → Method Socket Fault (Option HttpRequest)
  | 0, _, _, _ => throw .outOfRounds
  | rounds + 1, parser, data, offset => do
      let bytes ← Socket.read (data.length - offset)
      if bytes = [] then
        Socket.close
        return none
      let data := Blocks.overwrite data offset bytes
      let len := bytes.length + offset
      let (nparse, data, parser) ← Method.lift (parser.execute data len)
      if parser.hasError then
        Socket.close
        return none
      let offset := len - nparse
      if offset = data.length then
        Socket.close
        return none
      if parser.isFinished then
        recvBody env parser data offset
      else
        recvLoop env rounds parser data offset

/-- `HttpSession::recvRequest`. Every round but the last consumes a byte that was
sent, so that many rounds are enough. -/
def recvRequest (env : RequestEnv) : Method Socket Fault (Option HttpRequest) := do
  let s ← get
  recvLoop env (s.pending.flatten.length + 1) (.new env.relaxed env.queryStart) env.buffer 0

end HttpSession

end Sylar.Http

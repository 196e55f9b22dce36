import Sylar.Lib.Blocks
import Sylar.Net.Stream
import Sylar.Http.ResponseParser

/-!
# `HttpConnection::recvResponse`

The first loop receives the head. A chunked body then alternates between the size
line of a chunk, which the parser reads, and the data of the chunk with the
line end behind it, which is copied from the buffer and from further reads.

The integers of the code are `int`, so the size of the buffer has to be one. Its
first content is whatever the memory held, and its last byte is for the NUL.
-/

namespace Sylar.Http

open Sylar.Lib Sylar.Net

/-- What the code takes from outside: the buffer, the field that
`httpclient_parser_init` leaves alone, `boost::lexical_cast` and the two
decoders of `ZlibStream`. -/
structure ResponseEnv where
  buffSize : Nat
  buffer : Text
  status : Int
  cast : Text → Option UInt64
  gunzip : Text → Text
  inflate : Text → Text
  length_buffer : buffer.length = buffSize + 1
  buffSize_lt : buffSize < 2 ^ 31

namespace HttpConnection

/-- `data[len] = '\0'`. -/
def terminate (data : Text) (len : Nat) : Text := Blocks.overwrite data len [0]

/-- The loop that receives the head: the parser, the buffer and how many bytes of
it are not parsed. -/
def recvHead (env : ResponseEnv) :
    Nat → HttpResponseParser → Text → Nat →
      Method Socket Fault (Option (HttpResponseParser × Text × Nat))
  | 0, _, _, _ => throw .outOfRounds
  | rounds + 1, parser, data, offset => do
      let bytes ← Socket.read (env.buffSize - offset)
      if bytes = [] then
        Socket.close
        return none
      let len := bytes.length + offset
      let data := terminate (Blocks.overwrite data offset bytes) len
      let (nparse, data, parser) ← Method.lift (parser.execute data len false)
      if parser.hasError then
        Socket.close
        return none
      let offset := len - nparse
      if offset = env.buffSize then
        Socket.close
        return none
      if parser.isFinished then
        return some (parser, data, offset)
      else
        recvHead env rounds parser data offset

/-- The read in front of an attempt at a size line: none is made at first when the
buffer still holds bytes. -/
def refill (env : ResponseEnv) (begin : Bool) (data : Text) (len : Nat) :
    Method Socket Fault (Option (Text × Nat)) :=
  if !begin || len = 0 then do
    let bytes ← Socket.read (env.buffSize - len)
    if bytes = [] then
      return none
    return some (Blocks.overwrite data len bytes, len + bytes.length)
  else
    return some (data, len)

/-- The loop that parses a size line. -/
def recvChunkSize (env : ResponseEnv) :
    Nat → HttpResponseParser → Text → Nat → Bool →
      Method Socket Fault (Option (HttpResponseParser × Text × Nat))
  | 0, _, _, _, _ => throw .outOfRounds
  | rounds + 1, parser, data, len, begin => do
      match ← refill env begin data len with
      | none =>
          Socket.close
          return none
      | some (data, len) =>
          let (nparse, data, parser) ←
            Method.lift (parser.execute (terminate data len) len true)
          if parser.hasError then
            Socket.close
            return none
          let len := len - nparse
          if len = env.buffSize then
            Socket.close
            return none
          if parser.isFinished then
            return some (parser, data, len)
          else
            recvChunkSize env rounds parser data len false

/-- The loop that reads what is left of a chunk: the body and the buffer. Every
round but the last reads at least one byte, so `left` rounds are enough. -/
def readLeft (env : ResponseEnv) :
    Nat → Text → Text → Nat → Method Socket Fault (Option (Text × Text))
  | _, body, data, 0 => return some (body, data)
  | 0, _, _, _ + 1 => throw .outOfRounds
  | rounds + 1, body, data, left + 1 => do
      let bytes ← Socket.read (min (left + 1) env.buffSize)
      if bytes = [] then
        Socket.close
        return none
      readLeft env rounds (body ++ bytes) (Blocks.overwrite data 0 bytes) (left + 1 - bytes.length)

/-- The data of a chunk of `size` bytes and the line end behind it: the body, the
buffer and how many bytes it still holds. -/
def recvChunkData (env : ResponseEnv) (size : Int) (body data : Text) (len : Nat) :
    Method Socket Fault (Option (Text × Text × Nat)) :=
  if size + 2 ≥ 2 ^ 31 then throw .intOverflow
  else if size + 2 ≤ len then do
    let text ← Method.lift (textAt data 0 size)
    let rest := (data.take len).drop (size.toNat + 2)
    return some (body ++ text, rest ++ data.drop rest.length, rest.length)
  else do
    let left := (size - len + 2).toNat
    match ← readLeft env left (body ++ data.take len) data left with
    | none => return none
    | some (body, data) =>
        if body.length < 2 then throw .lengthError
        return some (body.take (body.length - 2), data, 0)

/-- The loop over the chunks. -/
def recvChunks (env : ResponseEnv) :
    Nat → HttpResponseParser → Text → Text → Nat →
      Method Socket Fault (Option (HttpResponseParser × Text))
  | 0, _, _, _, _ => throw .outOfRounds
  | rounds + 1, parser, body, data, len => do
      let s ← get
      match ← recvChunkSize env (s.pending.flatten.length + 2) parser data len true with
      | none => return none
      | some (parser, data, len) =>
          match ← recvChunkData env parser.parser.contentLen body data len with
          | none => return none
          | some (body, data, len) =>
              if parser.parser.chunksDone then
                return some (parser, body)
              else
                recvChunks env rounds parser body data len

/-- The body of a response that is not chunked. -/
def recvPlain (env : ResponseEnv) (parser : HttpResponseParser) (data : Text) (offset : Nat) :
    Method Socket Fault (Option (HttpResponseParser × Text)) := do
  let length := (parser.getContentLength env.cast).toInt64.toInt
  if length > 0 then
    let copied := if length ≥ offset then data.take offset else data.take length.toNat
    let left := length - offset
    if left > 0 then
      match ← Socket.readFixSize left.toNat with
      | none =>
          Socket.close
          return none
      | some bytes => return some (parser, copied ++ bytes)
    else
      return some (parser, copied)
  else
    return some (parser, [])

/-- The body after the content encoding that the response names. -/
def decoded (env : ResponseEnv) (response : HttpResponse) (body : Text) : Text :=
  let encoding := response.getHeader (ascii "content-encoding")
  if sameIgnoringCase encoding (ascii "gzip") then env.gunzip body
  else if sameIgnoringCase encoding (ascii "deflate") then env.inflate body
  else body

/-- The part of `recvResponse` after the head. -/
def recvBody (env : ResponseEnv) (parser : HttpResponseParser) (data : Text) (offset : Nat) :
    Method Socket Fault (Option HttpResponse) := do
  let s ← get
  let received ←
    if parser.parser.chunked then
      recvChunks env (offset + s.pending.flatten.length + 1) parser [] data offset
    else recvPlain env parser data offset
  match received with
  | none => return none
  | some (parser, body) =>
      if body = [] then return some parser.data
      else return some { parser.data with body := decoded env parser.data body }

/-- `HttpConnection::recvResponse`. -/
def recvResponse (env : ResponseEnv) : Method Socket Fault (Option HttpResponse) := do
  let s ← get
  match ← recvHead env (s.pending.flatten.length + 1) (.new env.status) env.buffer 0 with
  | none => return none
  | some (parser, data, offset) => recvBody env parser data offset

end HttpConnection

end Sylar.Http

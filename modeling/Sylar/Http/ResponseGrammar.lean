import Sylar.Lib.Ragel

/-!
# The machine of `httpclient_parser.rl`

The definitions follow the grammar of the source line by line. One machine
accepts the head of a response and the size line of a chunk. The strong
difference `any -- CRLF` is the set of the bytes other than the line feed, the
only one-byte string in which `CRLF` occurs.
-/

namespace Sylar.Http

open Sylar.Lib.Ragel Sylar.Lib.Ragel.Expr

/-- The actions of `httpclient_parser.rl`. -/
inductive ResponseAction where
  | mark
  | startField
  | writeField
  | startValue
  | writeContentLen
  | writeConnectionClose
  | writeValue
  | reasonPhrase
  | statusCode
  | httpVersion
  | chunkSize
  | transChunked
  | done
  deriving DecidableEq, Repr

namespace ResponseGrammar

open ByteSet (digit xdigit space cntrl)

abbrev G := Expr ResponseAction

def crlf : G := .alt (str "\r\n") (str "\n")

def ctl : ByteSet := cntrl.union (.byte 127)
def tspecials : ByteSet := .ofChars "()<>@,;:\\\"/[]?=\x7b\x7d \t"

def token : ByteSet := ByteSet.ascii.diff (ctl.union tspecials)

def reasonPhrase : G :=
  ((plus (.set (ByteSet.any.diff (.byte 10)))).entering .mark).leaving .reasonPhrase
def statusCode : G := ((plus (.set digit)).entering .mark).leaving .statusCode
def httpNumber : G := cats [plus (.set digit), str ".", plus (.set digit)]
def httpVersion : G := ((Expr.cat (str "HTTP/") httpNumber).entering .mark).leaving .httpVersion

def statusLine : G :=
  entryGuarded 1 (cats [httpVersion, str " ", statusCode, str " ", reasonPhrase]) crlf

def fieldName : G := ((plus (.set token)).entering .startField).leaving .writeField
def fieldValue : G := ((Expr.star (.set .any)).entering .startValue).leaving .writeValue

def fields : G :=
  entryGuarded 2 (cats [fieldName, str ":", .star (.set space), fieldValue]) crlf

def contentLength : G :=
  .cat (cats [((strAnyCase "Content-Length").entering .startField).leaving .writeField, str ":",
    .star (.set space),
    (((plus (.set digit)).entering .startValue).leaving .writeContentLen).leaving .writeValue]) crlf

def connClose : G :=
  .cat (cats [strAnyCase "Connection", str ":", .star (.set space), strAnyCase "close"])
    (crlf.leaving .writeConnectionClose)

def transferEncodingChunked : G :=
  .cat (cats [((strAnyCase "Transfer-Encoding").entering .startField).leaving .writeField, str ":",
    .star (.set space), ((strAnyCase "chunked").entering .startValue).leaving .writeValue])
    (crlf.finishing .transChunked)

def messageHeader : G := alts [transferEncodingChunked, connClose, contentLength, fields]

def response : G := cats [statusLine, .star messageHeader, crlf]

def chunkExtVal : G := plus (.set token)
def chunkExtName : G := plus (.set token)

def chunkExtension : G :=
  .star (cats [str ";",
    ((chunkExtName.entering .startField).leaving .writeField).leaving .startValue,
    (opt (.cat (str "=") (chunkExtVal.entering .startValue))).leaving .writeValue])

def chunkSize : G := plus (.set xdigit)

def chunkedHeader : G :=
  entryGuarded 3 (.cat ((chunkSize.entering .mark).leaving .chunkSize) chunkExtension) crlf

def main : G := (Expr.alt response chunkedHeader).finishing .done

end ResponseGrammar

/-- The start state of the response machine. -/
def responseStart : State ResponseAction := start ResponseGrammar.main

end Sylar.Http

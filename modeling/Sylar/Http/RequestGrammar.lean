import Sylar.Lib.Ragel

/-!
# The machine of `http11_parser.rl`

The definitions follow the grammar of the source line by line. In that grammar
`-` between two literals is the difference of two sets of bytes, so `(0 - 31)`
is the byte 0 alone, `("1"-"9")` is the digit one, and `6( h16 ":" )` is the
byte 6 followed by one group. The condition `uri_relaxed` is a parameter: the
field is never initialised.
-/

namespace Sylar.Http

open Sylar.Lib.Ragel Sylar.Lib.Ragel.Expr

/-- The actions of `http11_parser.rl`. -/
inductive RequestAction where
  | mark
  | startField
  | writeField
  | startValue
  | writeValue
  | requestMethod
  | requestUri
  | fragment
  | startQuery
  | queryString
  | httpVersion
  | requestPath
  | done
  | xml
  | json
  deriving DecidableEq, Repr

namespace RequestGrammar

abbrev G := Expr RequestAction

open ByteSet (lower upper digit alpha xdigit space)

def crlf : G := .alt (str "\r\n") (str "\n")

section Uri

variable (relaxed : Bool)

def moreDelims : ByteSet := if relaxed then .ofChars "\x7b\x7d^" else .none
def subDelims : ByteSet := (ByteSet.ofChars "!$&'()*+,;=").union (moreDelims relaxed)
def unreserved : ByteSet := (alpha.union digit).union (.ofChars "-._~")
def pctEncoded : G := cats [str "%", .set xdigit, .set xdigit]

def pchar : G :=
  .alt (.set (((unreserved).union (subDelims relaxed)).union (.ofChars ":@"))) pctEncoded

def fragment : G :=
  ((Expr.star (.alt (pchar relaxed) (chars "/?"))).entering .mark).leaving .fragment

def query : G := (Expr.star (.alt (pchar relaxed) (chars "/?"))).leaving .queryString

def segmentNzNc : G :=
  plus (.alt (.set ((unreserved.union (subDelims relaxed)).union (.ofChars "@"))) pctEncoded)

def segmentNz : G := plus (pchar relaxed)
def segment : G := .star (pchar relaxed)

def pathEmpty : G := .eps
def pathRootless : G :=
  .cat (segmentNz relaxed) (.star (.cat (str "/") (segment relaxed)))
def pathNoscheme : G :=
  .cat (segmentNzNc relaxed) (.star (.cat (str "/") (segment relaxed)))
def pathAbsolute : G :=
  .cat (str "/") (opt (.cat (segmentNz relaxed) (.star (.cat (str "/") (segment relaxed)))))
def pathAbempty : G := .star (.cat (str "/") (segment relaxed))

def regName : G :=
  .star (.alt (.set (unreserved.union (subDelims relaxed))) pctEncoded)

def decOctet : G :=
  alts [.set digit,
    .cat (.set ((ByteSet.byte 49).diff (.byte 57))) (.set digit),
    cats [str "1", .set digit, .set digit],
    cats [str "2", .set ((ByteSet.byte 48).diff (.byte 52)), .set digit],
    .cat (str "25") (.set ((ByteSet.byte 48).diff (.byte 53)))]

def ipv4Address : G :=
  cats [decOctet, str ".", decOctet, str ".", decOctet, str ".", decOctet]
def h16 : G := between (.set xdigit) 1 3
def h16Colon : G := .cat h16 (str ":")
def ls32 : G := .alt (cats [h16, str ":", h16]) ipv4Address

def ipv6Address : G :=
  alts [cats [byte 6, h16Colon, ls32],
    cats [str "::", byte 5, h16Colon, ls32],
    cats [opt h16, str "::", byte 4, h16Colon, ls32],
    cats [opt (.cat (atLeast h16Colon 1) h16), str "::", byte 3, h16Colon, ls32],
    cats [opt (.cat (atLeast h16Colon 2) h16), str "::", byte 2, h16Colon, ls32],
    cats [opt (.cat (atLeast h16Colon 3) h16), str "::", h16, str ":", ls32],
    cats [opt (.cat (atLeast h16Colon 4) h16), str "::", ls32],
    cats [opt (.cat (atLeast h16Colon 5) h16), str "::", h16],
    cats [opt (.cat (atLeast h16Colon 6) h16), str "::"]]

def ipvFuture : G :=
  cats [str "v", plus (.set xdigit), str ".",
    plus (.set ((unreserved.union (subDelims relaxed)).union (.ofChars ":")))]

def ipLiteral : G := cats [str "[", .alt ipv6Address (ipvFuture relaxed), str "]"]

def port : G := .star (.set digit)
def host : G := alts [ipLiteral relaxed, ipv4Address, regName relaxed]

def userinfo : G :=
  .star (.alt (.set ((unreserved.union (subDelims relaxed)).union (.ofChars ":"))) pctEncoded)

def authority : G :=
  cats [opt (.cat (userinfo relaxed) (str "@")), host relaxed, opt (.cat (str ":") port)]

def scheme : G :=
  .cat (.set alpha) (.star (.set ((alpha.union digit).union (.ofChars "+-."))))

def relativePart : G :=
  alts [cats [str "//", authority relaxed, pathAbempty relaxed], pathAbsolute relaxed,
    pathNoscheme relaxed, pathEmpty]

def hierPart : G :=
  alts [cats [str "//", authority relaxed, pathAbempty relaxed], pathAbsolute relaxed,
    pathRootless relaxed, pathEmpty]

/-- `( "?" %start_query query )?`. -/
def queryPart : G := opt (.cat ((str "?").leaving .startQuery) (query relaxed))

/-- `( "#" fragment )?`. -/
def fragmentPart : G := opt (.cat (str "#") (fragment relaxed))

def relativeRef : G :=
  .cat (((Expr.cat ((relativePart relaxed).leaving .requestPath) (queryPart relaxed)).entering
    .mark).leaving .requestUri) (fragmentPart relaxed)

def uri : G :=
  cats [scheme, str ":",
    ((Expr.cat ((hierPart relaxed).leaving .requestPath) (queryPart relaxed)).entering
      .mark).leaving .requestUri,
    fragmentPart relaxed]

def uriReference : G := .alt (uri relaxed) (relativeRef relaxed)

end Uri

def method : G :=
  ((between (.set (upper.union digit)) 1 19).entering .mark).leaving .requestMethod

def httpNumber : G := .cat (str "1.") (.set ((ByteSet.byte 48).union (.byte 49)))
def httpVersion : G := ((Expr.cat (str "HTTP/") httpNumber).entering .mark).leaving .httpVersion

def requestLine (relaxed : Bool) : G :=
  cats [method, str " ", uriReference relaxed, str " ", httpVersion, crlf]

def httpCtl : ByteSet := ((ByteSet.byte 0).diff (.byte 31)).union (.byte 127)
def httpSeparator : ByteSet := .ofChars "()<>@,;:\\\"/[]?=\x7b\x7d \t"

def lws : G := .cat (opt crlf) (plus (chars " \t"))
def token : ByteSet := ByteSet.ascii.diff (httpCtl.union httpSeparator)
def content : G := .alt (.set (ByteSet.any.diff httpCtl)) lws

def fieldName : G := ((plus (.set token)).entering .startField).leaving .writeField
def fieldValue : G := ((Expr.star content).entering .startValue).leaving .writeValue

def messageHeader : G :=
  entryGuarded 1 (cats [fieldName, str ":", .star lws, fieldValue]) crlf

def request (relaxed : Bool) : G :=
  cats [requestLine relaxed, .star messageHeader, crlf]

def socketJSONStart (relaxed : Bool) : G := .cat (str "@") (relativePart relaxed)

def socketJSONData : G :=
  finishGuarded 2 (cats [str "\x7b", .star (.set .any), str "\x7d"]) (byte 0)

def socketXMLData : G :=
  finishGuarded 3
    (cats [((Expr.cat (str "<") (plus (.set ((alpha.union digit).union
        (.ofChars "-."))))).entering .mark).leaving .requestPath,
      .alt (chars "/>") (.set space), .star (.set .any), str ">"])
    (byte 0)

def socketJSON (relaxed : Bool) : G :=
  cats [((socketJSONStart relaxed).entering .mark).leaving .requestPath, str " ",
    (socketJSONData.entering .mark).finishing .json]

def socketXML : G := socketXMLData.finishing .xml

def socketRequest (relaxed : Bool) : G := .alt socketXML (socketJSON relaxed)

def main (relaxed : Bool) : G :=
  (Expr.alt (request relaxed) (socketRequest relaxed)).finishing .done

end RequestGrammar

/-- The start state of the request machine. -/
def requestStart (relaxed : Bool) : State RequestAction := start (RequestGrammar.main relaxed)

end Sylar.Http

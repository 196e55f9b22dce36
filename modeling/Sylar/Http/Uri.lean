import Sylar.Lib.Numerals
import Sylar.Lib.RagelContexts
import Sylar.Http.Message

/-!
# `Uri::Create`

The definitions follow the grammar of `uri.rl` line by line. There a number that
stands alone is a byte, so `2 [0-4] digit` starts with the byte 2. The machine
has one pointer, `mark`, which the actions of all components share. At the end of
the string the actions of everything that is left there run.

A null `mark` that a component is read from is a fault.
-/

namespace Sylar.Http

open Sylar.Lib Sylar.Lib.Ragel Sylar.Lib.Ragel.Expr

/-- The actions of `uri.rl` that the machine embeds. -/
inductive UriAction where
  | marku
  | markh
  | saveScheme
  | savePort
  | saveUserinfo
  | saveHost
  | savePath
  | saveQuery
  | saveFragment
  deriving DecidableEq, Repr

namespace UriGrammar

abbrev G := Expr UriAction

open ByteSet (digit alpha xdigit)

def subDelims : ByteSet := .ofChars "!$&'()*+,;="
def unreserved : ByteSet := (alpha.union digit).union (.ofChars "-._~")
def pctEncoded : G := cats [str "%", .set xdigit, .set xdigit]

/-- The name in `scheme`. -/
def schemeName : G :=
  .cat (.set alpha) (.star (.set ((alpha.union digit).union (.ofChars "+-."))))

def scheme : G := (schemeName.entering .marku).leaving .saveScheme

def userinfo : G :=
  .star (.alt (.set ((unreserved.union subDelims).union (.ofChars ":"))) pctEncoded)

def decOctet : G :=
  alts [.set digit,
    .cat (.set (.range 49 57)) (.set digit),
    cats [str "1", .set digit, .set digit],
    cats [byte 2, .set (.range 48 52), .set digit],
    .cat (str "25") (.set (.range 48 53))]

def ipv4Address : G :=
  cats [decOctet, str ".", decOctet, str ".", decOctet, str ".", decOctet]
def h16 : G := between (.set xdigit) 1 3
def h16Colon : G := .cat h16 (str ":")
def ls32 : G := .alt (cats [h16, str ":", h16]) ipv4Address

def ipv6Address : G :=
  alts [cats [between h16Colon 6 0, ls32],
    cats [str "::", between h16Colon 5 0, ls32],
    cats [opt h16, str "::", between h16Colon 4 0, ls32],
    cats [opt (.cat (between h16Colon 1 0) h16), str "::", between h16Colon 3 0, ls32],
    cats [opt (.cat (between h16Colon 2 0) h16), str "::", between h16Colon 2 0, ls32],
    cats [opt (.cat (between h16Colon 3 0) h16), str "::", between h16Colon 1 0, ls32],
    cats [opt (.cat (between h16Colon 4 0) h16), str "::", ls32],
    cats [opt (.cat (between h16Colon 5 0) h16), str "::", h16],
    cats [opt (.cat (between h16Colon 6 0) h16), str "::"]]

def ipvFuture : G :=
  cats [str "v", plus (.set xdigit), str ".",
    plus (.set ((unreserved.union subDelims).union (.ofChars ":")))]

def ipLiteral : G := cats [str "[", .alt ipv6Address ipvFuture, str "]"]
def regName : G := .star (.alt (.set (unreserved.union subDelims)) pctEncoded)
def host : G := alts [ipLiteral, ipv4Address, regName]
def port : G := .star (.set digit)

def authority : G :=
  (cats [opt (.cat (userinfo.leaving .saveUserinfo) (str "@")),
    (host.entering .markh).leaving .saveHost,
    opt (.cat (str ":") ((port.entering .markh).leaving .savePort))]).entering .markh

/-- The bytes of `pchar` but for the colon. -/
def pcharNc : ByteSet :=
  (((ByteSet.any.diff .ascii).union unreserved).union subDelims).union (.ofChars "@")

def pchar : G := .alt (.set (pcharNc.union (.ofChars ":"))) pctEncoded
def segment : G := .star pchar
def segmentNz : G := plus pchar
def segmentNzNc : G := plus (.alt (.set pcharNc) pctEncoded)

/-- `("/" segment)*`. -/
def segments : G := .star (.cat (str "/") segment)

def pathAbempty : G := .cat (opt (.cat (str "/") segment)) segments
def pathAbsolute : G := .cat (str "/") (opt (.cat segmentNz segments))
def pathNoscheme : G := .cat segmentNzNc segments
def pathRootless : G := .cat segmentNz segments
def pathEmpty : G := .eps

/-- The text of `query` and of `fragment`. -/
def queryText : G := .star (.alt pchar (chars "/?"))

def query : G := (queryText.entering .marku).leaving .saveQuery
def fragment : G := (queryText.entering .marku).leaving .saveFragment

def hierPart : G :=
  alts [cats [str "//", authority, (pathAbempty.entering .markh).leaving .savePath],
    pathAbsolute, pathRootless, pathEmpty]

def relativePart : G :=
  alts [cats [str "//", authority, pathAbempty], pathAbsolute, pathNoscheme, pathEmpty]

/-- `( "?" query )? ( "#" fragment )?`. -/
def tail : G := .cat (opt (.cat (str "?") query)) (opt (.cat (str "#") fragment))

def relativeRef : G := .cat relativePart tail
def uri : G := cats [scheme, str ":", hierPart, tail]
def uriReference : G := .alt uri relativeRef
def main : G := uriReference

end UriGrammar

structure Uri where
  scheme : Text
  userinfo : Text
  host : Text
  path : Text
  query : Text
  fragment : Text
  port : UInt16
  deriving DecidableEq

namespace Uri

/-- The constructor. -/
def new : Uri := ⟨[], [], [], [], [], [], 0⟩

def getPort (u : Uri) : UInt16 :=
  if u.port ≠ 0 then u.port
  else if u.scheme = ascii "http" then 80
  else if u.scheme = ascii "https" then 443
  else u.port

def getPath (u : Uri) : Text := if u.path = [] then ascii "/" else u.path

end Uri

/-- The local variables of `Create` that the actions use. -/
structure UriParse where
  uri : Uri
  mark : Option Nat
  deriving DecidableEq

namespace UriParse

/-- `std::string(mark, fpc - mark)`. -/
def marked (buffer : Text) (p : Nat) (x : UriParse) : Except Fault Text :=
  match x.mark with
  | none => .error .outsideBuffer
  | some m => textAt buffer m (p - m)

/-- `atoi(mark)`, as a `uint16_t`. -/
def markedPort (buffer : Text) (x : UriParse) : Except Fault UInt16 :=
  match x.mark with
  | none => .error .outsideBuffer
  | some m => .ok (.ofInt (Numerals.toInt (Numerals.strtol 10 (buffer.drop m))))

/-- An action of the machine at offset `p` of the string. -/
def action (buffer : Text) (a : UriAction) (p : Nat) (x : UriParse) : Except Fault UriParse :=
  match a with
  | .marku | .markh => .ok { x with mark := some p }
  | .saveScheme => do
      let t ← x.marked buffer p
      return ⟨{ x.uri with scheme := t }, none⟩
  | .savePort =>
      if some p ≠ x.mark then do
        let port ← x.markedPort buffer
        return ⟨{ x.uri with port := port }, none⟩
      else return ⟨x.uri, none⟩
  | .saveUserinfo =>
      if x.mark.isSome then do
        let t ← x.marked buffer p
        return ⟨{ x.uri with userinfo := t }, none⟩
      else return ⟨x.uri, none⟩
  | .saveHost =>
      if x.mark.isSome then do
        let t ← x.marked buffer p
        return { x with uri := { x.uri with host := t } }
      else return x
  | .savePath =>
      if x.mark.isSome then do
        let t ← x.marked buffer p
        return ⟨{ x.uri with path := t }, none⟩
      else return ⟨{ x.uri with path := [] }, none⟩
  | .saveQuery => do
      let t ← x.marked buffer p
      return ⟨{ x.uri with query := t }, none⟩
  | .saveFragment => do
      let t ← x.marked buffer p
      return ⟨{ x.uri with fragment := t }, none⟩

end UriParse

/-- `Uri::Create`. -/
def Uri.create (uristr : Text) : Except Fault (Option Uri) :=
  (parse (UriParse.action uristr) (start UriGrammar.main) uristr ⟨.new, none⟩).map
    (Option.map UriParse.uri)

end Sylar.Http

import Sylar.Http.Message

/-!
# `LogFormatter`

A pattern is cut into texts and conversions, and the conversions are looked up. A brace
that is not closed is reported, and the scan goes on right behind its `%`. Of `%%` only
the first byte is taken, so the second may begin a conversion.
-/

namespace Sylar.Log

open Sylar.Http (Text ascii)

/-- The classes of `FormatItem`. -/
inductive FormatItem where
  | string (str : Text)
  | message
  | level
  | elapse
  | name
  | threadId
  | newLine
  | dateTime (format : Text)
  | filename
  | line
  | tab
  | fiberId
  | threadName
  deriving DecidableEq, Repr

/-- `s_format_items`. -/
def formatItems (fmt : Text) : List (Text × FormatItem) :=
  [(ascii "m", .message), (ascii "p", .level), (ascii "r", .elapse), (ascii "c", .name),
    (ascii "t", .threadId), (ascii "n", .newLine), (ascii "d", .dateTime fmt),
    (ascii "f", .filename), (ascii "l", .line), (ascii "T", .tab), (ascii "F", .fiberId),
    (ascii "N", .threadName)]

/-- An entry of `vec`: type 0 is a text, type 1 a conversion. -/
inductive PatternPart where
  | text (str : Text)
  | conversion (str fmt : Text)
  deriving DecidableEq, Repr

namespace PatternPart

/-- The conversion is not in the table. -/
def isUnknown : PatternPart → Bool
  | .text _ => false
  | .conversion str fmt => ((formatItems fmt).lookup str).isNone

def item : PatternPart → FormatItem
  | .text str => .string str
  | .conversion str fmt =>
      ((formatItems fmt).lookup str).getD (.string (ascii "<<error_format %" ++ str ++ ascii ">>"))

end PatternPart

/-- `isalpha` in the C locale. -/
def isAlpha (c : UInt8) : Bool :=
  (65 ≤ c.toNat && c.toNat ≤ 90) || (97 ≤ c.toNat && c.toNat ≤ 122)

/-- The variables of the scan of one conversion; `inFormat` is `fmt_status == 1`. -/
structure ConversionScan where
  n : Nat
  inFormat : Bool
  fmtBegin : Nat
  str : Text
  fmt : Text

/-- `LogFormatter`. -/
structure LogFormatter where
  pattern : Text
  items : List FormatItem
  error : Bool
  deriving DecidableEq, Repr

namespace LogFormatter

section Init

variable (pattern : Text)

/-- `m_pattern.substr(pos, len)`. -/
def substr (pos len : Nat) : Text := (pattern.drop pos).take len

/-- The loop over the bytes behind the `%` at `i`. -/
def scan (i : Nat) : Nat → ConversionScan → ConversionScan
  | 0, s => s
  | rounds + 1, s =>
      match pattern[s.n]? with
      | none => s
      | some c =>
          if !s.inFormat && (!isAlpha c && c != 123 && c != 125) then
            { s with str := substr pattern (i + 1) (s.n - i - 1) }
          else if !s.inFormat && c == 123 then
            scan i rounds
              { s with
                n := s.n + 1
                inFormat := true
                fmtBegin := s.n
                str := substr pattern (i + 1) (s.n - i - 1) }
          else if s.inFormat && c == 125 then
            { s with
              n := s.n + 1
              inFormat := false
              fmt := substr pattern (s.fmtBegin + 1) (s.n - s.fmtBegin - 1) }
          else
            -- at the end of the pattern everything behind the `%` is the conversion
            scan i rounds
              { s with
                n := s.n + 1
                str := if s.n + 1 = pattern.length ∧ s.str = [] then pattern.drop (i + 1)
                  else s.str }

/-- The text that was collected, unless it is empty. -/
def flush (nstr : Text) : List PatternPart := if nstr = [] then [] else [.text nstr]

/-- The loop over the pattern from `i` on: `vec`, and whether a brace was left open. -/
def parts : Nat → Nat → Text → List PatternPart × Bool
  | 0, _, nstr => (flush nstr, false)
  | rounds + 1, i, nstr =>
      match pattern[i]? with
      | none => (flush nstr, false)
      | some c =>
          if c ≠ 37 then parts rounds (i + 1) (nstr ++ [c])
          else if pattern[i + 1]? = some 37 then parts rounds (i + 1) (nstr ++ [37])
          else
            let s := scan pattern i (pattern.length - i) ⟨i + 1, false, 0, [], []⟩
            if s.inFormat then
              -- the text collected so far is kept, and comes behind the report
              (.text (ascii "<<pattern_error>>") :: (parts rounds (i + 1) nstr).1, true)
            else
              let rest := parts rounds s.n []
              (flush nstr ++ .conversion s.str s.fmt :: rest.1, rest.2)

/-- `LogFormatter(pattern)`, which calls `init`. -/
def new : LogFormatter :=
  let vec := parts pattern (pattern.length + 1) 0 []
  ⟨pattern, vec.1.map PatternPart.item, vec.2 || vec.1.any PatternPart.isUnknown⟩

end Init

@[simp] theorem new_pattern (pattern : Text) : (new pattern).pattern = pattern := rfl

end LogFormatter

end Sylar.Log

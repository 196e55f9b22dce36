import Sylar.Http.Message
import Sylar.Lib.Numerals

/-!
# `StringUtil::UrlEncode` and `StringUtil::UrlDecode`

Both functions create the string they write to only at the first byte that changes, and
return their argument if there is none. The string is therefore an option, and the bytes
in front of the current one are copied when it is created.

`isxdigit` is the one of the C locale; a byte of 128 and more, which is a negative `char`,
is no digit.
-/

namespace Sylar.Common

open Sylar.Lib
open Sylar.Http (Text ascii)

/-- `uri_chars`. -/
def uriChars : List Nat :=
    [0, 0, 0, 0, 0, 0, 0, 0, 0, 0, 0, 0, 0, 0, 0, 0, 0, 0, 0, 0, 0, 0, 0, 0, 0, 0, 0, 0, 0, 0, 0, 0,
    0, 0, 0, 0, 0, 0, 0, 0, 0, 0, 0, 0, 0, 1, 1, 0, 1, 1, 1, 1, 1, 1, 1, 1, 1, 1, 0, 0, 0, 1, 0, 0,
    0, 1, 1, 1, 1, 1, 1, 1, 1, 1, 1, 1, 1, 1, 1, 1, 1, 1, 1, 1, 1, 1, 1, 1, 1, 1, 1, 0, 0, 0, 0, 1,
    0, 1, 1, 1, 1, 1, 1, 1, 1, 1, 1, 1, 1, 1, 1, 1, 1, 1, 1, 1, 1, 1, 1, 1, 1, 1, 1, 0, 0, 0, 1, 0,
    0, 0, 0, 0, 0, 0, 0, 0, 0, 0, 0, 0, 0, 0, 0, 0, 0, 0, 0, 0, 0, 0, 0, 0, 0, 0, 0, 0, 0, 0, 0, 0,
    0, 0, 0, 0, 0, 0, 0, 0, 0, 0, 0, 0, 0, 0, 0, 0, 0, 0, 0, 0, 0, 0, 0, 0, 0, 0, 0, 0, 0, 0, 0, 0,
    0, 0, 0, 0, 0, 0, 0, 0, 0, 0, 0, 0, 0, 0, 0, 0, 0, 0, 0, 0, 0, 0, 0, 0, 0, 0, 0, 0, 0, 0, 0, 0,
    0, 0, 0, 0, 0, 0, 0, 0, 0, 0, 0, 0, 0, 0, 0, 0, 0, 0, 0, 0, 0, 0, 0, 0, 0, 0, 0, 0, 0, 0, 0, 0]

/-- `xdigit_chars`. -/
def xdigitChars : List Nat :=
    [0, 0, 0, 0, 0, 0, 0, 0, 0, 0, 0, 0, 0, 0, 0, 0, 0, 0, 0, 0, 0, 0, 0, 0, 0, 0, 0, 0, 0, 0, 0, 0,
    0, 0, 0, 0, 0, 0, 0, 0, 0, 0, 0, 0, 0, 0, 0, 0, 0, 1, 2, 3, 4, 5, 6, 7, 8, 9, 0, 0, 0, 0, 0, 0,
    0, 10, 11, 12, 13, 14, 15, 0, 0, 0, 0, 0, 0, 0, 0, 0,
    0, 0, 0, 0, 0, 0, 0, 0, 0, 0, 0, 0, 0, 0, 0, 0,
    0, 10, 11, 12, 13, 14, 15, 0, 0, 0, 0, 0, 0, 0, 0, 0,
    0, 0, 0, 0, 0, 0, 0, 0, 0, 0, 0, 0, 0, 0, 0, 0,
    0, 0, 0, 0, 0, 0, 0, 0, 0, 0, 0, 0, 0, 0, 0, 0, 0, 0, 0, 0, 0, 0, 0, 0, 0, 0, 0, 0, 0, 0, 0, 0,
    0, 0, 0, 0, 0, 0, 0, 0, 0, 0, 0, 0, 0, 0, 0, 0, 0, 0, 0, 0, 0, 0, 0, 0, 0, 0, 0, 0, 0, 0, 0, 0,
    0, 0, 0, 0, 0, 0, 0, 0, 0, 0, 0, 0, 0, 0, 0, 0, 0, 0, 0, 0, 0, 0, 0, 0, 0, 0, 0, 0, 0, 0, 0, 0,
    0, 0, 0, 0, 0, 0, 0, 0, 0, 0, 0, 0, 0, 0, 0, 0, 0, 0, 0, 0, 0, 0, 0, 0, 0, 0, 0, 0, 0, 0, 0, 0]

/-- `CHAR_IS_UNRESERVED`. -/
def charIsUnreserved (c : UInt8) : Bool := uriChars.getD c.toNat 0 ≠ 0

def hexdigits : Text := ascii "0123456789ABCDEF"

def isxdigit (c : UInt8) : Bool :=
  (48 ≤ c.toNat && c.toNat ≤ 57) || (65 ≤ c.toNat && c.toNat ≤ 70) ||
    (97 ≤ c.toNat && c.toNat ≤ 102)

section Loops

variable (spaceAsPlus : Bool) (str : Text)

/-- What a byte that is not unreserved is replaced by. -/
def escape (c : UInt8) : Text :=
  if c = 32 && spaceAsPlus then [43]
  else [37, hexdigits.getD (c >>> 4).toNat 0, hexdigits.getD (c &&& 0xf).toNat 0]

/-- The loop of `UrlEncode` over the rest of the string, which starts at `i`. -/
def encodeLoop : Text → Nat → Option Text → Option Text
  | [], _, ss => ss
  | c :: rest, i, ss =>
      if !charIsUnreserved c then
        encodeLoop rest (i + 1) (some (ss.getD (str.take i) ++ escape spaceAsPlus c))
      else encodeLoop rest (i + 1) (ss.map (· ++ [c]))

def urlEncode : Text := (encodeLoop spaceAsPlus str str 0 none).getD str

/-- The test of `UrlDecode` for a `%` with two digits behind it. -/
def escapes (c : UInt8) (rest : Text) : Bool :=
  c = 37 && 2 ≤ rest.length && isxdigit (rest.getD 0 0) && isxdigit (rest.getD 1 0)

/-- The loop of `UrlDecode` over the rest of the string, which starts at `i`. The next `skip`
bytes are stepped over. -/
def decodeLoop : Text → Nat → Nat → Option Text → Option Text
  | [], _, _, ss => ss
  | _ :: rest, skip + 1, i, ss => decodeLoop rest skip (i + 1) ss
  | c :: rest, 0, i, ss =>
      if c = 43 && spaceAsPlus then
        decodeLoop rest 0 (i + 1) (some (ss.getD (str.take i) ++ [32]))
      else if escapes c rest then
        decodeLoop rest 2 (i + 1)
          (some (ss.getD (str.take i) ++
            [UInt8.ofNat (xdigitChars.getD (rest.getD 0 0).toNat 0 <<< 4 |||
              xdigitChars.getD (rest.getD 1 0).toNat 0)]))
      else decodeLoop rest 0 (i + 1) (ss.map (· ++ [c]))

def urlDecode : Text := (decodeLoop spaceAsPlus str str 0 0 none).getD str

end Loops

/-- Unreserved bytes, escapes with digits of the upper case, and `+` for a space if the flag
is set. -/
inductive Encoded (spaceAsPlus : Bool) : Text → Prop
  | nil : Encoded spaceAsPlus []
  | unreserved {c : UInt8} {rest : Text} (hc : charIsUnreserved c)
      (hrest : Encoded spaceAsPlus rest) : Encoded spaceAsPlus (c :: rest)
  | escape {h l : UInt8} {rest : Text} (hh : h ∈ hexdigits) (hl : l ∈ hexdigits)
      (hrest : Encoded spaceAsPlus rest) : Encoded spaceAsPlus (37 :: h :: l :: rest)
  | plus {rest : Text} (hflag : spaceAsPlus) (hrest : Encoded spaceAsPlus rest) :
      Encoded spaceAsPlus (43 :: rest)

/-- The byte that two hexadecimal digits stand for. -/
def hexByte (h l : UInt8) : Option UInt8 := do
  let x ← Numerals.digit 16 h
  let y ← Numerals.digit 16 l
  return UInt8.ofNat (16 * x + y)

/-- A byte that begins no escape. -/
def plain (spaceAsPlus : Bool) (c : UInt8) : UInt8 := if c = 43 && spaceAsPlus then 32 else c

/-- The decoder in one pass: an escape is its byte, `+` is a space if the flag is set, and
every other byte is itself. -/
def decoded (spaceAsPlus : Bool) : Text → Text
  | [] => []
  | [c] => [plain spaceAsPlus c]
  | [c, d] => [plain spaceAsPlus c, plain spaceAsPlus d]
  | c :: h :: l :: rest =>
      match if c = 37 then hexByte h l else none with
      | some byte => byte :: decoded spaceAsPlus rest
      | none => plain spaceAsPlus c :: decoded spaceAsPlus (h :: l :: rest)

section Bytes

variable {spaceAsPlus : Bool} {c : UInt8}

/-- The table of digits agrees with `isxdigit`. -/
theorem digit_eq_xdigitChars (c : UInt8) :
    Numerals.digit 16 c = if isxdigit c then some (xdigitChars.getD c.toNat 0) else none := by
  have hall : ∀ n < 256, Numerals.digit 16 (UInt8.ofNat n) =
      if isxdigit (UInt8.ofNat n) then some (xdigitChars.getD (UInt8.ofNat n).toNat 0)
      else none := by
    decide +kernel
  have hc := hall c.toNat c.toNat_lt
  rwa [UInt8.ofNat_toNat] at hc

theorem xdigitChars_lt (c : UInt8) : xdigitChars.getD c.toNat 0 < 16 := by
  have hall : (xdigitChars.all (· < 16)) = true := by decide +kernel
  rw [List.getD_eq_getElem?_getD]
  cases hx : xdigitChars[c.toNat]? with
  | none => decide
  | some x => exact of_decide_eq_true (List.all_eq_true.1 hall x (List.mem_of_getElem? hx))

theorem hexByte_eq (h l : UInt8) :
    hexByte h l =
      if isxdigit h && isxdigit l then
        some (UInt8.ofNat (xdigitChars.getD h.toNat 0 <<< 4 ||| xdigitChars.getD l.toNat 0))
      else none := by
  rw [hexByte, digit_eq_xdigitChars, digit_eq_xdigitChars]
  cases isxdigit h with
  | false => rfl
  | true =>
      cases isxdigit l with
      | false => rfl
      | true =>
          have hor := Nat.shiftLeft_add_eq_or_of_lt (i := 4) (xdigitChars_lt l)
            (xdigitChars.getD h.toNat 0)
          rw [Nat.shiftLeft_eq, Nat.mul_comm] at hor
          rw [Nat.shiftLeft_eq, Nat.mul_comm, ← hor]
          rfl

theorem decoded_cons_of_ne (hc : c ≠ 37) (rest : Text) :
    decoded spaceAsPlus (c :: rest) = plain spaceAsPlus c :: decoded spaceAsPlus rest := by
  match rest with
  | [] => rfl
  | [d] => rfl
  | h :: l :: rest => rw [decoded, if_neg hc]

theorem decoded_escape {h l byte : UInt8} (hbyte : hexByte h l = some byte) (rest : Text) :
    decoded spaceAsPlus (37 :: h :: l :: rest) = byte :: decoded spaceAsPlus rest := by
  rw [decoded, if_pos rfl, hbyte]

/-- Neither `%` nor `+` is unreserved. -/
theorem ne_of_charIsUnreserved (h : charIsUnreserved c) : c ≠ 37 ∧ c ≠ 43 := by
  constructor
  · rintro rfl
    revert h
    decide
  · rintro rfl
    revert h
    decide

theorem hexByte_hexdigits (c : UInt8) :
    hexByte (hexdigits.getD (c >>> 4).toNat 0) (hexdigits.getD (c &&& 0xf).toNat 0) = some c := by
  have hall : ∀ n < 256, hexByte (hexdigits.getD (UInt8.ofNat n >>> 4).toNat 0)
      (hexdigits.getD (UInt8.ofNat n &&& 0xf).toNat 0) = some (UInt8.ofNat n) := by
    decide +kernel
  have hc := hall c.toNat c.toNat_lt
  rwa [UInt8.ofNat_toNat] at hc

end Bytes

section Runs

variable (spaceAsPlus : Bool)

/-- What stands for a byte in an encoded text. -/
def encodeByte (c : UInt8) : Text := if charIsUnreserved c then [c] else escape spaceAsPlus c

/-- Whether or not the string has been created, what is before the current byte is encoded. -/
theorem encodeLoop_eq (front rest : Text) (ss : Option Text) :
    (encodeLoop spaceAsPlus (front ++ rest) rest front.length ss).getD (front ++ rest) =
      ss.getD front ++ rest.flatMap (encodeByte spaceAsPlus) := by
  induction rest generalizing front ss with
  | nil =>
      rw [encodeLoop, List.append_nil, List.flatMap_nil, List.append_nil]
  | cons c rest ih =>
      have hnext := ih (front ++ [c])
      rw [← List.append_cons, List.length_append, List.length_singleton] at hnext
      rw [encodeLoop, List.flatMap_cons, encodeByte, List.take_left]
      cases charIsUnreserved c with
      | true =>
          simp only [Bool.not_true, Bool.false_eq_true, if_false, if_true]
          rw [hnext]
          cases ss with
          | none => exact List.append_assoc ..
          | some out => exact List.append_assoc ..
      | false =>
          simp only [Bool.not_false, Bool.false_eq_true, if_false, if_true]
          rw [hnext, Option.getD_some, List.append_assoc]

theorem urlEncode_eq (str : Text) :
    urlEncode spaceAsPlus str = str.flatMap (encodeByte spaceAsPlus) :=
  encodeLoop_eq spaceAsPlus [] str none

theorem decoded_cons {c : UInt8} {rest : Text} (h : escapes c rest = false) :
    decoded spaceAsPlus (c :: rest) = plain spaceAsPlus c :: decoded spaceAsPlus rest := by
  match rest with
  | [] => rfl
  | [d] => rfl
  | x :: y :: rest =>
      have hnone : (if c = 37 then hexByte x y else none) = none := by
        split
        · next hc =>
            subst hc
            have hdigits : (isxdigit x && isxdigit y) = false := h
            rw [hexByte_eq, hdigits]
            rfl
        · rfl
      rw [decoded, hnone]

/-- An escape begins with `%` and two digits. -/
theorem exists_of_escapes {c : UInt8} {rest : Text} (h : escapes c rest = true) :
    c = 37 ∧ ∃ x y tail, rest = x :: y :: tail ∧ (isxdigit x && isxdigit y) = true := by
  match rest with
  | [] => simp [escapes] at h
  | [d] => simp [escapes] at h
  | x :: y :: tail =>
      simp only [escapes, List.length_cons, Bool.and_eq_true, decide_eq_true_eq] at h
      exact ⟨h.1.1.1, x, y, tail, rfl, by rw [Bool.and_eq_true]; exact ⟨h.1.2, h.2⟩⟩

/-- Whether or not the string has been created, what is before the current byte is decoded. -/
theorem decodeLoop_eq (front rest : Text) (ss : Option Text) :
    (decodeLoop spaceAsPlus (front ++ rest) rest 0 front.length ss).getD (front ++ rest) =
      ss.getD front ++ decoded spaceAsPlus rest := by
  induction hn : rest.length using Nat.strong_induction_on generalizing front rest ss with
  | _ n ih =>
      subst hn
      cases rest with
      | nil => rw [decodeLoop, decoded, List.append_nil, List.append_nil]
      | cons c rest =>
          have hnext := fun ss => ih rest.length (Nat.lt_succ_self _) (front ++ [c]) rest ss rfl
          simp only [← List.append_cons, List.length_append, List.length_singleton] at hnext
          rw [decodeLoop, List.take_left]
          by_cases hplus : (c = 43 && spaceAsPlus) = true
          · have hc : c = 43 := by
              rw [Bool.and_eq_true, decide_eq_true_iff] at hplus
              exact hplus.1
            have hplain : plain spaceAsPlus c = 32 := if_pos hplus
            rw [if_pos hplus, hnext, decoded_cons_of_ne (by rw [hc]; decide), hplain]
            exact (List.append_cons ..).symm
          · rw [if_neg hplus]
            by_cases hescape : escapes c rest = true
            · obtain ⟨rfl, x, y, tail, rfl, hdigits⟩ := exists_of_escapes hescape
              have htail := fun ss => ih tail.length (by simp only [List.length_cons]; omega)
                (front ++ [37, x, y]) tail ss rfl
              rw [List.append_assoc, List.length_append] at htail
              have hbyte := hexByte_eq x y
              rw [if_pos hdigits] at hbyte
              rw [if_pos hescape, decoded_escape hbyte]
              exact (htail _).trans (List.append_cons ..).symm
            · have hplain : plain spaceAsPlus c = c := if_neg hplus
              rw [if_neg hescape, hnext, decoded_cons spaceAsPlus (Bool.not_eq_true _ ▸ hescape),
                hplain]
              cases ss with
              | none => exact (List.append_cons ..).symm
              | some out => exact (List.append_cons ..).symm

theorem urlDecode_eq (str : Text) : urlDecode spaceAsPlus str = decoded spaceAsPlus str :=
  decodeLoop_eq spaceAsPlus [] str none

/-- What stands for a byte is decoded to it. -/
theorem decoded_encodeByte (c : UInt8) (rest : Text) :
    decoded spaceAsPlus (encodeByte spaceAsPlus c ++ rest) = c :: decoded spaceAsPlus rest := by
  rw [encodeByte]
  split
  · next hc =>
      obtain ⟨hpercent, hplus⟩ := ne_of_charIsUnreserved hc
      rw [List.singleton_append, decoded_cons_of_ne hpercent, plain]
      simp [hplus]
  · rw [escape]
    split
    · next hspace =>
        rw [Bool.and_eq_true, decide_eq_true_iff] at hspace
        obtain ⟨rfl, rfl⟩ := hspace
        exact decoded_cons_of_ne (by decide) rest
    · exact decoded_escape (hexByte_hexdigits c) rest

theorem encoded_encodeByte (c : UInt8) {rest : Text} (h : Encoded spaceAsPlus rest) :
    Encoded spaceAsPlus (encodeByte spaceAsPlus c ++ rest) := by
  rw [encodeByte]
  split
  · next hc => exact .unreserved hc h
  · rw [escape]
    split
    · next hspace =>
        rw [Bool.and_eq_true] at hspace
        exact .plus hspace.2 h
    · have hdigits : ∀ n < 16, hexdigits.getD n 0 ∈ hexdigits := by decide
      have hhigh : (c >>> 4).toNat < 16 := by
        have hlt := c.toNat_lt
        rw [UInt8.toNat_shiftRight, Nat.shiftRight_eq_div_pow]
        change c.toNat / 16 < 16
        omega
      have hlow : (c &&& 0xf).toNat < 16 := by
        rw [UInt8.toNat_and]
        exact Nat.lt_succ_of_le Nat.and_le_right
      exact .escape (hdigits _ hhigh) (hdigits _ hlow) h

/-- An encoded text is decoded to the text, it has only the characters of an encoded text, and
every text is decoded in one pass. -/
theorem url_coding (str : Text) :
    urlDecode spaceAsPlus (urlEncode spaceAsPlus str) = str ∧
      Encoded spaceAsPlus (urlEncode spaceAsPlus str) ∧
      urlDecode spaceAsPlus str = decoded spaceAsPlus str := by
  refine ⟨?_, ?_, urlDecode_eq spaceAsPlus str⟩
  · rw [urlDecode_eq, urlEncode_eq]
    induction str with
    | nil => rfl
    | cons c str ih => rw [List.flatMap_cons, decoded_encodeByte, ih]
  · rw [urlEncode_eq]
    induction str with
    | nil => exact .nil
    | cons c str ih => exact encoded_encodeByte spaceAsPlus c ih

example : urlDecode true (ascii "a+b%2Bc%4") = ascii "a b+c%4" := by decide

end Runs

end Sylar.Common

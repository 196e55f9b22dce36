import Sylar.Http.Dump
import Sylar.Http.SizeLine

/-!
# Header fields between `dump` and the parsers

`dump` writes the fields of a message one after the other, and a parser sets each field that it
reads in its map. What a lookup then finds is the last field that was written with the key.
-/

namespace Sylar.Http

open Sylar.Lib Sylar.Lib.Ragel

theorem sameIgnoringCase_iff {s t : Text} :
    sameIgnoringCase s t = true ↔ caseKey s = caseKey t := decide_eq_true_iff

theorem sameIgnoringCase_comm (s t : Text) : sameIgnoringCase s t = sameIgnoringCase t s := by
  rw [Bool.eq_iff_iff, sameIgnoringCase_iff, sameIgnoringCase_iff]
  exact eq_comm

theorem sameIgnoringCase_congr {s t : Text} (h : sameIgnoringCase s t = true) (u : Text) :
    sameIgnoringCase s u = sameIgnoringCase t u := by
  rw [Bool.eq_iff_iff, sameIgnoringCase_iff, sameIgnoringCase_iff, sameIgnoringCase_iff.mp h]

/-- Neither key is less than the other one exactly where they differ in case only. -/
theorem not_less_and_not_less (s t : Text) :
    (!caseInsensitiveLess s t && !caseInsensitiveLess t s) = sameIgnoringCase s t := by
  rw [Bool.eq_iff_iff, sameIgnoringCase_iff, caseInsensitiveLess, caseInsensitiveLess]
  simp only [Bool.and_eq_true, Bool.not_eq_true', decide_eq_false_iff_not]
  constructor
  · rintro ⟨hst, hts⟩
    exact le_antisymm (not_lt.mp hts) (not_lt.mp hst)
  · intro heq
    rw [heq]
    exact ⟨lt_irrefl _, lt_irrefl _⟩

namespace HeaderMap

variable (key : Text)

theorem find_nil : find key [] = none := rfl

theorem find_cons (i : Text × Text) (m : HeaderMap) :
    find key (i :: m) = if sameIgnoringCase i.1 key then some i.2 else find key m := by
  rw [find, List.find?_cons, not_less_and_not_less]
  cases sameIgnoringCase i.1 key with
  | true => rfl
  | false => rfl

theorem find_append (m n : HeaderMap) : find key (m ++ n) = (find key m).or (find key n) := by
  rw [find, List.find?_append, Option.map_or]
  rfl

/-- A lookup after `m[k] = val`. -/
theorem find_set (k val : Text) (m : HeaderMap) :
    find key (set k val m) = if sameIgnoringCase k key then some val else find key m := by
  induction m with
  | nil => exact find_cons key (k, val) []
  | cons i m ih =>
      obtain ⟨k', val'⟩ := i
      rw [set]
      split
      · exact find_cons key (k, val) _
      · next hless =>
          split
          · next hgreater =>
              rw [find_cons, ih, find_cons]
              by_cases hk : sameIgnoringCase k key
              · -- the entry in front has a smaller key, so it is not the one that is looked for
                have hother : sameIgnoringCase k' key = false := by
                  rw [← Bool.not_eq_true, sameIgnoringCase_iff]
                  intro hsame
                  rw [caseInsensitiveLess, hsame, ← sameIgnoringCase_iff.mp hk] at hgreater
                  exact absurd hgreater (by simp)
                simp only [hother, Bool.false_eq_true, if_false]
              · simp only [hk, if_false, Bool.false_eq_true]
          · next hgreater =>
              have hsame : sameIgnoringCase k' k = true := by
                rw [← not_less_and_not_less]
                simp only [hless, hgreater, Bool.not_false, Bool.and_self]
              rw [find_cons, find_cons, sameIgnoringCase_congr hsame]
              split
              · rfl
              · rfl

/-- The map after fields have been set in this order. -/
def setAll (fields : List (Text × Text)) (m : HeaderMap) : HeaderMap :=
  fields.foldl (fun m i => set i.1 i.2 m) m

/-- Of the fields with a key the last one counts. -/
theorem find_setAll (fields : List (Text × Text)) (m : HeaderMap) :
    find key (setAll fields m) = (find key fields.reverse).or (find key m) := by
  induction fields generalizing m with
  | nil => rfl
  | cons i fields ih =>
      have hset : setAll (i :: fields) m = setAll fields (set i.1 i.2 m) := rfl
      rw [hset, ih, find_set, List.reverse_cons, find_append, find_cons, find_nil]
      cases find key fields.reverse with
      | some val => rfl
      | none =>
          rw [Option.none_or, Option.none_or]
          split
          · rfl
          · rfl

/-- The keys come in the order of the map, each once. -/
def Sorted (m : HeaderMap) : Prop := m.Pairwise fun i j => caseInsensitiveLess i.1 j.1

variable {key}

theorem find_eq_none_of_forall {m : HeaderMap} (h : ∀ i ∈ m, sameIgnoringCase i.1 key = false) :
    find key m = none := by
  induction m with
  | nil => rfl
  | cons i m ih =>
      rw [find_cons, h i List.mem_cons_self]
      exact ih fun j hj => h j (List.mem_cons_of_mem _ hj)

/-- In a map the first field with a key is the last one. -/
theorem Sorted.find_reverse {m : HeaderMap} (h : m.Sorted) :
    find key m.reverse = find key m := by
  induction m with
  | nil => rfl
  | cons i m ih =>
      obtain ⟨hfirst, hrest⟩ := List.pairwise_cons.mp h
      rw [List.reverse_cons, find_append, ih hrest, find_cons, find_cons, find_nil]
      by_cases hi : sameIgnoringCase i.1 key
      · have hnone : find key m = none := by
          apply find_eq_none_of_forall
          intro j hj
          rw [← Bool.not_eq_true, sameIgnoringCase_iff]
          intro hsame
          have hless := hfirst j hj
          rw [caseInsensitiveLess, hsame, sameIgnoringCase_iff.mp hi] at hless
          exact absurd hless (by simp)
        rw [hnone, Option.none_or, if_pos hi]
      · rw [if_neg hi, if_neg hi, Option.or_none]

theorem Sorted.filter {m : HeaderMap} (h : m.Sorted) (p : Text × Text → Bool) :
    Sorted (m.filter p) :=
  List.Pairwise.filter p h

/-- A lookup among the entries whose key is not `k`. -/
theorem find_filter_ne (k : Text) (m : HeaderMap) :
    find key (m.filter fun i => !sameIgnoringCase i.1 k) =
      if sameIgnoringCase k key then none else find key m := by
  induction m with
  | nil => simp [find_nil]
  | cons i m ih =>
      rw [List.filter_cons]
      by_cases hi : sameIgnoringCase i.1 k
      · have hkey := sameIgnoringCase_congr hi key
        simp only [hi, Bool.not_true, Bool.false_eq_true, if_false, ih, find_cons, hkey]
        split
        · rfl
        · rfl
      · simp only [hi, Bool.not_false, if_true, find_cons, ih]
        by_cases hkey : sameIgnoringCase i.1 key
        · have hk : sameIgnoringCase k key = false := by
            rw [← Bool.not_eq_true, sameIgnoringCase_iff]
            intro hsame
            rw [sameIgnoringCase_iff, sameIgnoringCase_iff.mp hkey, hsame] at hi
            exact hi rfl
          simp [hkey, hk]
        · simp [hkey]

end HeaderMap

/-- The bytes of a field name that both grammars accept. -/
def nameBytes : ByteSet := ResponseGrammar.token

/-- The bytes of a field value that neither grammar takes for the end of the line. -/
def valueBytes : ByteSet := ByteSet.any.diff (.ofChars "\x00\n\r\x7f")

/-- A field that stands on a line of its own: its value does not start with a blank, which the
parsers skip. -/
structure PlainField (i : Text × Text) : Prop where
  name_ne : i.1 ≠ []
  name_mem : ∀ b ∈ i.1, nameBytes.mem b
  value_mem : ∀ b ∈ i.2, valueBytes.mem b
  value_head : ∀ b ∈ i.2.head?, ByteSet.space.mem b = false

def fieldText (i : Text × Text) : Text := i.1 ++ ascii ": " ++ i.2 ++ crlf

def fieldsText (fields : List (Text × Text)) : Text := fields.flatMap fieldText

theorem fieldsText_cons (i : Text × Text) (fields : List (Text × Text)) :
    fieldsText (i :: fields) = fieldText i ++ fieldsText fields := List.flatMap_cons

theorem fieldsText_append (fields more : List (Text × Text)) :
    fieldsText (fields ++ more) = fieldsText fields ++ fieldsText more := List.flatMap_append

/-- The fields of a map that `dump` writes. -/
def ownFields (headers : HeaderMap) : List (Text × Text) :=
  headers.filter fun i => !sameIgnoringCase i.1 (ascii "connection")

def connectionField (close : Bool) : Text × Text :=
  (ascii "Connection", if close then ascii "close" else ascii "keep-alive")

/-- The field with the length of the body, if there is one. -/
def lengthField (body : Text) : List (Text × Text) :=
  if body = [] then [] else [(ascii "Content-length", Numerals.decimal body.length)]

theorem fieldText_connectionField (close : Bool) :
    fieldText (connectionField close) = connectionText close ++ crlf := by
  cases close <;> decide

theorem fieldsText_ownFields (headers : HeaderMap) :
    fieldsText (ownFields headers) = dumpHeaders headers := by
  induction headers with
  | nil => rfl
  | cons i headers ih =>
      rw [dumpHeaders, List.flatMap_cons, ← dumpHeaders, ← ih, ownFields, List.filter_cons]
      cases sameIgnoringCase i.1 (ascii "connection") with
      | true => rfl
      | false => rfl

theorem fieldsText_lengthField (body : Text) :
    fieldsText (lengthField body) ++ (crlf ++ body) = dumpBody body := by
  rw [lengthField, dumpBody]
  by_cases hbody : body = []
  · rw [if_pos hbody, if_neg (not_not_intro hbody), hbody]
    rfl
  · have htext : ascii "Content-length: " = ascii "Content-length" ++ ascii ": " := by decide
    rw [if_neg hbody, if_pos hbody, fieldsText, List.flatMap_singleton, fieldText, htext]
    simp only [List.append_assoc]

theorem plainField_connectionField (close : Bool) : PlainField (connectionField close) := by
  constructor <;> cases close <;> decide +kernel

/-- The texts of the two versions are read back. -/
theorem versionOf_versionText {v : UInt8} (hv : v = 0x10 ∨ v = 0x11) :
    HttpRequestParser.versionOf (versionText v) = some v := by
  obtain rfl | rfl := hv <;> decide +kernel

theorem plainField_lengthField {body : Text} {i : Text × Text} (hi : i ∈ lengthField body) :
    PlainField i := by
  rw [lengthField] at hi
  split at hi
  · cases hi
  · obtain rfl := List.mem_singleton.mp hi
    have hdigit : ∀ b, (Numerals.digit 10 b).isSome →
        valueBytes.mem b ∧ ByteSet.space.mem b = false := forall_byte (by decide +kernel)
    have hname : ascii "Content-length" ≠ [] ∧
        ∀ b ∈ ascii "Content-length", nameBytes.mem b := by decide +kernel
    refine ⟨hname.1, hname.2, ?_, ?_⟩
    · intro b hb
      exact (hdigit b (Numerals.isSome_digit_of_mem_decimal hb)).1
    · intro b hb
      exact (hdigit b (Numerals.isSome_digit_of_mem_decimal (List.mem_of_mem_head? hb))).2

/-- The names of the fields that `dump` adds and that are looked for differ in more than case. -/
theorem fieldNames :
    (∀ p ∈ [("Connection", "connection"), ("Content-length", "content-length"),
        ("Set-Cookie", "set-cookie")], sameIgnoringCase (ascii p.1) (ascii p.2) = true) ∧
      ∀ p ∈ [("connection", "content-length"), ("connection", "content-encoding"),
        ("set-cookie", "content-length"), ("set-cookie", "content-encoding"),
        ("content-length", "content-encoding"), ("Connection", "Content-length"),
        ("Connection", "Set-Cookie")], sameIgnoringCase (ascii p.1) (ascii p.2) = false := by
  decide +kernel

theorem sameIgnoringCase_connection (key : Text) :
    sameIgnoringCase (ascii "Connection") key = sameIgnoringCase (ascii "connection") key :=
  sameIgnoringCase_congr (fieldNames.1 ("Connection", "connection") (by simp)) key

theorem sameIgnoringCase_contentLength (key : Text) :
    sameIgnoringCase (ascii "Content-length") key =
      sameIgnoringCase (ascii "content-length") key :=
  sameIgnoringCase_congr (fieldNames.1 ("Content-length", "content-length") (by simp)) key

theorem sameIgnoringCase_setCookie (key : Text) :
    sameIgnoringCase (ascii "Set-Cookie") key = sameIgnoringCase (ascii "set-cookie") key :=
  sameIgnoringCase_congr (fieldNames.1 ("Set-Cookie", "set-cookie") (by simp)) key

/-! Only the field with the connection changes whether it is closed. -/

theorem closeAfter_connectionField (close c : Bool) :
    HttpRequestParser.closeAfter (connectionField close).1 (connectionField close).2 c =
      close := by
  cases close <;> cases c <;> decide +kernel

theorem foldl_closeAfter_of_others {fields : List (Text × Text)}
    (h : ∀ i ∈ fields, sameIgnoringCase (ascii "Connection") i.1 = false) (c : Bool) :
    fields.foldl (fun c i => HttpRequestParser.closeAfter i.1 i.2 c) c = c := by
  induction fields generalizing c with
  | nil => rfl
  | cons i fields ih =>
      have hkeep : HttpRequestParser.closeAfter i.1 i.2 c = c := by
        rw [HttpRequestParser.closeAfter, h i List.mem_cons_self]
        rfl
      rw [List.foldl_cons, hkeep]
      exact ih (fun j hj => h j (List.mem_cons_of_mem _ hj)) c

theorem ownFields_others {headers : HeaderMap} {i : Text × Text} (hi : i ∈ ownFields headers) :
    sameIgnoringCase (ascii "Connection") i.1 = false := by
  have hfilter := (List.mem_filter.mp hi).2
  rw [Bool.not_eq_true', sameIgnoringCase_comm, ← sameIgnoringCase_connection] at hfilter
  exact hfilter

theorem lengthField_others {body : Text} {i : Text × Text} (hi : i ∈ lengthField body) :
    sameIgnoringCase (ascii "Connection") i.1 = false := by
  rw [lengthField] at hi
  split at hi
  · cases hi
  · obtain rfl := List.mem_singleton.mp hi
    exact fieldNames.2 ("Connection", "Content-length") (by simp)

/-- A lookup among the fields that `dump` writes. -/
theorem find_ownFields {headers : HeaderMap} (h : headers.Sorted) (key : Text) :
    HeaderMap.find key (ownFields headers).reverse =
      if sameIgnoringCase (ascii "connection") key then none else HeaderMap.find key headers := by
  rw [ownFields, (h.filter _).find_reverse, HeaderMap.find_filter_ne]

theorem find_connectionField (close : Bool) (key : Text) :
    HeaderMap.find key [connectionField close] =
      if sameIgnoringCase (ascii "connection") key then some (connectionField close).2
      else none := by
  rw [HeaderMap.find_cons, HeaderMap.find_nil, connectionField, sameIgnoringCase_connection]

theorem find_lengthField (body key : Text) :
    HeaderMap.find key (lengthField body).reverse =
      if body ≠ [] ∧ sameIgnoringCase (ascii "content-length") key then
        some (Numerals.decimal body.length)
      else none := by
  rw [lengthField]
  by_cases hbody : body = []
  · simp [hbody, HeaderMap.find_nil]
  · simp [hbody, HeaderMap.find_cons, HeaderMap.find_nil, sameIgnoringCase_contentLength]

end Sylar.Http

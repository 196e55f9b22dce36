import Mathlib.Data.List.DropRight
import Sylar.Http.Message
import Sylar.Lib.Cutting
import Sylar.Lib.Decimals
import Sylar.Net.Ipv6Prefix

/-!
# The text of an `IPv6Address`

`insert` leaves out the first run of zero groups. It notices the end of the run when it comes to
the next group that is not zero, and a run at the end of the address after the loop.

The stream has its default format when it is given to `insert`.
-/

namespace Sylar.Net

open Sylar.Lib Sylar.Lib.Numerals
open Sylar.Http (Text ascii)

/-- `byteswapOnLittleEndian`. -/
def byteswapOnLittleEndian {n : Nat} (host : Endian) (value : BitVec (8 * n)) : BitVec (8 * n) :=
  match host with
  | .little => byteswap value
  | .big => value

namespace SockaddrIn6

section Insert

variable (host : Endian) (addr : SockaddrIn6)

/-- `addr[i]` of the `uint16_t*` to the bytes of the address. -/
def rawGroup (i : Fin 8) : BitVec 16 :=
  ofMemory host 2 [addr.byte ⟨2 * i.val, by omega⟩, addr.byte ⟨2 * i.val + 1, by omega⟩]

/-- `os << std::hex << (int)byteswapOnLittleEndian(addr[i])`. -/
def groupText (g : BitVec 16) : Text := hexadecimal (byteswapOnLittleEndian (n := 2) host g).toNat

/-- The loop of `insert` over the groups that are left, with the group before them if there is
one: what it writes, and `used_zeros` at the end. -/
def insertLoop : List (BitVec 16) → Option (BitVec 16) → Bool → Text × Bool
  | [], _, usedZeros => ([], usedZeros)
  | g :: gs, before, usedZeros =>
      if g = 0#16 ∧ !usedZeros then insertLoop gs (some g) usedZeros
      else
        let gap : Bool := before = some 0#16 && !usedZeros
        let (text, used) := insertLoop gs (some g) (usedZeros || gap)
        ((if gap then ascii ":" else []) ++ (if before.isSome then ascii ":" else []) ++
          groupText host g ++ text, used)

/-- What is written between the brackets. -/
def insertGroups (gs : List (BitVec 16)) : Text :=
  let (text, usedZeros) := insertLoop host gs none false
  if !usedZeros ∧ gs.getLast? = some 0#16 then text ++ ascii "::" else text

def insert : Text :=
  ascii "[" ++ insertGroups host ((List.finRange 8).map (rawGroup host addr)) ++
    ascii "]: " ++ decimal (byteswapOnLittleEndian host addr.sin6Port).toNat

/-- The eight groups of the address. -/
def groups : List (BitVec 16) :=
  (List.finRange 8).map fun i =>
    (addr.byte ⟨2 * i.val, by omega⟩).toBitVec ++ (addr.byte ⟨2 * i.val + 1, by omega⟩).toBitVec

end Insert

end SockaddrIn6

section AddressText

/-- One to four hexadecimal digits that stand for the group. -/
structure IsGroup (word : Text) (g : BitVec 16) : Prop where
  numeral : IsNumeral 16 word
  short : word.length ≤ 4
  stands : Numerals.numeral 16 0 word = g.toNat

/-- Words with a colon between them. -/
def joined (words : List Text) : Text := [58].intercalate words

/-- The text is an address and stands for the groups: eight groups, or fewer with one `::` for
the zero groups that are missing. -/
def IsAddress (text : Text) (gs : List (BitVec 16)) : Prop :=
  (∃ words, text = joined words ∧ words.length = 8 ∧ List.Forall₂ IsGroup words gs) ∨
    ∃ front back fs bs, text = joined front ++ ascii "::" ++ joined back ∧
      front.length + back.length < 8 ∧ List.Forall₂ IsGroup front fs ∧
      List.Forall₂ IsGroup back bs ∧
      gs = fs ++ List.replicate (8 - (front.length + back.length)) 0#16 ++ bs

/-- The places at which two colons follow one another. -/
def doubleColons : Text → Nat
  | a :: b :: text => (if a = 58 ∧ b = 58 then 1 else 0) + doubleColons (b :: text)
  | _ => 0

end AddressText

theorem joined_cons (word : Text) (words : List Text) :
    joined (word :: words) = word ++ words.flatMap (58 :: ·) := by
  induction words generalizing word with
  | nil => simp [joined]
  | cons next words ih =>
      calc
        joined (word :: next :: words) = word ++ [58] ++ joined (next :: words) :=
          List.intercalate_cons_cons
        _ = word ++ (next :: words).flatMap (58 :: ·) := by
          rw [ih, List.flatMap_cons, List.append_assoc]
          rfl

namespace SockaddrIn6

section Loop

variable {host : Endian}

/-- What is written for groups behind another one. -/
theorem insertLoop_used (gs : List (BitVec 16)) (p : BitVec 16) :
    insertLoop host gs (some p) true =
      ((gs.map (groupText host)).flatMap (58 :: ·), true) := by
  induction gs generalizing p with
  | nil => rfl
  | cons g gs ih => simp [insertLoop, ih, ascii]

/-- The groups of the run are left out, whatever stands before them. -/
theorem insertLoop_zeros (k : Nat) (gs : List (BitVec 16))
    (before : Option (BitVec 16)) :
    insertLoop host (List.replicate (k + 1) 0#16 ++ gs) before false =
      insertLoop host gs (some 0#16) false := by
  induction k generalizing before with
  | zero => simp [insertLoop]
  | succ k ih =>
      rw [List.replicate_succ, List.cons_append, insertLoop, if_pos (by simp), ih]

/-- The next group closes the run. -/
theorem insertLoop_gap {g : BitVec 16} (hg : g ≠ 0#16) (gs : List (BitVec 16)) :
    insertLoop host (g :: gs) (some 0#16) false =
      (ascii "::" ++ joined ((g :: gs).map (groupText host)), true) := by
  rw [insertLoop, if_neg (by simp [hg])]
  simp [insertLoop_used, joined_cons, ascii]

/-- Groups in front of the run are written with colons between them. -/
theorem insertLoop_behind {front rest : List (BitVec 16)} {out : Text × Bool}
    (hfront : 0#16 ∉ front) (hrest : ∀ before, insertLoop host rest before false = out)
    {p : BitVec 16} (hp : p ≠ 0#16) :
    insertLoop host (front ++ rest) (some p) false =
      ((front.map (groupText host)).flatMap (58 :: ·) ++ out.1, out.2) := by
  induction front generalizing p with
  | nil => exact hrest (some p)
  | cons g front ih =>
      rw [List.mem_cons, not_or] at hfront
      have hg : g ≠ 0#16 := Ne.symm hfront.1
      rw [List.cons_append, insertLoop, if_neg (by simp [hg])]
      simp [ih hfront.2 hg, hp, ascii]

theorem insertLoop_front {front rest : List (BitVec 16)} {out : Text × Bool}
    (hfront : 0#16 ∉ front) (hrest : ∀ before, insertLoop host rest before false = out) :
    insertLoop host (front ++ rest) none false =
      (joined (front.map (groupText host)) ++ out.1, out.2) := by
  cases front with
  | nil => exact hrest none
  | cons g front =>
      rw [List.mem_cons, not_or] at hfront
      have hg : g ≠ 0#16 := Ne.symm hfront.1
      rw [List.cons_append, insertLoop, if_neg (by simp [hg])]
      simp [insertLoop_behind hfront.2 hrest hg, joined_cons]

/-- Without a zero group all groups are written. -/
theorem insertGroups_full {gs : List (BitVec 16)} (h : 0#16 ∉ gs) :
    insertGroups host gs = joined (gs.map (groupText host)) := by
  have hend : ∀ before, insertLoop host [] before false = ([], false) := fun _ => rfl
  have hloop := insertLoop_front h hend
  have hlast : gs.getLast? ≠ some 0#16 := by
    intro hlast
    exact h (List.mem_of_getLast? hlast)
  rw [List.append_nil] at hloop
  rw [insertGroups, hloop]
  simp [hlast]

/-- The first run of zero groups is written as `::`. -/
theorem insertGroups_run {front rest : List (BitVec 16)} (k : Nat) (hfront : 0#16 ∉ front)
    (hrest : rest.head? ≠ some 0#16) :
    insertGroups host (front ++ List.replicate (k + 1) 0#16 ++ rest) =
      joined (front.map (groupText host)) ++ ascii "::" ++
        joined (rest.map (groupText host)) := by
  rw [List.append_assoc, insertGroups,
    insertLoop_front hfront fun before => insertLoop_zeros k rest before]
  cases rest with
  | nil =>
      simp [insertLoop, joined, List.getLast?_replicate]
  | cons g gs =>
      have hg : g ≠ 0#16 := by simpa using hrest
      rw [insertLoop_gap hg]
      simp

end Loop

end SockaddrIn6

section Reading

variable {text : Text} {words front back : List Text} {gs : List (BitVec 16)}

theorem IsGroup.ne_nil {word : Text} {g : BitVec 16} (h : IsGroup word g) : word ≠ [] :=
  h.numeral.1

/-- Words for groups have nothing but digits. -/
theorem not_mem_of_forall₂ {c : UInt8} (hc : digit 16 c = none)
    (h : List.Forall₂ IsGroup words gs) : ∀ word ∈ words, c ∉ word := by
  induction h with
  | nil => exact fun word hword => absurd hword List.not_mem_nil
  | cons hgroup _ ih =>
      refine List.forall_mem_cons.mpr ⟨?_, ih⟩
      intro hmem
      have hdigit := hgroup.numeral.2 c hmem
      rw [hc] at hdigit
      cases hdigit

theorem no_colon_of_forall₂ (h : List.Forall₂ IsGroup words gs) : ∀ word ∈ words, 58 ∉ word :=
  not_mem_of_forall₂ (by decide) h

theorem ne_nil_of_forall₂ (h : List.Forall₂ IsGroup words gs) : ∀ word ∈ words, word ≠ [] := by
  induction h with
  | nil => exact fun word hword => absurd hword List.not_mem_nil
  | cons hgroup _ ih => exact List.forall_mem_cons.mpr ⟨hgroup.ne_nil, ih⟩

/-- The groups that words stand for. -/
def values (words : List Text) : List (BitVec 16) :=
  words.map fun word => BitVec.ofNat 16 (Numerals.numeral 16 0 word)

theorem eq_values (h : List.Forall₂ IsGroup words gs) : gs = values words := by
  induction h with
  | nil => rfl
  | @cons word g words gs hgroup _ ih =>
      have hg : BitVec.ofNat 16 (Numerals.numeral 16 0 word) = g := by
        rw [hgroup.stands, BitVec.ofNat_toNat, BitVec.setWidth_eq]
      rw [values, List.map_cons, hg, ih]
      rfl

/-- The groups that an address stands for, from the words between its colons. -/
def expand (text : Text) : List (BitVec 16) :=
  let words := text.splitOn 58
  let front := words.takeWhile (· ≠ [])
  let back := words.rtakeWhile (· ≠ [])
  if words.contains [] then
    values front ++ List.replicate (8 - (front.length + back.length)) 0#16 ++ values back
  else values words

theorem takeWhile_words (h : ∀ word ∈ words, word ≠ []) (rest : List Text) :
    ((if words = [] then [[]] else words) ++ [] :: rest).takeWhile (· ≠ []) = words := by
  cases words with
  | nil => simp
  | cons word words =>
      rw [if_neg (List.cons_ne_nil _ _), List.takeWhile_append_of_pos (by simpa using h),
        List.takeWhile_cons_of_neg (by simp), List.append_nil]

theorem rtakeWhile_words (h : ∀ word ∈ words, word ≠ []) (rest : List Text) :
    (rest ++ [] :: (if words = [] then [[]] else words)).rtakeWhile (· ≠ []) = words := by
  have hrev : (rest ++ [] :: (if words = [] then [[]] else words)).reverse =
      (if words.reverse = [] then [[]] else words.reverse) ++ [] :: rest.reverse := by
    by_cases hnil : words = []
    · simp [hnil]
    · simp [hnil]
  rw [List.rtakeWhile, hrev, takeWhile_words (by simpa using h), List.reverse_reverse]

/-- The words around a `::`. -/
theorem splitOn_compressed (hfront : ∀ word ∈ front, 58 ∉ word) (hback : ∀ word ∈ back, 58 ∉ word) :
    (joined front ++ ascii "::" ++ joined back).splitOn 58 =
      (if front = [] then [[]] else front) ++ [] :: (if back = [] then [[]] else back) := by
  have htext : joined front ++ ascii "::" ++ joined back =
      joined front ++ 58 :: ([] ++ 58 :: joined back) := by
    rw [List.append_assoc]
    rfl
  rw [htext, List.splitOn_append_cons_self, List.splitOn_append_cons_self, joined, joined,
    splitOn_join hfront, splitOn_join hback, List.splitOn_nil]
  rfl

/-- A text is an address for at most one list of groups. -/
theorem IsAddress.eq_expand (h : IsAddress text gs) : gs = expand text := by
  rcases h with ⟨words, rfl, hlen, hgroups⟩ | ⟨front, back, fs, bs, rfl, -, hfront, hback, rfl⟩
  · have hne : words ≠ [] := by
      rintro rfl
      cases hlen
    have hwords : (joined words).splitOn 58 = words := by
      rw [joined, splitOn_join (no_colon_of_forall₂ hgroups), if_neg hne]
    have hnil : [] ∉ words := fun hmem => ne_nil_of_forall₂ hgroups [] hmem rfl
    rw [← List.contains_iff_mem] at hnil
    simp only [expand, hwords, if_neg hnil]
    exact eq_values hgroups
  · have hwords := splitOn_compressed (no_colon_of_forall₂ hfront) (no_colon_of_forall₂ hback)
    simp only [expand, hwords, takeWhile_words (ne_nil_of_forall₂ hfront),
      rtakeWhile_words (ne_nil_of_forall₂ hback)]
    rw [if_pos (by simp), eq_values hfront, eq_values hback]

/-- The words around a `::` are words for groups or empty. -/
theorem eq_nil_or_mem {segment : Text} (h : segment ∈ if words = [] then [[]] else words) :
    segment = [] ∨ segment ∈ words := by
  split at h
  · exact .inl (List.mem_singleton.mp h)
  · exact .inr h

/-- An address has no bracket. -/
theorem IsAddress.no_bracket (h : IsAddress text gs) : 93 ∉ text := by
  intro hmem
  obtain ⟨segment, hsegment, hin⟩ := (exists_mem_splitOn_iff (c := 58) (by decide)).mpr hmem
  have hne : segment ≠ [] := List.ne_nil_of_mem hin
  rcases h with ⟨words, rfl, -, hgroups⟩ | ⟨front, back, fs, bs, rfl, -, hfront, hback, -⟩
  · rw [joined, splitOn_join (no_colon_of_forall₂ hgroups)] at hsegment
    have hword := (eq_nil_or_mem hsegment).resolve_left hne
    exact not_mem_of_forall₂ (by decide) hgroups segment hword hin
  · rw [splitOn_compressed (no_colon_of_forall₂ hfront) (no_colon_of_forall₂ hback),
      List.mem_append, List.mem_cons] at hsegment
    rcases hsegment with hword | hnil | hword
    · exact not_mem_of_forall₂ (by decide) hfront segment
        ((eq_nil_or_mem hword).resolve_left hne) hin
    · exact hne hnil
    · exact not_mem_of_forall₂ (by decide) hback segment
        ((eq_nil_or_mem hword).resolve_left hne) hin

theorem doubleColons_cons {c : UInt8} (h : c ≠ 58 ∨ text.head? ≠ some 58) :
    doubleColons (c :: text) = doubleColons text := by
  cases text with
  | nil => rfl
  | cons b text =>
      have hnot : ¬ (c = 58 ∧ b = 58) := by
        rintro ⟨rfl, rfl⟩
        simp at h
      rw [doubleColons, if_neg hnot, Nat.zero_add]

theorem doubleColons_word {word : Text} (h : 58 ∉ word) (text : Text) :
    doubleColons (word ++ text) = doubleColons text := by
  induction word with
  | nil => rfl
  | cons c word ih =>
      rw [List.mem_cons, not_or] at h
      rw [List.cons_append, doubleColons_cons (.inl (Ne.symm h.1)), ih h.2]

/-- Words bring no two colons that follow one another. -/
theorem doubleColons_words (hno : ∀ word ∈ words, 58 ∉ word) (hne : ∀ word ∈ words, word ≠ [])
    (text : Text) :
    doubleColons (words.flatMap (58 :: ·) ++ text) = doubleColons text := by
  induction words with
  | nil => rfl
  | cons word words ih =>
      rw [List.forall_mem_cons] at hno hne
      have hhead : (word ++ (words.flatMap (58 :: ·) ++ text)).head? ≠ some 58 := by
        cases word with
        | nil => exact absurd rfl hne.1
        | cons c word =>
            have hc : c ≠ 58 := fun hc => hno.1 (by simp [hc])
            simpa using hc
      rw [List.flatMap_cons, List.append_assoc, List.cons_append, doubleColons_cons (.inr hhead),
        doubleColons_word hno.1, ih hno.2 hne.2]

theorem doubleColons_joined (hno : ∀ word ∈ words, 58 ∉ word) (hne : ∀ word ∈ words, word ≠ [])
    (text : Text) : doubleColons (joined words ++ text) = doubleColons text := by
  cases words with
  | nil => rfl
  | cons word words =>
      rw [List.forall_mem_cons] at hno hne
      rw [joined_cons, List.append_assoc, doubleColons_word hno.1,
        doubleColons_words hno.2 hne.2]

theorem head?_joined (hno : ∀ word ∈ words, 58 ∉ word) (hne : ∀ word ∈ words, word ≠ []) :
    (joined words).head? ≠ some 58 := by
  cases words with
  | nil => simp [joined]
  | cons word words =>
      rw [List.forall_mem_cons] at hno hne
      cases word with
      | nil => exact absurd rfl hne.1
      | cons c word =>
          have hc : c ≠ 58 := fun hc => hno.1 (by simp [hc])
          rw [joined_cons]
          simpa using hc

theorem IsAddress.doubleColons_le (h : IsAddress text gs) : doubleColons text ≤ 1 := by
  rcases h with ⟨words, rfl, -, hgroups⟩ | ⟨front, back, fs, bs, rfl, -, hfront, hback, -⟩
  · have hnone := doubleColons_joined (no_colon_of_forall₂ hgroups) (ne_nil_of_forall₂ hgroups) []
    rw [List.append_nil] at hnone
    exact hnone.le.trans (Nat.zero_le 1)
  · have hend := doubleColons_joined (no_colon_of_forall₂ hback) (ne_nil_of_forall₂ hback) []
    have hhead := head?_joined (no_colon_of_forall₂ hback) (ne_nil_of_forall₂ hback)
    rw [List.append_nil] at hend
    rw [List.append_assoc,
      doubleColons_joined (no_colon_of_forall₂ hfront) (ne_nil_of_forall₂ hfront)]
    change 1 + doubleColons (58 :: joined back) ≤ 1
    rw [doubleColons_cons (.inr hhead), hend]
    rfl

end Reading

namespace SockaddrIn6

section Faithful

variable (host : Endian) (addr : SockaddrIn6)

theorem toNat_append_bytes (a b : UInt8) :
    (a.toBitVec ++ b.toBitVec).toNat = 256 * a.toNat + b.toNat := by
  have hb : b.toBitVec.toNat < 2 ^ 8 := b.toBitVec.isLt
  rw [BitVec.toNat_append, ← Nat.shiftLeft_add_eq_or_of_lt hb, Nat.shiftLeft_eq, Nat.mul_comm]
  rfl

/-- In either byte order the number that is written has the first byte on top. -/
theorem byteswap_ofMemory (a b : UInt8) :
    byteswapOnLittleEndian (n := 2) host (ofMemory host 2 [a, b]) =
      a.toBitVec ++ b.toBitVec := by
  have hword : byteswapOnLittleEndian (n := 2) host (ofMemory host 2 [a, b]) =
      Words.word 2 [b, a] := by
    cases host with
    | little =>
        have hbytes : Words.bytes (Words.word 2 [a, b]) = [a, b] := Words.bytes_word rfl
        change Words.word 2 (Words.bytes (Words.word 2 [a, b])).reverse = _
        rw [hbytes]
        rfl
    | big => rfl
  have ha : a.toNat < 256 := a.toNat_lt
  have hb : b.toNat < 256 := b.toNat_lt
  rw [hword]
  apply BitVec.eq_of_toNat_eq
  rw [toNat_append_bytes, Words.word, BitVec.toNat_ofNat]
  simp only [Words.ofBytes]
  omega

theorem groups_eq_map :
    groups addr = ((List.finRange 8).map (rawGroup host addr)).map
      (byteswapOnLittleEndian (n := 2) host) := by
  rw [groups, List.map_map]
  exact List.map_congr_left fun i _ => (byteswap_ofMemory host _ _).symm

theorem isGroup_groupText (g : BitVec 16) :
    IsGroup (groupText host g) (byteswapOnLittleEndian (n := 2) host g) := by
  constructor
  · exact isNumeral_hexadecimal _
  · exact length_hexadecimal_le (BitVec.isLt _)
  · exact numeral_hexadecimal _

theorem forall₂_groupText (gs : List (BitVec 16)) :
    List.Forall₂ IsGroup (gs.map (groupText host))
      (gs.map (byteswapOnLittleEndian (n := 2) host)) := by
  induction gs with
  | nil => exact .nil
  | cons g gs ih => exact .cons (isGroup_groupText host g) ih

/-- Eight groups are written as an address that stands for them. -/
theorem isAddress_insertGroups {gs : List (BitVec 16)} (h : gs.length = 8) :
    IsAddress (insertGroups host gs) (gs.map (byteswapOnLittleEndian (n := 2) host)) := by
  by_cases hzero : 0#16 ∈ gs
  · obtain ⟨front, k, rest, rfl, hfront, hrest⟩ := exists_first_run hzero
    rw [insertGroups_run k hfront hrest]
    rw [List.length_append, List.length_append, List.length_replicate] at h
    refine .inr ⟨_, _, _, _, rfl, ?_, forall₂_groupText host front, forall₂_groupText host rest, ?_⟩
    · rw [List.length_map, List.length_map]
      omega
    · have hswap : byteswapOnLittleEndian (n := 2) host 0#16 = 0#16 := by
        cases host <;> rfl
      have hcount : 8 - (front.length + rest.length) = k + 1 := by omega
      rw [List.length_map, List.length_map, hcount, List.map_append, List.map_append,
        List.map_replicate, hswap]
  · rw [insertGroups_full hzero]
    refine .inl ⟨_, rfl, ?_, forall₂_groupText host gs⟩
    rw [List.length_map, h]

/-- The text between the brackets: what stands there, and that it tells the address. -/
structure FaithfulText (text : Text) : Prop where
  written : insert host addr = ascii "[" ++ text ++
    (ascii "]: " ++ decimal (byteswapOnLittleEndian host addr.sin6Port).toNat)
  bracket : 93 ∉ text
  once : doubleColons text ≤ 1
  address : ∀ gs, IsAddress text gs ↔ gs = groups addr

theorem faithfulText_insertGroups :
    FaithfulText host addr (insertGroups host ((List.finRange 8).map (rawGroup host addr))) := by
  have hlen : ((List.finRange 8).map (rawGroup host addr)).length = 8 := by
    rw [List.length_map, List.length_finRange]
  have haddress := isAddress_insertGroups host hlen
  rw [← groups_eq_map] at haddress
  constructor
  · exact List.append_assoc ..
  · exact haddress.no_bracket
  · exact haddress.doubleColons_le
  · intro gs
    constructor
    · intro h
      rw [h.eq_expand, haddress.eq_expand]
    · rintro rfl
      exact haddress

/-- The bytes of an address from its groups. -/
theorem u6Addr8_eq_of_groups {addr addr' : SockaddrIn6} (h : groups addr = groups addr') :
    addr.u6Addr8 = addr'.u6Addr8 := by
  have hgroup : ∀ i : Fin 8,
      addr.byte ⟨2 * i.val, by omega⟩ = addr'.byte ⟨2 * i.val, by omega⟩ ∧
        addr.byte ⟨2 * i.val + 1, by omega⟩ = addr'.byte ⟨2 * i.val + 1, by omega⟩ := by
    intro i
    have heq := congrArg BitVec.toNat (List.map_inj_left.mp h i (List.mem_finRange i))
    rw [toNat_append_bytes, toNat_append_bytes] at heq
    have hlow := (addr.byte ⟨2 * i.val + 1, by omega⟩).toNat_lt
    have hlow' := (addr'.byte ⟨2 * i.val + 1, by omega⟩).toNat_lt
    constructor
    · apply UInt8.toNat_inj.mp
      omega
    · apply UInt8.toNat_inj.mp
      omega
  apply Vector.ext
  intro j hj
  change addr.byte ⟨j, hj⟩ = addr'.byte ⟨j, hj⟩
  rcases Nat.even_or_odd' j with ⟨i, rfl | rfl⟩
  · exact (hgroup ⟨i, by omega⟩).1
  · exact (hgroup ⟨i, by omega⟩).2

end Faithful

/-- Every address is written as a text that stands for it and for no other address. -/
theorem ipv6_text_faithful (host : Endian) :
    (∀ addr, ∃ text, FaithfulText host addr text) ∧
      ∀ addr addr' text, FaithfulText host addr text → FaithfulText host addr' text →
        addr.u6Addr8 = addr'.u6Addr8 := by
  constructor
  · exact fun addr => ⟨_, faithfulText_insertGroups host addr⟩
  · intro addr addr' text h h'
    apply u6Addr8_eq_of_groups
    exact (h'.address _).mp ((h.address _).mpr rfl)

/-- Only the first of two runs of zero groups is left out. -/
example :
    insert .little
      ⟨afInet6, 0x5000, 0, #v[0x20, 1, 0xd, 0xb8, 0, 0, 0, 0, 0, 1, 0, 0, 0, 0, 0, 0], 0⟩ =
        ascii "[2001:db8::1:0:0:0]: 80" := by
  decide +kernel

end SockaddrIn6

end Sylar.Net

import Sylar.Http.Message
import Sylar.Lib.Cutting
import Sylar.Lib.Decimals

/-!
# `Address::Lookup`

The host is cut into a node and a service, which `getaddrinfo` is asked for. The service is a
pointer into the host, here an offset, and `getaddrinfo` reads both as C strings, up to a NUL.

If the host has two colons and more, the pointer is left at the first of them and no node is
cut off, so the end of the host is passed as a service.
-/

namespace Sylar.Net

open Sylar.Lib Sylar.Lib.Numerals
open Sylar.Http (Text ascii)

/-- What a function that is given the pointer reads. -/
def cString (t : Text) : Text := t.takeWhile (· ≠ 0)

/-- `memchr` from an offset to the end of the host. -/
def memchr (c : UInt8) (start : Nat) (host : Text) : Option Nat :=
  ((host.drop start).findIdx? (· = c)).map (start + ·)

/-- The part for `[address]:service`: the node, empty if there is none, and the service. -/
def splitBracket (host : Text) : Text × Option Nat :=
  if host.head? = some 91 then
    match memchr 93 1 host with
    | none => ([], none)
    | some endipv6 =>
        ((host.drop 1).take (endipv6 - 1),
          if host[endipv6 + 1]? = some 58 then some (endipv6 + 2) else none)
  else ([], none)

/-- The part for `node:service`. -/
def splitColon (host : Text) : Text × Option Nat :=
  match memchr 58 0 host with
  | none => ([], none)
  | some service =>
      match memchr 58 (service + 1) host with
      | none => (host.take service, some (service + 1))
      | some _ => ([], some service)

/-- The node and the service at the call of `getaddrinfo`. -/
def splitHost (host : Text) : Text × Option Nat :=
  let (node, service) := splitBracket host
  let (node, service) := if node = [] then splitColon host else (node, service)
  (if node = [] then host else node, service)

/-- The arguments of `getaddrinfo`. -/
structure Query where
  node : Text
  service : Option Text
  family : Int
  type : Int
  protocol : Int
  deriving DecidableEq, Repr

def query (host : Text) (family type protocol : Int) : Query :=
  let (node, service) := splitHost host
  ⟨cString node, service.map fun offset => cString (host.drop offset), family, type, protocol⟩

/-- `Address::Lookup` with the addresses that are already in `result`: whether it returns true,
`result` afterwards, and the error that is logged. -/
def lookup {σ α : Type} (getaddrinfo : Query → Except Int (List σ)) (gaiStrerror : Int → Text)
    (create : σ → α) (result : List α) (host : Text) (family type protocol : Int) :
    Bool × List α × Option Text :=
  match getaddrinfo (query host family type protocol) with
  | .error error =>
      (false, result, some (ascii "Address::Lookup getaddress(" ++ host ++ ascii ", " ++
        decimalInt family ++ ascii ", " ++ decimalInt type ++ ascii ") error = " ++
        decimalInt error ++ ascii ", gai_strerror = " ++ gaiStrerror error))
  | .ok results => (true, result ++ results.map create, none)

/-- The ways in which a host is written. -/
inductive HostForm where
  | name (n : Text)
  | nameService (n s : Text)
  | bracketed (v : Text)
  | bracketedService (v s : Text)
  | bare (v : Text)

namespace HostForm

/-- A name that is not empty and has no colon and no bracket. -/
def IsName (n : Text) : Prop := n ≠ [] ∧ 58 ∉ n ∧ 91 ∉ n

def IsService (s : Text) : Prop := s ≠ [] ∧ 58 ∉ s

/-- A literal with at least two colons. -/
def IsLiteral (v : Text) : Prop := 2 ≤ v.count 58 ∧ 93 ∉ v

def Valid : HostForm → Prop
  | name n => IsName n
  | nameService n s => IsName n ∧ IsService s
  | bracketed v => IsLiteral v
  | bracketedService v s => IsLiteral v ∧ IsService s
  | bare v => IsLiteral v

def text : HostForm → Text
  | name n => n
  | nameService n s => n ++ 58 :: s
  | bracketed v => 91 :: (v ++ [93])
  | bracketedService v s => 91 :: (v ++ 93 :: 58 :: s)
  | bare v => v

/-- The node and the service that are meant. -/
def meant : HostForm → Text × Option Text
  | name n => (n, none)
  | nameService n s => (n, some s)
  | bracketed v => (v, none)
  | bracketedService v s => (v, some s)
  | bare v => (v, none)

def IsBare : HostForm → Prop
  | bare _ => True
  | _ => False

/-- The lookup asks for what is meant. -/
def Asks (form : HostForm) : Prop :=
  ∀ family type protocol, query form.text family type protocol =
    ⟨form.meant.1, form.meant.2, family, type, protocol⟩

end HostForm

section Split

variable {host front back : Text} {c : UInt8} {start : Nat}

theorem memchr_eq_none (h : c ∉ host.drop start) : memchr c start host = none := by
  rw [memchr, List.findIdx?_eq_none_iff.mpr, Option.map_none]
  intro x hx
  exact decide_eq_false fun heq => h (heq ▸ hx)

theorem memchr_eq_some (h : c ∉ front) (hdrop : host.drop start = front ++ c :: back) :
    memchr c start host = some (start + front.length) := by
  rw [memchr, hdrop, findIdx?_append_cons, Option.map_some]
  · intro x hx
    exact decide_eq_false fun heq => h (heq ▸ hx)
  · exact decide_eq_true rfl

theorem drop_behind (front back : Text) (c : UInt8) :
    (front ++ c :: back).drop (front.length + 1) = back := by
  rw [List.append_cons]
  exact List.drop_left' (by simp)

theorem splitColon_of_not_mem (h : 58 ∉ host) : splitColon host = ([], none) := by
  rw [splitColon, memchr_eq_none (by simpa using h)]

/-- One colon separates the node and the service. -/
theorem splitColon_of_one (hfront : 58 ∉ front) (hback : 58 ∉ back) :
    splitColon (front ++ 58 :: back) = (front, some (front.length + 1)) := by
  have hsecond : memchr 58 (front.length + 1) (front ++ 58 :: back) = none := by
    apply memchr_eq_none
    rwa [drop_behind]
  rw [splitColon, memchr_eq_some hfront rfl, Nat.zero_add]
  simp only [hsecond]
  rw [List.take_left]

/-- Of two colons the first stays the service. -/
theorem splitColon_of_two (hfront : 58 ∉ front) (hback : 58 ∈ back) :
    splitColon (front ++ 58 :: back) = ([], some front.length) := by
  obtain ⟨middle, last, rfl, hmiddle⟩ := List.eq_append_cons_of_mem hback
  have hsecond : memchr 58 (front.length + 1) (front ++ 58 :: (middle ++ 58 :: last)) =
      some (front.length + 1 + middle.length) :=
    memchr_eq_some hmiddle (drop_behind front _ 58)
  rw [splitColon, memchr_eq_some hfront rfl, Nat.zero_add]
  simp only [hsecond]

theorem splitBracket_of_head (h : host.head? ≠ some 91) : splitBracket host = ([], none) := by
  rw [splitBracket, if_neg h]

theorem splitBracket_of_open (h : 93 ∉ host) : splitBracket host = ([], none) := by
  rw [splitBracket]
  split
  · rw [memchr_eq_none fun hmem => h (List.mem_of_mem_drop hmem)]
  · rfl

/-- What stands in the brackets is the node, and a colon behind them is in front of a service. -/
theorem splitBracket_of_closed (hfront : 93 ∉ front) (back : Text) :
    splitBracket (91 :: (front ++ 93 :: back)) =
      (front, if back.head? = some 58 then some (front.length + 3) else none) := by
  have hend : memchr 93 1 (91 :: (front ++ 93 :: back)) = some (1 + front.length) :=
    memchr_eq_some hfront rfl
  have hnext : (91 :: (front ++ 93 :: back))[1 + front.length + 1]? = back.head? := by
    rw [← List.head?_drop, Nat.add_comm 1, List.drop_succ_cons, drop_behind]
  have hnode : ((91 :: (front ++ 93 :: back)).drop 1).take (1 + front.length - 1) = front := by
    rw [Nat.add_sub_cancel_left]
    exact List.take_left
  have hoffset : 1 + front.length + 2 = front.length + 3 := by omega
  rw [splitBracket, if_pos List.head?_cons, hend]
  simp only [hnext, hnode, hoffset]

theorem cString_eq_self_iff : cString host = host ↔ 0 ∉ host := by
  rw [cString, List.takeWhile_eq_self_iff]
  simp only [ne_eq, decide_not, Bool.not_eq_true', decide_eq_false_iff_not]
  constructor
  · intro h hmem
    exact h 0 hmem rfl
  · rintro h x hx rfl
    exact h hx

end Split

namespace HostForm

variable {n s v : Text}

theorem asks_iff_of_split (form : HostForm) {node : Text} {service : Option Nat}
    (h : splitHost form.text = (node, service)) :
    form.Asks ↔ cString node = form.meant.1 ∧
      (service.map fun offset => cString (form.text.drop offset)) = form.meant.2 := by
  simp [Asks, query, h]

theorem IsName.head_ne (h : IsName n) (back : Text) : (n ++ back).head? ≠ some 91 := by
  cases n with
  | nil => exact absurd rfl h.1
  | cons c n =>
      intro hhead
      have hc : c = 91 := by simpa using hhead
      exact h.2.2 (hc ▸ List.mem_cons_self)

theorem splitHost_name (h : IsName n) : splitHost n = (n, none) := by
  have hbracket : splitBracket n = ([], none) := by
    apply splitBracket_of_head
    simpa using h.head_ne []
  simp [splitHost, hbracket, splitColon_of_not_mem h.2.1]

theorem splitHost_nameService (hn : IsName n) (hs : IsService s) :
    splitHost (n ++ 58 :: s) = (n, some (n.length + 1)) := by
  simp [splitHost, splitBracket_of_head (hn.head_ne _), splitColon_of_one hn.2.1 hs.2, hn.1]

theorem IsLiteral.ne_nil (h : IsLiteral v) : v ≠ [] := by
  rintro rfl
  exact absurd h.1 (by decide)

theorem splitHost_bracketed (h : IsLiteral v) : splitHost (91 :: (v ++ [93])) = (v, none) := by
  simp [splitHost, splitBracket_of_closed h.2, h.ne_nil]

theorem splitHost_bracketedService (h : IsLiteral v) (s : Text) :
    splitHost (91 :: (v ++ 93 :: 58 :: s)) = (v, some (v.length + 3)) := by
  simp [splitHost, splitBracket_of_closed h.2, h.ne_nil]

/-- The service of a bare literal is the end of it, from the first colon on. -/
theorem splitHost_bare (h : IsLiteral v) : ∃ offset, splitHost v = (v, some offset) := by
  have hmem : 58 ∈ v := List.count_pos_iff.mp (Nat.lt_of_lt_of_le Nat.one_pos
    (Nat.le_of_succ_le h.1))
  obtain ⟨front, back, rfl, hfront⟩ := List.eq_append_cons_of_mem hmem
  have hsecond : 58 ∈ back := by
    have hcount := h.1
    rw [List.count_append, List.count_cons_self, List.count_eq_zero_of_not_mem hfront] at hcount
    exact List.count_pos_iff.mp (by omega)
  refine ⟨front.length, ?_⟩
  simp [splitHost, splitBracket_of_open h.2, splitColon_of_two hfront hsecond]

end HostForm

/-- The lookup asks for what is meant if and only if the host is no bare literal and has no NUL. -/
theorem lookup_asks_iff (form : HostForm) (h : form.Valid) :
    form.Asks ↔ ¬ form.IsBare ∧ 0 ∉ form.text := by
  cases form with
  | name n =>
      rw [HostForm.asks_iff_of_split (.name n) (HostForm.splitHost_name h)]
      simp [HostForm.meant, HostForm.text, HostForm.IsBare, cString_eq_self_iff]
  | nameService n s =>
      rw [HostForm.asks_iff_of_split (.nameService n s) (HostForm.splitHost_nameService h.1 h.2)]
      simp [HostForm.meant, HostForm.text, HostForm.IsBare, cString_eq_self_iff]
  | bracketed v =>
      rw [HostForm.asks_iff_of_split (.bracketed v) (HostForm.splitHost_bracketed h)]
      simp [HostForm.meant, HostForm.text, HostForm.IsBare, cString_eq_self_iff]
  | bracketedService v s =>
      rw [HostForm.asks_iff_of_split (.bracketedService v s)
        (HostForm.splitHost_bracketedService h.1 s)]
      simp [HostForm.meant, HostForm.text, HostForm.IsBare, cString_eq_self_iff]
  | bare v =>
      obtain ⟨offset, hsplit⟩ := HostForm.splitHost_bare h
      rw [HostForm.asks_iff_of_split (.bare v) hsplit]
      simp [HostForm.meant, HostForm.IsBare]

theorem lookup_asks_iff_bracketed :
    (HostForm.bracketedService (ascii "fe80::1") (ascii "80")).Asks :=
  (lookup_asks_iff (.bracketedService (ascii "fe80::1") (ascii "80"))
    ⟨⟨by decide, by decide⟩, by decide, by decide⟩).mpr ⟨id, by decide⟩

/-- For `::1` the service `::1` is asked for, and for `fe80::1` the service `::1`. -/
theorem bare_literal_has_service :
    (HostForm.bare (ascii "::1")).Valid ∧
      query (ascii "::1") 10 0 0 = ⟨ascii "::1", some (ascii "::1"), 10, 0, 0⟩ ∧
      query (ascii "fe80::1") 10 0 0 = ⟨ascii "fe80::1", some (ascii "::1"), 10, 0, 0⟩ ∧
      ¬ (HostForm.bare (ascii "::1")).Asks := by
  have hquery : query (ascii "::1") 10 0 0 =
      ⟨ascii "::1", some (ascii "::1"), 10, 0, 0⟩ := by decide
  refine ⟨⟨by decide, by decide⟩, hquery, by decide, ?_⟩
  intro hasks
  have hmeant := (hasks 10 0 0).symm.trans hquery
  cases hmeant

end Sylar.Net

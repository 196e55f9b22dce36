import Mathlib.Data.List.Basic

/-!
# `TcpServer::bind`

The addresses are tried one after the other, and those that fail are appended to a vector of the
caller. Whether the call has failed is read off that vector, also where it held addresses
before the call, and a call that has failed clears all sockets, also those of earlier calls.
-/

namespace Sylar.Net

section Bind

variable {α σ : Type}

/-- What the calls for one address give: the new socket, and whether `bind` and `listen`
succeed on it. -/
structure Attempt (α σ : Type) where
  addr : α
  sock : σ
  binds : Bool
  listens : Bool
  deriving DecidableEq, Repr

def Attempt.succeeds (a : Attempt α σ) : Bool := a.binds && a.listens

namespace TcpServer

/-- The loop of `bind`: `m_socks` and `fails`. -/
def bindLoop : List (Attempt α σ) → List σ → List α → List σ × List α
  | [], socks, fails => (socks, fails)
  | a :: as, socks, fails =>
      if !a.binds then bindLoop as socks (fails ++ [a.addr])
      else if !a.listens then bindLoop as socks (fails ++ [a.addr])
      else bindLoop as (socks ++ [a.sock]) fails

/-- `bind(addrs, fails)`: the result, `m_socks` and `fails`. -/
def bind (as : List (Attempt α σ)) (socks : List σ) (fails : List α) : Bool × List σ × List α :=
  let (socks, fails) := bindLoop as socks fails
  if !fails.isEmpty then (false, [], fails) else (true, socks, fails)

/-- `bind(address)`. -/
def bindOne (a : Attempt α σ) (socks : List σ) : Bool × List σ :=
  let (ret, socks, _) := bind [a] socks []
  (ret, socks)

/-- Calls one after the other with the same vector: their results, `m_socks` and `fails`. -/
def bindAll : List (List (Attempt α σ)) → List σ → List α → List Bool × List σ × List α
  | [], socks, fails => ([], socks, fails)
  | as :: calls, socks, fails =>
      let (ret, socks, fails) := bind as socks fails
      let (rets, socks, fails) := bindAll calls socks fails
      (ret :: rets, socks, fails)

/-- The addresses that fail in a call. -/
def failed (as : List (Attempt α σ)) : List α :=
  (as.filter fun a => !a.succeeds).map Attempt.addr

/-- The call is judged by its own addresses, and keeps the earlier sockets where it fails. -/
structure Atomic (as : List (Attempt α σ)) (socks : List σ) (fails : List α) : Prop where
  result : (bind as socks fails).1 = true ↔ ∀ a ∈ as, a.succeeds = true
  success : (∀ a ∈ as, a.succeeds = true) →
    (bind as socks fails).2.1 = socks ++ as.map Attempt.sock
  failure : (∃ a ∈ as, a.succeeds = false) → (bind as socks fails).2.1 = socks
  reported : (bind as socks fails).2.2 = fails ++ failed as

theorem bindLoop_eq (as : List (Attempt α σ)) (socks : List σ) (fails : List α) :
    bindLoop as socks fails =
      (socks ++ (as.filter Attempt.succeeds).map Attempt.sock, fails ++ failed as) := by
  induction as generalizing socks fails with
  | nil => simp [bindLoop, failed]
  | cons a as ih =>
      obtain ⟨addr, sock, binds, listens⟩ := a
      cases binds <;> cases listens <;> simp [bindLoop, ih, failed, Attempt.succeeds]

theorem failed_eq_nil_iff {as : List (Attempt α σ)} :
    failed as = [] ↔ ∀ a ∈ as, a.succeeds = true := by
  simp [failed]

theorem failed_ne_nil_iff {as : List (Attempt α σ)} :
    failed as ≠ [] ↔ ∃ a ∈ as, a.succeeds = false := by
  simp [failed]

/-- Neither the call's own addresses nor the vector it was given hold a failure. -/
theorem bind_of_none {as : List (Attempt α σ)} (socks : List σ) (h : failed as = []) :
    bind as socks [] = (true, socks ++ as.map Attempt.sock, []) := by
  have hall : as.filter Attempt.succeeds = as := List.filter_eq_self.mpr (failed_eq_nil_iff.mp h)
  simp [bind, bindLoop_eq, h, hall]

/-- A failure of the call or in the vector it was given drops every socket. -/
theorem bind_of_some {as : List (Attempt α σ)} {fails : List α} (socks : List σ)
    (h : fails ++ failed as ≠ []) : bind as socks fails = (false, [], fails ++ failed as) := by
  simp only [bind, bindLoop_eq]
  rw [if_pos (by simpa using h)]

theorem bind_fails (as : List (Attempt α σ)) (socks : List σ) (fails : List α) :
    (bind as socks fails).2.2 = fails ++ failed as := by
  simp only [bind, bindLoop_eq]
  split <;> rfl

/-- With one address the vector is a new one: the result is right, but a failure still drops
the sockets of earlier calls. -/
theorem bindOne_eq (a : Attempt α σ) (socks : List σ) :
    bindOne a socks = if a.succeeds then (true, socks ++ [a.sock]) else (false, []) := by
  cases h : a.succeeds with
  | true =>
      have hnone : failed [a] = [] := by simp [failed, h]
      simp [bindOne, bind_of_none socks hnone]
  | false =>
      have hsome : [] ++ failed [a] ≠ [] := by simp [failed, h]
      simp [bindOne, bind_of_some socks hsome]

/-- Once the vector holds an address no retry succeeds, whatever the addresses do then, and each
leaves no socket. -/
theorem bindAll_of_fails (calls : List (List (Attempt α σ))) (socks : List σ) {fails : List α}
    (h : fails ≠ []) :
    (bindAll calls socks fails).1 = List.replicate calls.length false ∧
      (calls ≠ [] → (bindAll calls socks fails).2.1 = []) := by
  induction calls generalizing socks fails with
  | nil => exact ⟨rfl, fun hne => absurd rfl hne⟩
  | cons as calls ih =>
      have hmore : fails ++ failed as ≠ [] := List.append_ne_nil_of_left_ne_nil h _
      obtain ⟨hrets, hsocks⟩ := ih [] hmore
      simp only [bindAll, bind_of_some socks hmore, hrets, List.length_cons, List.replicate_succ,
        true_and]
      intro _
      cases calls with
      | nil => rfl
      | cons as' calls => exact hsocks (List.cons_ne_nil _ _)

/-- The call is atomic if and only if the vector was empty where all addresses succeed, and
there was no socket where one fails. -/
theorem bind_atomic_iff (as : List (Attempt α σ)) (socks : List σ) (fails : List α) :
    Atomic as socks fails ↔
      ((∀ a ∈ as, a.succeeds = true) → fails = []) ∧
        ((∃ a ∈ as, a.succeeds = false) → socks = []) := by
  rw [← failed_eq_nil_iff, ← failed_ne_nil_iff]
  constructor
  · intro h
    constructor
    · intro hall
      by_contra hfails
      have htrue := h.result.mpr (failed_eq_nil_iff.mp hall)
      rw [bind_of_some socks (List.append_ne_nil_of_left_ne_nil hfails _)] at htrue
      exact Bool.false_ne_true htrue
    · intro hsome
      have hkept := h.failure (failed_ne_nil_iff.mp hsome)
      rw [bind_of_some socks (List.append_ne_nil_of_right_ne_nil _ hsome)] at hkept
      exact hkept.symm
  · rintro ⟨hfails, hsocks⟩
    by_cases hall : failed as = []
    · have hbind := bind_of_none socks hall
      rw [hfails hall]
      refine ⟨?_, fun _ => by rw [hbind], fun hsome => ?_, bind_fails as socks []⟩
      · simpa only [hbind, true_iff] using failed_eq_nil_iff.mp hall
      · exact absurd hall (failed_ne_nil_iff.mpr hsome)
    · have hsome : fails ++ failed as ≠ [] := List.append_ne_nil_of_right_ne_nil _ hall
      have hbind := bind_of_some socks hsome
      refine ⟨?_, fun hnone => ?_, fun _ => ?_, bind_fails as socks fails⟩
      · rw [hbind, ← failed_eq_nil_iff]
        exact ⟨fun hfalse => absurd hfalse Bool.false_ne_true, fun hnil => absurd hnil hall⟩
      · exact absurd (failed_eq_nil_iff.mpr hnone) hall
      · rw [hbind, hsocks hall]

/-- The address 1 fails once and binds in the retry, which still reports a failure; and a call
for the address 2 that fails drops the socket of the address 1. -/
theorem retry_never_succeeds :
    bindAll [[⟨1, 10, false, false⟩], [⟨1, 11, true, true⟩]] ([] : List Nat) ([] : List Nat) =
        ([false, false], [], [1]) ∧
      ¬ Atomic [(⟨1, 11, true, true⟩ : Attempt Nat Nat)] [] [1] ∧
      ¬ Atomic [(⟨2, 20, false, false⟩ : Attempt Nat Nat)] [10] [] := by
  refine ⟨by decide, fun h => ?_, fun h => ?_⟩
  · exact absurd (h.result.mpr (by decide)) (by decide)
  · exact absurd (h.failure (by decide)) (by decide)

end TcpServer

end Bind

end Sylar.Net

import Mathlib.Data.List.AList
import Mathlib.Data.List.MinMax
import Mathlib.Data.Nat.Bitwise

/-!
# `FSUtil::Rm`

`Rm` takes a file for a directory if `st_mode & S_IFDIR` is not zero. The types of `st_mode` are
not single bits: a socket and a block device have that bit too, and then `opendir` fails.

A file is found by its location, the names on the way to it with the innermost one first, so
that `path + "/" + name` is `name :: path`. A symbolic link is a file of its own, which `lstat`
does not follow. The files of a `FileSystem` are those of one tree of directories; the top of
it, at `[]`, can be removed like all others.
-/

namespace Sylar.Common

abbrev Name := List UInt8

abbrev Path := List Name

inductive FileType
  | socket
  | link
  | regular
  | block
  | directory
  | character
  | fifo
  deriving DecidableEq, Repr

/-- The type in `st_mode`. -/
def FileType.code : FileType → BitVec 32
  | .socket => 0o140000#32
  | .link => 0o120000#32
  | .regular => 0o100000#32
  | .block => 0o060000#32
  | .directory => 0o040000#32
  | .character => 0o020000#32
  | .fifo => 0o010000#32

def sIfdir : BitVec 32 := 0o040000#32

/-- A file: its type, the permissions, and what else belongs to it, such as its content or
the target of a link. -/
structure Node (α : Type) where
  type : FileType
  permissions : BitVec 12
  data : α
  deriving DecidableEq, Repr

section Mode

variable {α : Type}

def Node.stMode (node : Node α) : BitVec 32 := node.type.code ||| node.permissions.setWidth 32

/-- The type has the bit of a directory. -/
def FileType.HasDirectoryBit (type : FileType) : Prop :=
  type = .socket ∨ type = .block ∨ type = .directory

theorem setWidth_and_sIfdir (permissions : BitVec 12) :
    permissions.setWidth 32 &&& sIfdir = 0#32 := by
  apply BitVec.eq_of_toNat_eq
  have hlt : permissions.toNat < 2 ^ 14 := permissions.isLt.trans (by decide)
  have hmod : permissions.toNat % 2 ^ 32 = permissions.toNat :=
    Nat.mod_eq_of_lt (permissions.isLt.trans (by decide))
  rw [BitVec.toNat_and, BitVec.toNat_setWidth, hmod]
  change permissions.toNat &&& 2 ^ 14 = 0
  rw [Nat.and_two_pow, Nat.testBit_lt_two_pow hlt]
  rfl

theorem stMode_and_sIfdir (node : Node α) :
    node.stMode &&& sIfdir = 0#32 ↔ ¬ node.type.HasDirectoryBit := by
  rw [Node.stMode, BitVec.and_or_distrib_right, setWidth_and_sIfdir, BitVec.or_zero]
  cases node.type <;> simp [FileType.code, sIfdir, FileType.HasDirectoryBit]

end Mode

/-- A tree of files: each one but the top lies in a directory of the tree, and none is called
`.` or `..`. -/
structure FileSystem (α : Type) where
  nodes : AList fun _ : Path => Node α
  closed : ∀ name p, name :: p ∈ nodes →
    ∃ node, nodes.lookup p = some node ∧ node.type = .directory
  named : ∀ name p, name :: p ∈ nodes → name ≠ [46] ∧ name ≠ [46, 46]

inductive Syscall
  | opendir
  | unlink
  | rmdir
  deriving DecidableEq, Repr

/-- The calls that the system refuses, by the file. No call of `Rm` is made twice. -/
abbrev Refusals := Syscall → Path → Bool

namespace FileSystem

variable {α : Type} (refuses : Refusals)

def lstat (p : Path) (fs : FileSystem α) : Option (Node α) := fs.nodes.lookup p

/-- The name of a file in the directory `p`. -/
def nameIn (p : Path) : Path → Option Name
  | [] => none
  | name :: q => if q = p then some name else none

def entries (p : Path) (fs : FileSystem α) : List Name := fs.nodes.keys.filterMap (nameIn p)

/-- All that `readdir` gives. -/
def readdir (p : Path) (fs : FileSystem α) : List Name := [46] :: [46, 46] :: fs.entries p

def isDirectory (p : Path) (fs : FileSystem α) : Bool :=
  (fs.lstat p).any fun node => node.type = .directory

def isFile (p : Path) (fs : FileSystem α) : Bool :=
  (fs.lstat p).any fun node => node.type ≠ .directory

/-- The tree without a file in which nothing lies. -/
def remove (p : Path) (fs : FileSystem α) (h : ∀ name, name :: p ∉ fs.nodes) : FileSystem α where
  nodes := fs.nodes.erase p
  closed := by
    intro name q hmem
    have hold := (AList.mem_erase.mp hmem).2
    have hne : q ≠ p := fun heq => h name (heq ▸ hold)
    rw [AList.lookup_erase_ne hne]
    exact fs.closed name q hold
  named := fun name q hmem => fs.named name q (AList.mem_erase.mp hmem).2

theorem mem_entries {p : Path} {fs : FileSystem α} {name : Name} :
    name ∈ fs.entries p ↔ name :: p ∈ fs.nodes := by
  rw [entries, List.mem_filterMap, AList.mem_keys]
  constructor
  · rintro ⟨_ | ⟨first, q⟩, hmem, hname⟩
    · cases hname
    · simp only [nameIn, Option.ite_none_right_eq_some, Option.some.injEq] at hname
      obtain ⟨rfl, rfl⟩ := hname
      exact hmem
  · intro hmem
    exact ⟨name :: p, hmem, by simp [nameIn]⟩

theorem isDirectory_iff {p : Path} {fs : FileSystem α} :
    fs.isDirectory p = true ↔ ∃ node, fs.lstat p = some node ∧ node.type = .directory := by
  cases h : fs.lstat p <;> simp [isDirectory, h]

theorem isFile_iff {p : Path} {fs : FileSystem α} :
    fs.isFile p = true ↔ ∃ node, fs.lstat p = some node ∧ node.type ≠ .directory := by
  cases h : fs.lstat p <;> simp [isFile, h]

theorem no_entry_of_isFile {p : Path} {fs : FileSystem α} (h : fs.isFile p = true) (name : Name) :
    name :: p ∉ fs.nodes := by
  intro hmem
  obtain ⟨node, hnode, htype⟩ := isFile_iff.mp h
  obtain ⟨parent, hparent, hdirectory⟩ := fs.closed name p hmem
  obtain rfl : node = parent := Option.some.inj (hnode.symm.trans hparent)
  exact htype hdirectory

theorem no_entry_of_entries_eq_nil {p : Path} {fs : FileSystem α} (h : fs.entries p = [])
    (name : Name) : name :: p ∉ fs.nodes := by
  rw [← mem_entries, h]
  exact List.not_mem_nil

def opendir (p : Path) (fs : FileSystem α) : Bool := fs.isDirectory p && !refuses .opendir p

/-- `::unlink`: whether it succeeds, and the tree after it. -/
def unlink (p : Path) (fs : FileSystem α) : Bool × FileSystem α :=
  if h : fs.isFile p = true ∧ refuses .unlink p = false then
    (true, fs.remove p (no_entry_of_isFile h.1))
  else (false, fs)

/-- `::rmdir`. -/
def rmdir (p : Path) (fs : FileSystem α) : Bool × FileSystem α :=
  if h : fs.isDirectory p = true ∧ fs.entries p = [] ∧ refuses .rmdir p = false then
    (true, fs.remove p (no_entry_of_entries_eq_nil h.2.1))
  else (false, fs)

/-- A bound on the depth of the tree. -/
def height (fs : FileSystem α) : Nat := (fs.nodes.keys.map List.length).foldr max 0

theorem unlink_cases (p : Path) (fs : FileSystem α) :
    fs.unlink refuses p = (false, fs) ∨
      ∃ h node, fs.lstat p = some node ∧ fs.unlink refuses p = (true, fs.remove p h) := by
  unfold unlink
  split_ifs with h
  · obtain ⟨node, hnode, _⟩ := isFile_iff.mp h.1
    exact Or.inr ⟨no_entry_of_isFile h.1, node, hnode, rfl⟩
  · exact Or.inl rfl

theorem rmdir_cases (p : Path) (fs : FileSystem α) :
    fs.rmdir refuses p = (false, fs) ∨
      ∃ h node, fs.lstat p = some node ∧ node.type = .directory ∧
        fs.rmdir refuses p = (true, fs.remove p h) := by
  unfold rmdir
  split_ifs with h
  · obtain ⟨node, hnode, htype⟩ := isDirectory_iff.mp h.1
    exact Or.inr ⟨no_entry_of_entries_eq_nil h.2.1, node, hnode, htype, rfl⟩
  · exact Or.inl rfl

section Observations

variable {fs : FileSystem α} {p q : Path}

theorem lstat_remove (h : ∀ name, name :: p ∉ fs.nodes) (q : Path) :
    (fs.remove p h).lstat q = if q = p then none else fs.lstat q := by
  simp only [lstat, remove]
  split_ifs with heq
  · rw [heq, AList.lookup_erase]
  · rw [AList.lookup_erase_ne heq]

theorem mem_of_lstat {node : Node α} (h : fs.lstat q = some node) : q ∈ fs.nodes :=
  AList.lookup_isSome.mp (Option.isSome_of_eq_some h)

/-- With a file its directories are there. -/
theorem mem_of_suffix (hsuffix : p <:+ q) (hmem : q ∈ fs.nodes) : p ∈ fs.nodes := by
  induction q with
  | nil => rwa [List.suffix_nil.mp hsuffix]
  | cons name q ih =>
      rcases List.suffix_cons_iff.mp hsuffix with rfl | hrest
      · exact hmem
      · obtain ⟨node, hlookup, _⟩ := fs.closed name q hmem
        exact ih hrest (mem_of_lstat hlookup)

/-- What lies below a file lies below one of its entries. -/
theorem exists_entry (hsuffix : p <:+ q) (hne : q ≠ p) : ∃ name, name :: p <:+ q := by
  obtain ⟨front, rfl⟩ := hsuffix
  rcases List.eq_nil_or_concat front with rfl | ⟨front, name, rfl⟩
  · exact absurd rfl hne
  · exact ⟨name, front, by simp⟩

/-- Without a file that has no entries, there is nothing at or below its path. -/
theorem lstat_remove_below (h : ∀ name, name :: p ∉ fs.nodes) (hsuffix : p <:+ q) :
    (fs.remove p h).lstat q = none := by
  rw [lstat_remove]
  split_ifs with heq
  · rfl
  · obtain ⟨name, hname⟩ := exists_entry hsuffix heq
    exact AList.lookup_eq_none.mpr fun hmem => h name (mem_of_suffix hname hmem)

theorem length_le_height (hmem : q ∈ fs.nodes) : q.length ≤ fs.height := by
  have hlength : q.length ∈ fs.nodes.keys.map List.length :=
    List.mem_map_of_mem (AList.mem_keys.mp hmem)
  exact List.le_max_of_le' 0 hlength le_rfl

/-- The files of one tree are files of the other. -/
def Below (fs' fs : FileSystem α) : Prop :=
  ∀ q node, fs'.lstat q = some node → fs.lstat q = some node

theorem Below.lstat_eq_none {fs' fs : FileSystem α} (h : Below fs' fs) (hnone : fs.lstat q = none) :
    fs'.lstat q = none := by
  rw [Option.eq_none_iff_forall_ne_some] at hnone ⊢
  exact fun node hsome => hnone node (h q node hsome)

theorem below_remove (h : ∀ name, name :: p ∉ fs.nodes) : Below (fs.remove p h) fs := by
  intro q node hsome
  rw [lstat_remove] at hsome
  exact (Option.ite_none_left_eq_some.mp hsome).2

end Observations

end FileSystem

namespace FSUtil

open FileSystem

variable {α : Type} (refuses : Refusals)

/-- `Unlink(filename, exist)`. -/
def unlink (p : Path) (exist : Bool) (fs : FileSystem α) : Bool × FileSystem α :=
  if !exist && (fs.lstat p).isNone then (true, fs) else FileSystem.unlink refuses p fs

/-- The loop of `Rm` over the names of a directory, with `ret`. -/
def rmNames (rm : Path → FileSystem α → Bool × FileSystem α) (p : Path) :
    List Name → Bool → FileSystem α → Bool × FileSystem α
  | [], ret, fs => (ret, fs)
  | name :: names, ret, fs =>
      if name = [46] ∨ name = [46, 46] then rmNames rm p names ret fs
      else rmNames rm p names (rm (name :: p) fs).1 (rm (name :: p) fs).2

/-- `Rm`, down to a depth. -/
def rmWithin : Nat → Path → FileSystem α → Bool × FileSystem α
  | 0, _, fs => (false, fs)
  | depth + 1, p, fs =>
      match fs.lstat p with
      | none => (true, fs)
      | some node =>
          if node.stMode &&& sIfdir = 0#32 then unlink refuses p false fs
          else if fs.opendir refuses p = false then (false, fs)
          else
            let (ret, fs) := rmNames (rmWithin depth) p (fs.readdir p) true fs
            let (removed, fs) := fs.rmdir refuses p
            (if removed then ret else false, fs)

/-- `Rm(path)`. -/
def rm (p : Path) (fs : FileSystem α) : Bool × FileSystem α :=
  rmWithin refuses (fs.height + 1) p fs

section Branches

variable (depth : Nat) {p : Path} {fs : FileSystem α} {node : Node α}

theorem rmWithin_missing (h : fs.lstat p = none) :
    rmWithin refuses (depth + 1) p fs = (true, fs) := by
  simp only [rmWithin, h]

theorem rmWithin_file (h : fs.lstat p = some node) (hbit : ¬ node.type.HasDirectoryBit) :
    rmWithin refuses (depth + 1) p fs = fs.unlink refuses p := by
  simp only [rmWithin, h, if_pos ((stMode_and_sIfdir node).mpr hbit), unlink, Option.isNone_some,
    Bool.and_false, Bool.false_eq_true, if_false]

theorem rmWithin_closed (h : fs.lstat p = some node) (hbit : node.type.HasDirectoryBit)
    (hopen : fs.opendir refuses p = false) :
    rmWithin refuses (depth + 1) p fs = (false, fs) := by
  have hmode := mt (stMode_and_sIfdir node).mp (not_not.mpr hbit)
  simp only [rmWithin, h, if_neg hmode, if_pos hopen]

/-- The directory is removed after its entries, and its removal decides the result together
with the last entry. -/
theorem rmWithin_directory (h : fs.lstat p = some node) (hbit : node.type.HasDirectoryBit)
    (hopen : fs.opendir refuses p = true) {after : Bool × FileSystem α}
    (hafter : rmNames (rmWithin refuses depth) p (fs.readdir p) true fs = after) :
    rmWithin refuses (depth + 1) p fs =
      (if (after.2.rmdir refuses p).1 then after.1 else false, (after.2.rmdir refuses p).2) := by
  have hmode := mt (stMode_and_sIfdir node).mp (not_not.mpr hbit)
  simp only [rmWithin, h, if_neg hmode, hopen, Bool.true_eq_false, if_false, hafter]

/-- All that one level can do. -/
theorem rmWithin_cases (p : Path) (fs : FileSystem α) :
    (fs.lstat p = none ∧ rmWithin refuses (depth + 1) p fs = (true, fs)) ∨
      rmWithin refuses (depth + 1) p fs = (false, fs) ∨
      (∃ node, fs.lstat p = some node ∧ ¬ node.type.HasDirectoryBit ∧
        rmWithin refuses (depth + 1) p fs = fs.unlink refuses p) ∨
      ∃ after, rmNames (rmWithin refuses depth) p (fs.readdir p) true fs = after ∧
        rmWithin refuses (depth + 1) p fs =
          (if (after.2.rmdir refuses p).1 then after.1 else false,
            (after.2.rmdir refuses p).2) := by
  cases hnode : fs.lstat p with
  | none => exact Or.inl ⟨rfl, rmWithin_missing refuses depth hnode⟩
  | some node =>
      by_cases hbit : node.type.HasDirectoryBit
      · cases hopen : fs.opendir refuses p with
        | false => exact Or.inr (Or.inl (rmWithin_closed refuses depth hnode hbit hopen))
        | true =>
            exact Or.inr (Or.inr (Or.inr
              ⟨_, rfl, rmWithin_directory refuses depth hnode hbit hopen rfl⟩))
      · exact Or.inr (Or.inr (Or.inl ⟨node, rfl, hbit, rmWithin_file refuses depth hnode hbit⟩))

end Branches

section Runs

variable {refuses}

theorem rmNames_keeps {P : FileSystem α → Prop} {rm : Path → FileSystem α → Bool × FileSystem α}
    {p : Path} (hrm : ∀ name fs, P fs → P (rm (name :: p) fs).2) (names : List Name) (ret : Bool)
    {fs : FileSystem α} (h : P fs) : P (rmNames rm p names ret fs).2 := by
  induction names generalizing ret fs with
  | nil => exact h
  | cons name names ih =>
      simp only [rmNames]
      split_ifs
      · exact ih ret h
      · exact ih _ (hrm name fs h)

/-- `Rm` removes nothing but files at or below its path that are neither sockets nor block
devices, whatever the system refuses. -/
theorem rmWithin_keeps (P : FileSystem α → Prop) (top : Path)
    (hremove : ∀ q (fs : FileSystem α) h node, top <:+ q → fs.lstat q = some node →
      node.type ≠ .socket → node.type ≠ .block → P fs → P (fs.remove q h))
    (depth : Nat) {p : Path} (hp : top <:+ p) {fs : FileSystem α} (h : P fs) :
    P (rmWithin refuses depth p fs).2 := by
  induction depth generalizing p fs with
  | zero => exact h
  | succ depth ih =>
      rcases rmWithin_cases refuses depth p fs with ⟨_, heq⟩ | heq | ⟨node, hnode, hbit, heq⟩ |
        ⟨after, hafter, heq⟩
      · rw [heq]
        exact h
      · rw [heq]
        exact h
      · rw [heq]
        rcases unlink_cases refuses p fs with hunlink | ⟨hnone, file, hfile, hunlink⟩
        · rw [hunlink]
          exact h
        · rw [hunlink]
          obtain rfl : node = file := Option.some.inj (hnode.symm.trans hfile)
          simp only [FileType.HasDirectoryBit, not_or] at hbit
          exact hremove p fs hnone node hp hnode hbit.1 hbit.2.1 h
      · have hentry : ∀ name fs, P fs → P (rmWithin refuses depth (name :: p) fs).2 :=
          fun name _ hfs => ih (hp.trans (List.suffix_cons name p)) hfs
        have hkept : P after.2 := hafter ▸ rmNames_keeps hentry (fs.readdir p) true h
        rw [heq]
        rcases rmdir_cases refuses p after.2 with hrmdir | ⟨hnone, d, hd, htype, hrmdir⟩
        · rw [hrmdir]
          exact hkept
        · rw [hrmdir]
          exact hremove p after.2 hnone d hp hd (by simp [htype]) (by simp [htype]) hkept

/-- What is left was there before. -/
theorem below_rmWithin (depth : Nat) (p : Path) (fs : FileSystem α) :
    Below (rmWithin refuses depth p fs).2 fs := by
  refine rmWithin_keeps (Below · fs) p ?_ depth List.suffix_rfl (fun _ _ hsome => hsome)
  intro q fs' h _ _ _ _ _ hbelow r node hsome
  exact hbelow r node (below_remove h r node hsome)

/-- A file that is not at or below the path is as before. -/
theorem rmWithin_outside (depth : Nat) {p q : Path} (fs : FileSystem α) (hq : ¬ p <:+ q) :
    (rmWithin refuses depth p fs).2.lstat q = fs.lstat q := by
  refine rmWithin_keeps (fun fs' => fs'.lstat q = fs.lstat q) p ?_ depth List.suffix_rfl rfl
  intro r fs' h _ hr _ _ _ hsame
  have hne : q ≠ r := fun heq => hq (heq ▸ hr)
  rw [lstat_remove, if_neg hne, hsame]

/-- A socket or a block device stays where it is. -/
theorem rmWithin_stays (depth : Nat) (p : Path) {q : Path} {fs : FileSystem α} {node : Node α}
    (h : fs.lstat q = some node) (htype : node.type = .socket ∨ node.type = .block) :
    (rmWithin refuses depth p fs).2.lstat q = some node := by
  refine rmWithin_keeps (fun fs' => fs'.lstat q = some node) p ?_ depth List.suffix_rfl h
  intro r fs' hnone other _ hother hsocket hblock hsame
  have hne : q ≠ r := by
    rintro rfl
    obtain rfl : node = other := Option.some.inj (hsame.symm.trans hother)
    rcases htype with htype | htype
    · exact hsocket htype
    · exact hblock htype
  rw [lstat_remove, if_neg hne, hsame]

/-- If `Rm` returns true the file is gone, also where the result of an entry was overwritten:
then the directory is not empty and `rmdir` fails. -/
theorem lstat_of_rmWithin (depth : Nat) {p : Path} {fs : FileSystem α}
    (h : (rmWithin refuses depth p fs).1 = true) :
    (rmWithin refuses depth p fs).2.lstat p = none := by
  cases depth with
  | zero => cases h
  | succ depth =>
      rcases rmWithin_cases refuses depth p fs with ⟨hnone, heq⟩ | heq | ⟨_, _, _, heq⟩ |
        ⟨after, _, heq⟩
      · rw [heq]
        exact hnone
      · rw [heq] at h
        cases h
      · rw [heq] at h ⊢
        rcases unlink_cases refuses p fs with hunlink | ⟨_, _, _, hunlink⟩
        · rw [hunlink] at h
          cases h
        · rw [hunlink, lstat_remove, if_pos rfl]
      · rw [heq] at h ⊢
        rcases rmdir_cases refuses p after.2 with hrmdir | ⟨_, _, _, _, hrmdir⟩
        · rw [hrmdir] at h
          cases h
        · rw [hrmdir, lstat_remove, if_pos rfl]

end Runs

/-! ### Without refusals -/

section Permitted

/-- The system refuses nothing. -/
def permitted : Refusals := fun _ _ => false

/-- The call has returned true and left nothing at or below the path. -/
def Removes (r : Bool × FileSystem α) (p : Path) : Prop :=
  r.1 = true ∧ ∀ q, p <:+ q → r.2.lstat q = none

/-- The loop removes what each of its calls removes. -/
theorem rmNames_removes {rm : Path → FileSystem α → Bool × FileSystem α} {p : Path}
    {fs : FileSystem α} {names : List Name}
    (hrm : ∀ name ∈ names, name ≠ [46] → name ≠ [46, 46] → ∀ fs', Below fs' fs →
      Removes (rm (name :: p) fs') (name :: p))
    (hbelow : ∀ q fs', Below (rm q fs').2 fs') :
    (rmNames rm p names true fs).1 = true ∧ Below (rmNames rm p names true fs).2 fs ∧
      ∀ name ∈ names, name ≠ [46] → name ≠ [46, 46] →
        ∀ q, name :: p <:+ q → (rmNames rm p names true fs).2.lstat q = none := by
  induction names generalizing fs with
  | nil => exact ⟨rfl, fun _ _ hsome => hsome, fun _ hmem => absurd hmem List.not_mem_nil⟩
  | cons first names ih =>
      simp only [rmNames]
      split_ifs with hdots
      · obtain ⟨hret, hrest, hgone⟩ := ih fun name hname => hrm name (List.mem_cons_of_mem _ hname)
        refine ⟨hret, hrest, fun name hname hdot hdotdot => ?_⟩
        rcases List.mem_cons.mp hname with rfl | hname
        · exact absurd hdots (not_or.mpr ⟨hdot, hdotdot⟩)
        · exact hgone name hname hdot hdotdot
      · obtain ⟨hdot, hdotdot⟩ := not_or.mp hdots
        obtain ⟨htrue, hfirst⟩ :=
          hrm first List.mem_cons_self hdot hdotdot fs fun _ _ hsome => hsome
        have hless := hbelow (first :: p) fs
        rw [htrue]
        generalize (rm (first :: p) fs).2 = left at hfirst hless ⊢
        have hothers : ∀ name ∈ names, name ≠ [46] → name ≠ [46, 46] → ∀ fs', Below fs' left →
            Removes (rm (name :: p) fs') (name :: p) := by
          intro name hname hdot hdotdot fs' hfs'
          apply hrm name (List.mem_cons_of_mem _ hname) hdot hdotdot fs'
          exact fun q node hsome => hless q node (hfs' q node hsome)
        obtain ⟨hret, hrest, hgone⟩ := ih hothers
        refine ⟨hret, fun q node hsome => hless q node (hrest q node hsome), ?_⟩
        intro name hname hdot hdotdot q hq
        rcases List.mem_cons.mp hname with rfl | hname
        · exact hrest.lstat_eq_none (hfirst q hq)
        · exact hgone name hname hdot hdotdot q hq

/-- Neither a socket nor a block device is at or below the path. -/
def Removable (fs : FileSystem α) (p : Path) : Prop :=
  ∀ q node, p <:+ q → fs.lstat q = some node → node.type ≠ .socket ∧ node.type ≠ .block

theorem Removable.below {fs' fs : FileSystem α} {p q : Path} (h : Removable fs p)
    (hbelow : Below fs' fs) (hq : p <:+ q) : Removable fs' q :=
  fun r node hr hnode => h r node (hq.trans hr) (hbelow r node hnode)

/-- A file that is no directory is removed by `unlink`. -/
theorem unlink_removes {p : Path} {fs : FileSystem α} (h : fs.isFile p = true) :
    Removes (fs.unlink permitted p) p := by
  rw [FileSystem.unlink, dif_pos ⟨h, rfl⟩]
  exact ⟨rfl, fun _ hq => lstat_remove_below (no_entry_of_isFile h) hq⟩

/-- An empty directory is removed by `rmdir`. -/
theorem rmdir_removes {p : Path} {fs : FileSystem α} (h : fs.isDirectory p = true)
    (hempty : fs.entries p = []) : Removes (fs.rmdir permitted p) p := by
  rw [rmdir, dif_pos ⟨h, hempty, rfl⟩]
  exact ⟨rfl, fun _ hq => lstat_remove_below (no_entry_of_entries_eq_nil hempty) hq⟩

theorem not_cons_suffix (name : Name) (p : Path) : ¬ name :: p <:+ p := by
  intro hsuffix
  have hlength := hsuffix.length_le
  rw [List.length_cons] at hlength
  omega

/-- The loop over the entries of a directory leaves it there, and empty. -/
theorem rmNames_empties {depth : Nat} {p : Path} {fs : FileSystem α} {node : Node α}
    (hnode : fs.lstat p = some node)
    (hrm : ∀ name, name :: p ∈ fs.nodes → ∀ fs', Below fs' fs →
      Removes (rmWithin permitted depth (name :: p) fs') (name :: p)) :
    let after := rmNames (rmWithin permitted depth) p (fs.readdir p) true fs
    after.1 = true ∧ after.2.lstat p = some node ∧ after.2.entries p = [] := by
  have hentries : ∀ name ∈ fs.readdir p, name ≠ [46] → name ≠ [46, 46] → ∀ fs', Below fs' fs →
      Removes (rmWithin permitted depth (name :: p) fs') (name :: p) := by
    intro name hname hdot hdotdot
    have hmem : name ∈ fs.entries p := by simpa [readdir, hdot, hdotdot] using hname
    exact hrm name (mem_entries.mp hmem)
  obtain ⟨hret, hbelow, hgone⟩ := rmNames_removes hentries (below_rmWithin depth)
  refine ⟨hret, ?_, ?_⟩
  · apply rmNames_keeps (P := fun fs' => fs'.lstat p = some node) _ _ _ hnode
    intro name fs' hsame
    rw [rmWithin_outside depth fs' (not_cons_suffix name p), hsame]
  · rw [List.eq_nil_iff_forall_not_mem]
    intro name hname
    obtain ⟨left, hleft⟩ :=
      Option.isSome_iff_exists.mp (AList.lookup_isSome.mpr (mem_entries.mp hname))
    have hmem : name :: p ∈ fs.nodes := mem_of_lstat (hbelow _ left hleft)
    obtain ⟨hdot, hdotdot⟩ := fs.named name p hmem
    have hread : name ∈ fs.readdir p :=
      List.mem_cons_of_mem _ (List.mem_cons_of_mem _ (mem_entries.mpr hmem))
    have hnone := hgone name hread hdot hdotdot _ List.suffix_rfl
    cases hnone.symm.trans hleft

/-- One level: if the entries are removed, so is the directory. -/
theorem rmWithin_succ_removes {depth : Nat} {p : Path} {fs : FileSystem α} (h : Removable fs p)
    (hrm : ∀ name, name :: p ∈ fs.nodes → ∀ fs', Below fs' fs →
      Removes (rmWithin permitted depth (name :: p) fs') (name :: p)) :
    Removes (rmWithin permitted (depth + 1) p fs) p := by
  cases hnode : fs.lstat p with
  | none =>
      rw [rmWithin_missing permitted depth hnode]
      have hmissing : p ∉ fs.nodes := AList.lookup_eq_none.mp hnode
      exact ⟨rfl, fun q hq => AList.lookup_eq_none.mpr fun hmem => hmissing (mem_of_suffix hq hmem)⟩
  | some node =>
      by_cases hbit : node.type.HasDirectoryBit
      · have htype : node.type = .directory := by
          obtain ⟨hsocket, hblock⟩ := h p node List.suffix_rfl hnode
          rcases hbit with hbit | hbit | hbit
          · exact absurd hbit hsocket
          · exact absurd hbit hblock
          · exact hbit
        have hdirectory : fs.isDirectory p = true := isDirectory_iff.mpr ⟨node, hnode, htype⟩
        have hopen : fs.opendir permitted p = true := by simp [opendir, hdirectory, permitted]
        rw [rmWithin_directory permitted depth hnode hbit hopen rfl]
        obtain ⟨hret, hkept, hempty⟩ := rmNames_empties hnode hrm
        have hremoves := rmdir_removes (isDirectory_iff.mpr ⟨node, hkept, htype⟩) hempty
        refine ⟨?_, hremoves.2⟩
        rw [if_pos hremoves.1, hret]
      · rw [rmWithin_file permitted depth hnode hbit]
        simp only [FileType.HasDirectoryBit, not_or] at hbit
        exact unlink_removes (isFile_iff.mpr ⟨node, hnode, hbit.2.2⟩)

/-- Enough depth removes the whole tree. -/
theorem rmWithin_removes (depth : Nat) {p : Path} {fs : FileSystem α} (h : Removable fs p)
    (hdepth : ∀ q node, p <:+ q → fs.lstat q = some node → q.length ≤ p.length + depth) :
    Removes (rmWithin permitted (depth + 1) p fs) p := by
  induction depth generalizing p fs with
  | zero =>
      apply rmWithin_succ_removes h
      intro name hmem
      obtain ⟨node, hnode⟩ := Option.isSome_iff_exists.mp (AList.lookup_isSome.mpr hmem)
      have hlength := hdepth _ node (List.suffix_cons name p) hnode
      rw [List.length_cons] at hlength
      omega
  | succ depth ih =>
      apply rmWithin_succ_removes h
      intro name _ fs' hbelow
      apply ih (h.below hbelow (List.suffix_cons name p))
      intro q node hq hnode
      have hlength := hdepth q node ((List.suffix_cons name p).trans hq) (hbelow q node hnode)
      rw [List.length_cons]
      omega

/-- What `Rm` is to do with a path. -/
structure RemovesTree (p : Path) (fs : FileSystem α) : Prop where
  returns : (rm permitted p fs).1 = true
  gone : ∀ q, p <:+ q → (rm permitted p fs).2.lstat q = none
  outside : ∀ q, ¬ p <:+ q → (rm permitted p fs).2.lstat q = fs.lstat q
  truthful : ∀ refuses, (rm refuses p fs).1 = true → (rm refuses p fs).2.lstat p = none

/-- `Rm` removes a tree if and only if there is no socket and no block device in it. -/
theorem removesTree_iff (p : Path) (fs : FileSystem α) :
    RemovesTree p fs ↔
      ∀ q node, p <:+ q → fs.lstat q = some node → node.type ≠ .socket ∧ node.type ≠ .block := by
  constructor
  · intro h q node hq hnode
    by_contra hbad
    have htype : node.type = .socket ∨ node.type = .block := by
      rwa [not_and_or, not_not, not_not] at hbad
    have hstays : (rm permitted p fs).2.lstat q = some node := rmWithin_stays _ p hnode htype
    rw [h.gone q hq] at hstays
    cases hstays
  · intro h
    have hremoves : Removes (rm permitted p fs) p := by
      apply rmWithin_removes fs.height h
      intro q node _ hnode
      exact (length_le_height (mem_of_lstat hnode)).trans (Nat.le_add_left _ _)
    exact ⟨hremoves.1, hremoves.2, fun q hq => rmWithin_outside _ fs hq,
      fun _ hret => lstat_of_rmWithin _ hret⟩

/-- A directory with a socket in it. -/
def withSocket : FileSystem Unit where
  nodes := ⟨[⟨[[115]], ⟨.socket, 0, ()⟩⟩, ⟨[], ⟨.directory, 0, ()⟩⟩], by simp [List.NodupKeys]⟩
  closed := by
    intro name p hmem
    obtain ⟨rfl, rfl⟩ : name = [115] ∧ p = [] := by simpa [AList.mem_keys, AList.keys] using hmem
    exact ⟨⟨.directory, 0, ()⟩, by decide, rfl⟩
  named := by
    intro name p hmem
    obtain ⟨rfl, rfl⟩ : name = [115] ∧ p = [] := by simpa [AList.mem_keys, AList.keys] using hmem
    decide

/-- Neither the socket nor the directory with it is removed. -/
theorem socket_is_left :
    (rm permitted [[115]] withSocket).1 = false ∧
      (rm permitted [[115]] withSocket).2.lstat [[115]] = some ⟨.socket, 0, ()⟩ ∧
      (rm permitted [] withSocket).1 = false ∧
      ¬ RemovesTree [[115]] withSocket ∧ ¬ RemovesTree [] withSocket := by
  refine ⟨by decide, by decide, by decide, fun h => ?_, fun h => ?_⟩
  · exact absurd h.returns (by decide)
  · exact absurd h.returns (by decide)

end Permitted

end FSUtil

end Sylar.Common

import Mathlib.Algebra.GroupWithZero.Nat
import TableFS.Lib.Runs
import TableFS.Numbers

/-! The directories of the data files (fs/tfs_state.cpp): Setup makes the first one along with
root.dat, and NewInode makes the next whenever the counter comes to a multiple of 16384. The
counter is carried from session to session in root.dat. -/
namespace TableFS
open Runs

def NUM_FILES_IN_DATADIR : UInt64 := 16384

/-- The text of `%s/%d`: the path of a directory of data files. -/
def printDirPath (datadir : List Char) (n : Int) : List Char := datadir ++ '/' :: printInt n

private theorem printDiskFilePath_eq (datadir : List Char) (inode_id : UInt64) :
    printDiskFilePath datadir inode_id =
      printDirPath datadir (getDiskFilePath inode_id).1 ++ '/' :: printInt (getDiskFilePath inode_id).2 := by
  rw [printDiskFilePath, printDirPath, List.append_assoc, List.cons_append]

/-- What is below datadir_: the text of root.dat, and the directories made with mkdir. -/
structure DataDir where
  root_dat : Option (List Char)
  dirs : List (List Char)
  deriving DecidableEq

/-- FileSystemState, as far as its numbers go. -/
structure InodeCounter where
  dir : DataDir
  max_inode_num : UInt64
  deriving DecidableEq

namespace InodeCounter
variable (datadir : List Char)

def setup (dir : DataDir) : InodeCounter :=
  match dir.root_dat with
  | none => ⟨⟨some (rootDat 0), dir.dirs ++ [printDirPath datadir 0]⟩, 0⟩
  | some text => ⟨dir, scanRootDat text⟩

/-- NewInode returns the number; with it stand the directories there are by then. -/
def newInode (s : InodeCounter) (_ : Unit) : InodeCounter × (UInt64 × List (List Char)) :=
  let n := s.max_inode_num + 1
  let dir := if n % NUM_FILES_IN_DATADIR = 0 then
      { s.dir with dirs := s.dir.dirs ++ [printDirPath datadir (cInt n.toNat / 16384)] } else s.dir
  (⟨dir, n⟩, (n, dir.dirs))

def destroy (s : InodeCounter) : DataDir := { s.dir with root_dat := some (rootDat s.max_inode_num) }

/-- A session that is ended cleanly, with so many calls of NewInode. -/
def session (dir : DataDir) (calls : Nat) : DataDir × List (UInt64 × List (List Char)) :=
  let r := run (newInode datadir) (setup datadir dir) (List.replicate calls ())
  (destroy r.1, r.2)

end InodeCounter

/-- A request takes the number that NewInode returns. -/
theorem create_newInode (datadir : List Char) (dir : DataDir) (s : State) (env : Env) (path : CString)
    (value : UInt64 → List UInt8 → Value) (h : (s.create env path value).2.isSome) :
    (s.create env path value).1.max_inode_num = (InodeCounter.newInode datadir ⟨dir, s.max_inode_num⟩ ()).2.1 := by
  unfold State.create at h ⊢
  rcases hl : s.lookup path with ⟨s', _ | ⟨key, name⟩⟩
  · rw [hl] at h
    cases h
  · have hcounter : s'.max_inode_num = s.max_inode_num := congrArg (fun r => r.1.max_inode_num) hl.symm
    simp only [InodeCounter.newInode, ← hcounter]
    split <;> rfl

namespace InodeCounter
variable {datadir : List Char}

/-- The directories of all inodes up to m are there. -/
def Covers (datadir : List Char) (dirs : List (List Char)) (m : Nat) : Prop :=
  ∀ j : Nat, j ≤ m / 16384 → printDirPath datadir j ∈ dirs

private theorem getDiskFilePath_fst {n : Nat} (h : n < 2147483648) :
    (getDiskFilePath (.ofNat n)).1 = (n / 16384 : Nat) := by
  have hn : (UInt64.ofNat n).toNat = n := UInt64.toNat_ofNat_of_lt' (h.trans (by decide))
  simp only [getDiskFilePath, hn, cInt_of_lt h, Int.natCast_ediv]
  rfl

private theorem newInode_spec (s : InodeCounter) {m : Nat} (hm : s.max_inode_num = .ofNat m) (hlt : m + 1 < 2147483648)
    (hc : Covers datadir s.dir.dirs m) :
    let r := s.newInode datadir ()
    r.1.max_inode_num = .ofNat (m + 1) ∧ Covers datadir r.1.dir.dirs (m + 1) ∧
      r.2 = (.ofNat (m + 1), r.1.dir.dirs) := by
  have hn : s.max_inode_num + 1 = .ofNat (m + 1) := by rw [hm, UInt64.ofNat_add]; rfl
  have hnat : (UInt64.ofNat (m + 1)).toNat = m + 1 := UInt64.toNat_ofNat_of_lt' (hlt.trans (by decide))
  have hmod : UInt64.ofNat (m + 1) % NUM_FILES_IN_DATADIR = 0 ↔ (m + 1) % 16384 = 0 := by
    rw [← UInt64.toNat_inj, UInt64.toNat_mod, hnat]
    rfl
  simp only [newInode, hn, hmod, hnat, cInt_of_lt hlt]
  refine ⟨trivial, fun j hj => ?_, trivial⟩
  split
  · rename_i hnew
    rcases Nat.lt_or_ge j ((m + 1) / 16384) with hlow | hhigh
    · exact List.mem_append_left _ (hc j (by omega))
    · obtain rfl : j = (m + 1) / 16384 := Nat.le_antisymm hj hhigh
      exact List.mem_append_right _ (List.mem_singleton.mpr (by rw [Int.natCast_ediv]; rfl))
  · exact hc j (by omega)

/-- The data file of a number lies in one of the directories there are when it is returned. -/
def HasDirectory (datadir : List Char) (r : UInt64 × List (List Char)) : Prop :=
  ∃ dir ∈ r.2, ∃ n, printDiskFilePath datadir r.1 = dir ++ '/' :: printInt n

private theorem Covers.hasDirectory {dirs : List (List Char)} {m : Nat} (h : Covers datadir dirs m)
    (hlt : m < 2147483648) :
    HasDirectory datadir (.ofNat m, dirs) := by
  refine ⟨printDirPath datadir (getDiskFilePath (.ofNat m)).1, ?_, _, printDiskFilePath_eq datadir _⟩
  rw [getDiskFilePath_fst hlt]
  exact h _ le_rfl

private theorem run_newInode (s : InodeCounter) {m n : Nat} (hm : s.max_inode_num = .ofNat m) (hlt : m + n < 2147483648)
    (hc : Covers datadir s.dir.dirs m) :
    let r := run (newInode datadir) s (List.replicate n ())
    r.1.max_inode_num = .ofNat (m + n) ∧ Covers datadir r.1.dir.dirs (m + n) ∧
      r.2.map Prod.fst = (List.range' (m + 1) n).map UInt64.ofNat ∧ ∀ x ∈ r.2, HasDirectory datadir x := by
  induction n generalizing s m with
  | zero => exact ⟨hm, hc, rfl, nofun⟩
  | succ n ih =>
    obtain ⟨hm', hc', hr⟩ := newInode_spec s hm (by omega) hc
    obtain ⟨hend, hcov, hnums, hhoused⟩ := ih (s.newInode datadir ()).1 hm' (by omega) hc'
    rw [Nat.add_right_comm, Nat.add_assoc] at hend hcov
    refine ⟨hend, hcov, ?_, fun x hx => ?_⟩
    · simp only [List.replicate_succ, run, List.map_cons, List.range'_succ, hnums, hr]
    · rcases List.mem_cons.mp hx with rfl | hx
      · rw [hr]
        exact hc'.hasDirectory (by omega)
      · exact hhoused x hx

/-- The next session counts on from m: nothing is there yet, or root.dat holds m and the
directories up to its are there. -/
def CountsFrom (datadir : List Char) (dir : DataDir) (m : Nat) : Prop :=
  (dir.root_dat = none ∧ m = 0) ∨ (dir.root_dat = some (rootDat (.ofNat m)) ∧ Covers datadir dir.dirs m)

theorem CountsFrom.setup {dir : DataDir} {m : Nat} (h : CountsFrom datadir dir m) (hlt : m < 2147483648) :
    (setup datadir dir).max_inode_num = .ofNat m ∧ Covers datadir (setup datadir dir).dir.dirs m := by
  rcases h with ⟨hnone, rfl⟩ | ⟨hsome, hc⟩
  · simp only [InodeCounter.setup, hnone]
    refine ⟨rfl, fun j hj => List.mem_append_right _ ?_⟩
    obtain rfl : j = 0 := Nat.le_zero.mp hj
    exact List.mem_singleton_self _
  · have hscan : scanRootDat (rootDat (.ofNat m)) = .ofNat m := by
      rw [scanRootDat_rootDat_eq_iff, UInt64.toNat_ofNat_of_lt' (hlt.trans (by decide))]
      omega
    simp only [InodeCounter.setup, hsome]
    exact ⟨hscan, hc⟩

private theorem run_session {dir : DataDir} {m : Nat} (h : CountsFrom datadir dir m) (calls : List Nat)
    (hlt : m + calls.sum < 2147483648) :
    let returned := (run (session datadir) dir calls).2.flatten
    returned.map Prod.fst = (List.range' (m + 1) calls.sum).map UInt64.ofNat ∧
      ∀ x ∈ returned, HasDirectory datadir x := by
  induction calls generalizing dir m with
  | nil => exact ⟨rfl, nofun⟩
  | cons n calls ih =>
    rw [List.sum_cons, ← Nat.add_assoc] at hlt
    obtain ⟨hm, hc⟩ := h.setup (by omega)
    obtain ⟨hend, hcov, hnums, hhoused⟩ := run_newInode (setup datadir dir) hm (n := n) (by omega) hc
    have hnext : CountsFrom datadir (session datadir dir n).1 (m + n) := .inr ⟨by rw [← hend]; rfl, hcov⟩
    obtain ⟨hrest, hhoused'⟩ := ih hnext hlt
    simp only [run, List.flatten_cons, List.map_append, List.mem_append]
    refine ⟨?_, fun x hx => hx.elim (hhoused x) (hhoused' x)⟩
    rw [hrest, List.sum_cons, ← List.range'_append_1, List.map_append, Nat.add_right_comm]
    exact congrArg (· ++ _) hnums

/-- Over sessions that start from a missing root.dat and return fewer than 2^31 numbers, every
number finds the directory of its data file made when it is returned; and no two numbers, and no
two paths, are the same. -/
theorem inodes_have_places (datadir : List Char) (dir : DataDir) (hnew : dir.root_dat = none) (calls : List Nat)
    (hlt : calls.sum < 2147483648) :
    let returned := (run (session datadir) dir calls).2.flatten
    (∀ r ∈ returned, HasDirectory datadir r) ∧ (returned.map Prod.fst).Nodup ∧
      (returned.map fun r => printDiskFilePath datadir r.1).Nodup := by
  have hstart : CountsFrom datadir dir 0 := .inl ⟨hnew, rfl⟩
  obtain ⟨hnums, hhoused⟩ := run_session hstart calls (by rwa [Nat.zero_add])
  have hpaths : (((run (session datadir) dir calls).2.flatten.map Prod.fst).map (printDiskFilePath datadir)).Nodup := by
    rw [hnums, List.map_map]
    refine List.Nodup.map_on (fun i hi j hj hij => ?_) (List.nodup_range' 1)
    rw [List.mem_range'_1] at hi hj
    rw [Function.comp_apply, Function.comp_apply, printDiskFilePath_eq_iff, getDiskFilePath_eq_iff,
      UInt64.toNat_ofNat_of_lt' (by simp only [UInt64.size]; omega),
      UInt64.toNat_ofNat_of_lt' (by simp only [UInt64.size]; omega)] at hij
    omega
  refine ⟨hhoused, hpaths.of_map, ?_⟩
  rwa [List.map_map] at hpaths

/-- Two sessions that return three numbers. -/
theorem inodes_have_places_three :
    ((run (session ['d']) ⟨none, []⟩ [1, 2]).2.flatten.map Prod.fst = [1, 2, 3]) ∧
      ((run (session ['d']) ⟨none, []⟩ [1, 2]).2.flatten.map fun r => printDiskFilePath ['d'] r.1).Nodup :=
  ⟨by decide +kernel, (inodes_have_places ['d'] ⟨none, []⟩ rfl [1, 2] (by decide)).2.2⟩

end InodeCounter
end TableFS

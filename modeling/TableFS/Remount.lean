import TableFS.Sessions

/-! A clean unmount and the next mount. With both caches in step with the store and nothing
open, every result is a function of the store and of the data files, so a new session on the
same directories sees what the old one saw; and the counter of inode numbers goes on where it
stopped. Only Init can come between: while no inode number was taken it writes a new root
record over the old one. -/
namespace TableFS
open Slots InodeCache Runs

namespace State

/-- Open and one Read through the new handle. -/
def readAt (s : State) (env : Env) (path : CString) (flags : OpenFlags) (size offset : Nat) : Result :=
  match (s.openFile path flags).2.fh with
  | some fh => ((s.openFile path flags).1.read env fh size offset).2
  | none => (s.openFile path flags).2

/-- OpenDir and ReadDir through the new handle. -/
def listAt (s : State) (env : Env) (path : CString) : Result :=
  match (s.openDir env path).2.fh with
  | some fh => ((s.openDir env path).1.readDir env fh).2
  | none => (s.openDir env path).2

end State

/-- What a Read of a record gives through a handle that was just opened. -/
def recordRead (env : Env) (d : Disk) (v : Value) (flags : OpenFlags) (size offset : Nat) : Result :=
  if 0 < v.header.has_blob then
    let r := openDiskFile d v.header flags
    let q := r.1.pread r.2 size offset env.data
    { ret := cInt (cResult q.1), data := q.2 }
  else { ret := cInt (getInlineData v offset size).length, data := getInlineData v offset size }

private theorem recordRead_congr {d d' : Disk} (hn : d'.names = d.names) (hf : d'.files = d.files) (env : Env)
    (v : Value) (flags : OpenFlags) (size offset : Nat) :
    recordRead env d' v flags size offset = recordRead env d v flags size offset := by
  have hpread (path : DiskPath) : (d'.openFile path flags).1.pread (d'.openFile path flags).2 size offset env.data =
      (d.openFile path flags).1.pread (d.openFile path flags).2 size offset env.data := by
    unfold Disk.openFile
    rw [hn, hf]
    cases d.names.lookup path with
    | none => simp [Disk.pread, slot_put, Disk.contents]
    | some f => simp [Disk.pread, slot_put, Disk.contents]
  unfold recordRead openDiskFile
  simp only [hpread]

section Tidy
variable {s : State} (ht : Tidy s) (hfiles : ∀ fh, slot s.files fh = none)
include ht

theorem Tidy.found_eq (path : CString) : s.found path = resolve s.inode_cache.metadb path :=
  (pathLookup_spec ht.dentries path).1

include hfiles

private theorem Tidy.acquire_eq (path : CString) (mode : InodeAccessMode) :
    (recordAt s.inode_cache.metadb path = none ∧
      s.acquire path mode = ({ s with dentry_cache := s.looked path }, none)) ∨
    ∃ key ic i h, recordAt s.inode_cache.metadb path = some h.value_ ∧ ic.handle i = some (key, h) ∧
      s.acquire path mode =
        ({ s with dentry_cache := s.looked path, inode_cache := ic }, some (key, i, h.value_)) := by
  unfold recordAt
  rw [← ht.found_eq path]
  rcases State.acquire_spec ht.counted path mode with ⟨ha, habs⟩ | ⟨key, name, ic, i, h, hf, ha, hp, ho, _⟩
  · refine .inl ⟨?_, ha⟩
    rcases hf : s.found path with _ | ⟨key, name⟩
    · rfl
    · exact (habs key name hf).2
  · obtain ⟨v, hv, _, he⟩ := ht.copied.got ho
    refine .inr ⟨key, ic, i, h, ?_, hp.self, ha⟩
    rw [hf, Option.bind_some, hv, he (State.writers_of_closed hfiles i)]

private theorem Tidy.getAttr_eq (path : CString) : (s.getAttr path).2 =
    match recordAt s.inode_cache.metadb path with
    | some v => { ret := 0, stat := some v.fstat }
    | none => fsError ENOENT := by
  unfold State.getAttr
  rcases ht.acquire_eq hfiles path .read with ⟨hr, ha⟩ | ⟨key, ic, i, h, hr, _, ha⟩
  · rw [ha, hr]
  · rw [ha, hr]

private theorem Tidy.readAt_eq (env : Env) (path : CString) (flags : OpenFlags) (size offset : Nat) :
    s.readAt env path flags size offset =
      match recordAt s.inode_cache.metadb path with
      | some v => recordRead env s.disk v flags size offset
      | none => fsError ENOENT := by
  unfold State.readAt State.openFile
  rcases ht.acquire_eq hfiles path flags.mode with ⟨hr, ha⟩ | ⟨key, ic, i, h, hr, hh, ha⟩
  · rw [ha, hr]
    rfl
  · rw [ha, hr]
    by_cases hb : 0 < h.value_.header.has_blob
    · simp [hb, State.read, State.fileOf, slot_push, hh, readValue, lazyOpen, recordRead]
    · simp [hb, State.read, State.fileOf, slot_push, hh, readValue, recordRead]

omit hfiles in
private theorem Tidy.readlink_eq (path : CString) (size : Nat) : (s.readlink path size).2 =
    match recordAt s.inode_cache.metadb path with
    | some v => { ret := 0, data := getInlineData v 0 ((size + 18446744073709551615) % 18446744073709551616) ++ [0] }
    | none => fsError ENOENT := by
  unfold State.readlink recordAt
  rw [State.lookup_eq, ← ht.found_eq path]
  rcases s.found path with _ | ⟨key, name⟩
  · rfl
  · simp only [Option.bind_some]
    cases s.inode_cache.metadb.lookup key <;> rfl

private theorem Tidy.listAt_eq (env : Env) (path : CString) : s.listAt env path =
    match resolve s.inode_cache.metadb path with
    | none => fsError ENOENT
    | some (key, _) =>
      match s.inode_cache.metadb.lookup key with
      | none => fsError env.errno
      | some v =>
        let r := listDir env.errno env.filler s.inode_cache.metadb v.fstat.st_ino
        { ret := r.1, names := r.2 } := by
  unfold State.listAt State.openDir
  rw [State.lookup_eq, ← ht.found_eq path]
  rcases s.found path with _ | ⟨key, name⟩
  · rfl
  · simp only
    rcases State.getInode_spec (s := { s with dentry_cache := s.looked path }) ht.counted key .read with
      ⟨hg, _, hm⟩ | ⟨ic, i, h, hg, hp, ho, _⟩
    · simp only [hg]
      rw [show s.inode_cache.metadb.lookup key = none from hm]
      rfl
    · obtain ⟨v, hv, _, he⟩ := ht.copied.got ho
      simp only [hg, hv]
      simp [State.readDir, State.dirOf, slot_push, hp.self, hp.metadb, he (State.writers_of_closed hfiles i)]

end Tidy

/-- Two tidy sessions with no file open, the same records and the same files give the same
results. -/
private theorem Tidy.same_results {s s' : State} (ht : Tidy s) (ht' : Tidy s') (hfiles : ∀ fh, slot s.files fh = none)
    (hfiles' : ∀ fh, slot s'.files fh = none) (hm : s'.inode_cache.metadb = s.inode_cache.metadb)
    (hn : s'.disk.names = s.disk.names) (hf : s'.disk.files = s.disk.files) :
    (∀ path, (s'.getAttr path).2 = (s.getAttr path).2) ∧
      (∀ env path flags size offset, s'.readAt env path flags size offset = s.readAt env path flags size offset) ∧
      (∀ path size, (s'.readlink path size).2 = (s.readlink path size).2) ∧
      ∀ env path, s'.listAt env path = s.listAt env path := by
  refine ⟨fun path => ?_, fun env path flags size offset => ?_, fun path size => ?_, fun env path => ?_⟩
  · rw [ht'.getAttr_eq hfiles', ht.getAttr_eq hfiles, hm]
  · rw [ht'.readAt_eq hfiles', ht.readAt_eq hfiles, hm]
    simp only [recordRead_congr hn hf]
  · rw [ht'.readlink_eq, ht.readlink_eq, hm]
  · rw [ht'.listAt_eq hfiles', ht.listAt_eq hfiles, hm]

/-- A careful request, after which fewer than 2^32 inode numbers were taken. -/
def Saving (s : State) (c : Env × Op) : Prop :=
  Careful s c ∧ (step s c).1.max_inode_num.toNat < 4294967296

instance (s : State) (c : Env × Op) : Decidable (Saving s c) := inferInstanceAs (Decidable (_ ∧ _))

/-- Along a run the caches stay in step, the numbers stay below the counter, and the counter
never goes back. -/
theorem Saving.run {s : State} (ht : Tidy s) (hn : s.Numbered) {calls : List (Env × Op)}
    (hok : Allowed step Saving s calls) :
    Tidy (run step s calls).1 ∧ (run step s calls).1.Numbered ∧
      s.max_inode_num ≤ (run step s calls).1.max_inode_num := by
  refine run_invariant (fun t => Tidy t ∧ t.Numbered ∧ s.max_inode_num ≤ t.max_inode_num) ?_
    ⟨ht, hn, UInt64.le_refl _⟩ hok
  rintro t c ⟨ht, hn, hle⟩ ⟨hc, hsmall⟩
  have hd := step_deed ht.counted c.1 c.2
  exact ⟨ht.step hc, hn.deed ht.counted hd hsmall, UInt64.le_trans hle (hd.counter_le hn.small)⟩

/-- A mount on what a clean unmount left finds the same records, if Init has no root record to
write or writes the one that is there. -/
private theorem metadb_remount {s : State} (hs : s.Counted) (hn : s.Numbered) (root_dat : Option Nat) (config : Config)
    (env : Env) (mode : UInt32) (dev : Nat)
    (hroot : s.max_inode_num = 0 → s.inode_cache.metadb.lookup rootKey = some (Volume.rootValue env mode dev)) :
    ((s.destroy root_dat true).mount config env mode dev).inode_cache.metadb = s.inode_cache.metadb ∧
      ((s.destroy root_dat true).mount config env mode dev).max_inode_num = s.max_inode_num := by
  have hc := (hn.destroy hs root_dat).2
  have hmax : UInt64.ofNat (s.destroy root_dat true).counter = s.max_inode_num := by
    rw [hc, UInt64.ofNat_toNat]
  refine ⟨?_, hmax⟩
  simp only [Volume.mount, hmax, hs.destroy]
  split
  · rename_i h0
    refine Finmap.ext_lookup fun k => ?_
    by_cases hk : k = rootKey
    · rw [hk, Finmap.lookup_insert, hroot h0.1]
    · rw [Finmap.lookup_insert_of_ne _ hk]
  · rfl

end TableFS

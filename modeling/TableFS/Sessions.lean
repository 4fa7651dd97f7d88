import TableFS.TidyCaches

/-! Sessions of the file system: FileSystemState::Setup and TableFS::Init on the directories
that the last session left, and TableFS::Destroy or a crash at its end. The counter of inode
numbers is in memory and goes to root.dat only when a session is destroyed. -/
namespace TableFS
open Slots InodeCache

/-- What outlasts a session: the store, the data files, and the number in root.dat if the file
is there. -/
structure Volume where
  metadb : MetaDB
  disk : Disk
  root_dat : Option Nat

namespace Volume

/-- Directories on which nothing was ever mounted. -/
def blank : Volume := ⟨∅, .empty, none⟩

/-- The number Setup finds in root.dat, which it writes if there is none. -/
def counter (vol : Volume) : Nat := vol.root_dat.getD 0

/-- The record that Init stores for the root directory. -/
def rootValue (env : Env) (mode : UInt32) (dev : Nat) : Value :=
  initInodeValue env.memory ROOT_INODE_ID mode dev [] env.context env.now

/-- Setup and Init: the root record is written if no inode number was ever taken, and both
caches start empty. -/
def mount (vol : Volume) (config : Config) (env : Env) (mode : UInt32) (dev : Nat) : State where
  threshold_ := config.threshold
  max_inode_num := .ofNat vol.counter
  inode_cache := ⟨.empty config.capacity config.shard,
    if UInt64.ofNat vol.counter = 0 ∧ env.put then vol.metadb.insert rootKey (rootValue env mode dev) else vol.metadb⟩
  dentry_cache := .empty config.maxsize
  disk := vol.disk
  files := []
  dirs := []

end Volume

/-- The destructor of the inode cache gives back the table's reference to every entry. Their
keys are distinct, so that the order of the shards does not matter. -/
def InodeCache.destroy (ic : InodeCache) : InodeCache := ic.evictAll ic.cache.table.keys.reverse

namespace State

/-- What a session leaves when the process dies: all that was handed to the store and to the operating system.
The descriptors go with the process. -/
def crash (s : State) (root_dat : Option Nat) : Volume :=
  ⟨s.inode_cache.metadb, { s.disk with fds := [] }, root_dat⟩

/-- TableFS::Destroy: the caches are deleted and the counter is written, as a 32-bit number, if
root.dat can be opened. -/
def destroy (s : State) (root_dat : Option Nat) (saved : Bool) : Volume :=
  { s with inode_cache := s.inode_cache.destroy }.crash
    (if saved then some (s.max_inode_num.toNat % 4294967296) else root_dat)

end State

/-- A fresh file system is one mounted on blank directories. -/
theorem mount_blank (config : Config) (env : Env) (hput : env.put = true) (mode : UInt32) (dev : Nat) :
    Volume.blank.mount config env mode dev = State.init config env mode dev := by
  simp only [Volume.mount, Volume.blank, Volume.counter, State.init, hput]
  rfl

theorem tidy_mount (vol : Volume) (config : Config) (env : Env) (mode : UInt32) (dev : Nat) :
    Tidy (vol.mount config env mode dev) := tidy_of_empty rfl rfl rfl rfl

/-- Deleting the caches writes nothing: what is to be saved is held by someone. -/
theorem State.Counted.destroy {s : State} (hs : s.Counted) (root_dat : Option Nat) (saved : Bool) :
    (s.destroy root_dat saved).metadb = s.inode_cache.metadb := Sound.evictAll hs _

/-! The numbers in use never pass the counter. -/

/-- No value in the store or behind a handle has a number beyond the counter, and the counter
fits into the 32 bits that root.dat keeps of it. -/
structure State.Numbered (s : State) : Prop where
  bound : s.inode_cache.Every fun _ v => v.fstat.st_ino ≤ s.max_inode_num
  small : s.max_inode_num.toNat < 4294967296

/-- No record has a number beyond the one in root.dat. -/
structure Volume.Numbered (vol : Volume) : Prop where
  bound : ∀ k v, vol.metadb.lookup k = some v → v.fstat.st_ino.toNat ≤ vol.counter
  small : vol.counter < 4294967296

section
variable {s s' : State} {c : Env × Op}

theorem Deed.counter (hd : Deed s c s') :
    s'.max_inode_num = s.max_inode_num ∨ s'.max_inode_num = s.max_inode_num + 1 := by
  cases hd with
  | put _ _ _ _ _ _ _ hn => exact .inr hn
  | unput _ _ _ _ hn => exact .inr hn
  | idle _ _ _ hn => exact .inl hn
  | peek _ _ _ _ _ _ hn => exact .inl hn
  | modify _ _ _ _ _ _ _ _ hn => exact .inl hn
  | remove _ _ _ _ _ _ _ _ _ hn => exact .inl hn
  | move _ _ _ _ _ _ _ _ _ hn => exact .inl hn
  | opened _ _ _ _ _ _ _ hn => exact .inl hn
  | openedDir _ _ _ _ _ _ _ hn => exact .inl hn
  | wrote _ _ _ _ _ hn => exact .inl hn
  | closed _ _ _ _ _ _ _ _ hn => exact .inl hn
  | closedDir _ _ _ _ _ hn => exact .inl hn

theorem lt_next {n : UInt64} (h : n.toNat < 4294967296) : n < n + 1 := by
  rw [UInt64.lt_iff_toNat_lt, UInt64.toNat_add]
  have : (1 : UInt64).toNat = 1 := rfl
  omega

theorem Deed.counter_le (hd : Deed s c s') (hs : s.max_inode_num.toNat < 4294967296) :
    s.max_inode_num ≤ s'.max_inode_num := by
  rcases hd.counter with h | h
  · rw [h]
    exact UInt64.le_refl _
  · rw [h]
    exact UInt64.le_of_lt (lt_next hs)

theorem State.Numbered.deed (hn : s.Numbered) (hs : s.Counted) (hd : Deed s c s')
    (hsmall : s'.max_inode_num.toNat < 4294967296) : s'.Numbered := by
  have hle := hd.counter_le hn.small
  have hold : s.inode_cache.Every fun _ v => v.fstat.st_ino ≤ s'.max_inode_num :=
    ⟨fun k v h => UInt64.le_trans (hn.bound.stored k v h) hle,
      fun i k h hh => UInt64.le_trans (hn.bound.cached i k h hh) hle⟩
  refine ⟨hd.every hs ?_ ?_ ?_ hold, hsmall⟩
  · intro k v v' hv hk
    rw [hk.ino]
    exact hv
  · intro _ _ _ v _ _ _ hino hnum
    rw [hino, hnum]
    exact UInt64.le_refl _
  · intro old_path new_path old key name v _ _ hv
    exact hv

end

theorem Volume.Numbered.mount {vol : Volume} (hv : vol.Numbered) (config : Config) (env : Env) (mode : UInt32)
    (dev : Nat) : (vol.mount config env mode dev).Numbered := by
  have hnat : (UInt64.ofNat vol.counter).toNat = vol.counter := by
    rw [UInt64.toNat_ofNat_of_lt']
    have := hv.small
    simp only [UInt64.size]
    omega
  have hold (k : MetaKey) (v : Value) (h : vol.metadb.lookup k = some v) :
      v.fstat.st_ino ≤ (vol.mount config env mode dev).max_inode_num := by
    rw [UInt64.le_iff_toNat_le]
    exact (hv.bound k v h).trans (Nat.le_of_eq hnat.symm)
  refine ⟨⟨fun k v h => ?_, fun i k h hh => ?_⟩, ?_⟩
  · simp only [Volume.mount] at h
    split at h
    · rcases DentryCache.lookup_insert_some h with ⟨rfl, rfl⟩ | ⟨_, h⟩
      · exact UInt64.le_iff_toNat_le.mpr (Nat.zero_le _)
      · exact hold k v h
    · exact hold k v h
  · simp [Volume.mount, handle, PinnedLru.LRUCache.empty, PinnedLru.LRUCache.data] at hh
  · exact hnat ▸ hv.small

theorem Volume.numbered_blank : Volume.blank.Numbered :=
  ⟨fun k v h => by simp [Volume.blank] at h, by decide⟩

/-- The volume a clean unmount leaves. -/
theorem State.Numbered.destroy {s : State} (hn : s.Numbered) (hs : s.Counted) (root_dat : Option Nat) :
    (s.destroy root_dat true).Numbered ∧ (s.destroy root_dat true).counter = s.max_inode_num.toNat := by
  have hc : (s.destroy root_dat true).counter = s.max_inode_num.toNat := Nat.mod_eq_of_lt hn.small
  refine ⟨⟨fun k v h => ?_, hc ▸ hn.small⟩, hc⟩
  rw [hs.destroy] at h
  rw [hc]
  exact UInt64.le_iff_toNat_le.mp (hn.bound.stored k v h)

end TableFS

import TableFS.DiskSteps
import TableFS.Extents

/-! In every run the size of a file is on the side of the threshold where its data is kept, and
in the runs without links and without failing copies it counts the inline bytes. -/
namespace TableFS
open ByteSeq Slots InodeCache Runs

/-- Every size is on the side of the threshold where the data is. -/
def State.Ranged (s : State) : Prop := s.inode_cache.Every fun _ v => v.Sized ∧ v.extent.Ranged s.threshold_

private theorem extent_of_made {inode : UInt64} {filename : List UInt8} {c : Env × Op} {v : Value}
    (h : Made inode filename c v) :
    ∃ inline, v.extent = ⟨0, 0, inline⟩ ∧ (inline = [] ∨ ∃ target path, c.2 = .symlink target path ∧ inline = target.val) := by
  cases h with
  | node => exact ⟨_, rfl, .inl (by simp [initInodeValue, Value.inline])⟩
  | dir => exact ⟨_, rfl, .inl (by simp [initInodeValue, Value.inline])⟩
  | @link env target path => exact ⟨_, rfl, .inr ⟨target, path, rfl, by simp [initSymlinkValue, Value.inline]⟩⟩

private theorem keptBy_extent {s : State} {env : Env} {op : Op} {P : Extent → Prop}
    (hwrite : ∀ fh fi_flags buf offset f key h, op = .write fh fi_flags buf offset →
      s.fileOf fh = some (f, key, h) → h.value_.Sized → P h.value_.extent →
        P (writeValue env s.threshold_ s.disk h.value_ f.fd_ f.flags_ fi_flags buf offset).2.1.extent)
    (htruncate : ∀ path n v, op = .truncate path n → v.Sized → P v.extent →
      P (truncateValue env s.threshold_ s.disk v n).2.1.extent)
    (hmade : ∀ inline, (inline = [] ∨ ∃ target path, op = .symlink target path ∧ inline = target.val) →
      P ⟨0, 0, inline⟩) :
    KeptBy s (env, op) fun _ v => v.Sized ∧ P v.extent := by
  refine ⟨fun k v v' hv hr => ⟨hr.keeps.sized hv.1, ?_⟩, fun path key name v _ _ hm => ⟨hm.named.sized, ?_⟩,
    fun _ _ _ _ name v _ _ hv => ⟨(named_renameInodeValue v name).sized, ?_⟩⟩
  · obtain ⟨hsized, hv⟩ := hv
    cases hr with
    | refl => exact hv
    | attr _ hsize =>
      rw [extent_updateAttribute hsize]
      exact hv
    | written hf => exact hwrite _ _ _ _ _ _ _ rfl hf hsized hv
    | truncated => exact htruncate _ _ _ rfl hsized hv
  · obtain ⟨inline, he, hinline⟩ := extent_of_made hm
    rw [he]
    exact hmade inline hinline
  · rw [extent_renameInodeValue]
    exact hv.2

theorem State.Ranged.step {s : State} (h : s.Ranged) (hs : s.Counted) (env : Env) (op : Op) :
    (step s (env, op)).1.Ranged := by
  unfold State.Ranged
  rw [step_threshold]
  refine KeptBy.step hs (keptBy_extent ?_ ?_ fun inline _ => Extent.ranged_empty _ inline) h
  · intro fh fi_flags buf offset f key h _ _ hsized hv
    exact hv.writeValue hsized _ _ _ _
  · intro path n v _ hsized hv
    exact hv.truncateValue hsized _

private theorem State.ranged_init (config : Config) (env : Env) (mode : UInt32) (dev : Nat) :
    (State.init config env mode dev).Ranged := by
  refine ⟨fun k v hk => ?_, fun i k h hd => ?_⟩
  · rcases DentryCache.lookup_insert_some (m := ∅) hk with ⟨rfl, rfl⟩ | ⟨_, hk⟩
    · exact ⟨(named_initInodeValue ..).sized, Extent.ranged_empty _ _⟩
    · simp at hk
  · simp [State.init, handle, PinnedLru.LRUCache.empty, PinnedLru.LRUCache.data] at hd

theorem Reachable.ranged {s : State} (h : Reachable s) : s.Ranged := by
  obtain ⟨config, env, mode, dev, calls, rfl⟩ := h
  have hrun : Allowed step (fun _ _ => True) (State.init config env mode dev) calls :=
    allowed_of_forall (fun _ _ => trivial) _ _
  exact (run_invariant (fun s => s.Ok ∧ s.Ranged) (fun s c hs _ => ⟨hs.1.step c.1 c.2, hs.2.step hs.1.counted c.1 c.2⟩)
    ⟨State.ok_init config env mode dev, State.ranged_init config env mode dev⟩ hrun).2

/-- Requests after which sizes still count inline bytes: no links to anything, and no Write whose
copy of inline data to the disk fails. -/
def Sizing (s : State) : Env × Op → Prop
  | (_, .symlink target _) => target.val = []
  | (env, .write fh fi_flags buf offset) => ∀ x ∈ s.fileOf fh, x.2.2.value_.header.has_blob = 0 →
      s.threshold_ < offset + buf.length → 0 < x.2.2.value_.fstat.st_size →
      env.migrate = .full ∧ fi_flags.writable = true
  | _ => True

instance (s : State) (c : Env × Op) : Decidable (Sizing s c) := by
  obtain ⟨env, op⟩ := c
  induction op using Op.casesOn with
  | symlink target path => exact inferInstanceAs (Decidable (target.val = []))
  | write fh fi_flags buf offset => exact inferInstanceAs (Decidable (∀ x ∈ s.fileOf fh, _))
  | _ => exact inferInstanceAs (Decidable True)

/-- Every size counts the inline bytes. -/
def State.Exact (s : State) : Prop :=
  s.inode_cache.Every fun _ v => v.Sized ∧ v.extent.Ranged s.threshold_ ∧ v.extent.Exact

theorem State.Exact.step {s : State} (h : s.Exact) (hs : s.Counted) (hthr : s.threshold_ < 2147483648) {env : Env}
    {op : Op} (hc : Sizing s (env, op)) : (step s (env, op)).1.Exact := by
  unfold State.Exact
  rw [step_threshold]
  refine KeptBy.step hs (keptBy_extent (P := fun e => e.Ranged s.threshold_ ∧ e.Exact) ?_ ?_ ?_) h
  · rintro fh fi_flags buf offset f key h rfl hf hsized ⟨hr, he⟩
    refine ⟨hr.writeValue hsized _ _ _ _, he.writeValue hsized _ _ hthr fun hb hbig hpos => ?_⟩
    obtain ⟨hio, hw⟩ := hc _ hf hb hbig hpos
    exact migrateToDiskFile_ret hio hw
  · rintro path n v rfl hsized ⟨hr, he⟩
    exact ⟨hr.truncateValue hsized n, he.truncateValue hr hsized n⟩
  · rintro inline hinline
    have hnil : inline = [] := by
      rcases hinline with hnil | ⟨target, path, rfl, rfl⟩
      · exact hnil
      · exact hc
    exact ⟨Extent.ranged_empty _ _, fun _ => by rw [hnil]; rfl, fun _ => hnil⟩

private theorem State.exact_init (config : Config) (env : Env) (mode : UInt32) (dev : Nat) :
    (State.init config env mode dev).Exact := by
  have hr := State.ranged_init config env mode dev
  refine ⟨fun k v hk => ⟨(hr.stored k v hk).1, (hr.stored k v hk).2, ?_⟩, fun i k h hd => ?_⟩
  · rcases DentryCache.lookup_insert_some (m := ∅) hk with ⟨rfl, rfl⟩ | ⟨_, hk⟩
    · exact ⟨fun _ => rfl, fun _ => rfl⟩
    · simp at hk
  · simp [State.init, handle, PinnedLru.LRUCache.empty, PinnedLru.LRUCache.data] at hd

/-- Where no link is made and no copy to the disk fails, the length of every record without a disk
file is that of its header, its name with the terminator and `st_size` bytes. -/
theorem st_size_counts_inline (config : Config) (hthr : config.threshold < 2147483648) (env : Env) (mode : UInt32)
    (dev : Nat) {calls : List (Env × Op)} (hok : Allowed step Sizing (State.init config env mode dev) calls) :
    let s := (run step (State.init config env mode dev) calls).1
    ∀ k v, s.inode_cache.metadb.lookup k = some v → v.header.has_blob = 0 →
      v.body.length = v.header.namelen + 1 + v.fstat.st_size := by
  intro s k v hk hb
  have hrun := run_invariant (fun s => s.Ok ∧ s.threshold_ = config.threshold ∧ s.Exact)
    (fun s c hs hc => ⟨hs.1.step c.1 c.2, (step_threshold s c.1 c.2).trans hs.2.1,
      hs.2.2.step hs.1.counted (hs.2.1 ▸ hthr) hc⟩)
    ⟨State.ok_init config env mode dev, rfl, State.exact_init config env mode dev⟩ hok
  obtain ⟨hsized, _, hexact⟩ := hrun.2.2.stored k v hk
  have hlen : v.inline.length = v.fstat.st_size := hexact.length hb
  unfold Value.Sized at hsized
  rw [Value.inline, List.length_drop] at hlen
  omega

/-- A file that is written inline, moved to the disk, cut back and renamed. -/
theorem st_size_counts_inline_moved :
    let calls := calmly [.makeDir (inRoot [100]) 0, .makeNode (inRoot [97]) 0 0, .openFile (inRoot [97]) O_RDWR,
      .write 0 O_RDWR [1, 2, 3] 0, .write 0 O_RDWR [4, 5, 6] 3, .release 0, .truncate (inRoot [97]) 2,
      .rename (inRoot [97]) (inRoot [98])]
    ∀ k v, (run step (State.fresh 4) calls).1.inode_cache.metadb.lookup k = some v → v.header.has_blob = 0 →
      v.body.length = v.header.namelen + 1 + v.fstat.st_size := by
  intro calls
  have hok : Allowed step Sizing (State.fresh 4) calls := by decide +kernel
  unfold State.fresh at hok ⊢
  exact st_size_counts_inline (.source 4) (show 4 < 2147483648 by omega) .calm S_IFDIR 0 hok

/-- The record of a link has its target but size 0. A file of one byte whose copy to the disk
fails has no byte left and size 1. -/
theorem st_size_not_counted :
    let linked := (run step (State.fresh 4) (calmly [.symlink ⟨[116], by decide⟩ (inRoot [108])])).1
    let failed := (run step (State.fresh 4) (calmly [.makeNode (inRoot [97]) 0 0, .openFile (inRoot [97]) O_RDWR,
      .write 0 O_RDWR [1] 0] ++ [({ Env.calm with migrate := .fail 28 (by decide) }, .write 0 O_RDWR [2] 9)] ++
      calmly [.release 0])).1
    (linked.files.all (·.isNone) ∧ ∃ v ∈ linked.inode_cache.metadb.lookup (buildMetaKey [108] ROOT_INODE_ID),
        v.header.has_blob = 0 ∧ v.inline = [116] ∧ v.fstat.st_size = 0) ∧
      failed.files.all (·.isNone) ∧ ∃ v ∈ failed.inode_cache.metadb.lookup (buildMetaKey [97] ROOT_INODE_ID),
        v.header.has_blob = 0 ∧ v.inline = [] ∧ v.fstat.st_size = 1 := by
  decide +kernel

end TableFS

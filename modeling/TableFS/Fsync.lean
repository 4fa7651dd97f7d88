import TableFS.Sessions
import TableFS.Extents

/-! TableFS::Fsync after any Writes through a handle, and a crash of the machine after it. What was
put into the store or written to a data file is lost in the crash unless it was synced. Inline data
and the header live in the handle's cached value until something writes it back; Fsync syncs the
store without writing the value to it, and negates the results of the calls it makes. -/
namespace TableFS
open ByteSeq Slots InodeCache Runs

/-- What a crash of the machine leaves: the records of the store and the bytes of every data file that
are safely on disk. -/
structure Persistent where
  metadb : MetaDB
  files : Nat → List UInt8

/-- fsync(2) on a handle's descriptor; `ok` tells whether the data reaches the disk. -/
def Disk.fsync (d : Disk) (fd : Option Nat) (ok : Bool) (files : Nat → List UInt8) : (Nat → List UInt8) × Int :=
  match fd.bind (slot d.fds) with
  | some x => if ok then (Function.update files x.file (d.contents x.file), 0) else (files, -1)
  | none => (files, -1)

/-- The Sync of the store: with it all earlier Puts are on disk, unless it fails. -/
def syncStore (metadb synced : MetaDB) (ok : Bool) : MetaDB × Int := if ok then (metadb, 0) else (synced, -1)

/-- `file` and `store` are the outcomes of fsync and of the store's Sync. Of the state nothing changes; the
result is what is on disk afterwards. -/
def State.fsync (s : State) (kept : Persistent) (fh datasync : Nat) (file store : Bool) : Persistent × Result :=
  match s.fileOf fh with
  | none => (kept, fsError EBADF)
  | some (f, _, handle) =>
    if handle.mode_ = .write then
      let (files, ret) := if 0 < handle.value_.header.has_blob then s.disk.fsync f.fd_ file kept.files else (kept.files, 0)
      let (metadb, ret) := if datasync = 0 then syncStore s.inode_cache.metadb kept.metadb store else (kept.metadb, ret)
      (⟨metadb, files⟩, { ret := -ret })
    else (kept, { ret := 0 })

/-- The directories after a crash of the machine. The directory entries of the data files are there, with what
is safely on disk of the files. -/
def State.powerLoss (s : State) (kept : Persistent) (root_dat : Option Nat) : Volume :=
  ⟨kept.metadb, { names := s.disk.names, files := (List.range s.disk.files.length).map kept.files, fds := [] },
    root_dat⟩

/-- A call that Fsync makes fails. -/
def State.SyncFails (s : State) (kept : Persistent) (fh datasync : Nat) (file store : Bool) : Prop :=
  ∃ x ∈ s.fileOf fh, x.2.2.mode_ = .write ∧
    ((0 < x.2.2.value_.header.has_blob ∧ (s.disk.fsync x.1.fd_ file kept.files).2 = -1) ∨
      (datasync = 0 ∧ (syncStore s.inode_cache.metadb kept.metadb store).2 = -1))

instance (s : State) (kept : Persistent) (fh datasync : Nat) (file store : Bool) :
    Decidable (s.SyncFails kept fh datasync file store) := inferInstanceAs (Decidable (∃ x ∈ s.fileOf fh, _))

/-- What a Write through a handle is asked for, and its surroundings. -/
structure WriteCall where
  env : Env
  fi_flags : OpenFlags
  buf : List UInt8
  offset : Nat

namespace WriteCall

def stop (w : WriteCall) : Nat := w.offset + w.buf.length

def call (fh : Nat) (w : WriteCall) : Env × Op := (w.env, .write fh w.fi_flags w.buf w.offset)

end WriteCall

/-- What a Write that is completed makes of the data: beyond the threshold it goes to disk, and
a file on disk only gets its size. -/
def Extent.write (threshold : Nat) (e : Extent) (w : WriteCall) : Extent :=
  if 0 < e.has_blob then { e with st_size := max e.st_size w.stop }
  else if threshold < w.stop then ⟨w.stop, 1, e.copied⟩
  else ⟨max e.st_size w.stop, 0, overlay 0 w.offset w.buf e.inline⟩

/-- The directories hold what the handles on a key see: the size, the flag and the inline bytes in the record,
and the bytes of the data file behind the descriptor. -/
structure State.Survives (s : State) (vol : Volume) (f : FileHandle) (key : MetaKey) (h : InodeCacheHandle) : Prop where
  record : ∃ r, vol.metadb.lookup key = some r ∧ r.extent = h.value_.extent
  data : 0 < h.value_.header.has_blob → ∀ n x, f.fd_ = some n → slot s.disk.fds n = some x →
    vol.disk.contents x.file = s.disk.contents x.file

/-- After the Writes that led to `s`, Fsync returns 0 only if a crash would leave the handle's
data, and a negative value if one of its calls fails. -/
def State.Durable (s : State) (kept : Persistent) (fh : Nat) (file store : Bool) (root_dat : Option Nat) : Prop :=
  (∀ f key h, s.fileOf fh = some (f, key, h) → (s.fsync kept fh 0 file store).2.ret = 0 →
    s.Survives (s.powerLoss (s.fsync kept fh 0 file store).1 root_dat) f key h) ∧
  ∀ datasync, s.SyncFails kept fh datasync file store → (s.fsync kept fh datasync file store).2.ret < 0

/-- The Writes stay within the file and, where its data is inline, put back what is there. -/
structure Rests (threshold : Nat) (e : Extent) (ws : List WriteCall) : Prop where
  within : ∀ w ∈ ws, w.stop ≤ e.st_size
  inline : e.has_blob = 0 → (∀ w ∈ ws, w.stop ≤ threshold) ∧
    ws.foldl (fun b w => overlay 0 w.offset w.buf b) e.inline = e.inline

private theorem extent_completed {threshold : Nat} {d : Disk} {v : Value} {fd : Option Nat} (hs : v.Sized)
    (flags : OpenFlags) (w : WriteCall)
    (hret : 0 ≤ (writeValue w.env threshold d v fd flags w.fi_flags w.buf w.offset).2.2.2) :
    (writeValue w.env threshold d v fd flags w.fi_flags w.buf w.offset).2.1.extent = v.extent.write threshold w := by
  have hblob : v.extent.has_blob = v.header.has_blob := rfl
  rcases extent_writeValue hs w.env threshold d fd flags w.fi_flags w.buf
    w.offset with ⟨hb, he⟩ | ⟨_, _, _, hneg, _⟩ | ⟨hb, hbig, _, he⟩ | ⟨hb, hle, _, he⟩
  · rw [he, if_pos hret, Extent.write, if_pos (hblob ▸ hb)]
    rfl
  · exact absurd hret (Int.not_le.mpr hneg)
  · rw [he, Extent.write, if_neg (by omega), if_pos (show threshold < w.stop from hbig)]
    rfl
  · rw [he, if_pos hret, Extent.write, if_neg (by omega),
      if_neg (show ¬ threshold < w.stop from Nat.not_lt.mpr hle)]
    rfl

section Writes
variable {s : State} {fh : Nat} {f : FileHandle} {key : MetaKey} {h : InodeCacheHandle}

private theorem write_spec (hf : s.fileOf fh = some (f, key, h)) (w : WriteCall) :
    let r := writeValue w.env s.threshold_ s.disk h.value_ f.fd_ f.flags_ w.fi_flags w.buf w.offset
    (step s (w.call fh)).2.ret = r.2.2.2 ∧ (step s (w.call fh)).1.threshold_ = s.threshold_ ∧
      (step s (w.call fh)).1.inode_cache.metadb = s.inode_cache.metadb ∧
      (step s (w.call fh)).1.fileOf fh = some ({ f with fd_ := r.2.2.1 }, key, ⟨r.2.1, .write⟩) := by
  have hfile := fileOf_write hf w.env w.fi_flags w.buf w.offset (State.fileOf_some.mp hf).1 rfl
  simp only [if_true] at hfile
  refine ⟨?_, ?_, ?_, hfile⟩ <;> simp only [WriteCall.call, step, State.write, hf]
  rfl

/-- The handle after completed Writes: its data is what they ask for, and the record in the
store is the one from before them. -/
private theorem run_writes (hs : s.Ok) (hf : s.fileOf fh = some (f, key, h)) (ws : List WriteCall)
    (hdone : ∀ r ∈ (run step s (ws.map (·.call fh))).2, 0 ≤ r.ret) :
    ∃ f' h', (run step s (ws.map (·.call fh))).1.fileOf fh = some (f', key, h') ∧
      h'.value_.extent = ws.foldl (Extent.write s.threshold_) h.value_.extent ∧
      (ws ≠ [] ∨ h.mode_ = .write → h'.mode_ = .write) ∧
      (run step s (ws.map (·.call fh))).1.inode_cache.metadb = s.inode_cache.metadb := by
  induction ws generalizing s f h with
  | nil => exact ⟨f, h, hf, rfl, fun hw => hw.resolve_left fun hne => hne rfl, rfl⟩
  | cons w ws ih =>
    obtain ⟨hret, hthr, hdb, hf'⟩ := write_spec hf w
    have hsized := (hs.wellFormed.cached _ _ _ (State.fileOf_some.mp hf).2).named.sized
    have hfirst := hdone _ List.mem_cons_self
    rw [hret] at hfirst
    have hok : (step s (w.call fh)).1.Ok := hs.step w.env _
    obtain ⟨f', h', hrun, hext, hmode, hm⟩ := ih hok hf' fun r hr => hdone r (List.mem_cons_of_mem _ hr)
    refine ⟨f', h', hrun, ?_, fun _ => hmode (.inr rfl), hm.trans hdb⟩
    rw [hext, hthr, extent_completed hsized f.flags_ w hfirst]
    rfl

end Writes

section Fsync
variable {s : State} {kept : Persistent} {fh : Nat} {f : FileHandle} {key : MetaKey} {h : InodeCacheHandle}
  {file store : Bool}

private theorem disk_fsync_snd_le (d : Disk) (fd : Option Nat) (ok : Bool) (files : Nat → List UInt8) :
    (d.fsync fd ok files).2 ≤ 0 := by
  unfold Disk.fsync
  split
  · split <;> simp
  · simp

private theorem syncStore_snd_le (metadb synced : MetaDB) (ok : Bool) : (syncStore metadb synced ok).2 ≤ 0 := by
  unfold syncStore
  split <;> simp

/-- Without an error fsync leaves the file behind the descriptor on disk. -/
private theorem disk_fsync_fst {d : Disk} {fd : Option Nat} {ok : Bool} {files : Nat → List UInt8}
    (hok : (d.fsync fd ok files).2 ≠ -1) {n : Nat} {x : Descriptor} (hfd : fd = some n) (hx : slot d.fds n = some x) :
    (d.fsync fd ok files).1 x.file = d.contents x.file := by
  unfold Disk.fsync at hok ⊢
  simp only [hfd, Option.bind_some, hx] at hok ⊢
  cases ok with
  | true => simp
  | false => simp at hok

private theorem fsync_ret_nonneg (hf : s.fileOf fh = some (f, key, h)) (datasync : Nat) :
    0 ≤ (s.fsync kept fh datasync file store).2.ret := by
  have hfile := disk_fsync_snd_le s.disk f.fd_ file kept.files
  have hstore := syncStore_snd_le s.inode_cache.metadb kept.metadb store
  simp only [State.fsync, hf]
  split
  · dsimp only
    split
    · omega
    · dsimp only
      split
      · omega
      · exact Int.le_refl 0
  · exact Int.le_refl 0

private theorem fsync_of_clean (hf : s.fileOf fh = some (f, key, h)) (hm : h.mode_ ≠ .write) (datasync : Nat) :
    s.fsync kept fh datasync file store = (kept, { ret := 0 }) := by
  simp only [State.fsync, hf, if_neg hm]

/-- If none of its calls fails, Fsync through a handle that was written to returns 0, and the records of the
store and the data file behind the descriptor are on disk. -/
private theorem fsync_of_written (hf : s.fileOf fh = some (f, key, h)) (hm : h.mode_ = .write)
    (hok : ¬ s.SyncFails kept fh 0 file store) :
    (s.fsync kept fh 0 file store).2.ret = 0 ∧ (s.fsync kept fh 0 file store).1.metadb = s.inode_cache.metadb ∧
      (0 < h.value_.header.has_blob → ∀ n x, f.fd_ = some n → slot s.disk.fds n = some x →
        (s.fsync kept fh 0 file store).1.files x.file = s.disk.contents x.file) := by
  have hstore : store = true := by
    cases store with
    | true => rfl
    | false => exact absurd ⟨_, hf, hm, .inr ⟨rfl, rfl⟩⟩ hok
  have hfile (hb : 0 < h.value_.header.has_blob) : (s.disk.fsync f.fd_ file kept.files).2 ≠ -1 :=
    fun he => hok ⟨_, hf, hm, .inl ⟨hb, he⟩⟩
  subst hstore
  simp only [State.fsync, hf, if_pos hm, syncStore, if_true]
  refine ⟨rfl, trivial, fun hb n x hfd hx => ?_⟩
  rw [if_pos hb]
  exact disk_fsync_fst (hfile hb) hfd hx

private theorem contents_powerLoss {i : Nat} (hk : kept.files i = s.disk.contents i) (root_dat : Option Nat) :
    (s.powerLoss kept root_dat).disk.contents i = s.disk.contents i := by
  by_cases hi : i < s.disk.files.length
  · simp [State.powerLoss, Disk.contents, hi, hk]
  · simp [State.powerLoss, Disk.contents, hi]

end Fsync

section Rests
variable {threshold : Nat} {e : Extent}

private theorem foldl_max_le (ws : List WriteCall) (n m : Nat) :
    ws.foldl (fun n w => max n w.stop) n ≤ m ↔ n ≤ m ∧ ∀ w ∈ ws, w.stop ≤ m := by
  induction ws generalizing n with
  | nil => simp
  | cons w ws ih =>
    rw [List.foldl_cons, ih, Nat.max_le, List.forall_mem_cons, and_assoc]

private theorem foldl_max_eq (ws : List WriteCall) (n : Nat) :
    ws.foldl (fun n w => max n w.stop) n = n ↔ ∀ w ∈ ws, w.stop ≤ n := by
  have hle := foldl_max_le ws n
  constructor
  · intro h
    exact ((hle n).mp (Nat.le_of_eq h)).2
  · intro h
    exact Nat.le_antisymm ((hle n).mpr ⟨Nat.le_refl n, h⟩) ((hle _).mp (Nat.le_refl _)).1

private theorem foldl_write_disk (hb : 0 < e.has_blob) (ws : List WriteCall) :
    ws.foldl (Extent.write threshold) e = { e with st_size := ws.foldl (fun n w => max n w.stop) e.st_size } := by
  induction ws generalizing e with
  | nil => rfl
  | cons w ws ih =>
    have hw : e.write threshold w = { e with st_size := max e.st_size w.stop } := by simp [Extent.write, hb]
    rw [List.foldl_cons, hw]
    exact ih (e := { e with st_size := max e.st_size w.stop }) hb

private theorem foldl_write_inline (hb : e.has_blob = 0) {ws : List WriteCall} (hle : ∀ w ∈ ws, w.stop ≤ threshold) :
    ws.foldl (Extent.write threshold) e = ⟨ws.foldl (fun n w => max n w.stop) e.st_size, 0,
      ws.foldl (fun b w => overlay 0 w.offset w.buf b) e.inline⟩ := by
  induction ws generalizing e with
  | nil =>
    rw [← hb]
    rfl
  | cons w ws ih =>
    have hw : e.write threshold w = ⟨max e.st_size w.stop, 0, overlay 0 w.offset w.buf e.inline⟩ := by
      have := hle w List.mem_cons_self
      simp [Extent.write, hb, Nat.not_lt.mpr this]
    rw [List.foldl_cons, hw, ih rfl fun x hx => hle x (List.mem_cons_of_mem _ hx)]
    rfl

private theorem foldl_write_moved {ws : List WriteCall} (h : ∃ w ∈ ws, threshold < w.stop) :
    0 < (ws.foldl (Extent.write threshold) e).has_blob := by
  induction ws generalizing e with
  | nil => simp at h
  | cons w ws ih =>
    rw [List.foldl_cons]
    rcases Nat.eq_zero_or_pos (e.write threshold w).has_blob with h0 | hpos
    · refine ih ?_
      obtain ⟨x, hx, hlt⟩ := h
      rcases List.mem_cons.mp hx with rfl | hx
      · by_cases hb : 0 < e.has_blob
        · simp [Extent.write, hb, Nat.ne_of_gt hb] at h0
        · simp [Extent.write, hb, hlt] at h0
      · exact ⟨x, hx, hlt⟩
    · rw [foldl_write_disk hpos]
      exact hpos

/-- The Writes leave a file's data as it was exactly if they stay within the file and, inline,
put back what is there. -/
private theorem foldl_write_eq_iff (ws : List WriteCall) :
    ws.foldl (Extent.write threshold) e = e ↔ Rests threshold e ws := by
  rcases Nat.eq_zero_or_pos e.has_blob with hb | hb
  · by_cases hle : ∀ w ∈ ws, w.stop ≤ threshold
    · rw [foldl_write_inline hb hle]
      refine ⟨fun h => ⟨?_, fun _ => ⟨hle, congrArg Extent.inline h⟩⟩, fun h => ?_⟩
      · exact (foldl_max_eq ws _).mp (congrArg Extent.st_size h)
      · rw [(foldl_max_eq ws _).mpr h.within, (h.inline hb).2, ← hb]
    · have hmoved : 0 < (ws.foldl (Extent.write threshold) e).has_blob :=
        foldl_write_moved (by simpa using hle)
      refine ⟨fun h => ?_, fun h => absurd (h.inline hb).1 hle⟩
      rw [h] at hmoved
      omega
  · rw [foldl_write_disk hb]
    refine ⟨fun h => ⟨(foldl_max_eq ws _).mp (congrArg Extent.st_size h), fun h0 => absurd h0 (Nat.ne_of_gt hb)⟩,
      fun h => ?_⟩
    rw [(foldl_max_eq ws _).mpr h.within]

end Rests

/-- Nothing kept on disk so far. -/
def Persistent.none : Persistent := ⟨∅, fun _ => []⟩

end TableFS

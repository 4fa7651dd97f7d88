import TableFS.ByteFiles

/-! Each data request on the machine without caches answers as on plain byte lists. -/
namespace TableFS
open ByteSeq Slots Disk

section
variable {σ : Scope} {threshold : Nat} {p : Plain} {b : ByteFS} {d d' : Disk} {v v' : Value} {fd fd' : Option Nat}
  {bytes : List UInt8}
  {key : MetaKey} {path : CString} {env : Env} {work : MetaKey → Option InodeCacheHandle}
  {files : List (Option PlainFile)} {fh : Nat} {f : PlainFile} {h : InodeCacheHandle}

private theorem ByteFS.store_self {n : ByteNode} (hn : b.nodes key = some n) (bfiles : List (Option MetaKey)) :
    { b.store key n n.bytes with files := bfiles } = { b with files := bfiles } := by
  have he : Function.update b.nodes key (some ⟨n.ino, n.bytes⟩) = b.nodes := by
    rw [show some (⟨n.ino, n.bytes⟩ : ByteNode) = b.nodes key from hn.symm]
    exact Function.update_eq_self key b.nodes
  simp only [ByteFS.store, he]

private theorem Handles.not_own (H : Handles d work files) {fh' n : Nat} {f' : PlainFile}
    (hf' : slot files fh' = some f') (hn : f'.fd_ = some n) (hfd : fd ≠ some n) : ¬ Own d fd n := by
  rintro (hfree | hown)
  · obtain ⟨_, h, _, hu⟩ := H.usable fh' f' hf'
    exact (hu n hn).1 hfree
  · exact hfd hown

private theorem Handles.fd_ne (H : Handles d work files) (hf : slot files fh = some f) {fh' n : Nat} {f' : PlainFile}
    (hf' : slot files fh' = some f') (hne : fh' ≠ fh) (hn : f'.fd_ = some n) : f.fd_ ≠ some n :=
  fun hown => hne (H.owner fh' fh f' f n hf' hf hn hown)

private theorem Housed.handles_replace (hb : Housed σ p b) (hf : slot p.files fh = some f) (hw : p.work f.key = some h)
    (he : Effect threshold p.disk h.value_ f.fd_ d' v' bytes) (hhold : Holds p.disk f.fd_ d' v' fd')
    (hup : h.value_.header.has_blob = 0 → v'.header.has_blob ≠ 0 →
      ∀ fh' f', fh' ≠ fh → slot p.files fh' = some f' → f'.key = f.key → f'.fd_ = none)
    {h' : InodeCacheHandle} (hself : work f.key = some h') (hv' : h'.value_ = v')
    (hother : ∀ k, k ≠ f.key → work k = p.work k) :
    Handles d' work (replace p.files fh { f with fd_ := fd' }) := by
  have hl := lt_of_slot hf
  subst hv'
  refine ⟨fun fh2 f2 h2 => ?_, fun fh2 fh3 f2 f3 n h2 h3 hn2 hn3 => ?_⟩
  · rw [slot_replace hl] at h2
    split at h2
    · obtain rfl := Option.some.inj h2
      exact ⟨(hb.handles.usable fh f hf).1, h', hself, hhold.usable⟩
    · rename_i hne
      obtain ⟨hfl, h0, hw0, hsame, hdiff⟩ := hb.usable_after (hb.opened fh f hf) (current_of_work hw) he h2
        (fun n hn => hb.handles.fd_ne hf h2 hne hn) fun hk h0 h1 => hup h0 h1 fh2 f2 hne h2 hk
      by_cases hk : f2.key = f.key
      · exact ⟨hfl, h', hk ▸ hself, hsame hk⟩
      · exact ⟨hfl, h0, (hother _ hk).trans hw0, hdiff hk⟩
  · -- the new descriptor was free or the handle's own
    have hnew (fh4 : Nat) (f4 : PlainFile) (hne : fh4 ≠ fh) (h4 : slot p.files fh4 = some f4)
        (hn4 : f4.fd_ = some n) (hfd' : fd' = some n) : False :=
      hb.handles.not_own h4 hn4 (hb.handles.fd_ne hf h4 hne hn4) (hhold.own n hfd')
    rw [slot_replace hl] at h2 h3
    split at h2 <;> split at h3
    · rename_i e2 e3
      rw [e2, e3]
    · rename_i _ hne
      obtain rfl := Option.some.inj h2
      exact (hnew fh3 f3 hne h3 hn3 hn2).elim
    · rename_i hne _
      obtain rfl := Option.some.inj h3
      exact (hnew fh2 f2 hne h2 hn2 hn3).elim
    · exact hb.handles.owner fh2 fh3 f2 f3 n h2 h3 hn2 hn3

private theorem Housed.keys_replace (hb : Housed σ p b) (hf : slot p.files fh = some f) (fd' : Option Nat) (fh' : Nat) :
    slot b.files fh' = (slot (replace p.files fh { f with fd_ := fd' }) fh').map PlainFile.key := by
  rw [slot_replace (lt_of_slot hf), hb.keys]
  split
  · rename_i he
    rw [he, hf]
    rfl
  · rfl

private theorem Housed.opened_replace (hb : Housed σ p b) (hf : slot p.files fh = some f) (fd' : Option Nat)
    (fh' : Nat) (f' : PlainFile) (hf' : slot (replace p.files fh { f with fd_ := fd' }) fh' = some f') :
    σ.held f'.key := by
  rw [slot_replace (lt_of_slot hf)] at hf'
  split at hf'
  · obtain rfl := Option.some.inj hf'
    exact hb.opened fh f hf
  · exact hb.opened fh' f' hf'

theorem follows_getAttr (hb : Housed σ p b) (env : Env) (path : CString)
    (hheld : ∀ key h, p.acquire path .read = some (key, h) → σ.held key) :
    Follows σ (p.getAttr path) (b.step (env, .getAttr path)) := by
  unfold Plain.getAttr ByteFS.step
  rcases hb.acquire path .read with ⟨hp, hf⟩ | ⟨key, h, n, hp, hf, _, _, _, hs⟩
  · simp only [hp, hf]
    exact ⟨rfl, hb⟩
  · obtain ⟨t, _, hs⟩ := hs (hheld key h hp)
    simp only [hp, hf]
    exact ⟨by simp [Result.seen, hs.size], hb⟩

theorem follows_read (hb : Housed σ p b) (hio : env.data = .full) (fh : Nat) {size : Nat}
    (hsize : size < 2147483648) (offset : Nat) :
    Follows σ (p.read env fh size offset) (b.step (env, .read fh size offset)) := by
  unfold Plain.read ByteFS.step
  rcases hb.fileOf fh with ⟨hp, hf⟩ | ⟨f, h, n, hp, hf, hslot, hw, hn, _, hheld, hs⟩
  · simp only [hp, hf]
    exact ⟨rfl, hb⟩
  · obtain ⟨hfl, hu⟩ := hb.handles.usable_of_work hslot hw
    obtain ⟨t, ht, hs⟩ := hs
    obtain ⟨d', fd', he, heff, hhold⟩ := readValue_spec hb.good hs hu hio hsize offset
    simp only [hp, hf, hfl, he]
    refine ⟨rfl, ?_⟩
    have hback := hb.rewrite hheld (current_of_work hw) hn heff ht hb.live (hb.clean f.key) (current_of_work hw)
      (fun k _ => ⟨rfl, rfl⟩) (hb.keys_replace hslot fd') (by simp [hb.length])
      (hb.handles_replace hslot hw heff hhold (fun h0 h1 => absurd h0 h1) hw rfl fun k _ => rfl)
        (hb.opened_replace hslot fd')
    rw [ByteFS.store_self hn] at hback
    rw [hfl] at hback
    exact hback

theorem follows_write (hb : Housed σ p b) (hmig : env.migrate = .full) (hio : env.data = .full) (fh : Nat)
    {buf : List UInt8} (hne : buf ≠ []) (hlen : buf.length < 2147483648) (offset : Nat)
    (hfit : σ.fixed ∨ ∀ f h, p.fileOf fh = some (f, h) → WriteFits p.threshold_ h.value_ (offset + buf.length))
    (hup : ∀ f h, p.fileOf fh = some (f, h) → h.value_.header.has_blob = 0 →
      p.threshold_ < offset + buf.length →
      ∀ fh' f', fh' ≠ fh → slot p.files fh' = some f' → f'.key = f.key → f'.fd_ = none) :
    Follows σ (p.write env fh O_RDWR buf offset) (b.step (env, .write fh O_RDWR buf offset)) := by
  unfold Plain.write ByteFS.step
  rcases hb.fileOf fh with ⟨hp, hf⟩ | ⟨f, h, n, hp, hf, hslot, hw, hn, _, hheld, t, ht, hs⟩
  · simp only [hp, hf]
    exact ⟨rfl, hb⟩
  · obtain ⟨hfl, hu⟩ := hb.handles.usable_of_work hslot hw
    obtain ⟨d', v', fd', t', he, ht', heff, hhold, _, hmove⟩ := writeValue_spec hb.good hs hu hmig hio hne hlen offset
      (hfit.imp ht fun hfit => hfit f h hp)
    simp only [hp, hf, hfl, he]
    refine ⟨rfl, ?_⟩
    have hlive : Live p.metadb (Function.update p.work f.key (some ⟨v', .write⟩)) := by
      refine hb.live.update fun h' hh' => ?_
      obtain rfl := Option.some.inj hh'
      obtain ⟨_, v0, h0, hi⟩ := hb.live f.key h hw
      exact ⟨by simp, v0, h0, by rw [hi]; exact heff.ino.symm⟩
    have hhandles := hb.handles_replace hslot hw heff hhold (fun h0 h1 => hup f h hp h0 (hmove h0 h1))
      (Function.update_self f.key (some ⟨v', .write⟩) p.work) rfl fun k hk => Function.update_of_ne hk _ _
    have hback := hb.rewrite hheld (current_of_work hw) hn heff (fun hx => ht' (ht hx)) hlive (by simp)
      (by simp [Plain.current])
      (fun k hk => ⟨Function.update_of_ne hk _ _, rfl⟩) (hb.keys_replace hslot fd') (by simp [hb.length]) hhandles
      (hb.opened_replace hslot fd')
    rw [hfl] at hback
    exact hback

theorem follows_truncate (hb : Housed σ p b) (hmig : env.migrate = .full) (hresize : env.resize = .full)
    (hreadBack : env.readBack = .full) (path : CString) (n : Nat)
    (hheld : ∀ key h, p.acquire path .write = some (key, h) → σ.held key)
    (hfit : σ.fixed ∨ ∀ key h, p.acquire path .write = some (key, h) → TruncateFits p.threshold_ h.value_ n)
    (hfds : ∀ key h, p.acquire path .write = some (key, h) → ∀ fh f, slot p.files fh = some f →
      (∀ m, f.fd_ = some m → env.fd ≠ some m) ∧
      (f.key = key → h.value_.header.has_blob = 0 → p.threshold_ < n → f.fd_ = none)) :
    Follows σ (p.truncate env path n) (b.step (env, .truncate path n)) := by
  unfold Plain.truncate ByteFS.step
  rcases hb.acquire path .write with ⟨hp, hf⟩ | ⟨key, h, nd, hp, hf, hn, hv, hi, hs⟩
  · simp only [hp, hf]
    exact ⟨rfl, hb⟩
  · have hkey := hheld key h hp
    obtain ⟨t, ht, hs⟩ := hs hkey
    obtain ⟨d', v', t', he, ht', heff, hmove⟩ := truncateValue_spec hb.good hs hmig hresize hreadBack n
      (hfit.imp ht fun hfit => hfit key h hp)
    simp only [hp, hf, he]
    refine ⟨rfl, ?_⟩
    have hsame : ∀ v0, p.metadb.lookup key = some v0 → v'.fstat.st_ino = v0.fstat.st_ino := by
      intro v0 h0
      obtain ⟨v1, h1, hi1⟩ := hb.live.current hv
      rw [heff.ino, ← hi1, Option.some.inj (h1.symm.trans h0)]
    have hhandles : Handles d' (Function.update p.work key ((p.work key).map fun _ => ⟨v', .read⟩)) p.files := by
      refine ⟨fun fh f hslot => ?_, hb.handles.owner⟩
      obtain ⟨hfd, hup⟩ := hfds key h hp fh f hslot
      obtain ⟨hfl, h0, hw0, hsame, hdiff⟩ := hb.usable_after hkey hv heff hslot hfd fun hk h0 h1 =>
        hup hk h0 (hmove h0 h1)
      by_cases hk : f.key = key
      · exact ⟨hfl, ⟨v', .read⟩, by rw [hk, Function.update_self, ← hk, hw0]; rfl, hsame hk⟩
      · exact ⟨hfl, h0, by rw [Function.update_of_ne hk, hw0], hdiff hk⟩
    refine hb.rewrite hkey hv hn heff (fun hx => ht' (ht hx)) (hb.live.store hsame) (fun h' hh' => .inr ?_) ?_
      (fun k hk => ?_) hb.keys
      hb.length hhandles hb.opened
    · rw [Function.update_self] at hh'
      obtain ⟨_, _, rfl⟩ := Option.map_eq_some_iff.mp hh'
      exact Finmap.lookup_insert _
    · cases p.work key <;> simp [Plain.current]
    · exact ⟨Function.update_of_ne hk _ _, Finmap.lookup_insert_of_ne _ hk⟩

/-- Open opens the disk file at once if there is one. -/
theorem openValue_spec (hg : d.Good) {threshold : Nat} (hs : Stored threshold d v bytes) :
    ∃ d' fd', (if 0 < v.header.has_blob then
        ((openDiskFile d v.header O_RDWR).1, some (openDiskFile d v.header O_RDWR).2) else (d, none)) = (d', fd') ∧
      Effect threshold d v none d' v bytes ∧ Holds d none d' v fd' := by
  have hnone : Usable d v none := by simp [Usable]
  by_cases hb : v.header.has_blob = 0
  · exact ⟨d, none, by simp [hb], ⟨.refl hg, hs, rfl, fun _ _ => rfl⟩, hnone, by simp, fun _ => rfl⟩
  · obtain ⟨hlt, hin, hc⟩ := hs.onDisk hb
    obtain ⟨d', n, he, hf, hn, hc', ho, hown⟩ := lazyOpen_spec hg hnone hb (by simp [hc])
    refine ⟨d', some n, ?_, ⟨hf, { hs with place := ?_ }, rfl, fun _ _ => hn⟩, .of_opens ho hown hb⟩
    · rw [if_pos (Nat.pos_of_ne_zero hb)]
      rw [lazyOpen] at he
      rw [he]
    · rw [hc']
      exact hs.place

private theorem Housed.handles_push (hb : Housed σ p b) (hheld : σ.held key) (hv : p.current key = some h.value_)
    (heff : Effect threshold p.disk h.value_ none d' h.value_ bytes)
    (hhold : Holds p.disk none d' h.value_ fd') :
    Handles d' (Function.update p.work key (some h)) (push p.files ⟨key, O_RDWR, fd'⟩) := by
  have hnew (fh : Nat) (f : PlainFile) (m : Nat) (hslot : slot p.files fh = some f) (hm : f.fd_ = some m) :
      fd' ≠ some m := fun h' => hb.handles.not_own hslot hm (by simp) (hhold.own m h')
  refine ⟨fun fh f hslot => ?_, fun fh fh' f f' m h1 h2 hm hm' => ?_⟩
  · rw [slot_push] at hslot
    split at hslot
    · obtain rfl := Option.some.inj hslot
      exact ⟨rfl, h, Function.update_self .., hhold.usable⟩
    · obtain ⟨hfl, h0, hw0, hsame, hdiff⟩ := hb.usable_after hheld hv heff hslot (by simp)
        fun _ h0 h1 => absurd h0 h1
      by_cases hk : f.key = key
      · exact ⟨hfl, h, by rw [hk, Function.update_self], hsame hk⟩
      · exact ⟨hfl, h0, by rw [Function.update_of_ne hk, hw0], hdiff hk⟩
  · rw [slot_push] at h1 h2
    split at h1 <;> split at h2
    · omega
    · obtain rfl := Option.some.inj h1
      exact absurd hm (hnew fh' f' m h2 hm')
    · obtain rfl := Option.some.inj h2
      exact absurd hm' (hnew fh f m h1 hm)
    · exact hb.handles.owner fh fh' f f' m h1 h2 hm hm'

theorem follows_openFile (hb : Housed σ p b) (env : Env) (path : CString)
    (hheld : ∀ key h, p.acquire path O_RDWR.mode = some (key, h) → σ.held key) :
    Follows σ (p.openFile path O_RDWR) (b.step (env, .openFile path O_RDWR)) := by
  unfold Plain.openFile ByteFS.step
  rcases hb.acquire path O_RDWR.mode with ⟨hp, hf⟩ | ⟨key, h, n, hp, hf, hn, hv, hi, hs⟩
  · simp only [hp, hf]
    exact ⟨rfl, hb⟩
  · have hkey := hheld key h hp
    obtain ⟨t, ht, hs⟩ := hs hkey
    obtain ⟨d', fd', he, heff, hhold⟩ := openValue_spec hb.good hs
    have hcopy := Plain.copy_of_acquire hp
    have hmode : h.mode_ = .write := copyOf_write hcopy
    simp only [hp, hf, he]
    refine ⟨by simp [Result.seen, hb.length], ?_⟩
    have hlive : Live p.metadb (Function.update p.work key (some h)) := by
      refine hb.live.update fun h' hh' => ?_
      obtain rfl := Option.some.inj hh'
      exact ⟨by simp [hmode], hb.live.copy hcopy⟩
    have hkeys (fh : Nat) : slot (push b.files key) fh =
        (slot (push p.files ⟨key, O_RDWR, fd'⟩) fh).map PlainFile.key := by
      rw [slot_push, slot_push, hb.length, hb.keys]
      split <;> rfl
    have hopened (fh : Nat) (f : PlainFile) (hf : slot (push p.files ⟨key, O_RDWR, fd'⟩) fh = some f) :
        σ.held f.key := by
      rw [slot_push] at hf
      split at hf
      · obtain rfl := Option.some.inj hf
        exact hkey
      · exact hb.opened fh f hf
    have hback := hb.rewrite hkey hv hn heff ht hlive (by simp [hmode]) (by simp [Plain.current])
      (fun k hk => ⟨Function.update_of_ne hk _ _, rfl⟩) hkeys (by simp [hb.length])
        (hb.handles_push hkey hv heff hhold) hopened
    rw [ByteFS.store_self hn] at hback
    exact hback

/-- Release changes times only. -/
theorem touch_stored (now : Int) {threshold : Nat} (hs : Stored threshold d h.value_ bytes) :
    Stored threshold d (State.touch now h).value_ bytes ∧
      (State.touch now h).value_.fstat.st_ino = h.value_.fstat.st_ino ∧
      (State.touch now h).value_.header.has_blob = h.value_.header.has_blob := by
  unfold State.touch
  split
  · exact ⟨⟨hs.sized, hs.size, hs.place⟩, rfl, rfl⟩
  · exact ⟨hs, rfl, rfl⟩

/-- A closed inode that was written to is stored; one that was not is stored already. -/
theorem clean_lookup_eq {m : MetaDB} (now : Int) (hd : h.mode_ ≠ .delete)
    (hc : h.mode_ = .write ∨ m.lookup key = some h.value_) :
    (cleanInodeHandle key (State.touch now h) m).lookup key = some (State.touch now h).value_ := by
  obtain ⟨hmode, _, hsame⟩ := touch_spec now h
  unfold cleanInodeHandle
  split
  · exact Finmap.lookup_insert _
  · rename_i hdel
    exact absurd (hmode ▸ hdel) hd
  · rename_i hread
    have hne : h.mode_ ≠ .write := by simp [← hmode, hread]
    rw [hsame hne]
    exact hc.resolve_left hne

private theorem closeHandle_spec (hg : d.Good) {threshold : Nat} (hs : Stored threshold d h.value_ bytes)
    (hu : Usable d h.value_ fd) (now : Int) :
    ∃ d', closeHandle d fd = (d', 0) ∧ Effect threshold d h.value_ fd d' (State.touch now h).value_ bytes := by
  obtain ⟨hs', hi, hbl⟩ := touch_stored now hs
  have hpath : dataPath (State.touch now h).value_ = dataPath h.value_ := by rw [dataPath, hi, dataPath]
  cases fd with
  | none => exact ⟨d, rfl, .refl hg, hs', hi, fun _ _ => rfl⟩
  | some n =>
    refine ⟨(d.closeFile n).1, by rw [← closeFile_ret (hu n rfl).1]; rfl, ?_, { hs' with place := ?_ }, hi,
      fun _ _ => names_closeFile d n⟩
    · exact (closeFile_frame _ hg n).mono fun m hm => .inr (hm ▸ rfl)
    · rw [content_closeFile]
      exact hs'.place

private theorem Housed.handles_clear (hb : Housed σ p b) (hslot : slot p.files fh = some f) (hw : p.work f.key = some h)
    {h' : InodeCacheHandle} (heff : Effect threshold p.disk h.value_ f.fd_ d' h'.value_ bytes)
    (hblob : h.value_.header.has_blob = 0 → ¬ h'.value_.header.has_blob ≠ 0) {mode : InodeAccessMode} :
    Handles d' (Function.update p.work f.key (if Plain.openOn (clear p.files fh) f.key = true then
      some ⟨h'.value_, mode⟩ else none)) (clear p.files fh) := by
  refine ⟨fun fh1 f1 h1 => ?_, fun fh1 fh2 f1 f2 m h1 h2 hm1 hm2 => ?_⟩
  · have hon (hk : f1.key = f.key) : Plain.openOn (clear p.files fh) f.key = true :=
      (Plain.openOn_iff _ _).mpr ⟨fh1, f1, h1, hk⟩
    rw [slot_clear] at h1
    split at h1
    · cases h1
    · rename_i hne
      obtain ⟨hfl, h0, hw0, hsame, hdiff⟩ := hb.usable_after (hb.opened fh f hslot) (current_of_work hw) heff h1
        (fun m hm => hb.handles.fd_ne hslot h1 hne hm) fun _ h0 h1 => absurd h1 (hblob h0)
      by_cases hk : f1.key = f.key
      · exact ⟨hfl, ⟨h'.value_, mode⟩, by rw [hk, Function.update_self, if_pos (hon hk)], hsame hk⟩
      · exact ⟨hfl, h0, by rw [Function.update_of_ne hk, hw0], hdiff hk⟩
  · rw [slot_clear] at h1 h2
    split at h1
    · cases h1
    · split at h2
      · cases h2
      · exact hb.handles.owner fh1 fh2 f1 f2 m h1 h2 hm1 hm2

theorem follows_release (hb : Housed σ p b) (env : Env) (fh : Nat) :
    Follows σ (p.release env fh) (b.step (env, .release fh)) := by
  unfold Plain.release ByteFS.step
  rcases hb.fileOf fh with ⟨hp, hf⟩ | ⟨f, h, n, hp, hf, hslot, hw, hn, _, hheld, hs⟩
  · simp only [hp, hf]
    exact ⟨rfl, hb⟩
  · obtain ⟨hfl, hu⟩ := hb.handles.usable_of_work hslot hw
    obtain ⟨t, ht, hs⟩ := hs
    obtain ⟨d', he, heff⟩ := closeHandle_spec hb.good hs hu env.now
    have hstored := clean_lookup_eq env.now (hb.live f.key h hw).1 (hb.clean f.key h hw)
    have hothers (k : MetaKey) (hk : k ≠ f.key) :
        (cleanInodeHandle f.key (State.touch env.now h) p.metadb).lookup k = p.metadb.lookup k :=
      InodeCache.lookup_clean_ne hk _ _
    simp only [hp, hf, he]
    refine ⟨rfl, ?_⟩
    have hlive := hb.live.close hw env.now (Plain.openOn (clear p.files fh) f.key = true)
    have hkeys (fh' : Nat) : slot (clear b.files fh) fh' = (slot (clear p.files fh) fh').map PlainFile.key := by
      rw [slot_clear, slot_clear, hb.keys]
      split <;> rfl
    have hopened (fh' : Nat) (f' : PlainFile) (hf' : slot (clear p.files fh) fh' = some f') : σ.held f'.key := by
      rw [slot_clear] at hf'
      split at hf'
      · cases hf'
      · exact hb.opened fh' f' hf'
    have hback := hb.rewrite hheld (current_of_work hw) hn heff ht hlive ?_ ?_
      (fun k hk => ⟨Function.update_of_ne hk _ _, hothers k hk⟩) hkeys (by simp [hb.length])
      (hb.handles_clear hslot hw heff fun h0 h1 => h1 ((touch_stored env.now hs).2.2.trans h0)) hopened
    · rw [ByteFS.store_self hn] at hback
      exact hback
    · intro h' hh'
      rw [Function.update_self] at hh'
      split at hh'
      · obtain rfl := Option.some.inj hh'
        exact .inr hstored
      · cases hh'
    · simp only [Plain.current, Function.update_self]
      split
      · rename_i h' hh'
        split at hh'
        · obtain rfl := Option.some.inj hh'
          rfl
        · cases hh'
      · exact hstored

/-- A record of a new inode: a file of no bytes. -/
structure Blank (inode : UInt64) (v : Value) : Prop where
  sized : v.Sized
  ino : v.fstat.st_ino = inode
  size : v.fstat.st_size = 0
  has_blob : v.header.has_blob = 0
  inline : v.inline = []

theorem blank_initInodeValue (env : Env) (inode : UInt64) (mode : UInt32) (dev : Nat) (name : List UInt8) :
    Blank inode (initInodeValue env.memory inode mode dev name env.context env.now) :=
  ⟨(named_initInodeValue ..).sized, rfl, rfl, rfl, by simp [Value.inline, initInodeValue]⟩

/-- The data file of a new inode is no other's, and there is none yet. -/
def Plain.NewPath (p : Plain) (σ : Scope) : Prop :=
  p.disk.content (getDiskFilePath (p.max_inode_num + 1)) = none ∧
    ∀ k v, σ.held k → p.metadb.lookup k = some v →
      getDiskFilePath v.fstat.st_ino ≠ getDiskFilePath (p.max_inode_num + 1)

/-- If every file is followed, there is no data file that is not a file's. -/
theorem Housed.newPath (hb : Housed .whole p b)
    (hnew : ∀ k v, p.metadb.lookup k = some v →
      getDiskFilePath v.fstat.st_ino ≠ getDiskFilePath (p.max_inode_num + 1)) :
    p.NewPath .whole := by
  refine ⟨?_, fun k v _ => hnew k v⟩
  by_contra hne
  obtain ⟨k, n, _, hk, he⟩ := (hb.named _ hne).resolve_left id
  obtain ⟨v, hv, hi⟩ := hb.record_of_node hk
  exact hnew k v hv (hi ▸ he)

/-- A blank record under an absent key. If it is followed, its data file must be its own. -/
theorem Housed.insert (hb : Housed σ p b) (hblank : Blank (p.max_inode_num + 1) v)
    (hnone : p.metadb.lookup key = none) (hnew : σ.held key → p.NewPath σ) :
    Housed σ { p with max_inode_num := p.max_inode_num + 1, metadb := p.metadb.insert key v }
      { b with
        counter := b.counter + 1
        nodes := Function.update b.nodes key (some ⟨b.counter + 1, []⟩) } := by
  have hpath (hkey : σ.held key) (k : MetaKey) (n : ByteNode) (hheld : σ.held k) (hk : b.nodes k = some n) :
      getDiskFilePath n.ino ≠ getDiskFilePath (b.counter + 1) := by
    obtain ⟨v0, h0, hi⟩ := hb.record_of_node hk
    rw [← hi, hb.counter]
    exact (hnew hkey).2 k v0 hheld h0
  have hclosed := hb.live.work_eq_none hnone
  refine { hb with
    counter := congrArg (· + 1) hb.counter
    live := hb.live.insert fun h hw => by simp [hclosed] at hw
    clean := fun k h hk => ?_
    absent := fun k hk => ?_
    nodes := fun k n hk => ?_
    paths := fun k k' n n' hheld hheld' hk hk' hp => ?_
    named := fun q hq => ?_ }
  · have hne : k ≠ key := by
      rintro rfl
      simp [hclosed] at hk
    rw [Finmap.lookup_insert_of_ne _ hne]
    exact hb.clean k h hk
  · by_cases hke : k = key
    · simp [hke] at hk
    · rw [Finmap.lookup_insert_of_ne _ hke]
      exact hb.absent k (by simpa [hke] using hk)
  · by_cases hke : k = key
    · subst hke
      simp only [Function.update_self, Option.some.injEq] at hk
      subst hk
      refine ⟨_, by simp [Plain.current, hclosed], by rw [hblank.ino, hb.counter], fun hkey => ⟨_, fun _ => rfl,
        ⟨hblank.sized, hblank.size, .inl ⟨hblank.has_blob, Nat.zero_le _, hblank.inline, ?_⟩⟩⟩⟩
      rw [dataPath, hblank.ino]
      exact (hnew hkey).1
    · obtain ⟨v, hv, hi, hs⟩ := hb.nodes k n (by simpa [hke] using hk)
      refine ⟨v, ?_, hi, hs⟩
      simpa [Plain.current, Finmap.lookup_insert_of_ne _ hke] using hv
  · by_cases hke : k = key <;> by_cases hke' : k' = key
    · rw [hke, hke']
    · subst hke
      simp only [Function.update_self, Option.some.injEq] at hk
      subst hk
      exact absurd hp.symm (hpath hheld k' n' hheld' (by simpa [hke'] using hk'))
    · subst hke'
      simp only [Function.update_self, Option.some.injEq] at hk'
      subst hk'
      exact absurd hp (hpath hheld' k n hheld (by simpa [hke] using hk))
    · exact hb.paths k k' n n' hheld hheld' (by simpa [hke] using hk) (by simpa [hke'] using hk') hp
  · refine (hb.named q hq).imp_right ?_
    rintro ⟨k, n, hheld, hk, he⟩
    have hne : k ≠ key := by
      rintro rfl
      obtain ⟨v0, h0, _⟩ := hb.record_of_node hk
      simp [hnone] at h0
    exact ⟨k, n, hheld, by simpa [hne] using hk, he⟩

theorem follows_create (hb : Housed σ p b) (hput : env.put = true) {value : UInt64 → List UInt8 → Value}
    (hvalue : ∀ inode name, Blank inode (value inode name))
    (habs : ∀ key ∈ (resolve p.metadb path).map Prod.fst, p.metadb.lookup key = none)
    (hnew : ∀ key ∈ (resolve p.metadb path).map Prod.fst, σ.held key → p.NewPath σ) :
    Follows σ ((p.create env path value).1, State.createResult (p.create env path value).2) (b.create path) := by
  unfold Plain.create ByteFS.create
  rw [resolve, hb.inoOf_eq]
  rcases hr : resolveBy b.ino path with _ | ⟨key, name⟩
  · exact ⟨rfl, hb⟩
  · have hkey : key ∈ (resolve p.metadb path).map Prod.fst := by simp [resolve, hb.inoOf_eq, hr]
    simp only [hput, if_true]
    exact ⟨rfl, hb.insert (hvalue _ name) (habs key hkey) (hnew key hkey)⟩

/-- A closed file goes with its record and its disk file. -/
theorem Housed.erase (hb : Housed σ p b) (hheld : σ.held key) (hv : p.current key = some v) (hw : p.work key = none)
    {n : ByteNode} (hn : b.nodes key = some n) (hi : v.fstat.st_ino = n.ino)
    (hframe : Frame (dataPath v) (fun _ => False) p.disk d') (hgone : d'.content (dataPath v) = none) :
    Housed σ { p with metadb := p.metadb.erase key, disk := d' }
      { b with nodes := Function.update b.nodes key none } := by
  have hnode (k : MetaKey) (nk : ByteNode) (hk : Function.update b.nodes key none k = some nk) :
      k ≠ key ∧ b.nodes k = some nk := by
    by_cases hke : k = key
    · simp [hke] at hk
    · exact ⟨hke, by simpa [hke] using hk⟩
  refine { hb with
    good := hframe.good
    live := hb.live.erase hw
    clean := fun k h' hk => ?_
    absent := fun k hk => ?_
    nodes := fun k nk hk => ?_
    paths := fun k k' nk nk' hh hh' hk hk' => hb.paths k k' nk nk' hh hh' (hnode k nk hk).2 (hnode k' nk' hk').2
    named := fun q hq => ?_
    handles := ⟨fun fh f hslot => ?_, hb.handles.owner⟩ }
  · have hne : k ≠ key := by
      rintro rfl
      simp [hw] at hk
    rw [Finmap.lookup_erase_ne hne]
    exact hb.clean k h' hk
  · by_cases hke : k = key
    · rw [hke, Finmap.lookup_erase]
    · rw [Finmap.lookup_erase_ne hke]
      exact hb.absent k (by simpa [hke] using hk)
  · obtain ⟨hne, hk⟩ := hnode k nk hk
    obtain ⟨vk, hvk, hik, hsk⟩ := hb.nodes k nk hk
    refine ⟨vk, ?_, hik, fun hheld' => ?_⟩
    · simpa [Plain.current, Finmap.lookup_erase_ne hne] using hvk
    · obtain ⟨t, ht, hsk⟩ := hsk hheld'
      exact ⟨t, ht, hsk.frame hframe (hb.dataPath_ne hheld hheld' hv hvk hne)⟩
  · have hqne : q ≠ dataPath v := fun he => hq (he ▸ hgone)
    refine (hb.named q (hframe.content hqne ▸ hq)).imp_right ?_
    rintro ⟨k, nk, hheld', hk, he⟩
    have hne : k ≠ key := by
      rintro rfl
      obtain rfl := Option.some.inj (hn.symm.trans hk)
      exact hqne (by rw [← he, dataPath, hi])
    exact ⟨k, nk, hheld', by simpa [hne] using hk, he⟩
  · obtain ⟨hfl, h', hw', hu⟩ := hb.handles.usable fh f hslot
    have hne : f.key ≠ key := by
      intro he
      simp [he, hw] at hw'
    refine ⟨hfl, h', hw', hu.frame hframe (by simp) (fun hbl => ⟨hbl, ?_⟩) rfl⟩
    exact hframe.names _ (hb.dataPath_ne hheld (hb.opened fh f hslot) hv (current_of_work hw') hne)

/-- The disk file goes exactly if there is one. -/
theorem unlinkValue_spec (hg : d.Good) (hs : Stored threshold d v bytes) {limit : Nat}
    (hfit : threshold = limit ∨ UnlinkFits limit v) :
    let d' := if limit < v.fstat.st_size then d.unlinkFile (dataPath v) else d
    Frame (dataPath v) (fun _ => False) d d' ∧ d'.content (dataPath v) = none := by
  intro d'
  simp only [d']
  split
  · exact unlinkFile_frame _ hg _
  · rename_i hle
    refine ⟨.refl hg, ?_⟩
    rcases hs.place with ⟨_, _, _, hc⟩ | ⟨h1, hlt, _, _⟩
    · exact hc
    · rcases hfit with rfl | hfit
      · exact absurd hlt (by rw [← hs.size]; exact hle)
      · exact absurd (hfit (by omega)) hle

theorem follows_unlink (hb : Housed σ p b) (env : Env) (path : CString)
    (hheld : ∀ key h, p.acquire path .delete = some (key, h) → σ.held key)
    (hfit : σ.fixed ∨ ∀ key h, p.acquire path .delete = some (key, h) → UnlinkFits p.threshold_ h.value_)
    (hclosed : ∀ key h, p.acquire path .delete = some (key, h) → p.work key = none) :
    Follows σ (p.unlink path) (b.step (env, .unlink path)) := by
  unfold Plain.unlink ByteFS.step
  rcases hb.acquire path .delete with ⟨hp, hf⟩ | ⟨key, h, n, hp, hf, hn, hv, hi, hs⟩
  · simp only [hp, hf]
    exact ⟨rfl, hb⟩
  · obtain ⟨t, ht, hs⟩ := hs (hheld key h hp)
    obtain ⟨hframe, hgone⟩ := unlinkValue_spec hb.good hs (hfit.imp ht fun hfit => hfit key h hp)
    simp only [hp, hf]
    exact ⟨rfl, hb.erase (hheld key h hp) hv (hclosed key h hp) hn hi hframe hgone⟩

end
end TableFS

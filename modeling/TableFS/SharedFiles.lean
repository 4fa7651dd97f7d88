import TableFS.Contents

/-! Several handles on one file, which is truncated only while closed. Then a handle has a
descriptor only once the data is on disk, so none is ever stale. -/
namespace TableFS
open ByteSeq Slots Disk Runs

/-- A handle has a descriptor only while the data is on disk. -/
def Unstale (work : MetaKey → Option InodeCacheHandle) (files : List (Option PlainFile)) : Prop :=
  ∀ fh f h, slot files fh = some f → work f.key = some h → h.value_.header.has_blob = 0 → f.fd_ = none

def Plain.Unstale (p : Plain) : Prop := TableFS.Unstale p.work p.files

section
variable {σ : Scope} {p : Plain} {b : ByteFS} {env : Env} {key : MetaKey} {v v' : Value} {fd : Option Nat} {d' : Disk}
  {bytes : List UInt8}

/-- A request on one file, through a handle or by path. -/
theorem Plain.Unstale.after (hu : p.Unstale) (hb : Housed σ p b) (hv : p.current key = some v)
    (hdown : v'.header.has_blob = 0 → v.header.has_blob = 0) {work : MetaKey → Option InodeCacheHandle}
    {files : List (Option PlainFile)} (hself : ∀ h, work key = some h → h.value_ = v')
    (hother : ∀ k, k ≠ key → work k = p.work k)
    (hfiles : ∀ fh f, slot files fh = some f →
      slot p.files fh = some f ∨ f.key = key ∧ (v'.header.has_blob = 0 → f.fd_ = none)) :
    TableFS.Unstale work files := by
  intro fh f h hs hw h0
  by_cases hk : f.key = key
  · have hv' := hself h (hk ▸ hw)
    rcases hfiles fh f hs with hold | ⟨_, hfd⟩
    · obtain ⟨_, h1, hw1, _⟩ := hb.handles.usable fh f hold
      have hv1 : h1.value_ = v := by
        rw [← hk, current_of_work hw1] at hv
        exact Option.some.inj hv
      exact hu fh f h1 hold hw1 (hv1 ▸ hdown (hv' ▸ h0))
    · exact hfd (hv' ▸ h0)
  · rcases hfiles fh f hs with hold | ⟨he, _⟩
    · exact hu fh f h hold (hother _ hk ▸ hw) h0
    · exact absurd he hk

private theorem unstale_read (hu : p.Unstale) (hb : Housed σ p b) (hio : env.data = .full) (fh : Nat) {size : Nat}
    (hsize : size < 2147483648) (offset : Nat) : (p.read env fh size offset).1.Unstale := by
  unfold Plain.Unstale Plain.read
  rcases hb.fileOf fh with ⟨hp, _⟩ | ⟨f, h, n, hp, _, hslot, hw, hn, _, _, hs⟩
  · simp only [hp]
    exact hu
  · obtain ⟨hfl, huse⟩ := hb.handles.usable_of_work hslot hw
    obtain ⟨t, _, hs⟩ := hs
    obtain ⟨d', fd', he, heff, hhold⟩ := readValue_spec hb.good hs huse hio hsize offset
    simp only [hp, hfl, he]
    refine hu.after hb (current_of_work hw) id (fun h' hh' => ?_) (fun _ _ => rfl) fun fh' f' hs' => ?_
    · rw [Option.some.inj (hw.symm.trans hh')]
    · rw [slot_replace (lt_of_slot hslot)] at hs'
      split at hs'
      · obtain rfl := Option.some.inj hs'
        exact .inr ⟨rfl, fun h0 => (hhold.idle h0).trans (hu fh f h hslot hw h0)⟩
      · exact .inl hs'

private theorem unstale_write (hu : p.Unstale) (hb : Housed σ p b) (hmig : env.migrate = .full) (hio : env.data = .full)
    (fh : Nat) {buf : List UInt8} (hne : buf ≠ []) (hlen : buf.length < 2147483648) (offset : Nat)
    (hfit : σ.fixed ∨ ∀ f h, p.fileOf fh = some (f, h) → WriteFits p.threshold_ h.value_ (offset + buf.length)) :
    (p.write env fh O_RDWR buf offset).1.Unstale := by
  unfold Plain.Unstale Plain.write
  rcases hb.fileOf fh with ⟨hp, _⟩ | ⟨f, h, n, hp, _, hslot, hw, hn, _, _, hs⟩
  · simp only [hp]
    exact hu
  · obtain ⟨hfl, huse⟩ := hb.handles.usable_of_work hslot hw
    obtain ⟨t, ht, hs⟩ := hs
    obtain ⟨d', v', fd', _, he, _, heff, hhold, hdown, _⟩ := writeValue_spec hb.good hs huse hmig hio hne hlen offset
      (hfit.imp ht fun hfit => hfit f h hp)
    simp only [hp, hfl, he]
    refine hu.after hb (current_of_work hw) hdown (fun h' hh' => ?_) (fun k hk => Function.update_of_ne hk _ _)
      fun fh' f' hs' => ?_
    · rw [Function.update_self] at hh'
      rw [← Option.some.inj hh']
    · rw [slot_replace (lt_of_slot hslot)] at hs'
      split at hs'
      · obtain rfl := Option.some.inj hs'
        exact .inr ⟨rfl, fun h0 => (hhold.idle h0).trans (hu fh f h hslot hw (hdown h0))⟩
      · exact .inl hs'

private theorem unstale_openFile (hu : p.Unstale) (hb : Housed σ p b) (path : CString)
    (hheld : ∀ key h, p.acquire path O_RDWR.mode = some (key, h) → σ.held key) :
    (p.openFile path O_RDWR).1.Unstale := by
  unfold Plain.Unstale Plain.openFile
  rcases hb.acquire path O_RDWR.mode with ⟨hp, _⟩ | ⟨key, h, n, hp, _, hn, hv, _, hs⟩
  · simp only [hp]
    exact hu
  · obtain ⟨_, _, hs⟩ := hs (hheld key h hp)
    obtain ⟨d', fd', he, heff, hhold⟩ := openValue_spec hb.good hs
    simp only [hp, he]
    refine hu.after hb hv id (fun h' hh' => ?_) (fun k hk => Function.update_of_ne hk _ _) fun fh' f' hs' => ?_
    · rw [Function.update_self] at hh'
      rw [← Option.some.inj hh']
    · rw [slot_push] at hs'
      split at hs'
      · obtain rfl := Option.some.inj hs'
        exact .inr ⟨rfl, hhold.idle⟩
      · exact .inl hs'

private theorem unstale_release (hu : p.Unstale) (hb : Housed σ p b) (fh : Nat) : (p.release env fh).1.Unstale := by
  unfold Plain.Unstale Plain.release
  rcases hb.fileOf fh with ⟨hp, _⟩ | ⟨f, h, n, hp, _, hslot, hw, hn, _, _, _, _, hs⟩
  · simp only [hp]
    exact hu
  · simp only [hp]
    have hdown := (touch_stored env.now hs).2.2
    refine hu.after hb (current_of_work hw) (fun h0 => hdown.symm.trans h0) (fun h' hh' => ?_)
      (fun k hk => Function.update_of_ne hk _ _) fun fh' f' hs' => ?_
    · rw [Function.update_self] at hh'
      split at hh'
      · rw [← Option.some.inj hh']
      · cases hh'
    · rw [slot_clear] at hs'
      split at hs'
      · cases hs'
      · exact .inl hs'

private theorem unstale_truncate (hu : p.Unstale) (path : CString) (n : Nat)
    (hclosed : ∀ key h, p.acquire path .write = some (key, h) → p.work key = none) :
    (p.truncate env path n).1.Unstale := by
  unfold Plain.truncate
  rcases ha : p.acquire path .write with _ | ⟨key, h⟩
  · exact hu
  · intro fh f h' hs hw h0
    have hw' : Function.update p.work key ((p.work key).map fun _ => _) f.key = some h' := hw
    rw [hclosed key h ha, Option.map_none] at hw'
    by_cases hk : f.key = key
    · simp [hk] at hw'
    · rw [Function.update_of_ne hk] at hw'
      exact hu fh f h' hs hw' h0

end

/-- Requests on any number of files and handles; files are truncated and removed only while
they are closed. -/
def Steady (s : State) (c : Env × Op) : Prop :=
  (c.1.Succeeds ∧ c.1.fd = none) ∧ Proper s c.2 ∧ FreshPath s c.2 ∧
    ∀ t ∈ c.2.truncated, ∀ key ∈ s.keyOf t.1, ¬ s.OpenOn key

/-- Open, GetAttr and Truncate of an open file find its handle in the cache. -/
def Sharing (s : State) (c : Env × Op) : Prop := ∀ path ∈ c.2.inspected, ∀ key ∈ s.keyOf path, s.Shared key

instance (s : State) (c : Env × Op) : Decidable (Steady s c) := inferInstanceAs (Decidable (_ ∧ _ ∧ _ ∧ _))

instance (s : State) (c : Env × Op) : Decidable (Sharing s c) := inferInstanceAs (Decidable (∀ path ∈ _, _))

section
variable {σ : Scope} {s : State} {p : Plain} {b : ByteFS} {c : Env × Op}

private theorem Plain.Unstale.noStale (hu : p.Unstale) (hr : Refines s p) (key : MetaKey) (but : Option Nat) :
    s.NoStale key but := by
  rintro fh _ _ ⟨f, k, h⟩ hf rfl h0
  have hslot : slot p.files fh = some ⟨k, f.flags_, f.fd_⟩ := by
    obtain ⟨hs, hh⟩ := State.fileOf_some.mp hf
    simp [hr.files, hs, plainFile, hh]
  exact hu fh _ h hslot (hr.work_of_file hf) h0

private theorem Plain.Unstale.staleFree (hu : p.Unstale) (hr : Refines s p) (hspares : SparesHandles s c) :
    StaleFree s c :=
  ⟨fun _ _ _ _ _ => hu.noStale hr _ _, fun t ht => ⟨hspares t ht, fun _ _ _ => hu.noStale hr _ _⟩⟩

private theorem unstale_step (hu : p.Unstale) (hr : Refines s p) (hb : Housed σ p b) (henv : c.1.Succeeds)
    (hprop : Proper s c.2) (hclosed : ∀ t ∈ c.2.truncated, ∀ key ∈ s.keyOf t.1, ¬ s.OpenOn key)
    (hfit : σ.fixed ∨ p.Suits c.2) (hin : p.Within σ c.2) :
    (p.step c).1.Unstale := by
  obtain ⟨env, op⟩ := c
  obtain ⟨_, hmig, hdata, _⟩ := henv
  cases op with
  | getAttr path =>
    rcases hb.acquire path .read with ⟨hp, _⟩ | ⟨key, h, n, hp, _⟩ <;>
    · simp only [Plain.step, Plain.getAttr, hp]
      exact hu
  | openFile path flags =>
    obtain rfl : flags = O_RDWR := hprop
    exact unstale_openFile hu hb path (hin.held rfl)
  | read fh size offset => exact unstale_read hu hb hdata fh hprop offset
  | write fh flags buf offset =>
    obtain ⟨rfl, hpos, hlen, _⟩ := hprop
    exact unstale_write hu hb hmig hdata fh (List.length_pos_iff.mp hpos) hlen offset hfit
  | release fh => exact unstale_release hu hb fh
  | truncate path n =>
    exact unstale_truncate hu path n fun key h ha => hr.closed (hclosed (path, n) rfl key (hr.mem_keyOf ha))
  | makeNode path mode dev =>
    simp only [Plain.step, Plain.makeNode, Plain.create, Plain.Unstale]
    split
    · exact hu
    · split <;> exact hu
  | makeDir path mode =>
    simp only [Plain.step, Plain.makeDir, Plain.create, Plain.Unstale]
    split
    · exact hu
    · split <;> exact hu
  | unlink path =>
    simp only [Plain.step, Plain.unlink, Plain.Unstale]
    split <;> exact hu
  | _ => exact hprop.elim

/-- One request: the answer is that of byte lists, and everything stays as it has to be. -/
theorem Proper.follows_unstale (hprop : Proper s c.2) (henv : c.1.Succeeds) (hspares : SparesHandles s c)
    (hclosed : ∀ t ∈ c.2.truncated, ∀ key ∈ s.keyOf t.1, ¬ s.OpenOn key) (hshare : Sharing s c) (hr : Refines s p)
    (hb : Housed σ p b) (hu : p.Unstale) (hfit : σ.fixed ∨ p.Suits c.2) (hin : p.Within σ c.2) :
    (step s c).2.seen = (b.step c).2 ∧ Refines (step s c).1 (p.step c).1 ∧ Housed σ (p.step c).1 (b.step c).1 ∧
      (p.step c).1.Unstale := by
  obtain ⟨hout, hr'⟩ := step_refines hr c (hprop.orderly hshare hr hb)
  obtain ⟨hseen, hb'⟩ := hprop.follows henv hr hb (hu.staleFree hr hspares) hfit hin
  exact ⟨by rw [hout, hseen], hr', hb', unstale_step hu hr hb henv hprop hclosed hfit hin⟩

end

/-- The state is one of byte lists, and no handle can be left behind. -/
def RepresentsSteady (s : State) (b : ByteFS) : Prop := ∃ p, Refines s p ∧ Housed .whole p b ∧ p.Unstale

theorem RepresentsSteady.represents {s : State} {b : ByteFS} (h : RepresentsSteady s b) : Represents s b := by
  obtain ⟨p, hr, hb, _⟩ := h
  exact ⟨p, hr, hb⟩

theorem RepresentsSteady.step {s : State} {b : ByteFS} {c : Env × Op} (h : RepresentsSteady s b) (hc : Steady s c)
    (hshare : Sharing s c) :
    (step s c).2.seen = (b.step c).2 ∧ RepresentsSteady (step s c).1 (b.step c).1 := by
  obtain ⟨p, hr, hb, hu⟩ := h
  obtain ⟨⟨henv, hfd⟩, hprop, hfresh, hclosed⟩ := hc
  have hspares : SparesHandles s c := fun _ _ _ _ _ _ n hn => by simp [hfd] at hn
  obtain ⟨hseen, hr', hb', hu'⟩ :=
    hprop.follows_unstale henv hspares hclosed hshare hr hb hu (.inl trivial) (hfresh.within hr hb)
  exact ⟨hseen, _, hr', hb', hu'⟩

private theorem representsSteady_init (config : Config) (env : Env) (mode : UInt32) (dev : Nat) :
    RepresentsSteady (State.init config env mode dev) ByteFS.init :=
  ⟨_, refines_init config env mode dev, housed_init config env mode dev, fun fh f h hs => by
    simp [Plain.init, slot] at hs⟩

theorem representsSteady_run (config : Config) (env : Env) (mode : UInt32) (dev : Nat) {calls : List (Env × Op)}
    (hok : Allowed step (fun s c => Steady s c ∧ Sharing s c) (State.init config env mode dev) calls) :
    (run step (State.init config env mode dev) calls).2.map Result.seen = (run ByteFS.step ByteFS.init calls).2 ∧
      RepresentsSteady (run step (State.init config env mode dev) calls).1 (run ByteFS.step ByteFS.init calls).1 := by
  refine run_simulates RepresentsSteady Result.seen ?_ (representsSteady_init config env mode dev) hok
  rintro s b c h ⟨hc, hshare⟩
  exact h.step hc hshare

/-- Through any number of handles that share the cached inode, every Read and GetAttr sees all
Writes before it, and the record of a file that is not open holds them all. -/
theorem shared_handles_lose_no_update (config : Config) (env : Env) (mode : UInt32) (dev : Nat)
    (calls : List (Env × Op))
    (hok : Allowed step (fun s c => Steady s c ∧ Sharing s c) (State.init config env mode dev) calls) :
    let s := (run step (State.init config env mode dev) calls).1
    (run step (State.init config env mode dev) calls).2.map Result.seen = (run ByteFS.step ByteFS.init calls).2 ∧
      ∀ key n, (run ByteFS.step ByteFS.init calls).1.nodes key = some n → ¬ s.OpenOn key →
        ∃ v, s.inode_cache.metadb.lookup key = some v ∧ v.fstat.st_ino = n.ino ∧
          Stored s.threshold_ s.disk v n.bytes := by
  obtain ⟨hout, hrep⟩ := representsSteady_run config env mode dev hok
  refine ⟨hout, fun key n hn hclosed => ?_⟩
  obtain ⟨v, hv, hs⟩ := hrep.represents.file hn
  rcases hv with ⟨fh, f, h, hf, _⟩ | ⟨_, hv⟩
  · exact absurd ⟨fh, f, h, hf⟩ hclosed
  · exact ⟨v, hv, hs⟩

/-- Two handles that write in turn, above and below the threshold. -/
theorem shared_handles_lose_no_update_two :
    let calls := calmly [.makeNode (inRoot [97]) 0 0, .openFile (inRoot [97]) O_RDWR, .openFile (inRoot [97]) O_RDWR,
      .write 0 O_RDWR [1, 2] 0, .write 1 O_RDWR [3] 2, .read 0 9 0, .getAttr (inRoot [97]), .release 0, .release 1]
    Allowed step (fun s c => Steady s c ∧ Sharing s c) (State.fresh 2) calls ∧
      (run step (State.fresh 2) calls).2.map Result.seen = (run ByteFS.step ByteFS.init calls).2 := by
  have hok : Allowed step (fun s c => Steady s c ∧ Sharing s c) (State.fresh 2)
      (calmly [.makeNode (inRoot [97]) 0 0, .openFile (inRoot [97]) O_RDWR, .openFile (inRoot [97]) O_RDWR,
        .write 0 O_RDWR [1, 2] 0, .write 1 O_RDWR [3] 2, .read 0 9 0, .getAttr (inRoot [97]), .release 0,
        .release 1]) := by decide +kernel
  exact ⟨hok, (shared_handles_lose_no_update _ _ _ _ _ hok).1⟩

/-- Release evicts the inode from the cache while another handle is open on it: GetAttr then
reads the old record, and a handle opened later overwrites what the other one wrote. -/
theorem release_splits_open_inode :
    let calls := calmly [.makeNode (inRoot [97]) 0 0, .openFile (inRoot [97]) O_RDWR, .openFile (inRoot [97]) O_RDWR,
      .release 0, .write 1 O_RDWR [1, 2] 0, .getAttr (inRoot [97]), .openFile (inRoot [97]) O_RDWR,
      .write 2 O_RDWR [9] 0, .release 1, .release 2, .openFile (inRoot [97]) O_RDWR, .read 3 9 0]
    let seen := (run step (State.fresh 4096) calls).2.map Result.seen
    let spec := (run ByteFS.step ByteFS.init calls).2
    Allowed step Steady (State.fresh 4096) calls ∧
      seen[5]? = some { ret := 0, size := some 0 } ∧ spec[5]? = some { ret := 0, size := some 2 } ∧
      seen[11]? = some { ret := 1, data := [9] } ∧ spec[11]? = some { ret := 2, data := [9, 2] } := by
  decide +kernel

end TableFS

import TableFS.SharedFiles

/-! One handle at a time on every file. The bytes are then where their number puts them, unless
two inodes share a data file: its path keeps only the low 32 bits of the inode number. -/
namespace TableFS
open ByteSeq Slots Disk Runs

/-- Requests on files with one handle at a time: a file that is open is not opened, looked at,
truncated or removed by path. The unset descriptor in Truncate is negative. -/
def Sequential (s : State) (c : Env × Op) : Prop :=
  (c.1.Succeeds ∧ c.1.fd = none) ∧ Proper s c.2 ∧
    ∀ path ∈ c.2.inspected, ∀ key ∈ s.keyOf path, ¬ s.OpenOn key

instance (s : State) (c : Env × Op) : Decidable (Sequential s c) := inferInstanceAs (Decidable (_ ∧ _ ∧ _))

private theorem Sequential.steady {s : State} {c : Env × Op} (h : Sequential s c) (hf : FreshPath s c.2) :
    Steady s c ∧ Sharing s c := by
  obtain ⟨henv, hprop, hclosed⟩ := h
  refine ⟨⟨henv, hprop, hf, fun t ht => ?_⟩, fun path hp key hk ho => absurd ho (hclosed path hp key hk)⟩
  obtain ⟨env, op⟩ := c
  cases op with
  | truncate path n =>
    obtain rfl := Option.some.inj ht
    exact hclosed path rfl
  | _ => cases ht

/-- Every result is that of a file system of byte lists, whatever the threshold, and after every
request each file's bytes are inline up to the threshold and in its disk file above it. -/
theorem sequential_files_are_byte_lists (config : Config) (env : Env) (mode : UInt32) (dev : Nat)
    (calls : List (Env × Op))
    (hok : Allowed step (fun s c => Sequential s c ∧ FreshPath s c.2 ∧ InPlace s c)
      (State.init config env mode dev) calls) :
    let s := (run step (State.init config env mode dev) calls).1
    let b := (run ByteFS.step ByteFS.init calls).1
    (run step (State.init config env mode dev) calls).2.map Result.seen = (run ByteFS.step ByteFS.init calls).2 ∧
      (∀ key, b.nodes key = none → s.inode_cache.metadb.lookup key = none) ∧
      ∀ key n, b.nodes key = some n →
        ∃ v, s.FileValue key v ∧ v.fstat.st_ino = n.ino ∧ Stored s.threshold_ s.disk v n.bytes := by
  obtain ⟨hout, hrep⟩ :=
    representsSteady_run config env mode dev (hok.mono fun _ _ h => Sequential.steady h.1 h.2.1)
  exact ⟨hout, fun key hn => hrep.represents.absent hn, fun key n hn => hrep.represents.file hn⟩

/-- A file that grows past the threshold, is cut below it and read again. -/
theorem sequential_files_are_byte_lists_session :
    let calls := calmly [.makeNode (inRoot [97]) 0 0, .openFile (inRoot [97]) O_RDWR, .write 0 O_RDWR [1, 2, 3] 1,
      .release 0, .truncate (inRoot [97]) 2, .getAttr (inRoot [97]), .openFile (inRoot [97]) O_RDWR, .read 1 9 0]
    Allowed step (fun s c => Sequential s c ∧ FreshPath s c.2 ∧ InPlace s c) (State.fresh 2) calls ∧
      (run step (State.fresh 2) calls).2.map Result.seen = (run ByteFS.step ByteFS.init calls).2 := by
  have hok : Allowed step (fun s c => Sequential s c ∧ FreshPath s c.2 ∧ InPlace s c) (State.fresh 2)
      (calmly [.makeNode (inRoot [97]) 0 0, .openFile (inRoot [97]) O_RDWR, .write 0 O_RDWR [1, 2, 3] 1,
        .release 0, .truncate (inRoot [97]) 2, .getAttr (inRoot [97]), .openFile (inRoot [97]) O_RDWR,
        .read 1 9 0]) := by decide +kernel
  exact ⟨hok, (sequential_files_are_byte_lists _ _ _ _ _ hok).1⟩

/-- The same conditions, read off the machine without caches. -/
def PlainSequential (p : Plain) (c : Env × Op) : Prop :=
  (c.1.Succeeds ∧ c.1.fd = none) ∧
    ProperOn (fun path => (resolve p.metadb path).map Prod.fst) (fun key => p.metadb.lookup key = none)
      (fun key => (p.work key).isSome = true) c.2 ∧
    (∀ path ∈ c.2.inspected, ∀ key ∈ (resolve p.metadb path).map Prod.fst, ¬ (p.work key).isSome = true) ∧
    ∀ o ∈ p.dirs, o = none

instance (p : Plain) (c : Env × Op) : Decidable (PlainSequential p c) := inferInstanceAs (Decidable (_ ∧ _ ∧ _ ∧ _))

section
variable {s : State} {p : Plain}

private theorem PlainSequential.lift {c : Env × Op} (h : PlainSequential p c) (hr : Refines s p) :
    Sequential s c ∧ Orderly s c := by
  obtain ⟨henv, hprop, hclosed, hdirs⟩ := h
  have hkey : s.keyOf = fun path => (resolve p.metadb path).map Prod.fst := funext hr.keyOf_eq
  have hopen : s.OpenOn = fun key => (p.work key).isSome = true := by
    funext key
    rw [← hr.openOn key, Option.isSome_iff_ne_none]
  have hdir : ∀ key, ¬ s.DirOn key := hr.no_dirOn (slot_of_forall_none hdirs)
  have hproper : Proper s c.2 := by
    rw [Proper, hkey, hopen, ← hr.metadb]
    exact hprop
  have hseq : Sequential s c := by
    refine ⟨henv, hproper, ?_⟩
    rw [hkey, hopen]
    exact hclosed
  refine ⟨hseq, ?_⟩
  obtain ⟨env, op⟩ := c
  cases op with
  | getAttr path => exact fun key hk ho => absurd ho (hseq.2.2 path rfl key hk)
  | openFile path flags => exact fun key hk => ⟨fun ho => absurd ho (hseq.2.2 path rfl key hk), hdir key⟩
  | truncate path n => exact fun key hk => ⟨fun ho => absurd ho (hseq.2.2 path rfl key hk), hdir key⟩
  | makeNode path mode dev => exact fun key hk => ⟨hproper key hk, hr.absent_closed (hproper key hk)⟩
  | makeDir path mode => exact fun key hk => ⟨hproper key hk, hr.absent_closed (hproper key hk)⟩
  | unlink path => exact fun key hk => ⟨hproper key hk, hdir key⟩
  | read | write | release => trivial
  | _ => exact hproper.elim

private theorem plainSequential_run {calls : List (Env × Op)} (hr : Refines s p)
    (h : Allowed Plain.step PlainSequential p calls) :
    Allowed step Sequential s calls ∧ Allowed step Orderly s calls := by
  induction calls generalizing s p with
  | nil => exact ⟨trivial, trivial⟩
  | cons c cs ih =>
    obtain ⟨hseq, hord⟩ := h.1.lift hr
    obtain ⟨h1, h2⟩ := ih (step_refines hr c hord).2 h.2
    exact ⟨⟨hseq, h1⟩, hord, h2⟩

end

/-- A file is created and removed again. -/
def churnOnce : List (Env × Op) := calmly [.makeNode (inRoot [98]) 0 0, .unlink (inRoot [98])]

def churn (n : Nat) : List (Env × Op) := (List.replicate n churnOnce).flatten

private theorem resolve_inRoot_b (m : MetaDB) :
    resolve m (inRoot [98]) = some (buildMetaKey [98] ROOT_INODE_ID, [98]) := rfl

/-- The state with n more inode numbers used up. -/
def Plain.later (p : Plain) (n : Nat) : Plain := { p with max_inode_num := p.max_inode_num + UInt64.ofNat n }

def ByteFS.later (b : ByteFS) (n : Nat) : ByteFS := { b with counter := b.counter + UInt64.ofNat n }

private theorem churn_one {p : Plain} (hm : p.metadb.lookup (buildMetaKey [98] ROOT_INODE_ID) = none)
    (hw : p.work (buildMetaKey [98] ROOT_INODE_ID) = none) (hd : ∀ o ∈ p.dirs, o = none) :
    Allowed Plain.step PlainSequential p churnOnce ∧ (run Plain.step p churnOnce).1 = p.later 1 := by
  have hcalm : Env.calm.Succeeds ∧ Env.calm.fd = none := by decide
  have hmake : (p.step (.calm, .makeNode (inRoot [98]) 0 0)).1 = { p with
      max_inode_num := p.max_inode_num + 1
      metadb := p.metadb.insert (buildMetaKey [98] ROOT_INODE_ID)
        (initInodeValue Env.calm.memory (p.max_inode_num + 1) (0 ||| S_IFREG) 0 [98] none 0) } := by
    simp only [Plain.step, Plain.makeNode, Plain.create, resolve_inRoot_b]
    rfl
  have herase (v : Value) : (p.metadb.insert (buildMetaKey [98] ROOT_INODE_ID) v).erase
      (buildMetaKey [98] ROOT_INODE_ID) = p.metadb := by
    apply Finmap.ext_lookup
    intro k
    by_cases hk : k = buildMetaKey [98] ROOT_INODE_ID
    · rw [hk, Finmap.lookup_erase, hm]
    · rw [Finmap.lookup_erase_ne hk, Finmap.lookup_insert_of_ne _ hk]
  refine ⟨⟨⟨hcalm, ?_, by simp [Op.inspected], hd⟩, ?_⟩, ?_⟩
  · intro key hk
    obtain rfl : buildMetaKey [98] ROOT_INODE_ID = key := by simpa [resolve_inRoot_b] using hk
    exact hm
  · rw [hmake]
    refine ⟨⟨hcalm, fun key hk => ?_, by simp [Op.inspected], hd⟩, trivial⟩
    obtain rfl : buildMetaKey [98] ROOT_INODE_ID = key := by simpa [resolve_inRoot_b] using hk
    simp [hw]
  · simp only [churnOnce, calmly, List.map_cons, List.map_nil, run, hmake]
    simp [Plain.later, Plain.step, Plain.unlink, Plain.acquire, resolve_inRoot_b, Plain.inode, copyOf, hw, herase,
      initInodeValue, initStat]

private theorem churn_run {p : Plain} (hm : p.metadb.lookup (buildMetaKey [98] ROOT_INODE_ID) = none)
    (hw : p.work (buildMetaKey [98] ROOT_INODE_ID) = none) (hd : ∀ o ∈ p.dirs, o = none) (n : Nat) :
    Allowed Plain.step PlainSequential p (churn n) ∧ (run Plain.step p (churn n)).1 = p.later n := by
  have hnext (n : Nat) : (p.later n).later 1 = p.later (n + 1) := by
    simp [Plain.later, UInt64.ofNat_add, UInt64.add_assoc]
  have hzero : p.later 0 = p := by simp [Plain.later]
  have h := run_repeat p.later (fun n => hnext n ▸ churn_one (p := p.later n) hm hw hd) n
  rw [hzero] at h
  exact h

private theorem ByteFS.churn_run {b : ByteFS} (hb : b.nodes (buildMetaKey [98] ROOT_INODE_ID) = none) (n : Nat) :
    (run ByteFS.step b (churn n)).1 = b.later n := by
  have hres (b : ByteFS) : resolveBy b.ino (inRoot [98]) = some (buildMetaKey [98] ROOT_INODE_ID, [98]) := rfl
  have hone (b : ByteFS) (hb : b.nodes (buildMetaKey [98] ROOT_INODE_ID) = none) :
      (run ByteFS.step b churnOnce).1 = b.later 1 := by
    have hsame (x : Option ByteNode) : Function.update (Function.update b.nodes (buildMetaKey [98] ROOT_INODE_ID) x)
        (buildMetaKey [98] ROOT_INODE_ID) none = b.nodes := by
      rw [Function.update_idem, ← hb, Function.update_eq_self]
    simp [churnOnce, calmly, run, ByteFS.step, ByteFS.create, ByteFS.find, hres, ByteFS.later, hsame]
  have hnext (n : Nat) : (b.later n).later 1 = b.later (n + 1) := by
    simp [ByteFS.later, UInt64.ofNat_add, UInt64.add_assoc]
  have hzero : b.later 0 = b := by simp [ByteFS.later]
  have hblock (n : Nat) : Allowed ByteFS.step (fun _ _ => True) (b.later n) churnOnce ∧
      (run ByteFS.step (b.later n) churnOnce).1 = b.later (n + 1) :=
    ⟨allowed_of_forall (fun _ _ => trivial) _ _, (hone (b.later n) hb).trans (hnext n)⟩
  have h := (run_repeat b.later hblock n).2
  rw [hzero] at h
  exact h

section
variable (first last : List (Env × Op)) (n : Nat)

private theorem churn_between {p : Plain} (hfirst : Allowed Plain.step PlainSequential p first)
    (hm : (run Plain.step p first).1.metadb.lookup (buildMetaKey [98] ROOT_INODE_ID) = none)
    (hw : (run Plain.step p first).1.work (buildMetaKey [98] ROOT_INODE_ID) = none)
    (hd : ∀ o ∈ (run Plain.step p first).1.dirs, o = none)
    (hlast : Allowed Plain.step PlainSequential ((run Plain.step p first).1.later n) last) {r : Result}
    (hr : (run Plain.step ((run Plain.step p first).1.later n) last).2.getLast? = some r) :
    Allowed Plain.step PlainSequential p (first ++ churn n ++ last) ∧
      (run Plain.step p (first ++ churn n ++ last)).2.getLast? = some r := by
  obtain ⟨hmid, hend⟩ := churn_run hm hw hd n
  have hstate : (run Plain.step p (first ++ churn n)).1 = (run Plain.step p first).1.later n := by
    rw [run_append, hend]
  rw [allowed_append, allowed_append, hstate]
  exact ⟨⟨⟨hfirst, hmid⟩, hlast⟩, getLast_run_append _ _ _ (hstate ▸ hr)⟩

private theorem ByteFS.churn_between {b : ByteFS}
    (hb : (run ByteFS.step b first).1.nodes (buildMetaKey [98] ROOT_INODE_ID) = none) {r : Seen}
    (hr : (run ByteFS.step ((run ByteFS.step b first).1.later n) last).2.getLast? = some r) :
    (run ByteFS.step b (first ++ churn n ++ last)).2.getLast? = some r := by
  apply getLast_run_append
  rw [run_append, ByteFS.churn_run hb n, hr]

end

/-- After 2³² - 1 files were created and removed, a new file gets the data file of the first one
and its Write changes what is read there. -/
theorem inode_numbers_share_data_file :
    let calls := calmly [.makeNode (inRoot [97]) 0 0] ++ churn 4294967295 ++
      calmly [.makeNode (inRoot [99]) 0 0, .openFile (inRoot [97]) O_RDWR, .write 0 O_RDWR [1] 0,
        .openFile (inRoot [99]) O_RDWR, .write 1 O_RDWR [2] 0, .read 0 9 0]
    Allowed step Sequential (State.fresh 0) calls ∧
      (run step (State.fresh 0) calls).2.getLast? = some { ret := 1, data := [2] } ∧
      (run ByteFS.step ByteFS.init calls).2.getLast? = some { ret := 1, data := [1] } := by
  intro calls
  have hr : Refines (State.fresh 0) (Plain.init (.source 0) .calm S_IFDIR 0) := refines_init ..
  obtain ⟨hall, hlast⟩ := churn_between (p := Plain.init (.source 0) .calm S_IFDIR 0)
    (calmly [.makeNode (inRoot [97]) 0 0])
    (calmly [.makeNode (inRoot [99]) 0 0, .openFile (inRoot [97]) O_RDWR, .write 0 O_RDWR [1] 0,
      .openFile (inRoot [99]) O_RDWR, .write 1 O_RDWR [2] 0, .read 0 9 0])
    4294967295 (by decide +kernel) (by decide +kernel) rfl (by decide +kernel) (by decide +kernel)
    (by decide +kernel : _ = some { ret := 1, data := [2] })
  obtain ⟨hseq, hord⟩ := plainSequential_run hr hall
  refine ⟨hseq, by rw [(run_refines hr hord).1, hlast], ?_⟩
  exact ByteFS.churn_between _ _ _ (by decide +kernel) (by decide +kernel)

end TableFS

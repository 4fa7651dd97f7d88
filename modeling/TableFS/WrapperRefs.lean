import Mathlib.Algebra.BigOperators.Group.Finset.Piecewise
import TableFS.WrapperTable

/-! References to entries of the inode cache, counted at the wrapper: one for each descriptor that
callers hold, and one for each directory that Listdir, Lsstat or Scanfile ever opened. -/
namespace TableFS
open Slots Runs

section
variable {α : Type}

private theorem sum_count {n : Nat} (f : α → Nat) {l : List (Option α)} (h : ∀ x, some x ∈ l → f x < n) :
    ∑ i ∈ Finset.range n, count (fun x => decide (f x = i)) l = count (fun _ => true) l := by
  induction l with
  | nil => simp [count]
  | cons o l ih =>
    have hrest := ih fun x hx => h x (List.mem_cons_of_mem o hx)
    cases o with
    | none => simpa [count] using hrest
    | some x =>
      have hx : f x ∈ Finset.range n := Finset.mem_range.mpr (h x List.mem_cons_self)
      simp only [count, List.countP_cons, Option.any_some, decide_eq_true_eq, if_true] at hrest ⊢
      rw [Finset.sum_add_distrib, hrest, Finset.sum_ite_eq, if_pos hx]

private theorem count_le (p : α → Bool) (l : List (Option α)) : count p l ≤ count (fun _ => true) l :=
  List.countP_mono_left fun o _ ho => by
    cases o with
    | none => exact ho
    | some x => rfl

end

namespace InodeCache
variable {ic : InodeCache} {pins writers : Nat → Nat}

/-- The references to an entry beyond the table's own. -/
def heldRefs (ic : InodeCache) (i : Nat) : Nat :=
  match ic.cache.data i with
  | none => 0
  | some (key, _) => ic.cache.refs i - ic.cache.tableRef key i

/-- All references that are not the table's. -/
def outstanding (ic : InodeCache) : Nat := ∑ i ∈ Finset.range ic.cache.heap.length, ic.heldRefs i

private theorem Sound.outstanding_eq (hs : ic.Sound pins writers) :
    ic.outstanding = ∑ i ∈ Finset.range ic.cache.heap.length, pins i := by
  refine Finset.sum_congr rfl fun i hi => ?_
  obtain ⟨key, h, hd⟩ := PinnedLru.LRUCache.data_of_lt (Finset.mem_range.mp hi)
  rw [heldRefs, hd, hs.counted.count i key h hd]
  exact Nat.add_sub_cancel_left _ _

private theorem Sound.evictAll_table (hs : ic.Sound pins writers) (keys : List MetaKey) :
    (ic.evictAll keys).Sound pins writers ∧
      ∀ k, (ic.evictAll keys).table k = if k ∈ keys then none else ic.table k := by
  induction keys generalizing ic with
  | nil => exact ⟨hs, fun k => (if_neg List.not_mem_nil).symm⟩
  | cons key keys ih =>
    obtain ⟨hsound, htable⟩ := ih (hs.evict key).1
    refine ⟨hsound, fun k => (htable k).trans ?_⟩
    rw [(evict_spec hs.counted key).1 k]
    by_cases hk : k = key <;> by_cases hk' : k ∈ keys <;> simp [hk, hk']

private theorem Sound.destroy_refs (hs : ic.Sound pins writers) {i : Nat} (hi : i < ic.destroy.cache.heap.length) :
    ic.destroy.cache.refs i = pins i := by
  obtain ⟨hsound, htable⟩ := hs.evictAll_table ic.cache.table.keys.reverse
  obtain ⟨key, h, hd⟩ := PinnedLru.LRUCache.data_of_lt hi
  have hnone : ic.destroy.cache.table.lookup key = none := by
    refine (htable key).trans ?_
    split
    · rfl
    · rename_i hkey
      exact AList.lookup_eq_none.mpr fun hmem => hkey (List.mem_reverse.mpr hmem)
  have href : ic.destroy.cache.tableRef key i = 0 := PinnedLru.LRUCache.tableRef_neg (hnone ▸ nofun)
  exact (hsound.counted.count i key h hd).trans (by rw [← destroy, href, Nat.zero_add])

end InodeCache

private theorem State.Counted.outstanding_eq {s : State} (hs : s.Counted) :
    s.inode_cache.outstanding = s.openFiles + s.openDirs := by
  have hlt : ∀ i, s.pins i ≠ 0 → i < s.inode_cache.cache.heap.length := hs.counted.bound
  rw [InodeCache.Sound.outstanding_eq hs]
  simp only [State.pins, Pi.add_apply, Finset.sum_add_distrib]
  refine congrArg₂ (· + ·) (sum_count FileHandle.handle_ fun f hf => hlt _ ?_) (sum_count id fun i hi => hlt i ?_)
  · have hpos : 0 < openCount s.files f.handle_ := List.countP_pos_iff.mpr ⟨some f, hf, by simp⟩
    exact Nat.ne_of_gt (Nat.add_pos_left hpos _)
  · have hpos : 0 < dirCount s.dirs i := List.countP_pos_iff.mpr ⟨some i, hi, by simp⟩
    exact Nat.ne_of_gt (Nat.add_pos_right _ hpos)

namespace Session
variable {s : Session} {c : List Env × WrapperCall}

/-- Callers have as many references as descriptors. -/
def Balanced (s : Session) : Prop := s.wrapper.fs.inode_cache.outstanding = s.opened.length

instance (s : Session) : Decidable s.Balanced := inferInstanceAs (Decidable (_ = _))

/-- The call is a Listdir, Lsstat or Scanfile of a path that leads to an inode. -/
def Lists (s : Session) (c : List Env × WrapperCall) : Prop := c.2.Lists s.wrapper.fs

private theorem balanced_iff (hs : Wired s.wrapper s.opened) : s.Balanced ↔ s.wrapper.fs.openDirs = 0 := by
  rw [Balanced, hs.sane.counted.outstanding_eq, hs.count]
  omega

private theorem balanced_serve_iff (hs : Wired s.wrapper s.opened) (hdirs : s.wrapper.fs.openDirs = 0)
    (hr : s.Returns c) :
    (s.serve c).1.Balanced ↔ ¬ s.Lists c := by
  obtain ⟨ret, s', he, hserved⟩ := serve_served hs hr
  rw [balanced_iff (wired_serve hs hr), he]
  by_cases hc : s.Lists c
  · exact iff_of_false (fun h => by simp [(hserved.listed hc).dirs] at h) (not_not_intro hc)
  · exact iff_of_true ((hserved.unlisted hc).dirs.trans hdirs) hc

/-- With no descriptor open and no reference left over, every cached entry has one reference, the
table's, and the destructor of the cache frees it. -/
private theorem released_of_balanced (hs : Wired s.wrapper s.opened) (hbalanced : s.Balanced)
    (hclosed : s.opened = []) :
    (∀ key i, s.wrapper.fs.inode_cache.table key = some i → s.wrapper.fs.inode_cache.cache.refs i = 1) ∧
      ∀ i < s.wrapper.fs.inode_cache.destroy.cache.heap.length, s.wrapper.fs.inode_cache.destroy.cache.refs i = 0 := by
  have hfiles : s.wrapper.fs.openFiles = 0 := by rw [hs.count, hclosed, List.length_nil]
  have hdirs := (balanced_iff hs).mp hbalanced
  have hpins : ∀ i, s.wrapper.fs.pins i = 0 := fun i => by
    have hf := count_le (fun f => decide (FileHandle.handle_ f = i)) s.wrapper.fs.files
    have hd := count_le (fun j => decide (j = i)) s.wrapper.fs.dirs
    exact Nat.add_eq_zero_iff.mpr ⟨Nat.le_zero.mp (hfiles ▸ hf), Nat.le_zero.mp (hdirs ▸ hd)⟩
  have hcounted := hs.sane.counted.counted
  refine ⟨fun key i htable => ?_, fun i hi => (InodeCache.Sound.destroy_refs hs.sane.counted hi).trans (hpins i)⟩
  obtain ⟨h, hd⟩ := hcounted.entry key i htable
  rw [hcounted.count i key h hd, PinnedLru.LRUCache.tableRef_pos htable, hpins i]

/-- Along any calls that all return, callers have as many references as open descriptors exactly if
no Listdir, Lsstat or Scanfile is made of a path that leads to an inode. Then the last Close leaves
every cached entry with one reference. -/
theorem references_balanced_iff (vol : Volume) (config : Config) (env : Env) (mode : UInt32) (dev : Nat) (logon : Bool)
    (calls : List (List Env × WrapperCall)) :
    (Allowed serve (fun s c => s.Returns c ∧ (s.serve c).1.Balanced)
        (start (.setup vol config env mode dev logon)) calls ↔
      Allowed serve (fun s c => s.Returns c ∧ ¬ s.Lists c) (start (.setup vol config env mode dev logon)) calls) ∧
    (Allowed serve Returns (start (.setup vol config env mode dev logon)) calls →
      let s := (run serve (start (.setup vol config env mode dev logon)) calls).1
      s.Balanced → s.opened = [] →
        (∀ key i, s.wrapper.fs.inode_cache.table key = some i → s.wrapper.fs.inode_cache.cache.refs i = 1) ∧
        ∀ i < s.wrapper.fs.inode_cache.destroy.cache.heap.length,
          s.wrapper.fs.inode_cache.destroy.cache.refs i = 0) := by
  have hstart := wired_start vol config env mode dev logon
  constructor
  · refine allowed_congr (fun s : Session => Wired s.wrapper s.opened ∧ s.wrapper.fs.openDirs = 0) (fun s c hs => ?_)
      (fun s c hs hc => ?_) ⟨hstart, rfl⟩ calls
    · exact and_congr_right fun hr => balanced_serve_iff hs.1 hs.2 hr
    · have hwired := wired_serve hs.1 hc.1
      exact ⟨hwired, (balanced_iff hwired).mp ((balanced_serve_iff hs.1 hs.2 hc.1).mpr hc.2)⟩
  · intro hreturn
    exact released_of_balanced (run_invariant (fun s : Session => Wired s.wrapper s.opened) (fun _ _ => wired_serve) hstart hreturn)

/-- After Listdir of the root directory, with no descriptor open, its entry has two references; the
destructor leaves it one. -/
theorem references_unbalanced :
    let r := fresh.serve ([.calm, .calm], .listdir (inRoot []))
    r.2 = .ok 2 ∧ r.1.opened = [] ∧ r.1.wrapper.fs.inode_cache.outstanding = 1 ∧
      r.1.wrapper.fs.inode_cache.cache.refs 0 = 2 ∧ r.1.wrapper.fs.inode_cache.destroy.cache.refs 0 = 1 := by
  decide +kernel

end Session
end TableFS

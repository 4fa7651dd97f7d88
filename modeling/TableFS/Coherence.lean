import TableFS.Records
import TableFS.PlainMachine

/-! Coherence of the inode cache with a plain map: every open inode has one handle, every
other entry of the table is a clean copy of the stored record. One lemma for each sequence
of cache operations; none depends on which entries were evicted. -/
namespace TableFS.InodeCache
open Slots

/-- `writers` and `dirs` count the open files and directories on each handle, `work`
gives the working copy of each inode open as a file. -/
structure Coherent (ic : InodeCache) (writers dirs : Nat → Nat)
    (work : MetaKey → Option InodeCacheHandle) : Prop where
  sound : ic.Sound (writers + dirs) writers
  opened : ∀ i, writers i ≠ 0 → ∃ k h, ic.handle i = some (k, h) ∧ work k = some h
  owner : ∀ k h, work k = some h → ∃ i, writers i ≠ 0 ∧ ic.handle i = some (k, h)
  single : ∀ i j k h h', writers i ≠ 0 → writers j ≠ 0 → ic.handle i = some (k, h) →
    ic.handle j = some (k, h') → i = j
  table : ∀ k i h, ic.table k = some i → ic.handle i = some (k, h) → writers i = 0 →
    work k = none ∧ ic.metadb.lookup k = some h.value_ ∧ h.mode_ = .read
  dir : ∀ i, dirs i ≠ 0 → ∃ k h, ic.handle i = some (k, h) ∧ h.mode_ = .read ∧
    ic.metadb.lookup k = some h.value_ ∧ work k = none

/-- No directory handle is open on the key. -/
def NoDir (ic : InodeCache) (dirs : Nat → Nat) (key : MetaKey) : Prop :=
  ∀ i h, dirs i ≠ 0 → ic.handle i ≠ some (key, h)

/-- Handles are never moved to another key. -/
def KeepsKeys (ic ic' : InodeCache) : Prop :=
  ∀ i k h, ic.handle i = some (k, h) → ∃ h', ic'.handle i = some (k, h')

section
variable {ic ic' : InodeCache} {writers dirs : Nat → Nat} {work : MetaKey → Option InodeCacheHandle}
  {key : MetaKey} {mode : InodeAccessMode} {i : Nat} {h : InodeCacheHandle}

theorem KeepsKeys.of_self {f : Nat → Option (MetaKey × InodeCacheHandle)} (hf : ic'.handle = f)
    (hself : ∃ hd, f i = some (key, hd)) (hkey : ∀ k hd, ic.handle i = some (k, hd) → k = key)
    (hothers : ∀ j, j ≠ i → f j = ic.handle j) : KeepsKeys ic ic' := by
  intro j k hd hj
  by_cases hji : j = i
  · subst hji
    obtain ⟨hd', hs⟩ := hself
    exact ⟨hd', by rw [hf, hs, hkey k hd hj]⟩
  · exact ⟨hd, by rw [hf, hothers j hji, hj]⟩

theorem Origin.key_of_handle (ho : Origin ic ic' key mode i h) (k : MetaKey) (hd : InodeCacheHandle)
    (hi : ic.handle i = some (k, hd)) : k = key := by
  rcases ho.value with ⟨h0, _, hi0, _⟩ | ⟨_, _, hn⟩
  · exact (handle_inj hi0 hi).1.symm
  · rw [hn] at hi
    cases hi

/-- Under coherence Get returns the plain map's copy, provided an open inode is still in
the table; it is the handle of the open inode exactly if there is one. -/
theorem Coherent.got (hc : Coherent ic writers dirs work) (hopen : work key ≠ none → ic.table key ≠ none)
    (ho : Origin ic ic' key mode i h) :
    copyOf ic.metadb work key mode = some h ∧ (work key = none ↔ writers i = 0) := by
  cases ho with
  | hit h0 ht hd _ =>
    by_cases hw : writers i = 0
    · obtain ⟨hn, hm, hr⟩ := hc.table key i h0 ht hd hw
      refine ⟨?_, by simp [hn, hw]⟩
      obtain ⟨v, m⟩ := h0
      cases hr
      simp only [copyOf, hn, hm, Option.map_some]
      cases mode <;> rfl
    · obtain ⟨k, h1, hd1, hk⟩ := hc.opened i hw
      obtain ⟨rfl, rfl⟩ := handle_inj hd hd1
      exact ⟨by simp [copyOf, hk], by simp [hk, hw]⟩
  | miss v ht hm hi =>
    have hn : work key = none := by
      by_contra hne
      exact hopen hne ht
    have hw : writers i = 0 := hi ▸ hc.sound.writers_new
    exact ⟨by simp [copyOf, hn, hm], by simp [hn, hw]⟩

/-- A key with neither an entry nor a record has no copy. -/
theorem Coherent.copyOf_none (mode : InodeAccessMode) (hopen : work key ≠ none → ic.table key ≠ none)
    (ht : ic.table key = none) (hm : ic.metadb.lookup key = none) : copyOf ic.metadb work key mode = none := by
  have hn : work key = none := by
    by_contra hne
    exact hopen hne ht
  simp [copyOf, hn, hm]

private theorem Coherent.at_key (hc : Coherent ic writers dirs work) {ic2 : InodeCache} {writers' dirs' : Nat → Nat}
    {work' : MetaKey → Option InodeCacheHandle} {h2 : InodeCacheHandle}
    (hs : ic2.Sound (writers' + dirs') writers') (hself : ic2.handle i = some (key, h2))
    (hothers : ∀ j, j ≠ i → ic2.handle j = ic.handle j)
    (hkey : ∀ k hd, ic.handle i = some (k, hd) → k = key)
    (htab : ∀ k j, ic2.table k = some j → (k = key ∧ j = i) ∨ (k ≠ key ∧ ic.table k = some j))
    (hm : ∀ k, k ≠ key → ic2.metadb.lookup k = ic.metadb.lookup k) (hwork : ∀ k, k ≠ key → work' k = work k)
    (hw : ∀ j, j ≠ i → writers' j = writers j) (hd : ∀ j, j ≠ i → dirs' j = dirs j)
    (halone : ∀ j hj, j ≠ i → writers j ≠ 0 → ic.handle j ≠ some (key, hj))
    (hat : (writers' i ≠ 0 ∧ work' key = some h2) ∨ (writers' i = 0 ∧ work' key = none ∧
      (ic2.table key = some i → ic2.metadb.lookup key = some h2.value_ ∧ h2.mode_ = .read)))
    (hdirs : ∀ j hj, j ≠ i → dirs j ≠ 0 → ic.handle j = some (key, hj) →
      ic2.metadb.lookup key = some hj.value_ ∧ work' key = none)
    (hdir : dirs' i ≠ 0 → h2.mode_ = .read ∧ ic2.metadb.lookup key = some h2.value_ ∧ work' key = none) :
    Coherent ic2 writers' dirs' work' := by
  refine ⟨hs, ?_, ?_, ?_, ?_, ?_⟩
  · intro j hj
    by_cases hji : j = i
    · subst hji
      exact ⟨key, h2, hself, (hat.resolve_right fun hr => hj hr.1).2⟩
    · rw [hw j hji] at hj
      obtain ⟨k, hd, hh, hk⟩ := hc.opened j hj
      have hne : k ≠ key := fun he => halone j hd hji hj (he ▸ hh)
      exact ⟨k, hd, by rw [hothers j hji, hh], by rw [hwork k hne, hk]⟩
  · intro k hd hk
    by_cases hke : k = key
    · subst hke
      rcases hat with ⟨hwi, hwk⟩ | ⟨_, hwk, _⟩
      · rw [hk] at hwk
        exact ⟨i, hwi, by rw [hself, Option.some.inj hwk]⟩
      · rw [hk] at hwk
        cases hwk
    · rw [hwork k hke] at hk
      obtain ⟨j, hj, hh⟩ := hc.owner k hd hk
      have hji : j ≠ i := fun he => hke (hkey k hd (he ▸ hh))
      exact ⟨j, by rwa [hw j hji], by rw [hothers j hji, hh]⟩
  · intro j j' k hd hd' hj hj' hh hh'
    by_cases hji : j = i
    · by_cases hji' : j' = i
      · rw [hji, hji']
      · rw [hji] at hh
        obtain ⟨rfl, -⟩ := handle_inj hself hh
        exact absurd (by rw [← hothers j' hji', hh']) (halone j' hd' hji' (by rwa [← hw j' hji']))
    · rw [hothers j hji] at hh
      rw [hw j hji] at hj
      by_cases hji' : j' = i
      · rw [hji'] at hh'
        obtain ⟨rfl, -⟩ := handle_inj hself hh'
        exact absurd hh (halone j hd hji hj)
      · rw [hothers j' hji'] at hh'
        rw [hw j' hji'] at hj'
        exact hc.single j j' k hd hd' hj hj' hh hh'
  · intro k j hd ht hh hj
    rcases htab k j ht with ⟨rfl, rfl⟩ | ⟨hke, ht0⟩
    · obtain ⟨-, rfl⟩ := handle_inj hself hh
      obtain ⟨_, hn, hrec⟩ := hat.resolve_left fun hl => hl.1 hj
      exact ⟨hn, hrec ht⟩
    · have hji : j ≠ i := by
        rintro rfl
        obtain ⟨hd0, hh0⟩ := hc.sound.entry ht0
        exact hke (hkey k hd0 hh0)
      rw [hothers j hji] at hh
      rw [hw j hji] at hj
      rw [hwork k hke, hm k hke]
      exact hc.table k j hd ht0 hh hj
  · intro j hj
    by_cases hji : j = i
    · subst hji
      exact ⟨key, h2, hself, hdir hj⟩
    · rw [hd j hji] at hj
      obtain ⟨k, hd, hh, hr, hrec, hn⟩ := hc.dir j hj
      refine ⟨k, hd, by rw [hothers j hji, hh], hr, ?_⟩
      by_cases hke : k = key
      · subst hke
        exact hdirs j hd hji hj hh
      · rw [hm k hke, hwork k hke]
        exact ⟨hrec, hn⟩

/-- The handle Get returns is the only one that open files have on its key. -/
theorem Coherent.alone (hc : Coherent ic writers dirs work) (hopen : work key ≠ none → ic.table key ≠ none)
    (ho : Origin ic ic' key mode i h) (j : Nat) (hj : InodeCacheHandle) (hne : j ≠ i) (hw : writers j ≠ 0) :
    ic.handle j ≠ some (key, hj) := by
  intro hh
  obtain ⟨k, hd, hh', hk⟩ := hc.opened j hw
  obtain ⟨rfl, rfl⟩ := handle_inj hh hh'
  have hwi : writers i ≠ 0 := fun h0 => by simp [((hc.got hopen ho).2.mpr h0)] at hk
  obtain ⟨k', hd', hi, _⟩ := hc.opened i hwi
  rw [ho.key_of_handle k' hd' hi] at hi
  exact hne (hc.single j i key hj hd' hw hwi hh hi)

private theorem Coherent.dir_record (hc : Coherent ic writers dirs work) {j : Nat} {hj : InodeCacheHandle}
    (hd : dirs j ≠ 0) (hh : ic.handle j = some (key, hj)) :
    ic.metadb.lookup key = some hj.value_ ∧ work key = none := by
  obtain ⟨k, hd', hh', _, hm, hn⟩ := hc.dir j hd
  obtain ⟨rfl, rfl⟩ := handle_inj hh hh'
  exact ⟨hm, hn⟩

theorem Coherent.peek (hc : Coherent ic writers dirs work) (hopen : work key ≠ none → ic.table key ≠ none)
    (hp : Placed ic ic' key i h) (ho : Origin ic ic' key .read i h)
    (hs' : ic'.Sound (pin (writers + dirs) i) (pin writers i)) :
    Coherent (ic'.release i) writers dirs work := by
  obtain ⟨ht, hh, hm, hs⟩ := hc.sound.peek hp ho hs'
  obtain ⟨hcopy, hiff⟩ := hc.got hopen ho
  have hread : work key = none → ic.metadb.lookup key = some h.value_ ∧ h.mode_ = .read := by
    intro hn
    simp only [copyOf, hn, Option.map_eq_some_iff] at hcopy
    obtain ⟨v, hv, rfl⟩ := hcopy
    exact ⟨hv, rfl⟩
  refine hc.at_key hs (hh ▸ hp.self) (fun j hj => hh ▸ hp.others j hj) ho.key_of_handle
    (fun k j hk => hp.table k j (ht ▸ hk)) (fun k _ => hm ▸ rfl) (fun _ _ => rfl) (fun _ _ => rfl)
    (fun _ _ => rfl) (hc.alone hopen ho) ?_ ?_ ?_
  · by_cases hw : writers i = 0
    · have hn := hiff.mpr hw
      exact .inr ⟨hw, hn, fun _ => hm ▸ hread hn⟩
    · refine .inl ⟨hw, ?_⟩
      cases hk : work key with
      | none => exact absurd (hiff.mp hk) hw
      | some h0 => simpa [copyOf, hk, InodeCacheHandle.access] using hcopy
  · intro j hj _ hdj hjj
    exact hm ▸ hc.dir_record hdj hjj
  · intro hdi
    obtain ⟨k, hd, hi, _, _, hn⟩ := hc.dir i hdi
    obtain rfl := ho.key_of_handle k hd hi
    exact ⟨(hread hn).2, hm ▸ (hread hn).1, hn⟩

private theorem Coherent.no_dir (hc : Coherent ic writers dirs work) (hno : NoDir ic dirs key)
    (ho : Origin ic ic' key mode i h) : dirs i = 0 := by
  by_contra hdi
  obtain ⟨k, hd, hi, _⟩ := hc.dir i hdi
  rw [ho.key_of_handle k hd hi] at hi
  exact hno i hd hdi hi

theorem Coherent.modify (hc : Coherent ic writers dirs work) (hopen : work key ≠ none → ic.table key ≠ none)
    (hno : NoDir ic dirs key) (hp : Placed ic ic' key i h) (ho : Origin ic ic' key .write i h)
    (hs' : ic'.Sound (pin (writers + dirs) i) (pin writers i)) {g : InodeCacheHandle → InodeCacheHandle}
    (hg : (g h).mode_ = h.mode_) :
    Coherent (((ic'.update i g).writeBack i).release i) writers dirs
      (Function.update work key ((work key).map fun _ => ⟨(g h).value_, .read⟩)) := by
  obtain ⟨ht, hself, hothers, hm, hs⟩ := Sound.modify hp ho hs' hg
  obtain ⟨_, hiff⟩ := hc.got hopen ho
  refine hc.at_key hs hself hothers ho.key_of_handle (fun k j hk => hp.table k j (ht ▸ hk))
    (fun k hk => by rw [hm, Finmap.lookup_insert_of_ne _ hk]) (fun k hk => Function.update_of_ne hk _ _)
    (fun _ _ => rfl) (fun _ _ => rfl) (hc.alone hopen ho) ?_ (fun j hj _ hdj hjj => absurd hjj (hno j hj hdj))
    (fun hdi => absurd (hc.no_dir hno ho) hdi)
  cases hk : work key with
  | none => exact .inr ⟨hiff.mp hk, by simp, fun _ => ⟨by rw [hm, Finmap.lookup_insert], rfl⟩⟩
  | some h0 => exact .inl ⟨fun hw => by simp [hiff.mpr hw] at hk, by simp⟩

theorem Coherent.remove (hc : Coherent ic writers dirs work) (hclosed : work key = none)
    (hno : NoDir ic dirs key) (hp : Placed ic ic' key i h) (ho : Origin ic ic' key .delete i h)
    (hs' : ic'.Sound (pin (writers + dirs) i) (pin writers i)) :
    Coherent ((ic'.release i).evict key) writers dirs work ∧
      ((ic'.release i).evict key).metadb = ic.metadb.erase key := by
  obtain ⟨ht, hh, hm, hs⟩ := hc.sound.remove hp ho hs'
  have hopen : work key ≠ none → ic.table key ≠ none := fun hne => absurd hclosed hne
  have hwi : writers i = 0 := (hc.got hopen ho).2.mp hclosed
  have hpins : (writers + dirs) i = 0 := by simp [hwi, hc.no_dir hno ho]
  rw [if_pos hpins] at hm
  refine ⟨?_, hm⟩
  refine hc.at_key hs (hh ▸ hp.self) (fun j hj => hh ▸ hp.others j hj) ho.key_of_handle
    (fun k j hk => .inr (ht k j hk)) (fun k hk => by rw [hm, Finmap.lookup_erase_ne hk]) (fun _ _ => rfl)
    (fun _ _ => rfl) (fun _ _ => rfl) (hc.alone hopen ho)
    (.inr ⟨hwi, hclosed, fun hk => absurd rfl (ht key i hk).1⟩)
    (fun j hj _ hdj hjj => absurd hjj (hno j hj hdj)) (fun hdi => absurd (hc.no_dir hno ho) hdi)

theorem Coherent.opened_file (hc : Coherent ic writers dirs work)
    (hopen : work key ≠ none → ic.table key ≠ none) (hno : NoDir ic dirs key) (hp : Placed ic ic' key i h)
    (ho : Origin ic ic' key mode i h) (hs' : ic'.Sound (pin (writers + dirs) i) (pin writers i)) :
    Coherent ic' (pin writers i) dirs (Function.update work key (some h)) := by
  rw [← pin_add] at hs'
  exact hc.at_key hs' hp.self hp.others ho.key_of_handle hp.table (fun k _ => by rw [hp.metadb])
    (fun k hk => Function.update_of_ne hk _ _) (fun j hj => pin_ne _ hj) (fun _ _ => rfl) (hc.alone hopen ho)
    (.inl ⟨by simp, by simp⟩) (fun j hj _ hdj hjj => absurd hjj (hno j hj hdj))
    (fun hdi => absurd (hc.no_dir hno ho) hdi)

theorem Coherent.opened_dir (hc : Coherent ic writers dirs work) (hclosed : work key = none)
    (hp : Placed ic ic' key i h) (ho : Origin ic ic' key .read i h)
    (hs' : ic'.Sound (pin (writers + dirs) i) (pin writers i)) : Coherent ic' writers (pin dirs i) work := by
  have hopen : work key ≠ none → ic.table key ≠ none := fun hne => absurd hclosed hne
  obtain ⟨hcopy, hiff⟩ := hc.got hopen ho
  simp only [copyOf, hclosed, Option.map_eq_some_iff] at hcopy
  obtain ⟨v, hv, rfl⟩ := hcopy
  have hm : ic'.metadb.lookup key = some v := by rw [hp.metadb, hv]
  have hs := hc.sound.got_read hp ho hs'
  rw [← add_pin] at hs
  exact hc.at_key hs hp.self hp.others ho.key_of_handle hp.table (fun k _ => by rw [hp.metadb])
    (fun _ _ => rfl) (fun _ _ => rfl) (fun j hj => pin_ne _ hj) (hc.alone hopen ho)
    (.inr ⟨hiff.mp hclosed, hclosed, fun _ => ⟨hm, rfl⟩⟩)
    (fun j hj _ hdj hjj => hp.metadb ▸ hc.dir_record hdj hjj) (fun _ => ⟨rfl, hm, hclosed⟩)

theorem key_of_handle (hh : ic.handle i = some (key, h)) (k : MetaKey) (hd : InodeCacheHandle)
    (hi : ic.handle i = some (k, hd)) : k = key := by
  exact (handle_inj hh hi).1.symm

section File
variable (hc : Coherent ic writers dirs work) (hw : writers i ≠ 0) (hh : ic.handle i = some (key, h))
include hc hw hh

theorem Coherent.work_eq : work key = some h := by
  obtain ⟨k, hd, hh', hk⟩ := hc.opened i hw
  obtain ⟨rfl, rfl⟩ := handle_inj hh hh'
  exact hk

private theorem Coherent.no_dir_of_file : NoDir ic dirs key := by
  intro j hj hdj hjj
  have := (hc.dir_record hdj hjj).2
  simp [hc.work_eq hw hh] at this

private theorem Coherent.alone_of_file (j : Nat) (hj : InodeCacheHandle) (hne : j ≠ i) (hwj : writers j ≠ 0) :
    ic.handle j ≠ some (key, hj) := fun hjj => hne (hc.single j i key hj h hwj hw hjj hh)

private theorem Coherent.dirs_of_file : dirs i = 0 := by
  by_contra hdi
  exact hc.no_dir_of_file hw hh i h hdi hh

theorem Coherent.wrote (v : Value) :
    Coherent (ic.update i (fun _ => ⟨v, .write⟩)) writers dirs (Function.update work key (some ⟨v, .write⟩)) :=
  hc.at_key (hc.sound.update i _ (.inl hw)) (handle_update_self hh _) (fun j hj => handle_update_ne ic hj _)
    (key_of_handle hh)
    (fun k j hk => by
      by_cases hke : k = key
      · subst hke
        obtain ⟨hd, hj⟩ := hc.sound.entry hk
        by_cases hji : j = i
        · exact .inl ⟨rfl, hji⟩
        · have hwj : writers j = 0 := by
            by_contra hne
            exact hc.alone_of_file hw hh j hd hji hne hj
          have := (hc.table k j hd hk hj hwj).1
          simp [hc.work_eq hw hh] at this
      · exact .inr ⟨hke, hk⟩)
    (fun _ _ => rfl) (fun k hk => Function.update_of_ne hk _ _) (fun _ _ => rfl) (fun _ _ => rfl)
    (hc.alone_of_file hw hh) (.inl ⟨hw, by simp⟩)
    (fun j hj _ hdj hjj => absurd hjj (hc.no_dir_of_file hw hh j hj hdj))
    (fun hdi => absurd (hc.dirs_of_file hw hh) hdi)

theorem Coherent.closed_file {g : InodeCacheHandle → InodeCacheHandle} (hg : (g h).mode_ = h.mode_) :
    Coherent ((((ic.update i g).writeBack i).release i).evict key) (unpin writers i) dirs
      (Function.update work key
        (if writers i = 1 then none else some ⟨(g h).value_, settled h.mode_⟩)) := by
  obtain ⟨ht, hself, hothers, hm, hs⟩ := hc.sound.close hw hh hg
  rw [← unpin_add _ _ hw] at hs
  refine hc.at_key hs hself hothers (key_of_handle hh) (fun k j hk => ?_) (fun k hk => hm ▸ lookup_clean_ne hk _ _)
    (fun k hk => Function.update_of_ne hk _ _) (fun j hj => unpin_ne _ hj) (fun _ _ => rfl)
    (hc.alone_of_file hw hh) ?_
    (fun j hj _ hdj hjj => absurd hjj (hc.no_dir_of_file hw hh j hj hdj))
    (fun hdi => absurd (hc.dirs_of_file hw hh) hdi)
  · rw [ht] at hk
    split at hk
    · cases hk
    · exact .inr ⟨‹_›, hk⟩
  · by_cases h1 : writers i = 1
    · refine .inr ⟨by simp [h1], by simp [h1], fun hk => ?_⟩
      rw [ht, if_pos rfl] at hk
      cases hk
    · exact .inl ⟨by rw [unpin_self]; omega, by simp [h1]⟩

end File

theorem Coherent.closed_dir (hc : Coherent ic writers dirs work) (hd : dirs i ≠ 0) :
    Coherent (ic.release i) writers (unpin dirs i) work ∧ (ic.release i).metadb = ic.metadb := by
  obtain ⟨k, ⟨v, m⟩, hh, hr, _⟩ := hc.dir i hd
  cases hr
  have hlt : writers i < (writers + dirs) i := by
    simp only [Pi.add_apply]
    omega
  obtain ⟨ht, hhan, _, hm⟩ := hc.sound.release_spec (Nat.ne_zero_of_lt hlt) hh
  have hs := hc.sound.release_reader hlt hh
  rw [← add_unpin _ _ hd] at hs
  rw [cleanInodeHandle_read, ite_self] at hm
  refine ⟨⟨hs, ?_, ?_, ?_, ?_, ?_⟩, hm⟩
  · rw [hhan]
    exact hc.opened
  · rw [hhan]
    exact hc.owner
  · rw [hhan]
    exact hc.single
  · rw [hhan, ht, hm]
    exact hc.table
  · rw [hhan, hm]
    intro j hj
    refine hc.dir j fun h0 => hj ?_
    by_cases hji : j = i
    · subst hji
      simp [h0]
    · rw [unpin_ne _ hji, h0]

/-- A record created under a key that was neither stored nor open. -/
theorem Coherent.put (hc : Coherent ic writers dirs work) (habs : ic.metadb.lookup key = none)
    (hclosed : work key = none) (v : Value) : Coherent (ic.put key v) writers dirs work := by
  refine ⟨hc.sound.of_metadb _, hc.opened, hc.owner, hc.single, ?_, ?_⟩
  · intro k j hd ht hh hw
    obtain ⟨hn, hm, hr⟩ := hc.table k j hd ht hh hw
    have hne : k ≠ key := by
      rintro rfl
      simp [habs] at hm
    exact ⟨hn, by rw [metadb_put, Finmap.lookup_insert_of_ne _ hne, hm], hr⟩
  · intro j hj
    obtain ⟨k, hd, hh, hr, hm, hn⟩ := hc.dir j hj
    have hne : k ≠ key := by
      rintro rfl
      simp [habs] at hm
    exact ⟨k, hd, hh, hr, by rw [metadb_put, Finmap.lookup_insert_of_ne _ hne, hm], hn⟩

private theorem erase_insert_erase {m : MetaDB} {old new : MetaKey} (hne : old ≠ new) (v : Value) :
    ((m.erase old).insert new v).erase old = (m.erase old).insert new v :=
  Finmap.ext_lookup fun k => by
    by_cases hk : k = old
    · subst hk
      simp [Finmap.lookup_insert_of_ne _ hne]
    · rw [Finmap.lookup_erase_ne hk]

/-- Rename between two keys of inodes that are not open. -/
theorem Coherent.move {old new : MetaKey} (hc : Coherent ic writers dirs work) (hne : old ≠ new)
    (hold : work old = none) (hno : NoDir ic dirs old) (hnew : work new = none) (hnn : NoDir ic dirs new)
    (hp : Placed ic ic' old i h) (ho : Origin ic ic' old .delete i h)
    (hs' : ic'.Sound (pin (writers + dirs) i) (pin writers i)) (v : Value) {r : InodeCache}
    (hr : (((((ic'.insert new v).1.batchCommit i (ic'.insert new v).2 true).release (ic'.insert new v).2).release
      i).evict old) = r) :
    Coherent r writers dirs work ∧ r.metadb = (ic.metadb.erase old).insert new v ∧ KeepsKeys ic r := by
  obtain ⟨hji, hfresh, ht, hi, hj, hothers, hm, hs⟩ := Sound.move new hp ho hs' v true
  simp only [hr] at ht hi hj hothers hm hs
  generalize ic'.insert new v = r2 at *
  have hopen : work old ≠ none → ic.table old ≠ none := fun h => absurd hold h
  have hwi : writers i = 0 := (hc.got hopen ho).2.mp hold
  have hdi : dirs i = 0 := hc.no_dir hno ho
  have hdb : r.metadb = (ic.metadb.erase old).insert new v := by
    refine hm.trans ?_
    simp only [if_true, Pi.add_apply, hwi, hdi, Nat.add_zero]
    exact erase_insert_erase hne v
  have hrec (k : MetaKey) (h1 : k ≠ old) (h2 : k ≠ new) : r.metadb.lookup k = ic.metadb.lookup k := by
    rw [hdb, Finmap.lookup_insert_of_ne _ h2, Finmap.lookup_erase_ne h1]
  -- handles that someone holds are neither of the two touched here
  have hkeep (x : Nat) (hx : writers x ≠ 0 ∨ dirs x ≠ 0) : r.handle x = ic.handle x := by
    refine hothers x ?_ ?_
    · rintro rfl
      exact hx.elim (· hwi) (· hdi)
    · rintro rfl
      rcases hx with hx | hx
      · obtain ⟨k, hd, hh, _⟩ := hc.opened _ hx
        rw [hfresh] at hh
        cases hh
      · obtain ⟨k, hd, hh, _⟩ := hc.dir _ hx
        rw [hfresh] at hh
        cases hh
  have hkeys : KeepsKeys ic r := by
    intro x k hd hx
    by_cases hxi : x = i
    · subst hxi
      exact ⟨_, by rw [hi, ho.key_of_handle k hd hx]⟩
    · have hxj : x ≠ r2.2 := by
        rintro rfl
        rw [hfresh] at hx
        cases hx
      exact ⟨hd, by rw [hothers x hxi hxj, hx]⟩
  refine ⟨⟨hs, fun x hx => ?_, fun k hd hk => ?_, fun x y k hd hd' hx hy hhx hhy => ?_, ?_, fun x hx => ?_⟩,
    hdb, hkeys⟩
  · rw [hkeep x (.inl hx)]
    exact hc.opened x hx
  · obtain ⟨x, hx, hh⟩ := hc.owner k hd hk
    exact ⟨x, hx, by rw [hkeep x (.inl hx), hh]⟩
  · rw [hkeep x (.inl hx)] at hhx
    rw [hkeep y (.inl hy)] at hhy
    exact hc.single x y k hd hd' hx hy hhx hhy
  · intro k x hd hk hh hx
    obtain ⟨hko, ⟨rfl, rfl⟩ | ⟨hkn, hk0⟩⟩ := ht k x hk
    · obtain ⟨-, rfl⟩ := handle_inj hj hh
      exact ⟨hnew, by rw [hdb, Finmap.lookup_insert], rfl⟩
    · obtain ⟨hd0, hh0⟩ := hc.sound.entry hk0
      have hxi : x ≠ i := fun he => hko (ho.key_of_handle k hd0 (he ▸ hh0))
      have hxj : x ≠ r2.2 := fun he => by
        rw [he, hfresh] at hh0
        cases hh0
      rw [hothers x hxi hxj] at hh
      rw [hrec k hko hkn]
      exact hc.table k x hd hk0 hh hx
  · obtain ⟨k, hd, hh, hr, hm, hn⟩ := hc.dir x hx
    have hko : k ≠ old := fun he => hno x hd hx (he ▸ hh)
    have hkn : k ≠ new := fun he => hnn x hd hx (he ▸ hh)
    exact ⟨k, hd, by rw [hkeep x (.inr hx), hh], hr, by rw [hrec k hko hkn, hm], hn⟩

end
end TableFS.InodeCache

import TableFS.LeftHandles

/-! Unlink and Rename of a file that is open. Both only mark the cached inode for deletion
and leave the open handle with the old key, so the outcome depends on what is done through
that handle later. -/
namespace TableFS
open Slots InodeCache Runs

section Unlink
variable {s : State} {path : CString} {key : MetaKey} {name : List UInt8}

/-- After an Unlink that no cached open handle held up, the key is gone and the handles on it
are left behind as they were. -/
private theorem unlink_leaves (hs : s.Ok) (hfound : s.found path = some (key, name)) (hret : (s.unlink path).2.ret = 0)
    (hheld : ∀ i ∈ s.held, ∀ x ∈ s.inode_cache.handle i, x.1 = key →
      s.inode_cache.table key ≠ some i ∧ x.2.mode_ = .read) :
    Gone (s.OpenAt key) key (s.unlink path).1 ∧ ∀ fh, s.OpenAt key fh → ∃ i h, h.mode_ = .read ∧
      Left (s.OpenAt key) key i h (s.unlink path).1 ∧ PointsAt fh i (s.unlink path).1 := by
  have hread (j : Nat) (h : InodeCacheHandle) (hj : s.pins j ≠ 0) (hd : s.inode_cache.handle j = some (key, h)) :
      s.inode_cache.table key ≠ some j ∧ h.mode_ = .read :=
    hheld j ((State.mem_held s j).mpr hj) (key, h) hd rfl
  unfold State.unlink at hret
  rcases State.acquire_spec hs.counted path .delete with ⟨ha, _⟩ | ⟨k, n, ic, i, h, hf, ha, hp, ho, hs'⟩
  · rw [ha] at hret
    cases hret
  · have hic : (s.unlink path).1.inode_cache = (ic.release i).evict k := by
      rw [State.unlink, ha]
      rfl
    have hh : State.SameHandles s (s.unlink path).1 := by
      rw [State.unlink, ha]
      exact State.sameHandles_of_eq rfl rfl
    obtain ⟨rfl, rfl⟩ := Prod.mk.inj (Option.some.inj (hfound.symm.trans hf))
    obtain ⟨ht, hd, hm, _⟩ := Sound.remove hs.counted hp ho hs'
    -- nobody else holds the handle that Get returned, so the record is deleted at once
    have hfree : s.pins i = 0 := by
      by_contra hne
      cases ho with
      | hit h ht0 hd0 => exact (hread i h hne hd0).1 ht0
      | miss v _ _ hi => exact hne (hi ▸ hs.counted.pins_new)
    have hothers (j : Nat) (hj : s.pins j ≠ 0) :
        (s.unlink path).1.inode_cache.handle j = s.inode_cache.handle j := by
      rw [hic, hd]
      exact hp.others j fun he => hj (he ▸ hfree)
    refine leaves_of hh (· = .read) (by simp) ?_ ?_ ?_ ?_
    · rw [hic, hm, if_pos hfree, Finmap.lookup_erase]
    · rw [hic]
      exact Option.eq_none_iff_forall_ne_some.mpr fun j hk => (ht key j hk).1 rfl
    · exact fun j h' hj hd' => ⟨h', (hothers j hj).trans hd', (hread j h' hj hd').2⟩
    · exact fun j h' hj hd' => ⟨h', (hothers j hj).symm.trans hd'⟩

end Unlink

section Rename
variable {s : State} {old_path new_path : CString} {old new : MetaKey} {env : Env}

/-- After a Rename between distinct keys the old one is gone; the cached handle on it is left
behind marked for deletion, any other as it was. -/
private theorem rename_leaves (hs : s.Ok) (hcommit : env.commit = true)
    (hkeys : s.renameKeys old_path new_path = some (old, new)) (hne : old ≠ new)
    (hret : (s.rename env old_path new_path).2.ret = 0)
    (hheld : ∀ i ∈ s.held, ∀ x ∈ s.inode_cache.handle i, x.1 = old →
      s.inode_cache.table old = some i ∨ x.2.mode_ ≠ .write) :
    Gone (s.OpenAt old) old (s.rename env old_path new_path).1 ∧ ∀ fh, s.OpenAt old fh → ∃ i h, h.mode_ ≠ .write ∧
      Left (s.OpenAt old) old i h (s.rename env old_path new_path).1 ∧
        PointsAt fh i (s.rename env old_path new_path).1 := by
  obtain ⟨k, oname, k', name, ic, i, h, hfo, hfn, hp, ho, hs', heq⟩ := rename_spec hs.counted hret
  obtain ⟨rfl, rfl⟩ : k = old ∧ k' = new := by
    simpa only [State.renameKeys, hfo, Option.bind_some, hfn, Option.map_some, Option.some.injEq,
      Prod.mk.injEq] using hkeys
  obtain ⟨_, hnew, ht, hi, hj, hothers, hm, _⟩ := Sound.move k' hp ho hs' (renameInodeValue h.value_ name) env.commit
  have hh : State.SameHandles s (s.rename env old_path new_path).1 := by
    rw [heq]
    exact State.sameHandles_of_eq rfl rfl
  have hkept (j : Nat) (hpin : s.pins j ≠ 0) (hji : j ≠ i) :
      (s.rename env old_path new_path).1.inode_cache.handle j = s.inode_cache.handle j := by
    rw [heq]
    refine hothers j hji ?_
    rintro rfl
    obtain ⟨_, _, hd⟩ := hs.counted.counted.pinned_data hpin
    cases hnew.symm.trans hd
  have hself : (s.rename env old_path new_path).1.inode_cache.handle i = some (k, ⟨h.value_, .delete⟩) := by
    rw [heq]
    exact hi
  refine leaves_of hh (· ≠ .write) (by simp) ?_ ?_ (fun j h0 hpin hd => ?_) (fun j h' hpin hd => ?_)
  · rw [heq, hm, hcommit]
    dsimp only
    split
    · exact Finmap.lookup_erase k _
    · rw [if_pos rfl, Finmap.lookup_insert_of_ne _ hne, Finmap.lookup_erase]
  · rw [heq]
    exact Option.eq_none_iff_forall_ne_some.mpr fun j hk => (ht k j hk).1 rfl
  · by_cases hji : j = i
    · subst hji
      exact ⟨_, hself, by simp⟩
    · refine ⟨h0, (hkept j hpin hji).trans hd, ?_⟩
      -- the handle in the table is the one Get returned
      refine (hheld j ((State.mem_held s j).mpr hpin) (k, h0) hd rfl).resolve_left fun htab => ?_
      cases ho with
      | hit h ht0 => exact hji (Option.some.inj (htab.symm.trans ht0))
      | miss v ht0 => simp [ht0] at htab
  · by_cases hji : j = i
    · subst hji
      cases ho with
      | hit h _ hd0 => exact ⟨h, hd0⟩
      | miss v _ _ hlen => exact absurd (hlen ▸ hs.counted.pins_new) hpin
    · exact ⟨h', (hkept j hpin hji).symm.trans hd⟩

/-- After a Rename between distinct keys of a file that may be open, the old name stays free
until it is created again, and releasing the handles opened before changes neither the record
at the new key nor anything else in the store. Nothing is written through those handles, and
one that Rename marked for deletion is not released while the old name exists again. -/
theorem renamed_name_stays_free (hr : Reachable s) (hcommit : env.commit = true)
    (hkeys : s.renameKeys old_path new_path = some (old, new)) (hne : old ≠ new)
    (hret : (s.rename env old_path new_path).2.ret = 0)
    (hheld : ∀ i ∈ s.held, ∀ x ∈ s.inode_cache.handle i, x.1 = old →
      s.inode_cache.table old = some i ∨ x.2.mode_ ≠ .write)
    (calls : List (Env × Op))
    (hcalls : Allowed step (fun _ c => ∀ fh ∈ c.2.writer, ¬ s.OpenAt old fh)
      (s.rename env old_path new_path).1 calls) :
    let t := (run step (s.rename env old_path new_path).1 calls).1
    (Allowed step (fun t c => t.targetKey c.2 ≠ some old) (s.rename env old_path new_path).1 calls →
      ∀ name, s.found old_path = some (old, name) → Missing old name t) ∧
      ∀ fh, s.OpenAt old fh →
        (∀ x ∈ t.fileOf fh, x.2.2.mode_ = .delete → t.inode_cache.metadb.lookup old = none) →
          ∀ env, QuietRelease t env fh := by
  obtain ⟨hg, hl⟩ := rename_leaves hr.ok hcommit hkeys hne hret hheld
  have hok : (s.rename env old_path new_path).1.Ok := hr.ok.step env (.rename old_path new_path)
  obtain ⟨⟨_, oname⟩, hfo, hmap⟩ := Option.bind_eq_some_iff.mp hkeys
  obtain ⟨_, _, hpair⟩ := Option.map_eq_some_iff.mp hmap
  obtain ⟨rfl, _⟩ := Prod.mk.inj hpair
  obtain ⟨hmissing, hquiet⟩ := left_behind_run hok hg (· ≠ .write) (by simp) hl (hash_of_lookup hfo) hcalls
  refine ⟨fun ht name hname => ?_, fun fh hfh => (hquiet fh hfh).2⟩
  obtain ⟨_, rfl⟩ := Prod.mk.inj (Option.some.inj (hname.symm.trans hfo))
  exact hmissing ht

end Rename

/-- An open file is renamed, looked up under its new name and closed. -/
theorem renamed_name_stays_free_closed :
    let s := (run step (State.fresh 4096) (calmly [.makeNode (inRoot [97]) 0 0, .openFile (inRoot [97]) O_RDWR])).1
    let t := (run step (s.rename .calm (inRoot [97]) (inRoot [98])).1 (calmly [.getAttr (inRoot [98])])).1
    let key := buildMetaKey [97] ROOT_INODE_ID
    s.OpenAt key 0 ∧ Missing key [97] t ∧ QuietRelease t .calm 0 := by
  intro s t key
  have hopen : s.OpenAt key 0 := by decide +kernel
  have hfound : s.found (inRoot [97]) = some (key, [97]) := by decide +kernel
  have hkeys : s.renameKeys (inRoot [97]) (inRoot [98]) = some (key, buildMetaKey [98] ROOT_INODE_ID) := by
    decide +kernel
  have hret : (s.rename .calm (inRoot [97]) (inRoot [98])).2.ret = 0 := by decide +kernel
  have hrun := renamed_name_stays_free (State.reachable_fresh _ _) rfl hkeys (by decide +kernel) hret
    (by decide +kernel) (calmly [.getAttr (inRoot [98])]) (by decide +kernel)
  exact ⟨hopen, hrun.1 (by decide +kernel) [97] hfound, hrun.2 0 hopen (by decide +kernel) .calm⟩

/-- A Write through a handle opened before the Rename brings the old name back and never
reaches the new one; without it, closing the handle deletes a file created under the old name. -/
theorem rename_of_open_file_misdirects_handle :
    let s := (run step (State.fresh 4096) (calmly [.makeNode (inRoot [97]) 0 0, .openFile (inRoot [97]) O_RDWR])).1
    let s' := (s.rename .calm (inRoot [97]) (inRoot [98])).1
    let t := (run step s' (calmly [.write 0 O_RDWR [1] 0, .release 0])).1
    let u := (run step s' (calmly [.makeNode (inRoot [97]) 0 0])).1
    Reachable s ∧ (s.rename .calm (inRoot [97]) (inRoot [98])).2.ret = 0 ∧
      (s'.getAttr (inRoot [97])).2.ret = -ENOENT ∧ (t.getAttr (inRoot [97])).2.ret = 0 ∧
      (t.getAttr (inRoot [98])).2.stat.map Stat.st_size = some 0 ∧
      (u.getAttr (inRoot [97])).2.ret = 0 ∧ ((u.release .calm 0).1.getAttr (inRoot [97])).2.ret = -ENOENT := by
  refine ⟨State.reachable_fresh _ _, ?_⟩
  decide +kernel

end TableFS

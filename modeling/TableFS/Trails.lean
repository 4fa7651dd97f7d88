import TableFS.Attributes
import TableFS.CacheTransparency
import TableFS.Paths

/-! The keys that a path passes. A path keeps leading where it leads while the records under these
keys keep their inode numbers, and it is found there while both caches agree with them. -/
namespace TableFS
open Slots InodeCache

/-- The inode that names lead to from an inode. -/
def leads (ino : MetaKey → Option UInt64) : UInt64 → List Name → Option UInt64
  | inode, [] => some inode
  | inode, c :: items => (ino (buildMetaKey c.chars inode)).bind fun i => leads ino i items

/-- The keys that names pass on their way, as far as there are records. -/
def trail (ino : MetaKey → Option UInt64) : UInt64 → List Name → List MetaKey
  | _, [] => []
  | inode, c :: items => buildMetaKey c.chars inode ::
      ((ino (buildMetaKey c.chars inode)).map fun i => trail ino i items).getD []

section
variable {ino ino' : MetaKey → Option UInt64} {i j : UInt64} {items : List Name}

theorem leads_append (i : UInt64) (a b : List Name) :
    leads ino i (a ++ b) = (leads ino i a).bind fun j => leads ino j b := by
  induction a generalizing i with
  | nil => rfl
  | cons c a ih =>
    simp only [List.cons_append, leads, Option.bind_assoc]
    exact congrArg _ (funext ih)

theorem trail_append {a : List Name} (h : leads ino i a = some j) (b : List Name) :
    trail ino i (a ++ b) = trail ino i a ++ trail ino j b := by
  induction a generalizing i with
  | nil =>
    obtain rfl := Option.some.inj h
    rfl
  | cons c a ih =>
    obtain ⟨n, hn, hrest⟩ := Option.bind_eq_some_iff.mp h
    simp only [List.cons_append, trail, hn, Option.map_some, Option.getD_some, ih hrest]

/-- Each key on the way has a record. -/
theorem present_of_leads (h : leads ino i items = some j) : ∀ k ∈ trail ino i items, ino k ≠ none := by
  induction items generalizing i with
  | nil => simp [trail]
  | cons c items ih =>
    obtain ⟨n, hn, hrest⟩ := Option.bind_eq_some_iff.mp h
    simp only [trail, hn, Option.map_some, Option.getD_some, List.mem_cons]
    rintro k (rfl | hk)
    · simp [hn]
    · exact ih hrest k hk

/-- Only the numbers under these keys matter. -/
theorem leads_congr (h : ∀ k ∈ trail ino i items, ino' k = ino k) :
    leads ino' i items = leads ino i items ∧ trail ino' i items = trail ino i items := by
  induction items generalizing i with
  | nil => exact ⟨rfl, rfl⟩
  | cons c items ih =>
    have hc : ino' (buildMetaKey c.chars i) = ino (buildMetaKey c.chars i) := h _ (by simp [trail])
    cases hn : ino (buildMetaKey c.chars i) with
    | none => simp only [leads, trail, hc, hn, Option.bind_none, Option.map_none, and_self]
    | some n =>
      obtain ⟨hleads, htrail⟩ := ih (i := n) fun k hk => h k (by simp [trail, hn, hk])
      simp only [leads, trail, hc, hn, Option.bind_some, Option.map_some, hleads, htrail, and_self]

/-- A record with the number n under B/b: what was below n is below it. -/
theorem leads_redirected {B r : List Name} {b : Name} {n : UInt64} (hB : leads ino i B = some j)
    (hnew : ino' (buildMetaKey b.chars j) = some n) (hway : ∀ k ∈ trail ino i B, ino' k = ino k)
    (hbelow : ∀ k ∈ trail ino n r, ino' k = ino k) :
    leads ino' i (B ++ b :: r) = leads ino n r ∧
      trail ino' i (B ++ b :: r) = trail ino i B ++ buildMetaKey b.chars j :: trail ino n r := by
  obtain ⟨hleads, htrail⟩ := leads_congr hway
  obtain ⟨hleads', htrail'⟩ := leads_congr hbelow
  rw [hB] at hleads
  rw [leads_append, trail_append hleads, hleads, htrail]
  simp only [Option.bind_some, leads, trail, hnew, hleads', htrail', Option.map_some, Option.getD_some, and_self]

theorem inodeAt_eq_leads (items : List Name) : inodeAt ino items = leads ino ROOT_INODE_ID items := by
  have h (i : UInt64) (key : MetaKey) :
      (resolveParent ino i key (items.map Name.chars)).map Prod.fst = leads ino i items := by
    induction items generalizing i key with
    | nil => rfl
    | cons c items ih =>
      simp only [List.map_cons, resolveParent, leads]
      cases ino (buildMetaKey c.chars i) with
      | none => rfl
      | some n => exact ih n _
  exact h ROOT_INODE_ID rootKey

private theorem mem_trail_of_prefix {q : List (List UInt8)} {c : List UInt8} (hq : q ++ [c] <+: items.map Name.chars)
    {key : MetaKey} {x : UInt64 × MetaKey} (hx : resolveParent ino i key q = some x) :
    buildMetaKey c x.1 ∈ trail ino i items := by
  induction items generalizing q i key with
  | nil => simp at hq
  | cons a items ih =>
    cases q with
    | nil =>
      obtain ⟨rfl, _⟩ := List.cons_prefix_cons.mp hq
      obtain rfl := Option.some.inj hx
      simp [trail]
    | cons b q =>
      obtain ⟨rfl, hrest⟩ := List.cons_prefix_cons.mp hq
      simp only [resolveParent] at hx
      cases hn : ino (buildMetaKey a.chars i) with
      | none => simp [hn] at hx
      | some n =>
        simp only [hn] at hx
        simp only [trail, hn, Option.map_some, Option.getD_some, List.mem_cons]
        exact .inr (ih hrest hx)

end

/-- A dentry cache that agrees with the store on the trail of a directory finds the names in it. -/
theorem pathLookup_on_trail {d : DentryCache} {metadb : MetaDB} {dir : List Name} {i : UInt64}
    (hd : ∀ k ∈ trail (inoOf metadb) ROOT_INODE_ID dir, ∀ n, d.Maps k n → inoOf metadb k = some n)
    (hdir : inodeAt (inoOf metadb) dir = some i) (c : Name) :
    (pathLookup d metadb (pathOf (dir ++ [c]))).2 = some (buildMetaKey c.chars i, c.chars) := by
  have hwalk := parentPathLookup_on (K := (· ∈ trail (inoOf metadb) ROOT_INODE_ID dir)) (fun _ _ => rfl)
    (dir.map Name.chars) (fun k n hk hm => hd k hk n hm) ROOT_INODE_ID rootKey
    (fun q c hq x hx => mem_trail_of_prefix hq hx)
  have hresolve : resolveBy (inoOf metadb) (pathOf (dir ++ [c])) = some (buildMetaKey c.chars i, c.chars) := by
    rw [resolveBy_concat, hdir, Option.map_some]
  rw [pathLookup_snd, ← hresolve, resolveBy]
  simp only [components_pathOf (show dir ++ [c] ≠ [] by simp), List.map_append, List.map_singleton,
    List.dropLast_concat, hwalk]

/-- Both caches agree with the store on a key. -/
structure InStep (s : State) (key : MetaKey) : Prop where
  dentry : ∀ n ∈ (s.dentry_cache.find key).2, inoOf s.inode_cache.metadb key = some n
  inode : ∀ i ∈ s.inode_cache.table key, ∀ x ∈ s.inode_cache.handle i,
    s.inode_cache.metadb.lookup key = some x.2.value_

instance (s : State) (key : MetaKey) : Decidable (InStep s key) :=
  -- `all` looks at the cached number alone; a quantifier over UInt64 may be decided by trying them all
  decidable_of_iff (((s.dentry_cache.find key).2.all fun n => inoOf s.inode_cache.metadb key = some n) = true ∧
      ∀ i ∈ s.inode_cache.table key, ∀ x ∈ s.inode_cache.handle i,
        s.inode_cache.metadb.lookup key = some x.2.value_)
    ⟨fun h => ⟨by simpa [Option.all_eq_true] using h.1, h.2⟩,
      fun h => ⟨by simpa [Option.all_eq_true] using h.dentry, h.inode⟩⟩

/-- The record under a key keeps its number, and its inline data unless it is cut, and the caches
agree with it. -/
structure Carried (s s' : State) (key : MetaKey) (cut : Prop) : Prop where
  inStep : InStep s' key
  ino : inoOf s'.inode_cache.metadb key = inoOf s.inode_cache.metadb key
  inline : ¬ cut → (s'.inode_cache.metadb.lookup key).map Value.inline =
    (s.inode_cache.metadb.lookup key).map Value.inline

section
variable {s s' : State} {key k : MetaKey} {cut : Prop} {ic : InodeCache} {i : Nat} {h : InodeCacheHandle}

theorem InStep.maps (hk : InStep s key) {n : UInt64} (hm : s.dentry_cache.Maps key n) :
    inoOf s.inode_cache.metadb key = some n :=
  hk.dentry n (((s.dentry_cache.find_spec key).1 n).mpr hm)

/-- After lookups a dentry is one there was, or the store's. -/
theorem InStep.walked (hk : InStep s key) (hw : s.Walks s') {n : UInt64} (hn : n ∈ (s'.dentry_cache.find key).2) :
    inoOf s.inode_cache.metadb key = some n :=
  (hw key n (((s'.dentry_cache.find_spec key).1 n).mp hn)).elim hk.maps id

/-- What Get returns is the record. -/
theorem InStep.got (hk : InStep s key) {mode : InodeAccessMode} (ho : Origin s.inode_cache ic key mode i h) :
    s.inode_cache.metadb.lookup key = some h.value_ := by
  rcases ho.value with ⟨h₀, ht, hh, he⟩ | ⟨_, hm, _⟩
  · rw [hk.inode i ht _ hh, he]
  · exact hm

private theorem InStep.carried (hk : InStep s key)
    (hm : s'.inode_cache.metadb.lookup key = s.inode_cache.metadb.lookup key) (hw : s.Walks s')
    (hi : ∀ i x, s'.inode_cache.table key = some i → s'.inode_cache.handle i = some x →
      s.inode_cache.metadb.lookup key = some x.2.value_) :
    Carried s s' key cut := by
  have hino : inoOf s'.inode_cache.metadb key = inoOf s.inode_cache.metadb key := by rw [inoOf, inoOf, hm]
  exact ⟨⟨fun n hn => hino.trans (hk.walked hw hn), fun i ht x hx => hm.trans (hi i x ht hx)⟩, hino,
    fun _ => congrArg _ hm⟩

theorem InStep.idle (hk : InStep s key) (hic : s'.inode_cache = s.inode_cache) (hw : s.Walks s') :
    Carried s s' key cut := by
  refine hk.carried (by rw [hic]) hw fun i x ht hx => ?_
  rw [hic] at ht hx
  exact hk.inode i ht x hx

/-- An entry of the table that was not placed there just now. -/
theorem InStep.entry (hk : InStep s k) (hs : s.Counted) (hp : Placed s.inode_cache ic key i h) (hne : k ≠ key) {j : Nat}
    {x : MetaKey × InodeCacheHandle} (ht : ic.table k = some j)
    (hx : j ≠ i → s'.inode_cache.handle j = s.inode_cache.handle j) (hh : s'.inode_cache.handle j = some x)
    (hi : ∀ y, s.inode_cache.handle i = some y → y.1 = key) :
    s.inode_cache.metadb.lookup k = some x.2.value_ := by
  have hold := ((hp.table k j ht).resolve_left fun hc => hne hc.1).2
  have hj : j ≠ i := by
    rintro rfl
    obtain ⟨hd, hh'⟩ := hs.entry hold
    exact hne (hi _ hh')
  exact hk.inode j hold x ((hx hj).symm.trans hh)

private theorem origin_key {mode : InodeAccessMode} (ho : Origin s.inode_cache ic key mode i h) :
    ∀ y, s.inode_cache.handle i = some y → y.1 = key := by
  intro y hy
  rcases ho.value with ⟨h₀, _, hh, _⟩ | ⟨_, _, hnone⟩
  · rw [hh] at hy
    exact congrArg Prod.fst (Option.some.inj hy).symm
  · rw [hnone] at hy
    cases hy

theorem InStep.peek (hk : InStep s k) (hs : s.Counted) (hp : Placed s.inode_cache ic key i h)
    (ho : Origin s.inode_cache ic key .read i h) (hs' : ic.Sound (pin s.pins i) (pin s.writers i))
    (hic : s'.inode_cache = ic.release i) (hw : s.Walks s') : Carried s s' k cut := by
  obtain ⟨ht, hh, hm, _⟩ := Sound.peek hs hp ho hs'
  refine hk.carried (by rw [hic, hm]) hw fun j x hj hx => ?_
  rw [hic, ht] at hj
  by_cases hne : k = key
  · subst hne
    rw [hic, hh] at hx
    obtain ⟨_, rfl⟩ := (hp.table k j hj).resolve_right fun hr => hr.1 rfl
    obtain rfl := Option.some.inj (hp.self.symm.trans hx)
    exact hk.got ho
  · refine hk.entry hs hp hne hj (fun hji => ?_) hx (origin_key ho)
    rw [hic, hh, hp.others j hji]

private theorem InStep.modify_other (hk : InStep s k) (hs : s.Counted) (hne : k ≠ key)
    (hp : Placed s.inode_cache ic key i h) (ho : Origin s.inode_cache ic key .write i h)
    (hs' : ic.Sound (pin s.pins i) (pin s.writers i)) {g : InodeCacheHandle → InodeCacheHandle}
    (hg : (g h).mode_ = h.mode_) (hic : s'.inode_cache = ((ic.update i g).writeBack i).release i) (hw : s.Walks s') :
    Carried s s' k cut := by
  obtain ⟨ht, _, hother, hm, _⟩ := Sound.modify hp ho hs' hg
  refine hk.carried (by rw [hic, hm, Finmap.lookup_insert_of_ne _ hne]) hw fun j x hj hx => ?_
  rw [hic, ht] at hj
  refine hk.entry hs hp hne hj (fun hji => ?_) hx (origin_key ho)
  rw [hic, hother j hji]

/-- A record that is changed in place keeps its number. -/
theorem InStep.modify (hk : InStep s key) (hp : Placed s.inode_cache ic key i h)
    (ho : Origin s.inode_cache ic key .write i h) (hs' : ic.Sound (pin s.pins i) (pin s.writers i))
    {g : InodeCacheHandle → InodeCacheHandle} (hg : (g h).mode_ = h.mode_) (hkeeps : Keeps h.value_ (g h).value_)
    (hinline : ¬ cut → (g h).value_.inline = h.value_.inline)
    (hic : s'.inode_cache = ((ic.update i g).writeBack i).release i) (hw : s.Walks s') : Carried s s' key cut := by
  obtain ⟨ht, hself, _, hm, _⟩ := Sound.modify hp ho hs' hg
  have hrec := hk.got ho
  have hrec' : s'.inode_cache.metadb.lookup key = some (g h).value_ := by rw [hic, hm, Finmap.lookup_insert]
  have hino : inoOf s'.inode_cache.metadb key = inoOf s.inode_cache.metadb key := by
    rw [inoOf, inoOf, hrec, hrec', Option.map_some, Option.map_some, hkeeps.ino]
  refine ⟨⟨fun n hn => hino.trans (hk.walked hw hn), fun j hj x hx => ?_⟩, hino, fun hcut => ?_⟩
  · rw [hic, ht] at hj
    obtain ⟨_, rfl⟩ := (hp.table key j hj).resolve_right fun hr => hr.1 rfl
    rw [hic, hself] at hx
    obtain rfl := Option.some.inj hx
    exact hrec'
  · rw [hrec, hrec', Option.map_some, Option.map_some, hinline hcut]

theorem InStep.remove (hk : InStep s k) (hs : s.Counted) (hne : k ≠ key) (hp : Placed s.inode_cache ic key i h)
    (ho : Origin s.inode_cache ic key .delete i h) (hs' : ic.Sound (pin s.pins i) (pin s.writers i))
    (hic : s'.inode_cache = (ic.release i).evict key) (hw : s.Walks s') : Carried s s' k cut := by
  obtain ⟨ht, hh, hm, _⟩ := Sound.remove hs hp ho hs'
  refine hk.carried ?_ hw fun j x hj hx => ?_
  · rw [hic, hm]
    split
    · exact Finmap.lookup_erase_ne hne
    · rfl
  · obtain ⟨_, hold⟩ := ht k j (hic ▸ hj)
    have hji : j ≠ i := by
      rintro rfl
      obtain ⟨hd, hh'⟩ := hs.entry hold
      exact hne (origin_key ho _ hh')
    rw [hic, hh, hp.others j hji] at hx
    exact hk.inode j hold x hx

theorem InStep.put (hk : InStep s k) (hne : k ≠ key) {v : Value} (hic : s'.inode_cache = s.inode_cache.put key v)
    (hw : s.Walks s') : Carried s s' k cut := by
  refine hk.carried (by rw [hic, metadb_put, Finmap.lookup_insert_of_ne _ hne]) hw fun j x hj hx => ?_
  rw [hic] at hj hx
  exact hk.inode j hj x hx

/-- The inode cache after a Rename of one key to another. -/
def Renames (s' : State) (ic : InodeCache) (i : Nat) (old new : MetaKey) (v : Value) (commit : Bool) : Prop :=
  s'.inode_cache = (((((ic.insert new v).1.batchCommit i (ic.insert new v).2 commit).release
    (ic.insert new v).2).release i).evict old)

theorem InStep.move {old new : MetaKey} (hk : InStep s k) (hs : s.Counted) (hold : k ≠ old) (hnew : k ≠ new)
    (hp : Placed s.inode_cache ic old i h) (ho : Origin s.inode_cache ic old .delete i h)
    (hs' : ic.Sound (pin s.pins i) (pin s.writers i)) {v : Value} {commit : Bool}
    (hic : Renames s' ic i old new v commit) (hw : s.Walks s') : Carried s s' k cut := by
  obtain ⟨_, hnone, ht, _, _, hother, hm, _⟩ := Sound.move new hp ho hs' v commit
  refine hk.carried ?_ hw fun j x hj hx => ?_
  · rw [hic, hm]
    cases commit <;> dsimp only <;> split <;>
      simp [Finmap.lookup_erase_ne hold, Finmap.lookup_insert_of_ne _ hnew]
  · obtain ⟨_, hc | ⟨_, hentry⟩⟩ := ht k j (hic ▸ hj)
    · exact absurd hc.1 hnew
    · obtain ⟨hd, hh⟩ := hs.entry hentry
      have hji : j ≠ i := by
        rintro rfl
        exact hold (origin_key ho _ hh)
      have hjn : j ≠ (ic.insert new v).2 := by
        rintro rfl
        rw [hnone] at hh
        cases hh
      rw [hic, hother j hji hjn] at hx
      exact hk.inode j hentry x hx

/-- A committed Rename with nothing open puts the record under the new key, where the inode cache
has it and the dentry cache nothing. -/
theorem renamed_new {old new : MetaKey} (hidle : s.Idle) (hne : new ≠ old)
    (hp : Placed s.inode_cache ic old i h) (ho : Origin s.inode_cache ic old .delete i h)
    (hs' : ic.Sound (pin s.pins i) (pin s.writers i)) {v : Value} (hic : Renames s' ic i old new v true)
    (hd : ∀ n, ¬ s'.dentry_cache.Maps new n) :
    s'.inode_cache.metadb.lookup new = some v ∧ InStep s' new := by
  obtain ⟨_, _, ht, _, hself, _, hm, _⟩ := Sound.move new hp ho hs' v true
  have hrec : s'.inode_cache.metadb.lookup new = some v := by
    rw [hic, hm]
    simp [hidle.pins_eq i, Finmap.lookup_erase_ne hne]
  refine ⟨hrec, fun n hn => absurd (((s'.dentry_cache.find_spec new).1 n).mp hn) (hd n), fun j hj x hx => ?_⟩
  obtain ⟨_, ⟨_, rfl⟩ | ⟨hc, _⟩⟩ := ht new j (hic ▸ hj)
  · rw [hic, hself] at hx
    obtain rfl := Option.some.inj hx
    exact hrec
  · exact absurd rfl hc

end

/-- The path of a Truncate. -/
def Op.shortened : Op → Option CString
  | .truncate path _ => some path
  | _ => none

/-- A request neither removes nor replaces nor renames the record under a key. -/
def Avoids (s : State) (key : MetaKey) (c : Env × Op) : Prop :=
  (∀ path ∈ c.2.removed, ∀ x ∈ s.found path, x.1 ≠ key) ∧ (∀ path ∈ c.2.created, ∀ x ∈ s.found path, x.1 ≠ key) ∧
    ∀ r ∈ c.2.renamed, ∀ x ∈ s.renameKeys r.1 r.2, x.1 ≠ key ∧ x.2 ≠ key

/-- A Truncate of the record under a key. -/
def Shortens (s : State) (key : MetaKey) (c : Env × Op) : Prop :=
  ∃ path ∈ c.2.shortened, ∃ x ∈ s.found path, x.1 = key

instance (s : State) (key : MetaKey) (c : Env × Op) : Decidable (Avoids s key c) :=
  inferInstanceAs (Decidable (_ ∧ _ ∧ _))

instance (s : State) (key : MetaKey) (c : Env × Op) : Decidable (Shortens s key c) :=
  inferInstanceAs (Decidable (∃ path ∈ c.2.shortened, _))

section
variable {s : State} {key : MetaKey} {cut : Prop} {path : CString} {env : Env}

theorem InStep.getAttr (hk : InStep s key) (hs : s.Counted) (path : CString) :
    Carried s (s.getAttr path).1 key cut := by
  unfold State.getAttr
  rcases State.acquire_spec hs path .read with ⟨ha, _⟩ | ⟨key', name, ic, i, h, _, ha, hp, ho, hs'⟩
  · rw [ha]
    exact hk.idle rfl (.looked rfl)
  · rw [ha]
    exact hk.peek hs hp ho hs' rfl (.looked rfl)

private theorem InStep.edit {s' : State} (hk : InStep s key) (hs : s.Counted) {key' : MetaKey} {ic : InodeCache}
    {i : Nat} {h : InodeCacheHandle} (hp : Placed s.inode_cache ic key' i h)
    (ho : Origin s.inode_cache ic key' .write i h) (hs' : ic.Sound (pin s.pins i) (pin s.writers i))
    {g : InodeCacheHandle → InodeCacheHandle} (hg : (g h).mode_ = h.mode_) (hkeeps : Keeps h.value_ (g h).value_)
    (hinline : key' = key → ¬ cut → (g h).value_.inline = h.value_.inline)
    (hic : s'.inode_cache = ((ic.update i g).writeBack i).release i) (hw : s.Walks s') : Carried s s' key cut := by
  by_cases hne : key = key'
  · subst hne
    exact hk.modify hp ho hs' hg hkeeps (hinline rfl) hic hw
  · exact hk.modify_other hs hne hp ho hs' hg hic hw

theorem InStep.setAttribute (hk : InStep s key) (hs : s.Counted) (path : CString) {f : Stat → Stat}
    (hf : ∀ st, (f st).st_ino = st.st_ino) : Carried s (s.setAttribute path f).1 key cut := by
  unfold State.setAttribute
  rcases State.acquire_spec hs path .write with ⟨ha, _⟩ | ⟨key', name, ic, i, h, _, ha, hp, ho, hs'⟩
  · rw [ha]
    exact hk.idle rfl (.looked rfl)
  · rw [ha]
    exact hk.edit (g := fun h => { h with value_ := updateAttribute h.value_ (f h.value_.fstat) }) hs hp ho hs' rfl
      (.attr (hf _)) (fun _ _ => rfl) rfl (.looked rfl)

theorem InStep.truncate (hk : InStep s key) (hs : s.Counted) (env : Env) (path : CString) (n : Nat) :
    Carried s (s.truncate env path n).1 key (Shortens s key (env, .truncate path n)) := by
  unfold State.truncate
  rcases State.acquire_spec hs path .write with ⟨ha, _⟩ | ⟨key', name, ic, i, h, hf, ha, hp, ho, hs'⟩
  · rw [ha]
    exact hk.idle rfl (.looked rfl)
  · rw [ha]
    exact hk.edit (g := fun h' => { h' with value_ := (truncateValue env s.threshold_ s.disk h.value_ n).2.1 }) hs hp ho
      hs' rfl (keeps_truncateValue env s.threshold_ s.disk h.value_ n)
      (fun he hcut => absurd ⟨path, rfl, (key', name), hf, he⟩ hcut) rfl (.looked rfl)

theorem InStep.unlink (hk : InStep s key) (hs : s.Counted) (ha : ∀ x ∈ s.found path, x.1 ≠ key) :
    Carried s (s.unlink path).1 key cut ∧ Carried s (s.removeDir path).1 key cut := by
  unfold State.unlink State.removeDir
  rcases State.acquire_spec hs path .delete with ⟨hacq, _⟩ | ⟨key', name, ic, i, h, hf, hacq, hp, ho, hs'⟩
  · rw [hacq]
    exact ⟨hk.idle rfl (.looked rfl), hk.idle rfl (.looked rfl)⟩
  · rw [hacq]
    have hne : key ≠ key' := (ha (key', name) hf).symm
    exact ⟨hk.remove hs hne hp ho hs' rfl ((walked_pathLookup _ _ _).evict key'),
      hk.remove hs hne hp ho hs' rfl ((walked_pathLookup _ _ _).evict key')⟩

theorem InStep.create (hk : InStep s key) (ha : ∀ x ∈ s.found path, x.1 ≠ key) (env : Env)
    (value : UInt64 → List UInt8 → Value) : Carried s (s.create env path value).1 key cut := by
  unfold State.create
  rw [State.lookup_eq]
  rcases hf : s.found path with _ | ⟨key', name⟩
  · exact hk.idle rfl (.looked rfl)
  · have hne : key ≠ key' := (ha (key', name) hf).symm
    dsimp only
    split
    · exact hk.put hne rfl (.looked rfl)
    · exact hk.idle rfl (.looked rfl)

theorem InStep.rename (hk : InStep s key) (hs : s.Counted) {old_path new_path : CString}
    (ha : ∀ x ∈ s.renameKeys old_path new_path, x.1 ≠ key ∧ x.2 ≠ key) (env : Env) :
    Carried s (s.rename env old_path new_path).1 key cut := by
  unfold State.rename
  rw [State.lookup_eq]
  rcases hfo : s.found old_path with _ | ⟨old, oname⟩
  · exact hk.idle rfl (.looked rfl)
  · have hwalk := (walked_pathLookup s.dentry_cache s.inode_cache.metadb old_path).trans
      (walked_pathLookup (s.looked old_path) s.inode_cache.metadb new_path)
    simp only [State.lookup_eq]
    rcases hfn : State.found { s with dentry_cache := s.looked old_path } new_path with _ | ⟨new, name⟩
    · exact hk.idle rfl hwalk
    · have hkeys : s.renameKeys old_path new_path = some (old, new) := by
        simp only [State.renameKeys, hfo, Option.bind_some]
        exact congrArg (Option.map _) hfn
      obtain ⟨hold, hnew⟩ := ha (old, new) hkeys
      dsimp only [State.renameKey]
      rcases State.getInode_spec (s := { s with
          dentry_cache := State.looked { s with dentry_cache := s.looked old_path } new_path }) hs old .delete with
        ⟨hg, _⟩ | ⟨ic, i, h, hg, hp, ho, hs'⟩
      · rw [hg]
        exact hk.idle rfl hwalk
      · rw [hg]
        exact hk.move hs hold.symm hnew.symm hp ho hs' rfl ((hwalk.evict old).evict new)

/-- A request that leaves nothing open and avoids a key carries the record under it. -/
theorem InStep.step (hk : InStep s key) (hs : s.Counted) (hidle : s.Idle) {c : Env × Op}
    (hidle' : (TableFS.step s c).1.Idle) (ha : Avoids s key c) :
    Carried s (TableFS.step s c).1 key (Shortens s key c) := by
  obtain ⟨env, op⟩ := c
  have hfile (fh : Nat) : s.fileOf fh = none := by rw [State.fileOf, hidle.1 fh, Option.bind_none]
  have hsame : Carried s s key (Shortens s key (env, op)) := hk.idle rfl (.of_eq rfl)
  cases op with
  | getAttr path => exact hk.getAttr hs path
  | openFile path flags =>
    revert hidle'
    simp only [TableFS.step, State.openFile]
    rcases State.acquire_spec hs path flags.mode with ⟨hacq, _⟩ | ⟨key', name, ic, i, h, _, hacq, _⟩
    · rw [hacq]
      exact fun _ => hk.idle rfl (.looked rfl)
    · rw [hacq]
      intro hidle'
      have hopen := hidle'.1 s.files.length
      simp [slot_push] at hopen
  | read fh size offset =>
    simp only [TableFS.step, State.read, hfile fh]
    exact hsame
  | write fh fi_flags buf offset =>
    simp only [TableFS.step, State.write, hfile fh]
    exact hsame
  | release fh =>
    simp only [TableFS.step, State.release, hfile fh]
    exact hsame
  | truncate path n => exact hk.truncate hs env path n
  | chmod path mode => exact hk.setAttribute (f := fun st => { st with st_mode := mode }) hs path fun _ => rfl
  | chown path uid gid =>
    exact hk.setAttribute (f := fun st => { st with st_uid := uid, st_gid := gid }) hs path fun _ => rfl
  | updateTimens path atim mtim =>
    exact hk.setAttribute (f := fun st => { st with st_atim := atim, st_mtim := mtim }) hs path fun _ => rfl
  | readlink path size =>
    simp only [TableFS.step, State.readlink, State.lookup_eq]
    rcases s.found path with _ | ⟨key', name⟩
    · exact hk.idle rfl (.looked rfl)
    · dsimp only
      split <;> exact hk.idle rfl (.looked rfl)
  | makeNode path mode dev => exact hk.create (ha.2.1 path rfl) env _
  | makeDir path mode => exact hk.create (ha.2.1 path rfl) env _
  | symlink target path => exact hk.create (ha.2.1 path rfl) env _
  | unlink path => exact (hk.unlink hs (ha.1 path rfl)).1
  | removeDir path => exact (hk.unlink hs (ha.1 path rfl)).2
  | rename old_path new_path => exact hk.rename hs (ha.2.2 (old_path, new_path) rfl) env
  | openDir path =>
    revert hidle'
    simp only [TableFS.step, State.openDir, State.lookup_eq]
    rcases s.found path with _ | ⟨key', name⟩
    · exact fun _ => hk.idle rfl (.looked rfl)
    · dsimp only
      rcases State.getInode_spec (s := { s with dentry_cache := s.looked path }) hs key' .read with
        ⟨hg, _⟩ | ⟨ic, i, h, hg, _⟩
      · rw [hg]
        exact fun _ => hk.idle rfl (.looked rfl)
      · rw [hg]
        intro hidle'
        have hopen := hidle'.2 s.dirs.length
        simp [slot_push] at hopen
  | readDir fh =>
    simp only [TableFS.step, State.readDir, State.dirOf, hidle.2 fh, Option.bind_none]
    exact hsame
  | releaseDir fh =>
    simp only [TableFS.step, State.releaseDir, hidle.2 fh]
    exact hsame

end
end TableFS

import TableFS.DentryCache
import TableFS.Lib.Runs

/-! Calls of the dentry cache in any order. The list stays within its capacity and a hit is the
value inserted last. Which keys stay is another matter: the nodes that Evict and a second Insert
leave in the list push live ones out, and take the map entry of their key with them. -/
namespace TableFS
open Runs

inductive DentryCall where
  | find (k : MetaKey)
  | insert (k : MetaKey) (v : UInt64)
  | evict (k : MetaKey)
  deriving DecidableEq

namespace DentryCache

def step (d : DentryCache) : DentryCall → DentryCache × Option UInt64
  | .find k => d.find k
  | .insert k v => (d.insert k v, none)
  | .evict k => (d.evict k, none)

section
variable {d : DentryCache} {k : MetaKey}

private theorem length_eraseNode {n : DentryNode} (hn : n ∈ d.cache) :
    (d.eraseNode n hn).cache.length + 1 = d.cache.length := by
  have hone : d.cache.countP (fun m => decide (m.id = n.id)) = 1 := by
    have hcount := List.count_eq_one_of_mem d.distinct (List.mem_map_of_mem hn)
    rw [List.count, List.countP_map] at hcount
    exact (List.countP_congr fun m _ => by simp).trans hcount
  have hsum := List.length_eq_countP_add_countP (fun m => decide (m.id = n.id)) (l := d.cache)
  have hrest : (d.eraseNode n hn).cache.length = d.cache.countP (fun m => decide (¬ decide (m.id = n.id) = true)) := by
    rw [List.countP_eq_length_filter]
    simp [eraseNode]
  omega

private theorem maxsize_step (d : DentryCache) (c : DentryCall) : (d.step c).1.maxsize = d.maxsize := by
  cases c with
  | find k =>
    rcases d.find_cases k with ⟨_, hf⟩ | ⟨n, hn, _, _, hf⟩ <;> simp [step, hf, pushFront, eraseNode]
  | insert k v =>
    rcases d.insert_cases k v with ⟨_, hi⟩ | ⟨n, hn, _, _, hi⟩ <;> simp [step, hi, pushFront, eraseNode]
  | evict k => rfl

private theorem length_step (h : d.cache.length ≤ d.maxsize) (c : DentryCall) :
    (d.step c).1.cache.length ≤ (d.step c).1.maxsize := by
  rw [maxsize_step]
  cases c with
  | find k =>
    rcases d.find_cases k with ⟨_, hf⟩ | ⟨n, hn, _, _, hf⟩
    · rw [step, hf]
      exact h
    · have hlen := length_eraseNode hn
      simp only [step, hf, length_pushFront]
      omega
  | insert k v =>
    rcases d.insert_cases k v with ⟨hle, hi⟩ | ⟨n, hn, _, _, hi⟩
    · simp only [step, hi, length_pushFront]
      exact hle
    · have hlen := length_eraseNode hn
      rw [length_pushFront] at hlen
      simp only [step, hi]
      omega
  | evict k => exact h

end

/-- Among the calls the last Insert of a key was with this value, and the key was not evicted since. -/
def LatestInsert (calls : List DentryCall) (k : MetaKey) (v : UInt64) : Prop :=
  ∃ before after, calls = before ++ .insert k v :: after ∧ (∀ v', .insert k v' ∉ after) ∧ .evict k ∉ after

theorem LatestInsert.concat {calls : List DentryCall} {k : MetaKey} {v : UInt64} (h : LatestInsert calls k v)
    {c : DentryCall} (hi : ∀ v', c ≠ .insert k v') (he : c ≠ .evict k) : LatestInsert (calls ++ [c]) k v := by
  obtain ⟨before, after, rfl, hins, hev⟩ := h
  refine ⟨before, after ++ [c], by simp, fun v' hm => ?_, fun hm => ?_⟩
  · rcases List.mem_append.mp hm with hm | hm
    · exact hins v' hm
    · exact hi v' (List.mem_singleton.mp hm).symm
  · rcases List.mem_append.mp hm with hm | hm
    · exact hev hm
    · exact he (List.mem_singleton.mp hm).symm

/-- An entry after a call was there before it, and the call did not touch the key; or the call
inserted it. -/
private theorem maps_step {d : DentryCache} {c : DentryCall} {k : MetaKey} {v : UInt64} (h : (d.step c).1.Maps k v) :
    c = .insert k v ∨ (d.Maps k v ∧ (∀ v', c ≠ .insert k v') ∧ c ≠ .evict k) := by
  cases c with
  | find k' => exact .inr ⟨((d.find_spec k').2 k v).mp h, nofun, nofun⟩
  | insert k' v' =>
    rcases d.maps_insert h with ⟨rfl, rfl⟩ | ⟨hne, hm⟩
    · exact .inl rfl
    · refine .inr ⟨hm, fun v'' he => ?_, nofun⟩
      cases he
      exact hne rfl
  | evict k' =>
    obtain ⟨hne, hm⟩ := (d.maps_evict k' k v).mp h
    refine .inr ⟨hm, nofun, fun he => ?_⟩
    cases he
    exact hne rfl

private theorem maps_run {maxsize : Nat} (calls : List DentryCall) {k : MetaKey} {v : UInt64}
    (h : (run step (.empty maxsize) calls).1.Maps k v) : LatestInsert calls k v := by
  induction calls using List.reverseRecOn with
  | nil =>
    obtain ⟨n, hn, _⟩ := h
    cases hn
  | append_singleton calls c ih =>
    rw [run_append] at h
    rcases maps_step h with rfl | ⟨hm, hi, he⟩
    · exact ⟨calls, [], rfl, nofun, nofun⟩
    · exact (ih hm).concat hi he

private theorem bounded_run (maxsize : Nat) (calls : List DentryCall) :
    (run step (.empty maxsize) calls).1.cache.length ≤ maxsize ∧
      (run step (.empty maxsize) calls).1.maxsize = maxsize := by
  have hall : Allowed step (fun _ _ => True) (.empty maxsize) calls := allowed_of_forall (fun _ _ => trivial) _ calls
  have hrun := run_invariant (fun d : DentryCache => d.cache.length ≤ d.maxsize ∧ d.maxsize = maxsize)
    (fun d c h _ => ⟨length_step h.1 c, (maxsize_step d c).trans h.2⟩) ⟨Nat.zero_le _, rfl⟩ hall
  exact ⟨hrun.1.trans_eq hrun.2, hrun.2⟩

/-- After any calls on an empty cache: the list is within the capacity, the map points at nodes of
the list with the same key, and a hit is the value of the latest Insert, not evicted since. -/
theorem dentry_cache_sound (maxsize : Nat) (calls : List DentryCall) :
    let d := (run step (.empty maxsize) calls).1
    d.cache.length ≤ maxsize ∧ (∀ k i, d.lookup.lookup k = some i → ∃ n ∈ d.cache, n.id = i ∧ n.key = k) ∧
      ∀ k v, (d.find k).2 = some v → LatestInsert calls k v := by
  intro d
  exact ⟨(bounded_run maxsize calls).1, d.mapped, fun k v hv => maps_run calls (((d.find_spec k).1 v).mp hv)⟩

/-- The key that a call inserts or finds. -/
def used (d : DentryCache) : DentryCall → Option MetaKey
  | .find k => if (d.find k).2.isSome then some k else none
  | .insert k _ => some k
  | .evict _ => none

/-- The call overflows the list, and the node that goes is one of the key. -/
def Drops (k : MetaKey) (d : DentryCache) : DentryCall → Prop
  | .insert k' v => d.maxsize < d.cache.length + 1 ∧ ∃ n ∈ (d.pushFront k' v).cache.getLast?, n.key = k
  | _ => False

private theorem isSome_find (d : DentryCache) (k : MetaKey) : (d.find k).2.isSome ↔ ∃ v, d.Maps k v := by
  rw [Option.isSome_iff_exists]
  exact exists_congr fun v => (d.find_spec k).1 v

section
variable {d : DentryCache} {k k' : MetaKey} {c : DentryCall}

private theorem exists_maps_insert (d : DentryCache) (k k' : MetaKey) (v : UInt64) :
    (∃ w, (d.insert k' v).Maps k w) ↔ (k = k' ∨ ∃ w, d.Maps k w) ∧ ¬ Drops k d (.insert k' v) := by
  have hpush : (∃ w, (d.pushFront k' v).Maps k w) ↔ k = k' ∨ ∃ w, d.Maps k w := by
    by_cases hk : k = k' <;> simp [maps_pushFront, hk]
  rcases d.insert_cases k' v with ⟨hle, hi⟩ | ⟨n, hn, hover, hlast, hi⟩
  · rw [hi, hpush]
    exact ⟨fun h => ⟨h, fun hd => absurd hd.1 (Nat.not_lt.mpr hle)⟩, And.left⟩
  · rw [hi]
    simp only [maps_eraseNode, exists_and_left, hpush, Drops, hover, true_and, hlast, Option.mem_def,
      Option.some.injEq, exists_eq_left']
    exact and_comm.trans (and_congr_right fun _ => ⟨fun hne he => hne he.symm, fun hne he => hne he.symm⟩)

private theorem used_find (h : d.used (.find k') = some k) : k' = k ∧ ∃ v, d.Maps k v := by
  simp only [used] at h
  split at h
  · rename_i hsome
    obtain rfl := Option.some.inj h
    exact ⟨rfl, (d.isSome_find k').mp hsome⟩
  · cases h

private theorem exists_maps_step (he : c ≠ .evict k) :
    (∃ v, (d.step c).1.Maps k v) ↔ ((∃ v, d.Maps k v) ∨ d.used c = some k) ∧ ¬ Drops k d c := by
  cases c with
  | find k' =>
    simp only [step, (d.find_spec k').2, Drops, not_false_eq_true, and_true]
    exact ⟨.inl, fun h => h.elim id fun hu => (used_find hu).2⟩
  | insert k' v =>
    simp only [step, exists_maps_insert, used, Option.some.injEq, or_comm, eq_comm]
  | evict k' =>
    have hne : k ≠ k' := fun h => he (h ▸ rfl)
    simp [step, maps_evict, hne, Drops, used]

/-- Some call uses the key, and neither it nor a later one drops it. -/
def UsedLast (d : DentryCache) (calls : List DentryCall) (k : MetaKey) : Prop :=
  ∃ pre c post, calls = pre ++ c :: post ∧ (run step d pre).1.used c = some k ∧
    Allowed step (fun d c => ¬ Drops k d c) (run step d pre).1 (c :: post)

private theorem usedLast_concat (d : DentryCache) (calls : List DentryCall) (c : DentryCall) (k : MetaKey) :
    UsedLast d (calls ++ [c]) k ↔
      (UsedLast d calls k ∨ (run step d calls).1.used c = some k) ∧ ¬ Drops k (run step d calls).1 c := by
  constructor
  · rintro ⟨pre, c', post, heq, hu, hok⟩
    rcases List.eq_nil_or_concat post with rfl | ⟨post, c'', rfl⟩
    · obtain ⟨rfl, hc⟩ := List.append_inj' heq rfl
      obtain rfl := List.singleton_inj.mp hc
      exact ⟨.inr hu, hok.1⟩
    · rw [List.concat_eq_append, ← List.cons_append, ← List.append_assoc] at heq
      obtain ⟨rfl, hc⟩ := List.append_inj' heq rfl
      obtain rfl := List.singleton_inj.mp hc
      rw [List.concat_eq_append, ← List.cons_append, allowed_append] at hok
      rw [run_append]
      exact ⟨.inl ⟨pre, c', post, rfl, hu, hok.1⟩, hok.2.1⟩
  · rintro ⟨⟨pre, c', post, rfl, hu, hok⟩ | hu, hd⟩
    · refine ⟨pre, c', post ++ [c], by simp, hu, ?_⟩
      rw [run_append] at hd
      rw [← List.cons_append, allowed_append]
      exact ⟨hok, hd, trivial⟩
    · exact ⟨calls, c, [], rfl, hu, hd, trivial⟩

private theorem exists_maps_run {calls : List DentryCall} (he : .evict k ∉ calls) :
    (∃ v, (run step d calls).1.Maps k v) ↔
      ((∃ v, d.Maps k v) ∧ Allowed step (fun d c => ¬ Drops k d c) d calls) ∨ UsedLast d calls k := by
  induction calls using List.reverseRecOn with
  | nil => simp [run, Allowed, UsedLast]
  | append_singleton calls c ih =>
    have hstep := exists_maps_step (d := (run step d calls).1) (c := c) (k := k) fun h => he (by simp [h])
    have hone : Allowed step (fun d c => ¬ Drops k d c) (run step d calls).1 [c] ↔ ¬ Drops k (run step d calls).1 c :=
      and_iff_left trivial
    rw [ih fun h => he (List.mem_append_left _ h)] at hstep
    rw [run_append, usedLast_concat, allowed_append, hone, ← and_assoc, ← or_and_right, ← or_assoc]
    exact hstep

end

/-- A call, with the keys inserted or found so far. -/
def track (s : DentryCache × Finset MetaKey) (c : DentryCall) : (DentryCache × Finset MetaKey) × Option UInt64 :=
  (((s.1.step c).1, match s.1.used c with | some k => Insert.insert k s.2 | none => s.2), (s.1.step c).2)

/-- The keys other than k that the calls insert or find. -/
def others (d : DentryCache) (calls : List DentryCall) (k : MetaKey) : Finset MetaKey :=
  (run track (d, ∅) calls).1.2.erase k

/-- No Insert of k, and none of a key that was inserted or found so far. -/
def Renews (k : MetaKey) (s : DentryCache × Finset MetaKey) : DentryCall → Prop
  | .insert k' _ => k' ≠ k ∧ k' ∉ s.2
  | _ => True

/-- The list holds no node of the key, but for the one that the call finds. -/
def LeftNone (d : DentryCache) (c : DentryCall) (k : MetaKey) : Prop :=
  ∀ n ∈ d.cache, n.key = k → c = .find k ∧ d.lookup.lookup k = some n.id

private theorem run_track (s : DentryCache × Finset MetaKey) (calls : List DentryCall) :
    (run track s calls).1.1 = (run step s.1 calls).1 := by
  induction calls generalizing s with
  | nil => rfl
  | cons c calls ih => exact ih _

private theorem subset_run_track (s : DentryCache × Finset MetaKey) (calls : List DentryCall) :
    s.2 ⊆ (run track s calls).1.2 := by
  induction calls generalizing s with
  | nil => exact Finset.Subset.refl _
  | cons c calls ih =>
    refine Finset.Subset.trans ?_ (ih _)
    simp only [track]
    split
    · exact Finset.subset_insert _ _
    · exact Finset.Subset.refl _

/-- The node of k, the nodes before it, each of another key inserted or found since, and those
behind it. -/
structure Ahead (k : MetaKey) (d : DentryCache) (seen : Finset MetaKey) (front : List DentryNode) (n : DentryNode)
    (back : List DentryNode) : Prop where
  split : d.cache = front ++ n :: back
  key : n.key = k
  live : d.lookup.lookup k = some n.id
  seen : ∀ m ∈ front, m.key ∈ seen.erase k
  once : (front.map DentryNode.key).Nodup
  alone : ∀ m ∈ back, m.key ≠ k
  mapped : ∀ m ∈ front, ∀ i, d.lookup.lookup m.key = some i → i = m.id

section
variable {d : DentryCache} {k k' : MetaKey} {seen : Finset MetaKey} {front back : List DentryNode} {n m : DentryNode}

theorem Ahead.length_le (h : Ahead k d seen front n back) : front.length ≤ (seen.erase k).card := by
  have hsub : (front.map DentryNode.key).toFinset ⊆ seen.erase k := by
    intro x hx
    obtain ⟨m, hm, rfl⟩ := List.mem_map.mp (List.mem_toFinset.mp hx)
    exact h.seen m hm
  rw [← List.length_map DentryNode.key, ← List.toFinset_card_of_nodup h.once]
  exact Finset.card_le_card hsub

private theorem Ahead.key_ne (h : Ahead k d seen front n back) (hm : m ∈ d.cache) (hne : m ≠ n) : m.key ≠ k := by
  rw [h.split, List.mem_append, List.mem_cons] at hm
  rcases hm with hm | hm | hm
  · exact (Finset.mem_erase.mp (h.seen m hm)).1
  · exact absurd hm hne
  · exact h.alone m hm

/-- Erasing another node closes the gap it leaves. -/
theorem Ahead.eraseNode (h : Ahead k d seen front n back) (hm : m ∈ d.cache) (hne : m ≠ n) :
    Ahead k (d.eraseNode m hm) seen (front.filter fun x => decide (x.id ≠ m.id)) n
      (back.filter fun x => decide (x.id ≠ m.id)) := by
  have hn : n ∈ d.cache := by simp [h.split]
  have hid : n.id ≠ m.id := fun he => hne (d.eq_of_id hm hn he.symm)
  have hsub (x : DentryNode) (l : List DentryNode) (hx : x ∈ l.filter fun x => decide (x.id ≠ m.id)) : x ∈ l :=
    List.mem_of_mem_filter hx
  refine ⟨?_, h.key, ?_, fun x hx => h.seen x (hsub x _ hx), h.once.sublist (List.filter_sublist.map _),
    fun x hx => h.alone x (hsub x _ hx), fun x hx i hi => h.mapped x (hsub x _ hx) i (lookup_erase_some hi).2⟩
  · simp [DentryCache.eraseNode, h.split, List.filter_append, hid]
  · exact (Finmap.lookup_erase_ne (h.key_ne hm hne).symm).trans h.live

/-- A new node of another key goes before those that are there. -/
theorem Ahead.pushFront (h : Ahead k d seen front n back) (hk : k' ≠ k) (hnew : ∀ x ∈ front, x.key ≠ k') (v : UInt64) :
    Ahead k (d.pushFront k' v) (Insert.insert k' seen) (⟨d.next, k', v⟩ :: front) n back := by
  refine ⟨?_, h.key, ?_, fun x hx => ?_, ?_, h.alone, fun x hx i hi => ?_⟩
  · exact congrArg (_ :: ·) h.split
  · exact (Finmap.lookup_insert_of_ne _ hk.symm).trans h.live
  · rcases List.mem_cons.mp hx with rfl | hx
    · exact Finset.mem_erase.mpr ⟨hk, Finset.mem_insert_self _ _⟩
    · exact Finset.erase_subset_erase k (Finset.subset_insert k' seen) (h.seen x hx)
  · refine List.nodup_cons.mpr ⟨fun hin => ?_, h.once⟩
    obtain ⟨x, hx, he⟩ := List.mem_map.mp hin
    exact hnew x hx he
  · rcases List.mem_cons.mp hx with rfl | hx
    · exact Option.some.inj (hi.symm.trans (Finmap.lookup_insert _))
    · exact h.mapped x hx i ((Finmap.lookup_insert_of_ne _ (hnew x hx)).symm.trans hi)

private theorem ahead_moved (hn : n ∈ d.cache) (halone : ∀ m ∈ d.cache, m ≠ n → m.key ≠ k) (v : UInt64) :
    Ahead k ((d.eraseNode n hn).pushFront k v) seen [] ⟨d.next, k, v⟩ (d.eraseNode n hn).cache := by
  refine ⟨rfl, rfl, Finmap.lookup_insert _, nofun, List.nodup_nil, fun m hm => ?_, nofun⟩
  obtain ⟨hm, hid⟩ := List.mem_filter.mp hm
  exact halone m hm fun he => of_decide_eq_true hid (congrArg DentryNode.id he)

private theorem Ahead.last_ne (h : Ahead k d seen front n back) (hfew : front.length < d.maxsize)
    (hover : d.maxsize < d.cache.length) (hm : d.cache.getLast? = some m) : m ≠ n := by
  rintro rfl
  have hback : back ≠ [] := by
    rintro rfl
    rw [h.split, List.length_append, List.length_singleton] at hover
    omega
  rw [h.split, List.getLast?_append_of_ne_nil _ (List.cons_ne_nil _ _), List.getLast?_cons_of_ne_nil hback] at hm
  exact h.alone m (List.mem_of_getLast? hm) h.key

theorem Ahead.insert (h : Ahead k d seen front n back) (hk : k' ≠ k) (hnew : k' ∉ seen) (v : UInt64)
    (hfew : ((Insert.insert k' seen).erase k).card < d.maxsize) :
    ∃ front back, Ahead k (d.insert k' v) (Insert.insert k' seen) front n back := by
  have hpush := h.pushFront hk (fun x hx he => hnew (he ▸ Finset.mem_of_mem_erase (h.seen x hx))) v
  rcases d.insert_cases k' v with ⟨_, hi⟩ | ⟨m, hm, hover, hlast, hi⟩
  · exact ⟨_, _, hi ▸ hpush⟩
  · exact ⟨_, _, hi ▸ hpush.eraseNode hm (hpush.last_ne (hpush.length_le.trans_lt hfew) hover hlast)⟩

theorem Ahead.find (h : Ahead k d seen front n back) (hk : k' ≠ k) (hm : m ∈ d.cache)
    (hmap : d.lookup.lookup k' = some m.id) (hkey : m.key = k') (v : UInt64) :
    ∃ front back, Ahead k ((d.eraseNode m hm).pushFront k' v) (Insert.insert k' seen) front n back := by
  have hne : m ≠ n := fun he => hk (hkey.symm.trans ((congrArg DentryNode.key he).trans h.key))
  refine ⟨_, _, (h.eraseNode hm hne).pushFront hk (fun x hx he => ?_) v⟩
  obtain ⟨hx, hid⟩ := List.mem_filter.mp hx
  exact of_decide_eq_true hid (h.mapped x hx m.id (he ▸ hmap)).symm

theorem Ahead.evict (h : Ahead k d seen front n back) (hk : k' ≠ k) : Ahead k (d.evict k') seen front n back :=
  { h with
    live := (Finmap.lookup_erase_ne hk.symm).trans h.live
    mapped := fun x hx i hi => h.mapped x hx i (lookup_erase_some hi).2 }

end

/-- The node of k stands behind others of keys inserted or found since. -/
def Kept (k : MetaKey) (s : DentryCache × Finset MetaKey) : Prop := ∃ front n back, Ahead k s.1 s.2 front n back

section
variable {k : MetaKey} {s : DentryCache × Finset MetaKey} {c : DentryCall}

theorem Kept.step (h : Kept k s) (hok : Renews k s c) (he : c ≠ .evict k)
    (hfew : ((track s c).1.2.erase k).card < s.1.maxsize) : Kept k (track s c).1 := by
  obtain ⟨front, n, back, ha⟩ := h
  cases c with
  | find k' =>
    rcases s.1.find_cases k' with ⟨_, hf⟩ | ⟨m, hm, hmap, hkey, hf⟩
    · simp only [track, DentryCache.step, used, hf]
      exact ⟨front, n, back, ha⟩
    · simp only [track, DentryCache.step, used, hf, Option.isSome_some, if_true]
      by_cases hk : k' = k
      · subst hk
        obtain rfl := s.1.eq_of_id hm (by simp [ha.split]) (Option.some.inj (hmap.symm.trans ha.live))
        exact ⟨_, _, _, ahead_moved hm (fun x hx hne => ha.key_ne hx hne) m.value⟩
      · obtain ⟨front, back, ha⟩ := ha.find hk hm hmap hkey m.value
        exact ⟨front, n, back, ha⟩
  | insert k' v =>
    obtain ⟨front, back, ha⟩ := ha.insert hok.1 hok.2 v hfew
    exact ⟨front, n, back, ha⟩
  | evict k' => exact ⟨front, n, back, ha.evict fun hk => he (hk ▸ rfl)⟩

theorem Kept.run {calls : List DentryCall} (h : Kept k s) (hok : Allowed track (Renews k) s calls)
    (he : .evict k ∉ calls) (hfew : ((run track s calls).1.2.erase k).card < s.1.maxsize) :
    Kept k (run track s calls).1 := by
  induction calls generalizing s with
  | nil => exact h
  | cons c calls ih =>
    have hsub := Finset.erase_subset_erase k (subset_run_track (track s c).1 calls)
    have hstep := h.step hok.1 (fun hc => he (hc ▸ List.mem_cons_self)) ((Finset.card_le_card hsub).trans_lt hfew)
    refine ih hstep hok.2 (fun hc => he (List.mem_cons_of_mem _ hc)) ?_
    exact hfew.trans_eq (maxsize_step s.1 c).symm

private theorem Kept.hits (h : Kept k s) : (s.1.find k).2.isSome := by
  obtain ⟨front, n, back, ha⟩ := h
  exact (s.1.isSome_find k).mpr ⟨n.value, n, by simp [ha.split], ha.live, rfl⟩

private theorem kept_of_used {d : DentryCache} (hpos : 1 ≤ d.maxsize) (hused : d.used c = some k)
    (hleft : LeftNone d c k) :
    Kept k ((d.step c).1, ∅) := by
  cases c with
  | find k' =>
    simp only [used] at hused
    rcases d.find_cases k' with ⟨_, hf⟩ | ⟨m, hm, hmap, hkey, hf⟩
    · rw [hf] at hused
      cases hused
    · rw [hf] at hused
      obtain rfl := Option.some.inj hused
      simp only [DentryCache.step, hf]
      refine ⟨_, _, _, ahead_moved hm (fun x hx hne hk => hne ?_) m.value⟩
      exact d.eq_of_id hx hm (Option.some.inj ((hleft x hx hk).2.symm.trans hmap))
  | insert k' v =>
    obtain rfl := Option.some.inj hused
    have hnone : ∀ m ∈ d.cache, m.key ≠ k' := fun m hm hkey => absurd (hleft m hm hkey).1 (by simp)
    have hpush : Ahead k' (d.pushFront k' v) ∅ [] ⟨d.next, k', v⟩ d.cache :=
      ⟨rfl, rfl, Finmap.lookup_insert _, by simp, List.nodup_nil, hnone, by simp⟩
    rcases d.insert_cases k' v with ⟨_, hi⟩ | ⟨m, hm, hover, hlast, hi⟩
    · exact ⟨_, _, _, by simpa only [DentryCache.step, hi] using hpush⟩
    · exact ⟨_, _, _, by simpa only [DentryCache.step, hi] using hpush.eraseNode hm (hpush.last_ne hpos hover hlast)⟩
  | evict k' => cases hused

end

/-- A key used at some call and not evicted since is found exactly when some use of it from then on
is followed by no drop. Where every later Insert is of a new key and no node of k was left behind,
fewer other keys than the capacity drop nothing. -/
theorem recent_key_found_iff (maxsize : Nat) (before after : List DentryCall) (c : DentryCall) (k : MetaKey)
    {d : DentryCache} (hd : (run step (.empty maxsize) before).1 = d) (hused : d.used c = some k)
    (he : .evict k ∉ after) :
    (((run step d (c :: after)).1.find k).2.isSome ↔ UsedLast d (c :: after) k) ∧
      (1 ≤ maxsize → LeftNone d c k → Allowed track (Renews k) ((d.step c).1, ∅) after →
        (others (d.step c).1 after k).card < maxsize → ((run step d (c :: after)).1.find k).2.isSome) := by
  have hsize : d.maxsize = maxsize := hd ▸ (bounded_run maxsize before).2
  have hc : c ≠ .evict k := by
    rintro rfl
    cases hused
  constructor
  · rw [isSome_find, exists_maps_run fun h => (List.mem_cons.mp h).elim (fun h => hc h.symm) he]
    exact or_iff_right_of_imp fun h => ⟨[], c, after, rfl, hused, h.2⟩
  · intro hpos hleft hnew hfew
    have hkept := kept_of_used (hsize.symm ▸ hpos) hused hleft
    have hrun := hkept.run hnew he (hfew.trans_eq (hsize.symm.trans (maxsize_step d c).symm))
    rw [run, ← run_track ((d.step c).1, ∅)]
    exact hrun.hits

theorem recent_key_found_iff_two :
    ((run step (.empty 2) [.insert ⟨0, 1⟩ 5, .insert ⟨0, 2⟩ 6]).1.find ⟨0, 1⟩).2.isSome ∧
      (others ((DentryCache.empty 2).step (.insert ⟨0, 1⟩ 5)).1 [.insert ⟨0, 2⟩ 6] ⟨0, 1⟩).card < 2 := by
  have hfew : (others ((DentryCache.empty 2).step (.insert ⟨0, 1⟩ 5)).1 [.insert ⟨0, 2⟩ 6] ⟨0, 1⟩).card < 2 := by
    decide +kernel
  have hnew : Allowed track (Renews ⟨0, 1⟩) (((DentryCache.empty 2).step (.insert ⟨0, 1⟩ 5)).1, ∅) [.insert ⟨0, 2⟩ 6] :=
    ⟨⟨by decide, by simp⟩, trivial⟩
  exact ⟨(recent_key_found_iff 2 [] [.insert ⟨0, 2⟩ 6] (.insert ⟨0, 1⟩ 5) ⟨0, 1⟩ rfl rfl (by simp)).2 (by decide) nofun
    hnew hfew, hfew⟩

/-- A second Insert of a key loses it at capacity 1, with no other key used at all. At capacity 2
the node that an Evict left behind makes the list overflow, with one other key used. -/
theorem recent_key_lost :
    ((run step (.empty 1) [.insert ⟨0, 1⟩ 5, .insert ⟨0, 1⟩ 6]).1.find ⟨0, 1⟩).2 = none ∧
      ((run step (.empty 2) [.insert ⟨0, 1⟩ 5, .insert ⟨0, 2⟩ 6, .evict ⟨0, 2⟩, .insert ⟨0, 2⟩ 7]).1.find
        ⟨0, 1⟩).2 = none ∧
      (others (run step (.empty 2) [.insert ⟨0, 1⟩ 5]).1 [.insert ⟨0, 2⟩ 6, .evict ⟨0, 2⟩, .insert ⟨0, 2⟩ 7]
        ⟨0, 1⟩).card = 1 := by
  decide +kernel

end DentryCache
end TableFS

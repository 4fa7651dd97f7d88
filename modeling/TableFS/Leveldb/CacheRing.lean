import TableFS.Lib.LinkedLists
import TableFS.Leveldb.Cache

/-! The ring of a shard: what LRU_Remove and LRU_Append do to the list of its entries, and that they
change nothing but pointers of the ring. -/
namespace TableFS.Leveldb
open LinkedLists
variable {κ ν : Type}

/-- The entry that a pointer is to, if any. -/
def Link.entries : Link → List Nat
  | .lru => []
  | .entry a => [a]

namespace LRUHandle

/-- The entry without its place in the ring. -/
def dropRing (e : LRUHandle κ ν) : LRUHandle κ ν := { e with next := .lru, prev := .lru }

/-- The entry without its place in the hash table. -/
def dropChain (e : LRUHandle κ ν) : LRUHandle κ ν := { e with next_hash := none }

end LRUHandle

namespace LRUCache

def nx (c : LRUCache κ ν) : Link → Link
  | .lru => c.lru_next
  | .entry a => ((c.heap a).map LRUHandle.next).getD .lru

def pv (c : LRUCache κ ν) : Link → Link
  | .lru => c.lru_prev
  | .entry a => ((c.heap a).map LRUHandle.prev).getD .lru

/-- The pointer is to the head or to an allocated entry. -/
def Points (c : LRUCache κ ν) : Link → Prop
  | .lru => True
  | .entry a => (c.heap a).isSome

/-- The entries of the ring, oldest first. -/
structure RingOk (c : LRUCache κ ν) (l : List Nat) : Prop where
  ring : Ring c.nx c.pv .lru (l.map Link.entry)
  alloc : ∀ a ∈ l, (c.heap a).isSome

/-- No entry is its own successor. -/
def NoSelf (c : LRUCache κ ν) : Prop := ∀ a e, c.heap a = some e → e.next ≠ .entry a

/-- Only pointers of the ring have changed, in some entries and in the head. -/
structure Relinked (c c' : LRUCache κ ν) (l : List Nat) : Prop where
  rest : ∀ a, (c'.heap a).map LRUHandle.dropRing = (c.heap a).map LRUHandle.dropRing
  frame : ∀ a, a ∉ l → c'.heap a = c.heap a
  table_ : c'.table_ = c.table_
  capacity_ : c'.capacity_ = c.capacity_
  usage_ : c'.usage_ = c.usage_

section
variable {c c' c'' : LRUCache κ ν} {l l' : List Nat} {a : Nat} {x y : Link}

theorem Relinked.trans (h : Relinked c c' l) (h' : Relinked c' c'' l') (hl : ∀ a, a ∈ l' → a ∈ l) :
    Relinked c c'' l where
  rest a := (h'.rest a).trans (h.rest a)
  frame a ha := (h'.frame a fun hm => ha (hl a hm)).trans (h.frame a ha)
  table_ := h'.table_.trans h.table_
  capacity_ := h'.capacity_.trans h.capacity_
  usage_ := h'.usage_.trans h.usage_

theorem Relinked.mono (h : Relinked c c' l) (hl : ∀ a, a ∈ l → a ∈ l') : Relinked c c' l' :=
  { h with frame := fun a ha => h.frame a fun hm => ha (hl a hm) }

theorem Relinked.isSome (h : Relinked c c' l) (a : Nat) : (c'.heap a).isSome = (c.heap a).isSome := by
  rw [← Option.isSome_map (f := LRUHandle.dropRing), h.rest, Option.isSome_map]

/-- Every part of an entry but its place in the ring is as before. -/
theorem Relinked.entry (h : Relinked c c' l) {e : LRUHandle κ ν} (he : c.heap a = some e) :
    ∃ e', c'.heap a = some e' ∧ e'.dropRing = e.dropRing := by
  have := h.rest a
  rw [he] at this
  obtain ⟨e', he', heq⟩ := Option.map_eq_some_iff.mp this
  exact ⟨e', he', heq⟩

private theorem Relinked.points (h : Relinked c c' l) (hx : c.Points x) : c'.Points x := by
  cases x with
  | lru => trivial
  | entry a => exact (h.isSome a).trans hx

theorem change_of_some {e : LRUHandle κ ν} (h : c.heap a = some e) (f : LRUHandle κ ν → LRUHandle κ ν) :
    c.change a f = some { c with heap := Function.update c.heap a (some (f e)) } := by
  simp [change, h]

theorem setNext_spec (hx : c.Points x) (y : Link) :
    ∃ c', c.setNext x y = some c' ∧ c'.nx = Function.update c.nx x y ∧ c'.pv = c.pv ∧
      Relinked c c' x.entries := by
  cases x with
  | lru =>
    refine ⟨_, rfl, ?_, ?_, ⟨fun _ => rfl, fun _ _ => rfl, rfl, rfl, rfl⟩⟩
    · funext z
      cases z <;> simp [nx]
    · funext z
      cases z <;> rfl
  | entry a =>
    obtain ⟨e, he⟩ := Option.isSome_iff_exists.mp hx
    refine ⟨_, change_of_some he _, ?_, ?_, ⟨fun b => ?_, fun b hb => ?_, rfl, rfl, rfl⟩⟩
    · funext z
      cases z with
      | lru => simp [nx]
      | entry b => by_cases hb : b = a <;> simp [nx, hb]
    · funext z
      cases z with
      | lru => rfl
      | entry b => by_cases hb : b = a <;> simp [pv, hb, he]
    · by_cases hb : b = a <;> simp [hb, he, LRUHandle.dropRing]
    · have hne : b ≠ a := fun heq => hb (heq ▸ List.mem_cons_self)
      exact Function.update_of_ne hne _ _

private theorem setPrev_spec (hx : c.Points x) (y : Link) :
    ∃ c', c.setPrev x y = some c' ∧ c'.nx = c.nx ∧ c'.pv = Function.update c.pv x y ∧
      Relinked c c' x.entries := by
  cases x with
  | lru =>
    refine ⟨_, rfl, ?_, ?_, ⟨fun _ => rfl, fun _ _ => rfl, rfl, rfl, rfl⟩⟩
    · funext z
      cases z <;> rfl
    · funext z
      cases z <;> simp [pv]
  | entry a =>
    obtain ⟨e, he⟩ := Option.isSome_iff_exists.mp hx
    refine ⟨_, change_of_some he _, ?_, ?_, ⟨fun b => ?_, fun b hb => ?_, rfl, rfl, rfl⟩⟩
    · funext z
      cases z with
      | lru => rfl
      | entry b => by_cases hb : b = a <;> simp [nx, hb, he]
    · funext z
      cases z with
      | lru => simp [pv]
      | entry b => by_cases hb : b = a <;> simp [pv, hb]
    · by_cases hb : b = a <;> simp [hb, he, LRUHandle.dropRing]
    · have hne : b ≠ a := fun heq => hb (heq ▸ List.mem_cons_self)
      exact Function.update_of_ne hne _ _

private theorem nx_entry {e : LRUHandle κ ν} (h : c.heap a = some e) : c.nx (.entry a) = e.next := by simp [nx, h]

private theorem pv_entry {e : LRUHandle κ ν} (h : c.heap a = some e) : c.pv (.entry a) = e.prev := by simp [pv, h]

private theorem RingOk.points (h : RingOk c l) (hx : x ∈ Link.lru :: l.map Link.entry) : c.Points x := by
  rcases List.mem_cons.mp hx with rfl | hx
  · trivial
  · obtain ⟨a, ha, rfl⟩ := List.mem_map.mp hx
    exact h.alloc a ha

/-- The entries of a ring are different ones. -/
theorem RingOk.nodup (h : RingOk c l) : l.Nodup := (List.nodup_cons.mp h.ring.nodup).2.of_map

/-- The ring is read off the pointers of its entries and the head. -/
theorem RingOk.congr (h : RingOk c l) (hl : ∀ a ∈ l, c'.heap a = c.heap a) (hn : c'.lru_next = c.lru_next)
    (hp : c'.lru_prev = c.lru_prev) : RingOk c' l := by
  refine ⟨h.ring.congr (fun x hx => ?_) (fun x hx => ?_), fun a ha => hl a ha ▸ h.alloc a ha⟩
  · rcases List.mem_cons.mp hx with rfl | hx
    · exact hn
    · obtain ⟨a, ha, rfl⟩ := List.mem_map.mp hx
      simp only [nx, hl a ha]
  · rcases List.mem_cons.mp hx with rfl | hx
    · exact hp
    · obtain ⟨a, ha, rfl⟩ := List.mem_map.mp hx
      simp only [pv, hl a ha]

private theorem mem_of_link {x : Link} (hx : x ∈ Link.lru :: l.map Link.entry) {b : Nat}
    (hb : b ∈ x.entries) : b ∈ l := by
  rcases List.mem_cons.mp hx with rfl | hx
  · cases hb
  · obtain ⟨a, ha, rfl⟩ := List.mem_map.mp hx
    exact List.mem_singleton.mp hb ▸ ha

/-- An entry that leaves the ring keeps its own pointers. -/
theorem RingOk.lruRemove {l₁ l₂ : List Nat} (h : RingOk c (l₁ ++ a :: l₂)) :
    ∃ c', c.lruRemove a = some c' ∧ RingOk c' (l₁ ++ l₂) ∧ Relinked c c' (l₁ ++ l₂) := by
  obtain ⟨e, he⟩ := Option.isSome_iff_exists.mp (h.alloc a (by simp))
  have hring : Ring c.nx c.pv .lru (l₁.map Link.entry ++ Link.entry a :: l₂.map Link.entry) := by
    simpa using h.ring
  have hnx : e.next ∈ Link.lru :: (l₁ ++ l₂).map Link.entry := by
    rw [← nx_entry he, List.map_append]
    exact hring.nx_mem
  have hpv : e.prev ∈ Link.lru :: (l₁ ++ l₂).map Link.entry := by
    rw [← pv_entry he, List.map_append]
    exact hring.pv_mem
  have hsub : ∀ x ∈ Link.lru :: (l₁ ++ l₂).map Link.entry, c.Points x := by
    intro x hx
    refine h.points (List.cons_subset_cons _ (List.map_subset _ ?_) hx)
    exact ((List.sublist_cons_self a l₂).append_left l₁).subset
  have hna : a ∉ l₁ ++ l₂ := (List.nodup_cons.mp (List.nodup_middle.mp h.nodup)).1
  obtain ⟨c₁, h₁, hnx₁, hpv₁, hr₁⟩ := setPrev_spec (hsub _ hnx) e.prev
  have he₁ : c₁.heap a = some e := (hr₁.frame a fun hm => hna (mem_of_link hnx hm)).trans he
  obtain ⟨c₂, h₂, hnx₂, hpv₂, hr₂⟩ := setNext_spec (hr₁.points (hsub _ hpv)) e.next
  have hr : Relinked c c₂ (l₁ ++ l₂) :=
    (hr₁.mono fun b hb => mem_of_link hnx hb).trans (hr₂.mono fun b hb => mem_of_link hpv hb) fun _ h => h
  refine ⟨c₂, by simp [LRUCache.lruRemove, he, h₁, he₁, h₂], ⟨?_, fun b hb => ?_⟩, hr⟩
  · rw [List.map_append]
    rw [hnx₁] at hnx₂
    rw [hpv₁] at hpv₂
    rw [hnx₂, hpv₂]
    refine hring.remove ?_ ?_ (fun y _ hy => ?_) (fun y _ hy => ?_)
    · rw [pv_entry he, nx_entry he, Function.update_self]
    · rw [pv_entry he, nx_entry he, Function.update_self]
    · exact Function.update_of_ne (pv_entry he ▸ hy) _ _
    · exact Function.update_of_ne (nx_entry he ▸ hy) _ _
  · exact (hr.isSome b).trans (hsub (.entry b) (List.mem_cons_of_mem _ (List.mem_map_of_mem hb)))

theorem RingOk.lruAppend (h : RingOk c l) {e : LRUHandle κ ν} (he : c.heap a = some e) (ha : a ∉ l) :
    ∃ c', c.lruAppend a = some c' ∧ RingOk c' (l ++ [a]) ∧ Relinked c c' (a :: l) := by
  have hpoint : c.Points (.entry a) := Option.isSome_iff_exists.mpr ⟨e, he⟩
  have hpv : c.pv .lru ∈ Link.lru :: l.map Link.entry := h.ring.seg.pv_mem
  have hx : Link.entry a ∉ Link.lru :: l.map Link.entry := by simpa using ha
  obtain ⟨c₁, h₁, hnx₁, hpv₁, hr₁⟩ := setNext_spec hpoint .lru
  have hlast : c₁.lru_prev = c.pv .lru := congrFun hpv₁ .lru
  obtain ⟨c₂, h₂, hnx₂, hpv₂, hr₂⟩ := setPrev_spec (hr₁.points hpoint) c₁.lru_prev
  have hr₁₂ := hr₁.trans hr₂ fun _ h => h
  obtain ⟨e₂, he₂, -⟩ := hr₁₂.entry he
  have hprev : e₂.prev = c.pv .lru := by rw [← pv_entry he₂, hpv₂, Function.update_self, hlast]
  obtain ⟨c₃, h₃, hnx₃, hpv₃, hr₃⟩ := setNext_spec (hr₁₂.points (hprev ▸ h.points hpv)) (.entry a)
  have hr₁₃ : Relinked c c₃ (a :: l) := by
    refine (hr₁₂.mono fun b hb => ?_).trans (hr₃.mono fun b hb => ?_) fun _ h => h
    · exact List.mem_singleton.mp hb ▸ List.mem_cons_self
    · exact List.mem_cons_of_mem a (mem_of_link (hprev ▸ hpv) hb)
  obtain ⟨e₃, he₃, -⟩ := hr₁₃.entry he
  have hnext : e₃.next = .lru := by
    rw [← nx_entry he₃, hnx₃, Function.update_of_ne, hnx₂, hnx₁, Function.update_self]
    exact fun heq => hx (heq ▸ hprev ▸ hpv)
  obtain ⟨c₄, h₄, hnx₄, hpv₄, hr₄⟩ := setPrev_spec (x := .lru) (c := c₃) trivial (.entry a)
  have hr : Relinked c c₄ (a :: l) := hr₁₃.trans (hr₄.mono fun b hb => nomatch hb) fun _ h => h
  refine ⟨c₄, by simp [LRUCache.lruAppend, h₁, h₂, he₂, h₃, he₃, hnext, h₄], ⟨?_, fun b hb => ?_⟩, hr⟩
  · rw [List.map_append, List.map_singleton, hnx₄, hnx₃, hnx₂, hnx₁, hpv₄, hpv₃, hpv₂, hpv₁, hprev, hlast]
    have hne : Link.entry a ≠ c.pv .lru := fun heq => hx (heq ▸ hpv)
    refine h.ring.append hx ?_ ?_ ?_ ?_ (fun y hy hy' => ?_) (fun y hy => ?_)
    · rw [Function.update_self]
    · rw [Function.update_of_ne hne, Function.update_self]
    · rw [Function.update_of_ne (by simp), Function.update_self]
    · rw [Function.update_self]
    · have hya : y ≠ Link.entry a := fun heq => hx (heq ▸ hy)
      rw [Function.update_of_ne hy', Function.update_of_ne hya]
    · have hya : y ≠ Link.entry a := fun heq => hx (List.mem_cons_of_mem _ (heq ▸ hy))
      have hyl : y ≠ Link.lru := fun heq => (List.nodup_cons.mp h.ring.nodup).1 (heq ▸ hy)
      rw [Function.update_of_ne hyl, Function.update_of_ne hya]
  · refine (hr.isSome b).trans ?_
    rcases List.mem_append.mp hb with hb | hb
    · exact h.alloc b hb
    · exact List.mem_singleton.mp hb ▸ hpoint

/-- Entries of the ring and entries whose pointers did not change are not their own successors. -/
theorem NoSelf.relinked (hn : NoSelf c) (h : RingOk c' l) (hr : Relinked c c' l') (hl : ∀ a, a ∈ l' → a ∈ l) :
    NoSelf c' := by
  intro a e he
  by_cases ha : a ∈ l
  · exact nx_entry he ▸ h.ring.nx_ne (List.mem_map_of_mem ha)
  · exact hn a e ((hr.frame a fun hm => ha (hl a hm)) ▸ he)

end

end LRUCache
end TableFS.Leveldb

import Mathlib.Data.List.Nodup

/-! Lists that live in memory: chains linked one way and ended by a null pointer, and rings linked
both ways through a dummy node. The nodes on a chain or a ring are a ghost list. -/
namespace LinkedLists
variable {α σ : Type}

section chains
variable {link : α → σ} {load load' : σ → Option α} {s : σ} {l pre post : List α}

/-- The nodes of a chain, from the location of the pointer to its first one. The pointer to the
next node is at the location `link a` of a node `a`. -/
def Linked (link : α → σ) (load : σ → Option α) : σ → List α → Prop
  | s, [] => load s = none
  | s, a :: l => load s = some a ∧ Linked link load (link a) l

/-- The first nodes of a chain, without what their last pointer says. -/
def Path (link : α → σ) (load : σ → Option α) : σ → List α → Prop
  | _, [] => True
  | s, a :: l => load s = some a ∧ Path link load (link a) l

/-- The location of the pointer after the nodes. -/
def after (link : α → σ) : σ → List α → σ
  | s, [] => s
  | _, a :: l => after link (link a) l

theorem linked_append :
    Linked link load s (pre ++ post) ↔ Path link load s pre ∧ Linked link load (after link s pre) post := by
  induction pre generalizing s with
  | nil => simp only [List.nil_append, Path, after, true_and]
  | cons a pre ih => simp only [List.cons_append, Linked, Path, after, ih, and_assoc]

theorem after_append : after link s (pre ++ post) = after link (after link s pre) post := by
  induction pre generalizing s with
  | nil => rfl
  | cons a pre ih => exact ih

/-- The pointer after the nodes is the first one, or that of one of them. -/
theorem after_mem (link : α → σ) (s : σ) (l : List α) : after link s l = s ∨ ∃ a ∈ l, after link s l = link a := by
  induction l generalizing s with
  | nil => exact .inl rfl
  | cons a l ih =>
    rcases ih (link a) with h | ⟨b, hb, h⟩
    · exact .inr ⟨a, List.mem_cons_self, h⟩
    · exact .inr ⟨b, List.mem_cons_of_mem a hb, h⟩

theorem Path.congr (h : Path link load s l) (hn : (s :: l.map link).Nodup)
    (he : ∀ t ∈ s :: l.map link, t ≠ after link s l → load' t = load t) : Path link load' s l := by
  induction l generalizing s with
  | nil => trivial
  | cons a l ih =>
    obtain ⟨hs, hn⟩ := List.nodup_cons.mp hn
    have hne : s ≠ after link s (a :: l) := by
      rintro he
      rcases after_mem link (link a) l with h | ⟨b, hb, h⟩
      · exact hs (by rw [he, after, h]; exact List.mem_cons_self)
      · exact hs (by rw [he, after, h]; exact List.mem_cons_of_mem _ (List.mem_map_of_mem hb))
    exact ⟨(he s List.mem_cons_self hne).trans h.1,
      ih h.2 hn fun t ht hta => he t (List.mem_cons_of_mem s ht) hta⟩

/-- A chain does not depend on where the pointer to its first node is. -/
theorem Linked.congr {s' : σ} (h : Linked link load s l) (hs : load' s' = load s)
    (he : ∀ a ∈ l, load' (link a) = load (link a)) : Linked link load' s' l := by
  induction l generalizing s s' with
  | nil => exact hs.trans h
  | cons a l ih =>
    exact ⟨hs.trans h.1, ih h.2 (he a List.mem_cons_self) fun b hb => he b (List.mem_cons_of_mem a hb)⟩

/-- What follows a pointer is replaced by changing that pointer, and no other one before it. -/
theorem Linked.splice {post' : List α} (h : Linked link load s (pre ++ post)) (hn : (s :: pre.map link).Nodup)
    (he : ∀ t ∈ s :: pre.map link, t ≠ after link s pre → load' t = load t)
    (hpost : Linked link load' (after link s pre) post') : Linked link load' s (pre ++ post') :=
  linked_append.mpr ⟨(linked_append.mp h).1.congr hn he, hpost⟩

end chains

section rings
variable {nx pv nx' pv' : α → α} {a b x : α} {l l₁ l₂ : List α}

/-- The nodes strictly between two nodes, linked both ways. -/
def Seg (nx pv : α → α) : α → List α → α → Prop
  | a, [], b => nx a = b ∧ pv b = a
  | a, x :: l, b => (nx a = x ∧ pv x = a) ∧ Seg nx pv x l b

theorem seg_append : Seg nx pv a (l₁ ++ x :: l₂) b ↔ Seg nx pv a l₁ x ∧ Seg nx pv x l₂ b := by
  induction l₁ generalizing a with
  | nil => exact Iff.rfl
  | cons y l ih => simp only [List.cons_append, Seg, ih, and_assoc]

theorem Seg.congr (h : Seg nx pv a l b) (hnx : ∀ y ∈ a :: l, nx' y = nx y) (hpv : ∀ y ∈ l, pv' y = pv y)
    (hb : pv' b = pv b) : Seg nx' pv' a l b := by
  induction l generalizing a with
  | nil => exact ⟨(hnx a List.mem_cons_self).trans h.1, hb.trans h.2⟩
  | cons y l ih =>
    refine ⟨⟨(hnx a List.mem_cons_self).trans h.1.1, (hpv y List.mem_cons_self).trans h.1.2⟩, ?_⟩
    exact ih h.2 (fun z hz => hnx z (List.mem_cons_of_mem a hz)) fun z hz => hpv z (List.mem_cons_of_mem y hz)

theorem Seg.pv_mem (h : Seg nx pv a l b) : pv b ∈ a :: l := by
  induction l generalizing a with
  | nil => exact h.2 ▸ List.mem_cons_self
  | cons y l ih => exact List.mem_cons_of_mem a (ih h.2)

theorem Seg.nx_mem (h : Seg nx pv a l b) : nx a ∈ l ++ [b] := by
  cases l with
  | nil => exact h.1 ▸ List.mem_cons_self
  | cons y l => exact h.1.1 ▸ List.mem_cons_self

/-- The last node of a segment is linked to another node. -/
theorem Seg.retarget {y : α} (h : Seg nx pv a l x) (hn : (a :: l).Nodup)
    (hnx : ∀ z ∈ a :: l, z ≠ pv x → nx' z = nx z) (hpv : ∀ z ∈ l, pv' z = pv z) (hlast : nx' (pv x) = y)
    (hy : pv' y = pv x) : Seg nx' pv' a l y := by
  induction l generalizing a with
  | nil =>
    obtain ⟨_, hx⟩ := h
    exact ⟨hx ▸ hlast, hy.trans hx⟩
  | cons z l ih =>
    obtain ⟨ha, hn⟩ := List.nodup_cons.mp hn
    have hne : a ≠ pv x := fun he => ha (he ▸ h.2.pv_mem)
    refine ⟨⟨(hnx a List.mem_cons_self hne).trans h.1.1, (hpv z List.mem_cons_self).trans h.1.2⟩, ?_⟩
    exact ih h.2 hn (fun u hu => hnx u (List.mem_cons_of_mem a hu)) fun u hu => hpv u (List.mem_cons_of_mem z hu)

/-- A ring through the dummy node `h`. -/
structure Ring (nx pv : α → α) (h : α) (l : List α) : Prop where
  seg : Seg nx pv h l h
  nodup : (h :: l).Nodup

variable {h : α}

theorem Ring.congr (hr : Ring nx pv h l) (hnx : ∀ y ∈ h :: l, nx' y = nx y) (hpv : ∀ y ∈ h :: l, pv' y = pv y) :
    Ring nx' pv' h l :=
  ⟨hr.seg.congr hnx (fun y hy => hpv y (List.mem_cons_of_mem h hy)) (hpv h List.mem_cons_self), hr.nodup⟩

theorem Ring.nx_mem (hr : Ring nx pv h (l₁ ++ x :: l₂)) : nx x ∈ h :: (l₁ ++ l₂) := by
  have := (seg_append.mp hr.seg).2.nx_mem
  simp only [List.mem_append, List.mem_singleton] at this
  rcases this with hm | hm
  · exact List.mem_cons_of_mem h (List.mem_append_right l₁ hm)
  · exact hm ▸ List.mem_cons_self

theorem Ring.pv_mem (hr : Ring nx pv h (l₁ ++ x :: l₂)) : pv x ∈ h :: (l₁ ++ l₂) := by
  rcases List.mem_cons.mp (seg_append.mp hr.seg).1.pv_mem with hm | hm
  · exact hm ▸ List.mem_cons_self
  · exact List.mem_cons_of_mem h (List.mem_append_left l₂ hm)

theorem Ring.nx_ne (hr : Ring nx pv h l) (hx : x ∈ l) : nx x ≠ x := by
  obtain ⟨l₁, l₂, rfl⟩ := List.append_of_mem hx
  have hn := List.nodup_middle.mp (List.nodup_cons.mp hr.nodup).2
  intro he
  rcases List.mem_cons.mp (he ▸ hr.nx_mem) with hm | hm
  · exact (List.nodup_cons.mp hr.nodup).1 (hm ▸ hx)
  · exact (List.nodup_cons.mp hn).1 hm

/-- A node is unlinked by linking its neighbours to each other. -/
theorem Ring.remove (hr : Ring nx pv h (l₁ ++ x :: l₂)) (hnx : nx' (pv x) = nx x) (hpv : pv' (nx x) = pv x)
    (hnx' : ∀ y ∈ h :: (l₁ ++ l₂), y ≠ pv x → nx' y = nx y) (hpv' : ∀ y ∈ h :: (l₁ ++ l₂), y ≠ nx x → pv' y = pv y) :
    Ring nx' pv' h (l₁ ++ l₂) := by
  obtain ⟨hs₁, hs₂⟩ := seg_append.mp hr.seg
  have hn := hr.nodup
  have hn' : (h :: (l₁ ++ l₂)).Nodup := hn.sublist (.cons_cons h (.append_left (List.sublist_cons_self x l₂) l₁))
  have hn₁ : (h :: l₁).Nodup := hn'.sublist (.cons_cons h (List.sublist_append_left l₁ l₂))
  refine ⟨?_, hn'⟩
  have hself : nx x ∉ l₁ := by
    intro hm
    have hs := hs₂.nx_mem
    simp only [List.mem_append, List.mem_singleton] at hs
    rcases hs with h2 | rfl
    · exact (List.disjoint_of_nodup_append (List.nodup_cons.mp hn').2) hm h2
    · exact (List.nodup_cons.mp hn₁).1 hm
  have hfront : Seg nx' pv' h l₁ (nx x) := by
    refine hs₁.retarget hn₁ (fun z hz hzx => ?_) (fun z hz => ?_) hnx hpv
    · exact hnx' z (List.cons_subset_cons h (List.subset_append_left l₁ l₂) hz) hzx
    · exact hpv' z (List.mem_cons_of_mem h (List.mem_append_left l₂ hz)) fun he => hself (he ▸ hz)
  cases l₂ with
  | nil =>
    rw [List.append_nil]
    exact hs₂.1 ▸ hfront
  | cons y l₂ =>
    obtain ⟨⟨hxy, hyx⟩, hs₂⟩ := hs₂
    refine seg_append.mpr ⟨hxy ▸ hfront, ?_⟩
    obtain ⟨hh, hnl⟩ := List.nodup_cons.mp hn'
    have hd := List.disjoint_of_nodup_append hnl
    have hy := (List.nodup_cons.mp (List.nodup_append.mp hnl).2.1).1
    have hpx : pv x ∉ y :: l₂ := by
      intro hm
      rcases List.mem_cons.mp hs₁.pv_mem with he | he
      · exact hh (List.mem_append_right l₁ (he ▸ hm))
      · exact hd he hm
    refine hs₂.congr (fun z hz => ?_) (fun z hz => ?_) ?_
    · exact hnx' z (List.mem_cons_of_mem h (List.mem_append_right l₁ hz)) fun he => hpx (he ▸ hz)
    · exact hpv' z (List.mem_cons_of_mem h (List.mem_append_right l₁ (List.mem_cons_of_mem y hz)))
        fun he => hy (hxy ▸ he ▸ hz)
    · refine hpv' h List.mem_cons_self fun he => ?_
      exact hh (List.mem_append_right l₁ (he.trans hxy ▸ List.mem_cons_self))

/-- A new node is linked in before the dummy node. -/
theorem Ring.append (hr : Ring nx pv h l) (hx : x ∉ h :: l) (hlast : nx' (pv h) = x) (hxh : nx' x = h)
    (hxp : pv' x = pv h) (hhx : pv' h = x) (hnx : ∀ y ∈ h :: l, y ≠ pv h → nx' y = nx y)
    (hpv : ∀ y ∈ l, pv' y = pv y) : Ring nx' pv' h (l ++ [x]) := by
  refine ⟨seg_append.mpr ⟨?_, hxh, hhx⟩, ?_⟩
  · exact hr.seg.retarget hr.nodup hnx hpv hlast hxp
  · rw [← List.cons_append]
    refine List.nodup_append.mpr ⟨hr.nodup, List.nodup_singleton x, fun y hy z hz he => ?_⟩
    exact hx (List.mem_singleton.mp hz ▸ he ▸ hy)

end rings

end LinkedLists

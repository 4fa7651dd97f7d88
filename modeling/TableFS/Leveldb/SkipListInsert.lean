import TableFS.Leveldb.SkipListOrder

/-! Insertion into a skip list, one level at a time from the lowest: between any two of its writes the
list is in order, with or without the new key. -/
namespace TableFS.Leveldb.SkipList
open LinkedLists
variable {κ : Type} {cmp : κ → κ → Ordering} {s s' : SkipList κ} {L : Nat → List Nat} {keys : List κ} {pass : κ → Bool}
  {prev : Nat → Option Nat} {key : κ} {x height i : Nat}

/-- A node has a pointer at a level. -/
def Tall (s : SkipList κ) (x n : Nat) : Prop := ∃ node, s.nodes[x]? = some node ∧ n < node.next_.length

private theorem tall_of_next {n : Nat} (h : s.next x n ≠ none) : s.Tall x n := by
  unfold next at h
  cases hx : s.nodes[x]? with
  | none => simp [hx] at h
  | some node =>
    refine ⟨node, hx, ?_⟩
    by_contra hn
    simp [hx, List.getElem?_eq_none (Nat.le_of_not_lt hn)] at h

/-- One pointer is changed, and nothing else. -/
structure SetAt (s s' : SkipList κ) (x n : Nat) (y : Option Nat) : Prop where
  key : s'.key = s.key
  max_height_ : s'.max_height_ = s.max_height_
  rnd_ : s'.rnd_ = s.rnd_
  next : ∀ z j, s'.next z j = if z = x ∧ j = n then some y else s.next z j
  tall : ∀ z j, s'.Tall z j ↔ s.Tall z j

theorem setNext_spec {n : Nat} (h : s.Tall x n) (y : Option Nat) :
    ∃ s', s.setNext x n y = some s' ∧ SetAt s s' x n y := by
  obtain ⟨node, hx, hn⟩ := h
  have hlt : x < s.nodes.length := (List.getElem?_eq_some_iff.mp hx).1
  have hget (z : Nat) : (s.nodes.set x { node with next_ := node.next_.set n (some y) })[z]? =
      if z = x then some { node with next_ := node.next_.set n (some y) } else s.nodes[z]? := by
    rw [List.getElem?_set]
    by_cases hz : x = z
    · rw [if_pos hz, if_pos hlt, if_pos hz.symm]
    · rw [if_neg hz, if_neg (Ne.symm hz)]
  refine ⟨{ s with nodes := s.nodes.set x { node with next_ := node.next_.set n (some y) } }, by simp [setNext, hx, hn],
    ?_, rfl, rfl, fun z j => ?_, fun z j => ?_⟩
  · funext z
    rw [key, hget]
    by_cases hz : z = x
    · simp [key, hz, hx]
    · simp [key, hz]
  · rw [next, hget]
    by_cases hz : z = x
    · by_cases hj : j = n
      · simp [hz, hj, hn]
      · simp [next, hz, hj, hx, Ne.symm hj]
    · simp [next, hz]
  · rw [Tall, hget]
    by_cases hz : z = x
    · simp [Tall, hz, hx]
    · simp [Tall, hz]

/-- What is not changed on the levels keeps them as they are. The list may become higher. -/
theorem Ok.frame (h : Ok cmp s L keys) (hkey : ∀ y ∈ head_ :: L 0, s'.key y = s.key y)
    (hnext : ∀ i < kMaxHeight, ∀ y ∈ head_ :: L i, s'.next y i = s.next y i) (hmax : s.max_height_ ≤ s'.max_height_)
    (hle : s'.max_height_ ≤ kMaxHeight) : Ok cmp s' L keys where
  linked i hi := by
    have hptr (y : Nat) (hy : y ∈ head_ :: L i) : s'.ptr i y = s.ptr i y := congrArg Option.join (hnext i hi y hy)
    exact (h.linked i hi).congr (hptr head_ List.mem_cons_self) fun y hy => hptr y (List.mem_cons_of_mem _ hy)
  isSet i hi y hy := by
    rw [hnext i hi y hy]
    exact h.isSet i hi y hy
  sublist := h.sublist
  keyed := by
    rw [← h.keyed]
    exact List.map_congr_left fun y hy => hkey y (List.mem_cons_of_mem _ hy)
  sorted := h.sorted
  headless := (hkey head_ List.mem_cons_self).trans h.headless
  empty i hi hge := h.empty i hi (Nat.le_trans hmax hge)
  height := ⟨Nat.le_trans h.height.1 hmax, hle⟩

private theorem passed_congr {l : List Nat} (h : ∀ y ∈ l, s'.key y = s.key y) : s'.passed pass l = s.passed pass l :=
  List.filter_congr fun y hy => by rw [passes, passes, h y hy]

private theorem last_congr {l : List Nat} (h : ∀ y ∈ l, s'.key y = s.key y) : s'.last pass l = s.last pass l := by
  rw [last, last, passed_congr h]

private theorem last_mem_passed (s : SkipList κ) (pass : κ → Bool) (l : List Nat) :
    s.last pass l ∈ head_ :: s.passed pass l := by
  rcases after_mem id head_ (s.passed pass l) with h | ⟨y, hy, h⟩
  · rw [last, h]
    exact List.mem_cons_self
  · rw [last, h]
    exact List.mem_cons_of_mem _ hy

private theorem last_mem (s : SkipList κ) (pass : κ → Bool) (l : List Nat) : s.last pass l ∈ head_ :: l :=
  List.cons_subset_cons head_ (List.filter_subset_self l) (last_mem_passed s pass l)

/-- The keys with one more in its place. -/
def insertKey (cmp : κ → κ → Ordering) (key : κ) (keys : List κ) : List κ :=
  keys.filter (before cmp key) ++ key :: keys.filter fun k => !before cmp key k

/-- A node that has been linked at the levels below one. -/
structure Linking (cmp : κ → κ → Ordering) (s : SkipList κ) (L : Nat → List Nat) (keys : List κ) (x : Nat) (key : κ)
    (height : Nat) (prev : Nat → Option Nat) (i : Nat) : Prop where
  keyed : s.key x = some key
  tall : ∀ j < height, s.Tall x j
  low : height ≤ s.max_height_
  below : ∀ j < i, x ∈ L j
  above : ∀ j < kMaxHeight, i ≤ j → x ∉ L j
  prevs : ∀ j < height, i ≤ j → prev j = some (s.last (before cmp key) (L j))
  fresh : i = 0 → ∀ k ∈ keys, cmp k key ≠ .eq

namespace Linking

private theorem lt_max (h : Ok cmp s L keys) (hl : Linking cmp s L keys x key height prev i) (hi : i < height) :
    i < kMaxHeight :=
  Nat.lt_of_lt_of_le (Nat.lt_of_lt_of_le hi hl.low) h.height.2

/-- The node is not on the levels that it has not been linked at. -/
theorem notMem (h : Ok cmp s L keys) (hl : Linking cmp s L keys x key height prev i) {j : Nat} (hj : j < kMaxHeight)
    (hij : i ≤ j) :
    x ∉ head_ :: L j := by
  rintro (_ | ⟨_, hmem⟩)
  · have hkey := hl.keyed
    rw [h.headless] at hkey
    cases hkey
  · exact hl.above j hj hij hmem

theorem set (hl : Linking cmp s L keys x key height prev i) {z n : Nat} {y : Option Nat} (hset : SetAt s s' z n y) :
    Linking cmp s' L keys x key height prev i where
  keyed := by rw [hset.key, hl.keyed]
  tall j hj := (hset.tall x j).mpr (hl.tall j hj)
  low := hset.max_height_ ▸ hl.low
  below := hl.below
  above := hl.above
  prevs j hj hij := by rw [hl.prevs j hj hij, last_congr fun y _ => congrFun hset.key y]
  fresh := hl.fresh

/-- The first half of a round is not seen by readers. -/
theorem prepare (h : Ok cmp s L keys) (hl : Linking cmp s L keys x key height prev i) (hi : i < height) :
    ∃ s', s.prepare x prev i = some s' ∧ s'.key = s.key ∧ Ok cmp s' L keys ∧ Linking cmp s' L keys x key height prev i ∧
      s'.next x i = s'.next (s'.last (before cmp key) (L i)) i := by
  have hmax := hl.lt_max h hi
  have hp := last_mem s (before cmp key) (L i)
  have hx := hl.notMem h hmax (Nat.le_refl i)
  obtain ⟨next, hnext⟩ := Option.ne_none_iff_exists'.mp (h.isSet i hmax _ hp)
  obtain ⟨s', hs', hset⟩ := setNext_spec (hl.tall i hi) next
  have hsame (j : Nat) (hj : j < kMaxHeight) (y : Nat) (hy : y ∈ head_ :: L j) : s'.next y j = s.next y j := by
    rw [hset.next, if_neg]
    rintro ⟨rfl, rfl⟩
    exact hx hy
  refine ⟨s', by simp [SkipList.prepare, hl.prevs i hi (Nat.le_refl i), hnext, hs'], hset.key, ?_, hl.set hset, ?_⟩
  · exact h.frame (fun y _ => congrFun hset.key y) hsame (Nat.le_of_eq hset.max_height_.symm)
      (hset.max_height_ ▸ h.height.2)
  · rw [last_congr fun y _ => congrFun hset.key y, hsame i hmax _ hp, hset.next, if_pos ⟨rfl, rfl⟩, hnext]

/-- The levels with the node at one more. -/
def place (s : SkipList κ) (pass : κ → Bool) (x : Nat) (L : Nat → List Nat) (i : Nat) : Nat → List Nat :=
  Function.update L i (s.passed pass (L i) ++ x :: s.ahead pass (L i))

section
variable [Std.TransCmp cmp]

private theorem sublist_place (h : Ok cmp s L keys) (hl : Linking cmp s L keys x key height prev (i + 1))
    (hi : i + 1 < kMaxHeight) :
    (s.passed (before cmp key) (L (i + 1)) ++ x :: s.ahead (before cmp key) (L (i + 1))).Sublist (L i) := by
  have hi' : i < kMaxHeight := Nat.lt_of_succ_lt hi
  obtain ⟨pre, post, hL⟩ := List.append_of_mem (hl.below i (Nat.lt_succ_self i))
  obtain ⟨hpassed, hahead⟩ := h.divide_at hi' hL hl.keyed
  have hsub := h.sublist i hi
  have hleft : (s.passed (before cmp key) (L (i + 1))).Sublist pre := hpassed ▸ hsub.filter _
  have hright : (s.ahead (before cmp key) (L (i + 1))).Sublist (x :: post) := hahead ▸ hsub.filter _
  have hright' : (s.ahead (before cmp key) (L (i + 1))).Sublist post := by
    rcases List.sublist_cons_iff.mp hright with hp | ⟨r, hr, -⟩
    · exact hp
    · have hmem : x ∈ s.ahead (before cmp key) (L (i + 1)) := hr ▸ List.mem_cons_self
      exact absurd (List.mem_filter.mp hmem).1 (hl.above (i + 1) hi (Nat.le_refl _))
  rw [hL]
  exact hleft.append (hright'.cons_cons x)

omit [Std.TransCmp cmp] in
/-- The keys of the nodes that a search passes. -/
theorem keys_passed (h : Ok cmp s L keys) (pass : κ → Bool) :
    (s.passed pass (L 0)).map s.key = (keys.filter pass).map some ∧
      (s.ahead pass (L 0)).map s.key = (keys.filter fun k => !pass k).map some := by
  have hfilter (q : Option κ → Bool) : ((L 0).filter (q ∘ s.key)).map s.key = (keys.filter (q ∘ some)).map some := by
    rw [← List.filter_map, ← List.filter_map, h.keyed]
  exact ⟨hfilter (Option.any pass), hfilter fun k => !Option.any pass k⟩

private theorem sorted_insertKey (h : keys.Pairwise fun a b => cmp a b = .lt) (hfresh : ∀ k ∈ keys, cmp k key ≠ .eq) :
    (insertKey cmp key keys).Pairwise fun a b => cmp a b = .lt := by
  have hlow : ∀ k ∈ keys.filter (before cmp key), cmp k key = .lt := fun k hk => beq_iff_eq.mp (List.mem_filter.mp hk).2
  have hhigh : ∀ k ∈ keys.filter (fun k => !before cmp key k), cmp key k = .lt := by
    intro k hk
    obtain ⟨hmem, hnot⟩ := List.mem_filter.mp hk
    have hgt : cmp k key = .gt := by
      cases hc : cmp k key with
      | lt => simp [before, hc] at hnot
      | eq => exact absurd hc (hfresh k hmem)
      | gt => rfl
    exact Std.OrientedCmp.lt_of_gt hgt
  refine List.pairwise_append.mpr ⟨h.filter _, List.pairwise_cons.mpr ⟨hhigh, h.filter _⟩, ?_⟩
  rintro a ha b (_ | ⟨_, hb⟩)
  · exact hlow a ha
  · exact Std.TransCmp.lt_trans (hlow a ha) (hhigh b hb)

private theorem linked_place (h : Ok cmp s L keys) (hl : Linking cmp s L keys x key height prev i) (hi : i < kMaxHeight)
    (hready : s.next x i = s.next (s.last (before cmp key) (L i)) i)
    (hset : SetAt s s' (s.last (before cmp key) (L i)) i (some x)) :
    Linked id (s'.ptr i) head_ (s.passed (before cmp key) (L i) ++ x :: s.ahead (before cmp key) (L i)) := by
  have hx := hl.notMem h hi (Nat.le_refl i)
  have hlinked := h.linked i hi
  have hnodup := h.nodup hi
  have hsplit := h.split (downward_before key) hi
  have hptr (y : Nat) (hy : y ≠ s.last (before cmp key) (L i)) : s'.ptr i y = s.ptr i y := by
    rw [ptr, ptr, hset.next, if_neg fun hc => hy hc.1]
  rw [hsplit] at hlinked
  have hfront : (head_ :: (s.passed (before cmp key) (L i)).map id).Nodup := by
    rw [List.map_id]
    refine List.nodup_cons.mpr ⟨?_, hnodup.filter _⟩
    exact head_notMem_of_keyed h (List.filter_sublist.trans (h.sublist_zero hi))
  refine hlinked.splice hfront (fun y _ hy => hptr y hy) ⟨?_, ?_⟩
  · exact (congrArg Option.join (hset.next _ i)).trans (by rw [if_pos ⟨rfl, rfl⟩]; rfl)
  · have hne : x ≠ s.last (before cmp key) (L i) := fun he => hx (he ▸ last_mem s (before cmp key) (L i))
    refine (linked_append.mp hlinked).2.congr ?_ fun y hy => hptr y ?_
    · rw [id, hptr x hne]
      exact congrArg Option.join hready
    · rintro rfl
      obtain ⟨hmem, hnot⟩ := List.mem_filter.mp hy
      rcases List.mem_cons.mp (last_mem_passed s (before cmp key) (L i)) with hhead | hpassed
      · exact head_notMem_of_keyed h (h.sublist_zero hi) (hhead ▸ hmem)
      · simp [(List.mem_filter.mp hpassed).2] at hnot

section
variable {i : Nat}

omit [Std.TransCmp cmp] in
private theorem place_self (s : SkipList κ) (pass : κ → Bool) (x : Nat) (L : Nat → List Nat) (i : Nat) :
    place s pass x L i i = s.passed pass (L i) ++ x :: s.ahead pass (L i) := Function.update_self _ _ _

omit [Std.TransCmp cmp] in
theorem place_ne {j : Nat} (hj : j ≠ i) : place s pass x L i j = L j := Function.update_of_ne hj _ _

omit [Std.TransCmp cmp] in
theorem sublist_place_self (h : Ok cmp s L keys) (hd : Downward cmp pass) (hi : i < kMaxHeight) :
    (L i).Sublist (place s pass x L i i) := by
  rw [place_self]
  conv_lhs => rw [h.split hd hi]
  exact (List.Sublist.refl _).append (List.sublist_cons_self x _)

end

/-- The second half of a round links the node at its level. -/
theorem publish (h : Ok cmp s L keys) (hl : Linking cmp s L keys x key height prev i) (hi : i < height)
    (hready : s.next x i = s.next (s.last (before cmp key) (L i)) i) :
    ∃ s', s.publish x prev i = some s' ∧ s'.key = s.key ∧
      Ok cmp s' (place s (before cmp key) x L i) (if i = 0 then insertKey cmp key keys else keys) ∧
      Linking cmp s' (place s (before cmp key) x L i)
        (if i = 0 then insertKey cmp key keys else keys) x key height prev (i + 1) := by
  have hmax := hl.lt_max h hi
  have hp := last_mem s (before cmp key) (L i)
  obtain ⟨s', hs', hset⟩ := setNext_spec (tall_of_next (h.isSet i hmax _ hp)) (some x)
  refine ⟨s', by simp [SkipList.publish, hl.prevs i hi (Nat.le_refl i), hs'], hset.key, ?_, ?_⟩
  · constructor
    case linked =>
      intro j hj
      by_cases hji : j = i
      · subst hji
        rw [place_self]
        exact hl.linked_place h hmax hready hset
      · have hptr (y : Nat) : s'.ptr j y = s.ptr j y := by rw [ptr, ptr, hset.next, if_neg fun hc => hji hc.2]
        rw [place_ne hji]
        exact (h.linked j hj).congr (hptr head_) fun y _ => hptr y
    case isSet =>
      intro j hj y hy
      rw [hset.next]
      split
      · exact Option.some_ne_none _
      · by_cases hji : j = i
        · subst hji
          rw [place_self] at hy
          by_cases hyx : y = x
          · rw [hyx, hready]
            exact h.isSet j hj _ hp
          · refine h.isSet j hj y ?_
            rw [h.split (downward_before key) hj]
            simpa [hyx] using hy
        · rw [place_ne hji] at hy
          exact h.isSet j hj y hy
    case sublist =>
      intro j hj
      by_cases hji : j + 1 = i
      · subst hji
        rw [place_self, place_ne (Nat.ne_of_lt (Nat.lt_succ_self j))]
        exact hl.sublist_place h hj
      · rw [place_ne hji]
        by_cases hji : j = i
        · subst hji
          exact (h.sublist j hj).trans (sublist_place_self h (downward_before key) hmax)
        · rw [place_ne hji]
          exact h.sublist j hj
    case keyed =>
      by_cases hzero : i = 0
      · subst hzero
        obtain ⟨hpassed, hahead⟩ := keys_passed h (before cmp key)
        rw [place_self, if_pos rfl, hset.key, List.map_append, List.map_cons, hpassed, hahead, hl.keyed, insertKey,
          List.map_append, List.map_cons]
      · rw [place_ne (Ne.symm hzero), if_neg hzero, hset.key, h.keyed]
    case sorted =>
      split
      · rename_i hzero
        exact sorted_insertKey h.sorted (hl.fresh hzero)
      · exact h.sorted
    case headless => rw [hset.key, h.headless]
    case empty =>
      intro j hj hge
      rw [hset.max_height_] at hge
      rw [place_ne (Nat.ne_of_gt (Nat.lt_of_lt_of_le hi (Nat.le_trans hl.low hge))), h.empty j hj hge]
    case height => exact hset.max_height_ ▸ h.height
  · constructor
    case keyed => rw [hset.key, hl.keyed]
    case tall => exact fun j hj => (hset.tall x j).mpr (hl.tall j hj)
    case low => exact hset.max_height_ ▸ hl.low
    case below =>
      intro j hj
      rcases Nat.lt_or_eq_of_le (Nat.lt_succ_iff.mp hj) with hlt | rfl
      · rw [place_ne (Nat.ne_of_lt hlt)]
        exact hl.below j hlt
      · rw [place_self]
        exact List.mem_append_right _ List.mem_cons_self
    case above =>
      intro j hj hij
      rw [place_ne (Nat.ne_of_gt hij)]
      exact hl.above j hj (Nat.le_of_succ_le hij)
    case prevs =>
      intro j hj hij
      rw [place_ne (Nat.ne_of_gt hij), hl.prevs j hj (Nat.le_of_succ_le hij), last_congr fun y _ => congrFun hset.key y]
    case fresh => exact fun hzero => absurd hzero (Nat.succ_ne_zero i)

end

end Linking

private theorem randomHeightLoop_bounds (n : Nat) (rnd : Random) (height : Nat) (hle : height ≤ kMaxHeight) :
    height ≤ (randomHeightLoop n rnd height).2 ∧ (randomHeightLoop n rnd height).2 ≤ kMaxHeight := by
  induction n generalizing rnd height with
  | zero => exact ⟨Nat.le_refl _, hle⟩
  | succ n ih =>
    simp only [randomHeightLoop]
    split
    · rename_i hlt
      split
      · obtain ⟨hlow, hhigh⟩ := ih rnd.next.1 (height + 1) hlt
        exact ⟨Nat.le_of_succ_le hlow, hhigh⟩
      · exact ⟨Nat.le_refl _, hle⟩
    · exact ⟨Nat.le_refl _, hle⟩

private theorem newNode_spec (s : SkipList κ) (key : κ) (height : Nat) :
    (s.newNode key height).1.key s.nodes.length = some key ∧
      (∀ j < height, (s.newNode key height).1.Tall s.nodes.length j) ∧
      ∀ y < s.nodes.length, (s.newNode key height).1.key y = s.key y ∧
        ∀ j, (s.newNode key height).1.next y j = s.next y j := by
  have hold : ∀ y < s.nodes.length, (s.newNode key height).1.nodes[y]? = s.nodes[y]? := fun y hy =>
    List.getElem?_append_left hy
  have hnew : (s.newNode key height).1.nodes[s.nodes.length]? = some ⟨some key, List.replicate height none⟩ :=
    List.getElem?_concat_length
  refine ⟨by simp [SkipList.key, hnew], fun j hj => ⟨_, hnew, by simpa using hj⟩, fun y hy => ⟨?_, fun j => ?_⟩⟩
  · rw [SkipList.key, hold y hy, SkipList.key]
  · rw [next, hold y hy, next]

section
variable [Std.TransCmp cmp]

omit [Std.TransCmp cmp] in
private theorem Ok.lt_length (h : Ok cmp s L keys) {i : Nat} (hi : i < kMaxHeight) {y : Nat} (hy : y ∈ head_ :: L i) :
    y < s.nodes.length := by
  obtain ⟨node, hnode, -⟩ := tall_of_next (h.isSet i hi y hy)
  exact (List.getElem?_eq_some_iff.mp hnode).1

omit [Std.TransCmp cmp] in
private theorem raise_spec (h : Ok cmp s L keys) (rnd : Random) (hhigh : height ≤ kMaxHeight)
    (hprev : ∀ i < s.max_height_, prev i = some (s.last (before cmp key) (L i))) :
    ∃ r prev', ({ s with rnd_ := rnd } : SkipList κ).raise height prev = (r, prev') ∧ r.nodes = s.nodes ∧
      s.max_height_ ≤ r.max_height_ ∧ height ≤ r.max_height_ ∧ r.max_height_ ≤ kMaxHeight ∧
      ∀ i < height, prev' i = some (s.last (before cmp key) (L i)) := by
  by_cases hlt : s.max_height_ < height
  · refine ⟨_, _, if_pos hlt, rfl, Nat.le_of_lt hlt, Nat.le_refl _, hhigh, fun i hi => ?_⟩
    by_cases hnew : s.max_height_ ≤ i
    · -- A level that was not there is empty.
      rw [h.empty i (Nat.lt_of_lt_of_le hi hhigh) hnew]
      exact if_pos ⟨hnew, hi⟩
    · exact (if_neg fun hc => hnew hc.1).trans (hprev i (Nat.lt_of_not_le hnew))
  · have hle : height ≤ s.max_height_ := Nat.le_of_not_lt hlt
    exact ⟨_, _, if_neg hlt, rfl, Nat.le_refl _, hle, h.height.2, fun i hi => hprev i (Nat.lt_of_lt_of_le hi hle)⟩

/-- Up to its loop Insert changes nothing that readers see but the height. -/
theorem startInsert_spec (h : Ok cmp s L keys) (hfresh : ∀ k ∈ keys, cmp k key ≠ .eq) :
    ∃ s' x height prev, s.startInsert cmp key = some (s', x, height, prev) ∧ 1 ≤ height ∧
      (∀ y ∈ head_ :: L 0, s'.key y = s.key y) ∧ Ok cmp s' L keys ∧ Linking cmp s' L keys x key height prev 0 := by
  obtain ⟨prev, hsearch, hprev⟩ := search_spec h (downward_before key)
  obtain ⟨hlow, hhigh⟩ := randomHeightLoop_bounds kMaxHeight s.rnd_ 1 (by decide)
  rw [← randomHeight] at hlow hhigh
  generalize hrandom : randomHeight s.rnd_ = drawn at hlow hhigh
  obtain ⟨rnd, height⟩ := drawn
  obtain ⟨r, prev', hraise, hn, hmono, hheight, hmax, hprevs⟩ := raise_spec h rnd hhigh hprev
  obtain ⟨hkey, htall, hold⟩ := newNode_spec r key height
  have hsame (i : Nat) (hi : i < kMaxHeight) (y : Nat) (hy : y ∈ head_ :: L i) :
      (r.newNode key height).1.key y = s.key y ∧ (r.newNode key height).1.next y i = s.next y i := by
    obtain ⟨hk, hnx⟩ := hold y (hn ▸ h.lt_length hi hy)
    exact ⟨hk.trans (by rw [SkipList.key, SkipList.key, hn]), (hnx i).trans (by rw [next, next, hn])⟩
  have hok : Ok cmp (r.newNode key height).1 L keys :=
    h.frame (fun y hy => (hsame 0 (by decide) y hy).1) (fun i hi y hy => (hsame i hi y hy).2) hmono hmax
  refine ⟨(r.newNode key height).1, r.nodes.length, height, prev', ?_, hlow, fun y hy =>
    (hsame 0 (by decide) y hy).1, hok, ?_⟩
  · simp [startInsert, findGreaterOrEqual, hsearch, hrandom, hraise, newNode]
  · refine ⟨hkey, htall, hheight, fun j hj => absurd hj (Nat.not_lt_zero j), fun j hj _ hmem => ?_,
      fun j hj _ => ?_, fun _ => hfresh⟩
    · exact Nat.lt_irrefl _ (hn ▸ h.lt_length hj (List.mem_cons_of_mem _ hmem))
    · rw [hprevs j hj, last_congr fun y hy => (hsame j (Nat.lt_of_lt_of_le hj hhigh) y (List.mem_cons_of_mem _ hy)).1]

private theorem linkLoop_spec (n : Nat) (h : Ok cmp s L keys) (hl : Linking cmp s L keys x key height prev i)
    (hn : i + n = height) :
    ∃ s' L', linkLoop x prev n i s = some s' ∧
      Ok cmp s' L' (if i = 0 ∧ 0 < n then insertKey cmp key keys else keys) := by
  induction n generalizing s L keys i with
  | zero => exact ⟨s, L, rfl, by rwa [if_neg fun hc => Nat.lt_irrefl 0 hc.2]⟩
  | succ n ih =>
    obtain ⟨s₁, hs₁, -, h₁, hl₁, hready⟩ := hl.prepare h (by omega)
    obtain ⟨s₂, hs₂, -, h₂, hl₂⟩ := hl₁.publish h₁ (by omega) hready
    obtain ⟨s', L', hs', h'⟩ := ih h₂ hl₂ (by omega)
    refine ⟨s', L', by simp [linkLoop, hs₁, hs₂, hs'], ?_⟩
    rw [if_neg fun hc => Nat.succ_ne_zero i hc.1] at h'
    simpa using h'

theorem insert_spec (h : Ok cmp s L keys) (hfresh : ∀ k ∈ keys, cmp k key ≠ .eq) :
    ∃ s' L', s.insert cmp key = some s' ∧ Ok cmp s' L' (insertKey cmp key keys) := by
  obtain ⟨s₁, x, height, prev, hs₁, hheight, -, h₁, hl⟩ := startInsert_spec h hfresh
  obtain ⟨s', L', hs', h'⟩ := linkLoop_spec height h₁ hl (Nat.zero_add _)
  rw [if_pos ⟨rfl, hheight⟩] at h'
  exact ⟨s', L', by simp [insert, hs₁, hs'], h'⟩

end

theorem ok_new (cmp : κ → κ → Ordering) : Ok cmp (new : SkipList κ) (fun _ => []) [] where
  linked i hi := by
    show (new.next head_ i).join = none
    simp [next, new, head_, hi]
  isSet i hi y hy := by
    obtain rfl := List.mem_singleton.mp hy
    simp [next, new, head_, hi]
  sublist _ _ := List.Sublist.refl _
  keyed := rfl
  sorted := List.Pairwise.nil
  headless := rfl
  empty _ _ _ := rfl
  height := ⟨Nat.le_refl 1, Nat.le_of_ble_eq_true rfl⟩

end TableFS.Leveldb.SkipList

import TableFS.Leveldb.SkipListShared

/-! What readers of a skip list see while a key is inserted: at their last read, the keys that are there. -/
namespace TableFS.Leveldb.SkipList
open LinkedLists
variable {κ : Type} {cmp : κ → κ → Ordering} {s s' : SkipList κ} {L L' : Nat → List Nat} {keys : List κ}
  {pass : κ → Bool}
  {op : Op κ} {p : Place} {pos : Option κ}

section answers

private theorem bind_of_map_eq {f : Nat → Option κ} {a : Option Nat} {b : Option κ} (h : a.map f = b.map some) :
    a.bind f = b := by
  cases a with
  | none => exact (Option.map_eq_none_iff.mp h.symm).symm
  | some n => cases b with
    | none => cases h
    | some k => exact Option.some.inj h

/-- The key where a search ends. -/
theorem Ok.key_ahead (h : Ok cmp s L keys) (pass : κ → Bool) :
    (s.ahead pass (L 0)).head?.bind s.key = (keys.filter fun k => !pass k).head? := by
  have hkeys := congrArg List.head? (Linking.keys_passed h pass).2
  rw [List.head?_map, List.head?_map] at hkeys
  exact bind_of_map_eq hkeys

/-- The node before it, if that is not the head. -/
theorem Ok.last_eq (h : Ok cmp s L keys) (pass : κ → Bool) :
    (if s.last pass (L 0) = head_ then none else some (s.last pass (L 0))) = (s.passed pass (L 0)).getLast? := by
  rw [last]
  have hhead : head_ ∉ s.passed pass (L 0) := head_notMem_of_keyed h List.filter_sublist
  rcases List.eq_nil_or_concat (s.passed pass (L 0)) with hnil | ⟨l, y, hl⟩
  · rw [hnil]
    rfl
  · rw [hl, List.concat_eq_append, List.mem_append] at hhead
    rw [hl, List.concat_eq_append, after_append, List.getLast?_concat]
    have hy : y ≠ head_ := fun hy => hhead (.inr (hy ▸ List.mem_cons_self))
    exact if_neg hy

private theorem Ok.key_last (h : Ok cmp s L keys) (pass : κ → Bool) :
    (s.passed pass (L 0)).getLast?.bind s.key = (keys.filter pass).getLast? := by
  have hkeys := congrArg List.getLast? (Linking.keys_passed h pass).1
  rw [List.getLast?_map, List.getLast?_map] at hkeys
  exact bind_of_map_eq hkeys

private theorem moveTo_spec (h : Ok cmp s L keys) {n : Option Nat} (hn : ∀ m ∈ n, m ∈ L 0) :
    s.moveTo n = some (n, .moved (n.bind s.key)) := by
  cases n with
  | none => rfl
  | some m =>
    obtain ⟨k, -, hk⟩ := h.key_of_mem (hn m rfl)
    simp [moveTo, hk]

variable [Std.TransCmp cmp]

/-- A key is there if it is the first that does not come before it. -/
theorem any_eq (hs : keys.Pairwise fun a b => cmp a b = .lt) (key : κ) :
    (keys.any fun k => cmp key k == .eq) = (keys.filter fun k => !before cmp key k).head?.any fun k => cmp key k == .eq := by
  induction keys with
  | nil => rfl
  | cons k keys ih =>
    obtain ⟨hk, hs⟩ := List.pairwise_cons.mp hs
    by_cases hb : before cmp key k
    · have hgt : cmp key k = .gt := Std.OrientedCmp.gt_of_lt (beq_iff_eq.mp hb)
      rw [List.any_cons, List.filter_cons_of_neg (by simp [hb]), hgt, ih hs]
      rfl
    · have hrest : (keys.any fun k => cmp key k == .eq) = false := by
        rw [List.any_eq_false]
        intro k' hk' heq
        have hlt : cmp k key = .lt := Std.TransCmp.lt_of_lt_of_eq (hk k' hk') (Std.OrientedCmp.eq_symm (beq_iff_eq.mp heq))
        exact hb (beq_iff_eq.mpr hlt)
      rw [List.any_cons, List.filter_cons_of_pos (by simp [hb]), hrest, Bool.or_false]
      rfl

private theorem Ok.next_key (h : Ok cmp s L keys) {n : Nat} {k : κ} (hn : n ∈ L 0) (hk : s.key n = some k) :
    ∃ m, s.next n 0 = some m ∧ (∀ x ∈ m, x ∈ L 0) ∧ m.bind s.key = keys.find? fun k' => cmp k k' == .lt := by
  obtain ⟨pre, post, hl⟩ := List.append_of_mem hn
  refine ⟨post.head?, h.next_of_split (by decide) hl, fun x hx => ?_, ?_⟩
  · rw [hl]
    exact List.mem_append_right _ (List.mem_cons_of_mem _ (List.mem_of_mem_head? hx))
  · obtain ⟨before, k₀, after, rfl, hpre, hk₀, hpost⟩ : ∃ a k₀ b, keys = a ++ k₀ :: b ∧ pre.map s.key = a.map some ∧
        s.key n = some k₀ ∧ post.map s.key = b.map some := by
      have hkeyed := h.keyed
      rw [hl, List.map_append, List.map_cons] at hkeyed
      obtain ⟨a, b, rfl, ha, hb⟩ := List.map_eq_append_iff.mp hkeyed.symm
      obtain ⟨k₀, b, rfl, hk₀, hb⟩ := List.map_eq_cons_iff.mp hb
      exact ⟨a, k₀, b, rfl, ha.symm, hk₀.symm, hb.symm⟩
    obtain rfl := Option.some.inj (hk.symm.trans hk₀)
    obtain ⟨-, hsorted, hlow⟩ := List.pairwise_append.mp h.sorted
    have hskip : before.find? (fun k' => cmp k k' == .lt) = none := by
      rw [List.find?_eq_none]
      intro a ha
      rw [Std.OrientedCmp.gt_of_lt (hlow a ha k List.mem_cons_self)]
      exact Bool.false_ne_true
    have hhead : post.head?.bind s.key = after.head? := by
      have hmap := congrArg List.head? hpost
      rw [List.head?_map, List.head?_map] at hmap
      exact bind_of_map_eq hmap
    rw [hhead, List.find?_append, hskip, Option.none_or,
      List.find?_cons_of_neg (by simp [(Std.ReflCmp.compare_self : cmp k k = .eq)])]
    cases after with
    | nil => rfl
    | cons k' after =>
      have hlt : cmp k k' = .lt := (List.pairwise_cons.mp hsorted).1 k' List.mem_cons_self
      rw [List.find?_cons_of_pos (by simp [hlt])]
      rfl

end answers

/-- Where a call may be. -/
def Op.Here (cmp : κ → κ → Ordering) (s : SkipList κ) (L : Nat → List Nat) (node_ : Option Nat) : Op κ → Place → Prop
  | .next, p => p.level = 0 ∧ node_ = some p.x
  | op, p => p.level < kMaxHeight ∧ ∃ pass, op.pass cmp s node_ = some pass ∧ Downward cmp pass ∧ At s L pass p

/-- A call is somewhere, and reads no more pointers than there are nodes and levels. -/
def Reader.Going (cmp : κ → κ → Ordering) (s : SkipList κ) (L : Nat → List Nat) (rd : Reader κ) : Prop :=
  match rd.call with
  | none => rd.reads ≤ (L 0).length + kMaxHeight
  | some (op, p) => op.Here cmp s L rd.node_ p ∧ rd.reads + p.level + rank cmp s (L 0) p.x < (L 0).length + kMaxHeight

structure Reader.Ok (cmp : κ → κ → Ordering) (s : SkipList κ) (L : Nat → List Nat) (pos : Option κ) (rd : Reader κ) :
    Prop where
  node : ∀ n ∈ rd.node_, n ∈ L 0
  pos : rd.node_.bind s.key = pos
  going : rd.Going cmp s L

/-- The list gets new nodes, and keeps the ones that it has. -/
structure Grows (s s' : SkipList κ) (L L' : Nat → List Nat) : Prop where
  key : ∀ y ∈ head_ :: L 0, s'.key y = s.key y
  levels : ∀ i < kMaxHeight, (L i).Sublist (L' i)

section grows

private theorem Op.pass_of_here {node_ : Option Nat} (hop : op ≠ .next) :
    op.Here cmp s L node_ p ↔ p.level < kMaxHeight ∧ ∃ pass, op.pass cmp s node_ = some pass ∧ Downward cmp pass ∧
      At s L pass p := by
  cases op <;> first | exact Iff.rfl | exact absurd rfl hop

theorem At.mem (h : Ok cmp s L keys) (hi : p.level < kMaxHeight) (hp : At s L pass p) : p.x ∈ head_ :: L 0 := by
  rcases hp with hx | ⟨hx, -⟩
  · rw [hx]
    exact List.mem_cons_self
  · exact List.mem_cons_of_mem _ ((h.sublist_zero hi).subset hx)

private theorem At.grow (h : Ok cmp s L keys) (hg : Grows s s' L L') (hi : p.level < kMaxHeight)
    (hp : At s L pass p) : At s' L' pass p := by
  have hkey := hg.key p.x (hp.mem h hi)
  refine hp.imp_right fun hx => ⟨(hg.levels p.level hi).subset hx.1, ?_⟩
  rw [passes, hkey]
  exact hx.2

private theorem rank_grow (hg : Grows s s' L L') {x : Nat} (hx : x ∈ head_ :: L 0) :
    rank cmp s' (L' 0) x + (L 0).length ≤ rank cmp s (L 0) x + (L' 0).length := by
  have hsame : rank cmp s (L 0) x = rank cmp s' (L 0) x := by
    refine congrArg List.length (List.filter_congr fun y hy => ?_)
    rw [beyond, beyond, hg.key x hx, hg.key y (List.mem_cons_of_mem _ hy)]
  have hold := List.length_eq_length_filter_add (l := L 0) (beyond cmp s' x)
  have hnew := List.length_eq_length_filter_add (l := L' 0) (beyond cmp s' x)
  have hrest := ((hg.levels 0 (by decide)).filter fun y => !beyond cmp s' x y).length_le
  rw [hsame, rank, rank]
  omega

theorem Op.Here.mem {node_ : Option Nat} (h : SkipList.Ok cmp s L keys) (hnode : ∀ n ∈ node_, n ∈ L 0)
    (hh : op.Here cmp s L node_ p) : p.x ∈ head_ :: L 0 := by
  by_cases hop : op = .next
  · subst hop
    exact List.mem_cons_of_mem _ (hnode p.x hh.2)
  · obtain ⟨hi, pass, -, -, hp⟩ := (Op.pass_of_here hop).mp hh
    exact hp.mem h hi

private theorem Op.pass_congr {node_ : Option Nat} (hnode : ∀ n ∈ node_, s'.key n = s.key n) (op : Op κ) :
    op.pass cmp s' node_ = op.pass cmp s node_ := by
  cases op with
  | prev =>
    cases node_ with
    | none => rfl
    | some n => simp [Op.pass, hnode n rfl]
  | _ => rfl

private theorem Reader.Ok.grow {rd : Reader κ} (h : SkipList.Ok cmp s L keys) (hg : Grows s s' L L')
    (hr : rd.Ok cmp s L pos) :
    rd.Ok cmp s' L' pos := by
  have hnode (n : Nat) (hn : n ∈ rd.node_) : s'.key n = s.key n := hg.key n (List.mem_cons_of_mem _ (hr.node n hn))
  refine ⟨fun n hn => (hg.levels 0 (by decide)).subset (hr.node n hn), ?_, ?_⟩
  · rw [← hr.pos]
    cases hn : rd.node_ with
    | none => rfl
    | some n => exact hnode n hn
  · have hlength := (hg.levels 0 (by decide)).length_le
    have hgoing := hr.going
    unfold Reader.Going at hgoing ⊢
    cases hc : rd.call with
    | none =>
      rw [hc] at hgoing
      dsimp only at hgoing ⊢
      omega
    | some c =>
      obtain ⟨op, p⟩ := c
      rw [hc] at hgoing
      obtain ⟨hh, hreads⟩ := hgoing
      refine ⟨?_, ?_⟩
      · by_cases hop : op = .next
        · subst hop
          exact hh
        · obtain ⟨hi, pass, hpass, hd, hp⟩ := (Op.pass_of_here hop).mp hh
          exact (Op.pass_of_here hop).mpr ⟨hi, pass, (Op.pass_congr hnode op).trans hpass, hd, hp.grow h hg hi⟩
      · have hrank : rank cmp s' (L' 0) p.x + (L 0).length ≤ rank cmp s (L 0) p.x + (L' 0).length :=
          rank_grow hg (hh.mem h hr.node)
        omega

end grows

/-- Where an answer leaves the iterator. -/
def Answer.moves (pos : Option κ) : Answer κ → Option κ
  | .found _ => pos
  | .moved key => key

section reads
variable [Std.TransCmp cmp] {t : Sorted κ} {r : Nat} {node_ : Option Nat}

private theorem finish_spec (h : Ok cmp s L t.keys) (hop : op ≠ .next) (hpass : op.pass cmp s node_ = some pass)
    (hnode : ∀ n ∈ node_, n ∈ L 0) (hpos : node_.bind s.key = t.pos r) :
    ∃ node' a, op.finish cmp s node_ (s.last pass (L 0)) (s.ahead pass (L 0)).head? = some (node', a) ∧
      a = t.answer cmp r op ∧
      (∀ n ∈ node', n ∈ L 0) ∧ node'.bind s.key = a.moves (t.pos r) := by
  have hahead : ∀ n ∈ (s.ahead pass (L 0)).head?, n ∈ L 0 := fun n hn =>
    (List.mem_filter.mp (List.mem_of_mem_head? hn)).1
  have hlast : ∀ n ∈ (s.passed pass (L 0)).getLast?, n ∈ L 0 := fun n hn =>
    (List.mem_filter.mp (List.mem_of_mem_getLast? hn)).1
  have hkey := h.key_ahead pass
  have hprev := h.key_last pass
  cases op with
  | contains key =>
    obtain rfl := Option.some.inj hpass
    have hany := any_eq h.sorted key
    rw [← hkey] at hany
    refine ⟨node_, _, ?_, congrArg Answer.found hany.symm, hnode, hpos⟩
    cases hn : (s.ahead (before cmp key) (L 0)).head? with
    | none => rfl
    | some n =>
      obtain ⟨k, -, hk⟩ := h.key_of_mem (hahead n hn)
      simp [Op.finish, hk]
  | seek target =>
    obtain rfl := Option.some.inj hpass
    refine ⟨_, _, moveTo_spec h hahead, ?_, hahead, rfl⟩
    rw [hkey, List.head?_filter]
    rfl
  | seekToFirst =>
    obtain rfl := Option.some.inj hpass
    have hall : (t.keys.filter fun k => !(fun _ => false) k) = t.keys := List.filter_eq_self.mpr fun _ _ => rfl
    refine ⟨_, _, moveTo_spec h hahead, ?_, hahead, rfl⟩
    rw [hkey, hall]
    rfl
  | seekToLast =>
    obtain rfl := Option.some.inj hpass
    rw [Op.finish, h.last_eq]
    refine ⟨_, _, moveTo_spec h hlast, ?_, hlast, rfl⟩
    rw [hprev, List.filter_eq_self.mpr fun _ _ => rfl]
    rfl
  | next => exact absurd rfl hop
  | prev =>
    cases node_ with
    | none => cases hpass
    | some n =>
      obtain ⟨k, -, hk⟩ := h.key_of_mem (hnode n rfl)
      have hat : t.pos r = some k := hpos.symm.trans hk
      have hbefore : pass = before cmp k := by simpa [Op.pass, hk, eq_comm] using hpass
      subst hbefore
      rw [Op.finish, h.last_eq]
      refine ⟨_, _, moveTo_spec h hlast, ?_, hlast, rfl⟩
      rw [hprev, Sorted.answer, hat]
      rfl

private theorem finish_next (h : Ok cmp s L t.keys) (hp : Op.Here cmp s L node_ .next p) (hnode : ∀ n ∈ node_, n ∈ L 0)
    (hpos : node_.bind s.key = t.pos r) :
    ∃ m a, s.look (fun _ => false) p = some (.down m) ∧ Op.next.finish cmp s node_ p.x m = some (m, a) ∧
      a = t.answer cmp r .next ∧
      (∀ n ∈ m, n ∈ L 0) ∧ m.bind s.key = a.moves (t.pos r) := by
  obtain ⟨hlevel, rfl⟩ := hp
  obtain ⟨k, -, hk⟩ := h.key_of_mem (hnode p.x rfl)
  have hat : t.pos r = some k := hpos.symm.trans hk
  obtain ⟨m, hm, hmem, hfind⟩ := h.next_key (hnode p.x rfl) hk
  refine ⟨m, _, ?_, moveTo_spec h hmem, ?_, hmem, rfl⟩
  · rw [← hlevel] at hm
    cases m with
    | none => simp [look, hm]
    | some n =>
      obtain ⟨k', -, hk'⟩ := h.key_of_mem (hmem n rfl)
      simp [look, hm, hk']
  · rw [hfind, Sorted.answer, hat]
    rfl

theorem Reader.Ok.read {rd : Reader κ} (h : SkipList.Ok cmp s L t.keys) (hr : rd.Ok cmp s L (t.pos r))
    (hc : rd.call.isSome) :
    ∃ rd' done, rd.read cmp s = some (rd', done) ∧ match done with
      | none => rd'.Ok cmp s L (t.pos r)
      | some (op, a) => a = t.answer cmp r op ∧ rd'.Ok cmp s L (a.moves (t.pos r)) := by
  obtain ⟨⟨op, p⟩, hc⟩ := Option.isSome_iff_exists.mp hc
  have hgoing := hr.going
  rw [Reader.Going, hc] at hgoing
  obtain ⟨hh, hreads⟩ := hgoing
  by_cases hop : op = .next
  · subst hop
    obtain ⟨m, a, hlook, hfinish, ha, hmem, hpos⟩ := finish_next h hh hr.node hr.pos
    refine ⟨⟨m, none, rd.reads + 1⟩, some (.next, a), ?_, ha, hmem, hpos, ?_⟩
    · simp [Reader.read, hc, Op.pass, hlook, hh.1, hfinish]
    · rw [Reader.Going]
      dsimp only
      omega
  · obtain ⟨hi, pass, hpass, hd, hp⟩ := (Op.pass_of_here hop).mp hh
    rcases look_spec h hd hi hp with ⟨n, pre, post, hlook, hn, hl, hx⟩ | ⟨hlook, hx⟩
    · have hmem : n ∈ L p.level := hl ▸ List.mem_append_right _ List.mem_cons_self
      obtain ⟨b, -, hb⟩ := h.key_of_mem ((h.sublist_zero hi).subset hmem)
      have hrank := rank_lt ((h.sublist_zero hi).subset hmem) hb (h.beyond_after hi hl)
      rw [hx] at hrank
      refine ⟨⟨rd.node_, some (op, ⟨n, p.level⟩), rd.reads + 1⟩, none, by simp [Reader.read, hc, hpass, hlook],
        hr.node, hr.pos, ?_, ?_⟩
      · exact (Op.pass_of_here hop).mpr ⟨hi, pass, hpass, hd, .inr ⟨hmem, hn⟩⟩
      · dsimp only
        omega
    · obtain ⟨x, level⟩ := p
      dsimp only at hx hreads
      cases level with
      | zero =>
        obtain ⟨node', a, hfinish, ha, hmem, hpos⟩ := finish_spec h hop hpass hr.node hr.pos
        rw [← hx] at hfinish
        refine ⟨⟨node', none, rd.reads + 1⟩, some (op, a), by simp [Reader.read, hc, hpass, hlook, hfinish], ha,
          hmem, hpos, ?_⟩
        rw [Reader.Going]
        dsimp only
        omega
      | succ level =>
        refine ⟨⟨rd.node_, some (op, ⟨x, level⟩), rd.reads + 1⟩, none, by simp [Reader.read, hc, hpass, hlook],
          hr.node, hr.pos, ?_, ?_⟩
        · exact (Op.pass_of_here hop).mpr ⟨Nat.lt_of_succ_lt hi, pass, hpass, hd, hp.down h hi⟩
        · dsimp only
          omega

/-- A call starts at the head, or at the node of its iterator. -/
theorem Reader.Ok.start {rd : Reader κ} (h : SkipList.Ok cmp s L t.keys) (hr : rd.Ok cmp s L pos)
    (hvalid : op = .next ∨ op = .prev → rd.node_.isSome) :
    ∃ p, op.start s rd.node_ = some p ∧ ({ rd with call := some (op, p), reads := 0 } : Reader κ).Ok cmp s L pos := by
  have hheight := h.height
  have hrank (x : Nat) : rank cmp s (L 0) x ≤ (L 0).length := List.length_filter_le _ _
  have hgo (p : Place) (hh : op.Here cmp s L rd.node_ p) (hlevel : p.level < kMaxHeight) :
      ({ rd with call := some (op, p), reads := 0 } : Reader κ).Ok cmp s L pos := by
    refine ⟨hr.node, hr.pos, hh, ?_⟩
    have := hrank p.x
    dsimp only
    omega
  have htop : s.max_height_ - 1 < kMaxHeight := by omega
  have hsearch (hop : op ≠ .next) (hpass : ∃ pass, op.pass cmp s rd.node_ = some pass ∧ Downward cmp pass) (level : Nat)
      (hlevel : level < kMaxHeight) : ({ rd with call := some (op, ⟨head_, level⟩), reads := 0 } : Reader κ).Ok cmp s L pos := by
    obtain ⟨pass, hpass, hd⟩ := hpass
    exact hgo _ ((Op.pass_of_here hop).mpr ⟨hlevel, pass, hpass, hd, .inl rfl⟩) hlevel
  cases op with
  | contains key => exact ⟨_, rfl, hsearch (by simp) ⟨_, rfl, downward_before key⟩ _ htop⟩
  | seek target => exact ⟨_, rfl, hsearch (by simp) ⟨_, rfl, downward_before target⟩ _ htop⟩
  | seekToFirst => exact ⟨_, rfl, hsearch (by simp) ⟨_, rfl, fun _ _ _ hb => hb⟩ 0 (by decide)⟩
  | seekToLast => exact ⟨_, rfl, hsearch (by simp) ⟨_, rfl, downward_true⟩ _ htop⟩
  | next =>
    obtain ⟨n, hn⟩ := Option.isSome_iff_exists.mp (hvalid (.inl rfl))
    exact ⟨⟨n, 0⟩, by rw [hn]; rfl, hgo ⟨n, 0⟩ ⟨rfl, hn⟩ (show 0 < kMaxHeight by decide)⟩
  | prev =>
    obtain ⟨n, hn⟩ := Option.isSome_iff_exists.mp (hvalid (.inr rfl))
    obtain ⟨k, -, hk⟩ := h.key_of_mem (hr.node n hn)
    exact ⟨_, rfl, hsearch (by simp) ⟨_, by simp [Op.pass, hn, hk], downward_before k⟩ _ htop⟩

end reads

/-- Between any two steps every level is in order, the Insert is where it can go on, and so is every call. -/
structure Shared.Ok (cmp : κ → κ → Ordering) (s : Shared κ) (L : Nat → List Nat) (t : Sorted κ) : Prop where
  list : SkipList.Ok cmp s.list L t.keys
  writer : ∀ w ∈ s.writer, w.i < w.height ∧ Linking cmp s.list L t.keys w.x w.key w.height w.prev w.i ∧
    (w.ready → s.list.next w.x w.i = s.list.next (s.list.last (before cmp w.key) (L w.i)) w.i)
  readers : ∀ r, (s.readers r).Ok cmp s.list L (t.pos r)

section steps
variable [Std.TransCmp cmp] {sh : Shared κ} {t : Sorted κ}

omit [Std.TransCmp cmp] in
private theorem Grows.of_key (hkey : ∀ y ∈ head_ :: L 0, s'.key y = s.key y) :
    Grows s s' L L := ⟨hkey, fun _ _ => List.Sublist.refl _⟩

theorem Shared.Ok.insert (h : sh.Ok cmp L t) {key : κ}
    (hfresh : ∀ node ∈ sh.list.nodes, node.key.all fun k => cmp k key != .eq) :
    ∃ sh', sh.step cmp (.insert key) = some (sh', none) ∧ sh'.Ok cmp L t := by
  have hkeys : ∀ k ∈ t.keys, cmp k key ≠ .eq := by
    intro k hk
    have hmem : some k ∈ (L 0).map sh.list.key := by
      rw [h.list.keyed]
      exact List.mem_map_of_mem hk
    obtain ⟨x, -, hx⟩ := List.mem_map.mp hmem
    obtain ⟨node, hnode, hkey⟩ := Option.bind_eq_some_iff.mp hx
    have hall := hfresh node (List.mem_of_getElem? hnode)
    rw [hkey] at hall
    simpa using hall
  obtain ⟨list, x, height, prev, hstart, hheight, hkey, hok, hl⟩ := startInsert_spec h.list hkeys
  refine ⟨⟨list, some ⟨key, x, height, prev, 0, false⟩, sh.readers⟩, by simp [Shared.step, hstart], hok, ?_, ?_⟩
  · intro w hw
    obtain rfl := Option.some.inj hw
    exact ⟨hheight, hl, Bool.noConfusion⟩
  · exact fun r => (h.readers r).grow h.list (Grows.of_key hkey)

theorem Shared.Ok.write (h : sh.Ok cmp L t) (hw : sh.writer.isSome) :
    ∃ sh' e L', sh.step cmp .write = some (sh', e) ∧ t.Explains cmp e ∧ sh'.Ok cmp L' (t.apply cmp e) := by
  obtain ⟨w, hw⟩ := Option.isSome_iff_exists.mp hw
  obtain ⟨hi, hl, hready⟩ := h.writer w hw
  cases hr : w.ready with
  | false =>
    obtain ⟨list, hlist, hkey, hok, hl', hready'⟩ := hl.prepare h.list hi
    refine ⟨⟨list, some { w with ready := true }, sh.readers⟩, none, L, by simp [Shared.step, hw, hr, hlist],
      trivial, hok, ?_, ?_⟩
    · intro w' hw'
      obtain rfl := Option.some.inj hw'
      exact ⟨hi, hl', fun _ => hready'⟩
    · exact fun r => (h.readers r).grow h.list (Grows.of_key fun y _ => congrFun hkey y)
  | true =>
    obtain ⟨list, hlist, hkey, hok, hl'⟩ := hl.publish h.list hi (hready hr)
    refine ⟨⟨list, if w.i + 1 < w.height then some { w with i := w.i + 1, ready := false } else none, sh.readers⟩,
      if w.i = 0 then some (.inserted w.key) else none, Linking.place sh.list (before cmp w.key) w.x L w.i,
      by simp [Shared.step, hw, hr, hlist], ?_, ?_⟩
    · split <;> trivial
    have hkeys : (t.apply cmp (if w.i = 0 then some (.inserted w.key) else none)).keys =
        if w.i = 0 then insertKey cmp w.key t.keys else t.keys := by
      split <;> rfl
    have hpos : (t.apply cmp (if w.i = 0 then some (.inserted w.key) else none)).pos = t.pos := by
      split <;> rfl
    have hgrows : Grows sh.list list L (Linking.place sh.list (before cmp w.key) w.x L w.i) := by
      refine ⟨fun y _ => congrFun hkey y, fun i hlt => ?_⟩
      by_cases hiw : i = w.i
      · subst hiw
        exact Linking.sublist_place_self h.list (downward_before w.key) hlt
      · rw [Linking.place_ne hiw]
    refine ⟨hkeys ▸ hok, ?_, ?_⟩
    · intro w' hw'
      by_cases hmore : w.i + 1 < w.height
      · rw [if_pos hmore] at hw'
        obtain rfl := Option.some.inj hw'
        exact ⟨hmore, hkeys ▸ hl', Bool.noConfusion⟩
      · rw [if_neg hmore] at hw'
        cases hw'
    · intro r
      rw [hpos]
      exact (h.readers r).grow h.list hgrows

omit [Std.TransCmp cmp] in
private theorem Shared.Ok.readers_update (h : sh.Ok cmp L t) (r : Nat) {rd : Reader κ} {pos : Option κ}
    (hr : rd.Ok cmp sh.list L pos) :
    Shared.Ok cmp { sh with readers := Function.update sh.readers r rd } L
      { t with pos := Function.update t.pos r pos } := by
  refine ⟨h.list, h.writer, fun r' => ?_⟩
  by_cases he : r' = r
  · subst he
    simpa using hr
  · simpa [he] using h.readers r'

/-- No step fails that the list permits, and the answers are those of the keys that are there. -/
theorem Shared.Ok.step (h : sh.Ok cmp L t) {a : Action κ} (ha : sh.Permits cmp a) :
    ∃ sh' e L', sh.step cmp a = some (sh', e) ∧ t.Explains cmp e ∧ sh'.Ok cmp L' (t.apply cmp e) := by
  cases a with
  | insert key =>
    obtain ⟨sh', hstep, hok⟩ := h.insert ha.2
    exact ⟨sh', none, L, hstep, trivial, hok⟩
  | write => exact h.write ha
  | call r op =>
    have hvalid : op = .next ∨ op = .prev → (sh.readers r).node_.isSome := by
      rintro (rfl | rfl)
      · exact ha.2
      · exact ha.2
    obtain ⟨p, hp, hrd⟩ := (h.readers r).start h.list hvalid
    refine ⟨{ sh with readers := Function.update sh.readers r { sh.readers r with call := some (op, p), reads := 0 } }, none, L,
      by simp [Shared.step, hp], trivial, ?_⟩
    have hupdate := h.readers_update r hrd
    rwa [Function.update_eq_self] at hupdate
  | read r =>
    obtain ⟨rd, done, hread, hdone⟩ := (h.readers r).read h.list ha
    refine ⟨{ sh with readers := Function.update sh.readers r rd }, done.map fun c => .answered r c.1 c.2, L,
      by simp [Shared.step, hread], ?_⟩
    cases done with
    | none =>
      have hupdate := h.readers_update r hdone
      rw [Function.update_eq_self] at hupdate
      exact ⟨trivial, hupdate⟩
    | some c =>
      obtain ⟨op, a⟩ := c
      obtain ⟨hanswer, hrd⟩ := hdone
      refine ⟨hanswer, ?_⟩
      have hupdate := h.readers_update r hrd
      cases a with
      | found b => rwa [Answer.moves, Function.update_eq_self] at hupdate
      | moved key => exact hupdate

end steps

section runs
variable {sh sh' : Shared κ} {e : Option (Event κ)}

def Action.inserts : Action κ → List κ
  | .insert key => [key]
  | .write => []
  | .call _ _ => []
  | .read _ => []

def Event.inserts : Option (Event κ) → List κ
  | some (.inserted key) => [key]
  | _ => []

/-- The key of an Insert that readers do not see yet. -/
def Shared.pending (s : Shared κ) : List κ :=
  match s.writer with
  | some w => if w.i = 0 then [w.key] else []
  | none => []

private theorem inserts_step {a : Action κ} (ha : sh.Permits cmp a) (h : sh.step cmp a = some (sh', e)) :
    sh.pending ++ a.inserts = Event.inserts e ++ sh'.pending := by
  cases a with
  | insert key =>
    obtain ⟨⟨list, x, height, prev⟩, -, h⟩ := Option.bind_eq_some_iff.mp h
    obtain ⟨rfl, rfl⟩ := Prod.mk.inj (Option.some.inj h)
    rw [Shared.pending, Option.isNone_iff_eq_none.mp ha.1]
    rfl
  | write =>
    obtain ⟨w, hw, h⟩ := Option.bind_eq_some_iff.mp h
    rw [Shared.pending, hw]
    split at h
    · obtain ⟨list, -, h⟩ := Option.bind_eq_some_iff.mp h
      obtain ⟨rfl, rfl⟩ := Prod.mk.inj (Option.some.inj h)
      have hnone : Shared.pending { sh with
          list := list, writer := if w.i + 1 < w.height then some { w with i := w.i + 1, ready := false } else none } = [] := by
        rw [Shared.pending]
        split
        · rename_i w' hw'
          split at hw'
          · obtain rfl := Option.some.inj hw'
            rfl
          · cases hw'
        · rfl
      rw [hnone, List.append_nil, Action.inserts, List.append_nil]
      dsimp only
      split <;> rfl
    · obtain ⟨list, -, h⟩ := Option.bind_eq_some_iff.mp h
      obtain ⟨rfl, rfl⟩ := Prod.mk.inj (Option.some.inj h)
      rw [Action.inserts, List.append_nil]
      rfl
  | call r op =>
    obtain ⟨p, -, h⟩ := Option.bind_eq_some_iff.mp h
    obtain ⟨rfl, rfl⟩ := Prod.mk.inj (Option.some.inj h)
    rw [Action.inserts, List.append_nil]
    rfl
  | read r =>
    obtain ⟨⟨rd, done⟩, -, h⟩ := Option.bind_eq_some_iff.mp h
    obtain ⟨rfl, rfl⟩ := Prod.mk.inj (Option.some.inj h)
    rw [Action.inserts, List.append_nil]
    cases done <;> rfl

private theorem inserts_run {acts : List (Action κ)} {es : List (Option (Event κ))}
    (hp : Runs.Proper (Shared.step cmp) (Shared.Permits cmp) sh acts)
    (h : Runs.attempt (Shared.step cmp) sh acts = some (sh', es)) :
    sh.pending ++ acts.flatMap Action.inserts = es.flatMap Event.inserts ++ sh'.pending := by
  induction acts generalizing sh es with
  | nil =>
    obtain ⟨rfl, rfl⟩ := Prod.mk.inj (Option.some.inj h)
    exact List.append_nil _
  | cons a acts ih =>
    obtain ⟨ha, hrest⟩ := hp
    obtain ⟨⟨sh₁, e⟩, hstep, h⟩ := Option.bind_eq_some_iff.mp h
    obtain ⟨⟨sh₂, es⟩, hattempt, h⟩ := Option.bind_eq_some_iff.mp h
    obtain ⟨rfl, rfl⟩ := Prod.mk.inj (Option.some.inj h)
    rw [hstep] at hrest
    rw [List.flatMap_cons, List.flatMap_cons, ← List.append_assoc, inserts_step ha hstep, List.append_assoc,
      ih hrest hattempt, List.append_assoc]

private theorem ok_start (cmp : κ → κ → Ordering) : (Shared.start : Shared κ).Ok cmp (fun _ => []) Sorted.start where
  list := ok_new cmp
  writer _ hw := nomatch hw
  readers _ := ⟨fun _ hn => (nomatch hn), rfl, Nat.zero_le _⟩

/-- In any order of the steps of one writer and any readers none fails, and every answer is the one of the keys that
were inserted by then. A call reads no more pointers than there are nodes and levels. -/
theorem readers_see_inserted_keys [Std.TransCmp cmp] (acts : List (Action κ))
    (hp : Runs.Proper (Shared.step cmp) (Shared.Permits cmp) Shared.start acts) :
    ∃ sh es, Runs.attempt (Shared.step cmp) Shared.start acts = some (sh, es) ∧
      Runs.Follows (Sorted.apply cmp) (Sorted.Explains cmp) Sorted.start es ∧
      acts.flatMap Action.inserts = es.flatMap Event.inserts ++ sh.pending ∧
      (es.foldl (Sorted.apply cmp) Sorted.start).keys.Pairwise (fun a b => cmp a b = .lt) ∧
      ∀ r, (sh.readers r).reads ≤ sh.list.nodes.length + kMaxHeight := by
  obtain ⟨sh, es, hrun, hfollows, L, hok⟩ := Runs.attempt_follows (fun sh t => ∃ L, Shared.Ok cmp sh L t)
    (fun sh t a ⟨L, hok⟩ ha => by
      obtain ⟨sh', e, L', hstep, hexplains, hok'⟩ := hok.step ha
      exact ⟨sh', e, hstep, hexplains, L', hok'⟩)
    ⟨_, ok_start cmp⟩ hp
  refine ⟨sh, es, hrun, hfollows, inserts_run hp hrun, hok.list.sorted, fun r => ?_⟩
  have hgoing := (hok.readers r).going
  have hlength := hok.list.length_le
  rw [Reader.Going] at hgoing
  split at hgoing
  · omega
  · obtain ⟨-, hreads⟩ := hgoing
    omega

/-- Two searches for one key while it is inserted: one is over before, and one goes on at the lowest level after it. -/
def race : List (Action Nat) :=
  [.insert 5, .call 0 (.seek 3), .call 1 (.seek 3), .read 0, .read 1, .write, .read 1, .write, .read 0]

theorem readers_see_inserted_keys_race :
    Runs.Proper (Shared.step compare) (Shared.Permits compare) Shared.start race ∧
      ∃ sh es, Runs.attempt (Shared.step compare) Shared.start race = some (sh, es) ∧
        Runs.Follows (Sorted.apply compare) (Sorted.Explains compare) Sorted.start es ∧
        race.flatMap Action.inserts = es.flatMap Event.inserts ++ sh.pending ∧
        (es.foldl (Sorted.apply compare) Sorted.start).keys.Pairwise (fun a b => compare a b = .lt) ∧
        ∀ r, (sh.readers r).reads ≤ sh.list.nodes.length + kMaxHeight :=
  have hproper : Runs.Proper (Shared.step compare) (Shared.Permits compare) Shared.start race := by decide +kernel
  ⟨hproper, readers_see_inserted_keys race hproper⟩

end runs

end TableFS.Leveldb.SkipList

import Mathlib.Data.List.Basic
import Mathlib.Data.List.Perm.Subperm
import TableFS.Lib.LinkedLists
import TableFS.Leveldb.SkipList

/-! A skip list holds its keys in order: what a search finds, and what one more node at one more level
changes. The nodes of each level are a ghost list. -/
namespace TableFS.Leveldb.SkipList
open LinkedLists
variable {κ : Type} {cmp : κ → κ → Ordering} {s s' : SkipList κ} {L : Nat → List Nat} {keys : List κ} {pass : κ → Bool}

/-- The pointer of a node at a level. -/
def ptr (s : SkipList κ) (i x : Nat) : Option Nat := (s.next x i).join

/-- Every level is a chain from the head, and has no nodes that the one below does not have. The lowest
has all keys, in order. -/
structure Ok (cmp : κ → κ → Ordering) (s : SkipList κ) (L : Nat → List Nat) (keys : List κ) : Prop where
  linked : ∀ i < kMaxHeight, Linked id (s.ptr i) head_ (L i)
  isSet : ∀ i < kMaxHeight, ∀ x ∈ head_ :: L i, s.next x i ≠ none
  sublist : ∀ i, i + 1 < kMaxHeight → (L (i + 1)).Sublist (L i)
  keyed : (L 0).map s.key = keys.map some
  sorted : keys.Pairwise fun a b => cmp a b = .lt
  headless : s.key head_ = none
  empty : ∀ i < kMaxHeight, s.max_height_ ≤ i → L i = []
  height : 1 ≤ s.max_height_ ∧ s.max_height_ ≤ kMaxHeight

/-- A search passes a key only if it passes all before it. -/
def Downward (cmp : κ → κ → Ordering) (pass : κ → Bool) : Prop := ∀ a b, cmp a b = .lt → pass b → pass a

def passes (s : SkipList κ) (pass : κ → Bool) (x : Nat) : Bool := (s.key x).any pass

/-- The nodes of a level that a search passes, and the others. -/
def passed (s : SkipList κ) (pass : κ → Bool) (l : List Nat) : List Nat := l.filter (s.passes pass)
def ahead (s : SkipList κ) (pass : κ → Bool) (l : List Nat) : List Nat := l.filter fun x => !s.passes pass x

theorem downward_before [Std.TransCmp cmp] (key : κ) : Downward cmp (before cmp key) := by
  intro a b hab hb
  rw [before, beq_iff_eq] at hb ⊢
  exact Std.TransCmp.lt_trans hab hb

theorem downward_true : Downward cmp fun _ => true := fun _ _ _ _ => rfl

theorem head_notMem_of_keyed {l : List Nat} (h : Ok cmp s L keys) (hl : l.Sublist (L 0)) : head_ ∉ l := by
  intro hmem
  have hkey := List.mem_map_of_mem (f := s.key) (hl.subset hmem)
  rw [h.keyed, h.headless] at hkey
  obtain ⟨k, -, hk⟩ := List.mem_map.mp hkey
  cases hk

namespace Ok

theorem sublist_zero (h : Ok cmp s L keys) {i : Nat} (hi : i < kMaxHeight) : (L i).Sublist (L 0) := by
  induction i with
  | zero => exact List.Sublist.refl _
  | succ i ih => exact (h.sublist i hi).trans (ih (Nat.lt_of_succ_lt hi))

theorem key_of_mem (h : Ok cmp s L keys) {x : Nat} (hx : x ∈ L 0) : ∃ k ∈ keys, s.key x = some k := by
  have hkey := List.mem_map_of_mem (f := s.key) hx
  rw [h.keyed] at hkey
  obtain ⟨k, hk, he⟩ := List.mem_map.mp hkey
  exact ⟨k, hk, he.symm⟩

private theorem pairwise (h : Ok cmp s L keys) {i : Nat} (hi : i < kMaxHeight) :
    (L i).Pairwise fun x y => ∃ a b, s.key x = some a ∧ s.key y = some b ∧ cmp a b = .lt := by
  refine List.Pairwise.sublist (h.sublist_zero hi) ?_
  have hkeys : (keys.map some).Pairwise fun a b => ∃ a' b', a = some a' ∧ b = some b' ∧ cmp a' b' = .lt :=
    List.pairwise_map.mpr (h.sorted.imp fun hab => ⟨_, _, rfl, rfl, hab⟩)
  rw [← h.keyed, List.pairwise_map] at hkeys
  exact hkeys

theorem nodup [Std.TransCmp cmp] (h : Ok cmp s L keys) {i : Nat} (hi : i < kMaxHeight) : (L i).Nodup := by
  refine (h.pairwise hi).imp ?_
  rintro x y ⟨a, b, ha, hb, hlt⟩ rfl
  obtain rfl := Option.some.inj (ha.symm.trans hb)
  rw [(Std.ReflCmp.compare_self : cmp a a = .eq)] at hlt
  cases hlt

/-- A level is the nodes that a search passes, and then the others. -/
theorem split (h : Ok cmp s L keys) (hd : Downward cmp pass) {i : Nat} (hi : i < kMaxHeight) :
    L i = s.passed pass (L i) ++ s.ahead pass (L i) := by
  have hp : (L i).Pairwise fun x y => s.passes pass y → s.passes pass x := by
    refine (h.pairwise hi).imp ?_
    rintro x y ⟨a, b, ha, hb, hlt⟩ hy
    rw [passes, hb] at hy
    rw [passes, ha]
    exact hd a b hlt hy
  generalize L i = l at hp
  induction l with
  | nil => rfl
  | cons x l ih =>
    obtain ⟨hx, hl⟩ := List.pairwise_cons.mp hp
    by_cases hpx : s.passes pass x
    · rw [passed, ahead, List.filter_cons_of_pos hpx, List.filter_cons_of_neg (by simp [hpx]), List.cons_append]
      exact congrArg _ (ih hl)
    · have hnone : s.passed pass l = [] := List.filter_eq_nil_iff.mpr fun y hy hpy => hpx (hx y hy hpy)
      have hall := ih hl
      rw [hnone, List.nil_append] at hall
      rw [passed, ahead, List.filter_cons_of_neg hpx, List.filter_cons_of_pos (by simp [hpx])]
      show x :: l = s.passed pass l ++ x :: s.ahead pass l
      rw [hnone, ← hall, List.nil_append]

/-- The pointer of a node is to the node that follows it. -/
theorem next_after (h : Ok cmp s L keys) {i : Nat} (hi : i < kMaxHeight) {pre post : List Nat}
    (hl : L i = pre ++ post) :
    s.next (after id head_ pre) i = some post.head? := by
  have hlinked := h.linked i hi
  rw [hl, linked_append] at hlinked
  have hptr : s.ptr i (after id head_ pre) = post.head? := by
    cases post with
    | nil => exact hlinked.2
    | cons n post => exact hlinked.2.1
  have hmem : after id head_ pre ∈ head_ :: L i := by
    rcases after_mem id head_ pre with ha | ⟨x, hx, ha⟩
    · rw [ha]
      exact List.mem_cons_self
    · rw [ha, hl]
      exact List.mem_cons_of_mem _ (List.mem_append_left _ hx)
  have hset := h.isSet i hi _ hmem
  rw [ptr] at hptr
  cases hn : s.next (after id head_ pre) i with
  | none => exact absurd hn hset
  | some n => rw [← hptr, hn]; rfl

theorem next_of_split (h : Ok cmp s L keys) {i : Nat} (hi : i < kMaxHeight) {pre post : List Nat} {n : Nat}
    (hl : L i = pre ++ n :: post) :
    s.next n i = some post.head? := by
  have hsplit : L i = (pre ++ [n]) ++ post := by rw [hl, List.append_assoc]; rfl
  have hnext := h.next_after hi hsplit
  rwa [after_append] at hnext

end Ok

/-- Where a search may be: at the head or at a node that it has passed. -/
def At (s : SkipList κ) (L : Nat → List Nat) (pass : κ → Bool) (p : Place) : Prop :=
  p.x = head_ ∨ p.x ∈ L p.level ∧ s.passes pass p.x

/-- Where a search leaves a level: after all nodes that it passes. -/
def last (s : SkipList κ) (pass : κ → Bool) (l : List Nat) : Nat := after id head_ (s.passed pass l)

/-- The nodes up to the place of a search. -/
theorem At.split (h : Ok cmp s L keys) {p : Place} (hi : p.level < kMaxHeight) (hp : At s L pass p)
    (hd : Downward cmp pass) :
    ∃ pre post, L p.level = pre ++ post ∧ after id head_ pre = p.x ∧ ∀ y ∈ pre, s.passes pass y := by
  rcases hp with hx | ⟨hx, hpass⟩
  · exact ⟨[], L p.level, rfl, hx.symm, nofun⟩
  · obtain ⟨pre, post, hl⟩ := List.append_of_mem hx
    refine ⟨pre ++ [p.x], post, by rw [hl, List.append_assoc]; rfl, by rw [after_append]; rfl, fun y hy => ?_⟩
    have hpairs := h.pairwise hi
    rw [hl] at hpairs
    rcases List.mem_append.mp hy with hy | hy
    · obtain ⟨a, b, ha, hb, hlt⟩ := (List.pairwise_append.mp hpairs).2.2 y hy p.x List.mem_cons_self
      rw [passes, hb] at hpass
      rw [passes, ha]
      exact hd a b hlt hpass
    · exact List.mem_singleton.mp hy ▸ hpass

private theorem Ok.divide (h : Ok cmp s L keys) (hd : Downward cmp pass) {i : Nat} (hi : i < kMaxHeight)
    {pre post : List Nat} (hl : L i = pre ++ post) (hpre : ∀ y ∈ pre, s.passes pass y)
    (hpost : ∀ n ∈ post.head?, ¬ s.passes pass n) :
    s.passed pass (L i) = pre ∧ s.ahead pass (L i) = post := by
  have hfront : s.passed pass pre = pre ∧ s.ahead pass pre = [] :=
    ⟨List.filter_eq_self.mpr hpre, List.filter_eq_nil_iff.mpr fun y hy => by simp [hpre y hy]⟩
  have hsplit := h.split hd hi
  have happend : s.passed pass (L i) = pre ++ s.passed pass post ∧ s.ahead pass (L i) = s.ahead pass post := by
    rw [hl, passed, ahead, List.filter_append, List.filter_append]
    exact ⟨congrArg (· ++ _) hfront.1, congrArg (· ++ _) hfront.2⟩
  rw [happend.1, happend.2, List.append_assoc, hl, List.append_cancel_left_eq] at hsplit
  have hnone : s.passed pass post = [] := by
    cases hc : s.passed pass post with
    | nil => rfl
    | cons y l =>
      have hy : s.passes pass y := (List.mem_filter.mp (hc.symm ▸ List.mem_cons_self : y ∈ s.passed pass post)).2
      rw [hc, List.cons_append] at hsplit
      exact absurd hy (hpost y (by rw [hsplit]; rfl))
  rw [hnone, List.nil_append] at hsplit
  rw [happend.1, happend.2, hnone, List.append_nil]
  exact ⟨rfl, hsplit.symm⟩

/-- A node divides its level for a search for its key. -/
theorem Ok.divide_at [Std.TransCmp cmp] (h : Ok cmp s L keys) {i : Nat} (hi : i < kMaxHeight) {pre post : List Nat}
    {x : Nat} {k : κ} (hl : L i = pre ++ x :: post) (hk : s.key x = some k) :
    s.passed (before cmp k) (L i) = pre ∧ s.ahead (before cmp k) (L i) = x :: post := by
  refine h.divide (downward_before k) hi hl (fun y hy => ?_) fun m hm => ?_
  · have hpairs := h.pairwise hi
    rw [hl] at hpairs
    obtain ⟨a, b, ha, hb, hlt⟩ := (List.pairwise_append.mp hpairs).2.2 y hy x List.mem_cons_self
    obtain rfl := Option.some.inj (hk.symm.trans hb)
    rw [passes, ha]
    exact beq_iff_eq.mpr hlt
  · obtain rfl := Option.some.inj hm
    simp [passes, hk, before, (Std.ReflCmp.compare_self : cmp k k = .eq)]

/-- A round of a search goes to the next node, which it passes, or leaves the level after the last one that it
passes. -/
theorem look_spec (h : Ok cmp s L keys) (hd : Downward cmp pass) {p : Place} (hi : p.level < kMaxHeight)
    (hp : At s L pass p) :
    (∃ n pre post, s.look pass p = some (.right n) ∧ s.passes pass n ∧ L p.level = pre ++ n :: post ∧
      after id head_ pre = p.x) ∨
      s.look pass p = some (.down (s.ahead pass (L p.level)).head?) ∧ p.x = s.last pass (L p.level) := by
  obtain ⟨pre, post, hl, ha, hpre⟩ := hp.split h hi hd
  have hnext := h.next_after hi hl
  rw [ha] at hnext
  cases post with
  | nil =>
    obtain ⟨hpassed, hahead⟩ := h.divide hd hi hl hpre nofun
    refine .inr ⟨?_, by rw [last, hpassed, ha]⟩
    simp [look, hnext, hahead]
  | cons n post =>
    obtain ⟨k, -, hk⟩ := h.key_of_mem ((h.sublist_zero hi).subset (hl ▸ List.mem_append_right _ List.mem_cons_self))
    by_cases hpass : pass k
    · exact .inl ⟨n, pre, post, by simp [look, hnext, hk, hpass], by simp [passes, hk, hpass], hl, ha⟩
    · have hfirst : ∀ m ∈ (n :: post).head?, ¬ s.passes pass m := by
        rintro m hm
        obtain rfl := Option.some.inj hm
        simp [passes, hk, hpass]
      obtain ⟨hpassed, hahead⟩ := h.divide hd hi hl hpre hfirst
      refine .inr ⟨?_, by rw [last, hpassed, ha]⟩
      simp [look, hnext, hahead, hk, hpass]

/-- The nodes with greater keys than a node; all of them after the head. -/
def beyond (cmp : κ → κ → Ordering) (s : SkipList κ) (x y : Nat) : Bool :=
  (s.key x).all fun a => (s.key y).any fun b => cmp a b == .lt

/-- How far a search may still go to the right. -/
def rank (cmp : κ → κ → Ordering) (s : SkipList κ) (l : List Nat) (x : Nat) : Nat := (l.filter (beyond cmp s x)).length

/-- A node is beyond the one that it follows. -/
theorem Ok.beyond_after (h : Ok cmp s L keys) {i : Nat} (hi : i < kMaxHeight) {pre post : List Nat} {n : Nat}
    (hl : L i = pre ++ n :: post) : beyond cmp s (after id head_ pre) n := by
  rcases after_mem id head_ pre with ha | ⟨x, hx, ha⟩
  · rw [ha, beyond, h.headless]
    rfl
  · have hpairs := h.pairwise hi
    rw [hl] at hpairs
    obtain ⟨a, b, hka, hkb, hlt⟩ := (List.pairwise_append.mp hpairs).2.2 x hx n List.mem_cons_self
    rw [ha, id, beyond, hka, hkb]
    exact beq_iff_eq.mpr hlt

/-- Going down, a search stays where it is. -/
theorem At.down (h : Ok cmp s L keys) {x i : Nat} (hi : i + 1 < kMaxHeight) (hp : At s L pass ⟨x, i + 1⟩) :
    At s L pass ⟨x, i⟩ :=
  hp.imp_right fun hx => ⟨(h.sublist i hi).subset hx.1, hx.2⟩

section
variable [Std.TransCmp cmp]

theorem rank_lt {l : List Nat} {x n : Nat} {b : κ} (hn : n ∈ l) (hb : s.key n = some b) (hlt : beyond cmp s x n) :
    rank cmp s l n < rank cmp s l x := by
  have himp : ∀ y, beyond cmp s n y → beyond cmp s x y := by
    intro y hy
    rw [beyond, hb] at hy
    rw [beyond] at hlt ⊢
    cases ha : s.key x with
    | none => rfl
    | some a =>
      rw [ha, hb] at hlt
      cases hc : s.key y with
      | none => rw [hc] at hy; cases hy
      | some c =>
        rw [hc] at hy
        exact beq_iff_eq.mpr (Std.TransCmp.lt_trans (beq_iff_eq.mp hlt) (beq_iff_eq.mp hy))
  have hsub : (l.filter (beyond cmp s n)).Sublist (l.filter (beyond cmp s x)) := List.monotone_filter_right l himp
  refine Nat.lt_of_le_of_ne hsub.length_le fun heq => ?_
  have hmem : n ∈ l.filter (beyond cmp s n) := by
    rw [hsub.eq_of_length heq]
    exact List.mem_filter.mpr ⟨hn, hlt⟩
  have hself := (List.mem_filter.mp hmem).2
  rw [beyond, hb] at hself
  have hlt' : cmp b b = .lt := beq_iff_eq.mp hself
  rw [(Std.ReflCmp.compare_self : cmp b b = .eq)] at hlt'
  cases hlt'

private theorem searchLoop_spec (h : Ok cmp s L keys) (hd : Downward cmp pass) (fuel x level : Nat)
    (hi : level < kMaxHeight) (hp : At s L pass ⟨x, level⟩) (hfuel : level + rank cmp s (L 0) x < fuel)
    (prev : Nat → Option Nat) :
    ∃ prev', s.searchLoop pass fuel ⟨x, level⟩ prev = some (s.last pass (L 0), (s.ahead pass (L 0)).head?, prev') ∧
      (∀ i ≤ level, prev' i = some (s.last pass (L i))) ∧ ∀ i, level < i → prev' i = prev i := by
  induction fuel generalizing x level prev with
  | zero => exact absurd hfuel (Nat.not_lt_zero _)
  | succ fuel ih =>
    rcases look_spec h hd hi hp with ⟨n, pre, post, hlook, hpass, hl, ha⟩ | ⟨hlook, hx⟩
    · have hn : n ∈ L level := hl ▸ List.mem_append_right _ List.mem_cons_self
      obtain ⟨b, -, hb⟩ := h.key_of_mem ((h.sublist_zero hi).subset hn)
      have hrank := rank_lt ((h.sublist_zero hi).subset hn) hb (h.beyond_after hi hl)
      rw [show after id head_ pre = x from ha] at hrank
      obtain ⟨prev', hrest, hprev⟩ := ih n level hi (.inr ⟨hn, hpass⟩) (by omega) prev
      exact ⟨prev', by simp [searchLoop, hlook, hrest], hprev⟩
    · dsimp only at hx
      cases level with
      | zero =>
        refine ⟨Function.update prev 0 (some x), by simp [searchLoop, hlook, ← hx], fun i hile => ?_, fun i hlt => ?_⟩
        · rw [Nat.le_zero.mp hile, Function.update_self, ← hx]
        · exact Function.update_of_ne (Nat.ne_of_gt hlt) _ _
      | succ level =>
        obtain ⟨prev', hrest, hlow, hhigh⟩ := ih x level (Nat.lt_of_succ_lt hi) (hp.down h hi) (by omega)
          (Function.update prev (level + 1) (some x))
        refine ⟨prev', by simpa [searchLoop, hlook] using hrest, fun i hile => ?_, fun i hlt => ?_⟩
        · rcases Nat.lt_or_eq_of_le hile with hlt | rfl
          · exact hlow i (Nat.lt_succ_iff.mp hlt)
          · rw [hhigh _ (Nat.lt_succ_self _), Function.update_self, ← hx]
        · rw [hhigh i (Nat.lt_of_succ_lt hlt), Function.update_of_ne (Nat.ne_of_gt hlt)]

theorem Ok.length_le (h : Ok cmp s L keys) : (L 0).length ≤ s.nodes.length := by
  have hsub : L 0 ⊆ List.range s.nodes.length := by
    intro x hx
    obtain ⟨k, -, hk⟩ := h.key_of_mem hx
    rw [List.mem_range]
    by_contra hge
    rw [key, List.getElem?_eq_none (Nat.le_of_not_lt hge)] at hk
    cases hk
  have hle := ((h.nodup (by decide)).subperm hsub).length_le
  rwa [List.length_range] at hle

theorem search_spec (h : Ok cmp s L keys) (hd : Downward cmp pass) :
    ∃ prev, s.search pass = some (s.last pass (L 0), (s.ahead pass (L 0)).head?, prev) ∧
      ∀ i < s.max_height_, prev i = some (s.last pass (L i)) := by
  have hheight := h.height
  have hrank : rank cmp s (L 0) head_ ≤ s.nodes.length := Nat.le_trans (List.length_filter_le _ _) h.length_le
  obtain ⟨prev, hsearch, hprev, -⟩ := searchLoop_spec h hd (s.nodes.length + s.max_height_) head_
    (s.max_height_ - 1) (by omega)
    (.inl rfl) (by omega) fun _ => none
  exact ⟨prev, hsearch, fun i hi => hprev i (by omega)⟩

end

end TableFS.Leveldb.SkipList

import TableFS.Leveldb.SkipListReaders

/-! A skip list with no writer beside its reader: whole inserts, lookups, and scans in both directions. -/
namespace TableFS.Leveldb.SkipList
open LinkedLists
variable {κ : Type} {cmp : κ → κ → Ordering} {s : SkipList κ} {L : Nat → List Nat} {keys : List κ}

/-- The nodes that an iterator visits, from the one it is at. -/
def walk (move : Nat → Option (Option Nat)) : Nat → Option Nat → Option (List Nat)
  | _, none => some []
  | 0, some _ => none
  | fuel + 1, some n => do
    let next ← move n
    let rest ← walk move fuel next
    some (n :: rest)

def scan (s : SkipList κ) : Option (List Nat) := do
  let n ← s.seekToFirst
  walk s.iterNext s.nodes.length n

def scanBack (compare_ : κ → κ → Ordering) (s : SkipList κ) : Option (List Nat) := do
  let n ← s.seekToLast
  walk (s.iterPrev compare_) s.nodes.length n

private theorem walk_eq {move : Nat → Option (Option Nat)} (l : List Nat)
    (h : ∀ pre n post, l = pre ++ n :: post → move n = some post.head?) {fuel : Nat} (hfuel : l.length ≤ fuel) :
    walk move fuel l.head? = some l := by
  induction l generalizing fuel with
  | nil => cases fuel <;> rfl
  | cons n l ih =>
    obtain ⟨fuel, rfl⟩ := Nat.exists_eq_add_of_lt (Nat.lt_of_lt_of_le (Nat.succ_pos l.length) hfuel)
    rw [Nat.zero_add, List.length_cons] at hfuel
    have hrest := ih (fun pre m post hl => h (n :: pre) m post (congrArg (n :: ·) hl)) (Nat.le_of_succ_le_succ hfuel)
    rw [Nat.zero_add]
    simp [walk, h [] n l rfl, hrest]

private theorem insertKey_perm (cmp : κ → κ → Ordering) (key : κ) (keys : List κ) :
    (insertKey cmp key keys).Perm (key :: keys) :=
  List.perm_middle.trans ((List.filter_append_perm (before cmp key) keys).cons key)

section
variable [Std.TransCmp cmp]

omit [Std.TransCmp cmp] in
theorem Ok.scan (h : Ok cmp s L keys) (hlength : (L 0).length ≤ s.nodes.length) : s.scan = some (L 0) := by
  have hfirst : s.seekToFirst = some (L 0).head? := h.next_after (by decide) (List.nil_append (L 0)).symm
  have hnext : ∀ pre n post, L 0 = pre ++ n :: post → s.iterNext n = some post.head? :=
    fun _ _ _ hl => h.next_of_split (by decide) hl
  simp only [SkipList.scan, hfirst, Option.bind_eq_bind, Option.bind_some]
  exact walk_eq (L 0) hnext hlength

/-- Prev searches for the node before the key of its node. -/
theorem Ok.iterPrev (h : Ok cmp s L keys) {pre post : List Nat} {n : Nat} (hl : L 0 = pre ++ n :: post) :
    s.iterPrev cmp n = some pre.getLast? := by
  have hmem : n ∈ L 0 := hl ▸ List.mem_append_right _ List.mem_cons_self
  obtain ⟨k, -, hk⟩ := h.key_of_mem hmem
  obtain ⟨prev, hsearch, -⟩ := search_spec h (downward_before k)
  obtain ⟨hpassed, -⟩ := h.divide_at (by decide) hl hk
  have hlast := h.last_eq (before cmp k)
  rw [hpassed] at hlast
  simp [SkipList.iterPrev, hk, findLessThan, hsearch, hlast]

private theorem Ok.scanBack (h : Ok cmp s L keys) : s.scanBack cmp = some (L 0).reverse := by
  obtain ⟨prev, hsearch, -⟩ := search_spec h downward_true
  have hall : s.passed (fun _ => true) (L 0) = L 0 := by
    refine List.filter_eq_self.mpr fun y hy => ?_
    obtain ⟨k, -, hk⟩ := h.key_of_mem hy
    rw [passes, hk]
    rfl
  have hlast := h.last_eq fun _ => true
  rw [hall, ← List.head?_reverse] at hlast
  have hseek : s.seekToLast = some (L 0).reverse.head? := by simp [seekToLast, findLast, hsearch, hlast]
  have hprev : ∀ pre n post, (L 0).reverse = pre ++ n :: post → s.iterPrev cmp n = some post.head? := by
    intro pre n post hl
    have hsplit : L 0 = post.reverse ++ n :: pre.reverse := by
      rw [← List.reverse_reverse (L 0), hl]
      simp
    rw [h.iterPrev hsplit, List.getLast?_reverse]
  simp only [SkipList.scanBack, hseek, Option.bind_eq_bind, Option.bind_some]
  exact walk_eq _ hprev (by rw [List.length_reverse]; exact h.length_le)

theorem Ok.contains (h : Ok cmp s L keys) (key : κ) :
    s.contains cmp key = some (keys.any fun k => cmp key k == .eq) := by
  obtain ⟨prev, hsearch, -⟩ := search_spec h (downward_before key)
  rw [any_eq h.sorted key, ← h.key_ahead (before cmp key)]
  cases hn : (s.ahead (before cmp key) (L 0)).head? with
  | none => simp [SkipList.contains, findGreaterOrEqual, hsearch, hn]
  | some n =>
    obtain ⟨k, -, hk⟩ := h.key_of_mem (List.mem_filter.mp (List.mem_of_mem_head? hn)).1
    simp [SkipList.contains, findGreaterOrEqual, hsearch, hn, hk]

theorem Ok.seek (h : Ok cmp s L keys) (target : κ) :
    ∃ n, s.seek cmp target = some n ∧ (n.bind s.key = keys.find? fun k => cmp k target != .lt) ∧ ∀ m ∈ n, m ∈ L 0 := by
  obtain ⟨prev, hsearch, -⟩ := search_spec h (downward_before target)
  refine ⟨(s.ahead (before cmp target) (L 0)).head?, by simp [SkipList.seek, findGreaterOrEqual, hsearch], ?_,
    fun m hm => ?_⟩
  · rw [h.key_ahead, List.head?_filter]
    rfl
  · exact (List.mem_filter.mp (List.mem_of_mem_head? hm)).1

/-- One Insert after another, of keys that are not there. -/
theorem Ok.insertAll (ks : List κ) (h : Ok cmp s L keys) (hfresh : ∀ k ∈ ks, ∀ k' ∈ keys, cmp k' k ≠ .eq)
    (hd : ks.Pairwise fun a b => cmp a b ≠ .eq) :
    ∃ s' L' keys', ks.foldlM (fun s k => s.insert cmp k) s = some s' ∧ Ok cmp s' L' keys' ∧
      keys'.Perm (ks ++ keys) := by
  induction ks generalizing s L keys with
  | nil => exact ⟨s, L, keys, rfl, h, List.Perm.refl _⟩
  | cons k ks ih =>
    obtain ⟨hk, hks⟩ := List.pairwise_cons.mp hd
    obtain ⟨s₁, L₁, hs₁, h₁⟩ := insert_spec h (hfresh k List.mem_cons_self)
    have hperm := insertKey_perm cmp k keys
    have hfresh₁ : ∀ k' ∈ ks, ∀ k'' ∈ insertKey cmp k keys, cmp k'' k' ≠ .eq := by
      intro k' hk' k'' hk''
      rcases List.mem_cons.mp (hperm.mem_iff.mp hk'') with rfl | hold
      · exact hk k' hk'
      · exact hfresh k' (List.mem_cons_of_mem _ hk') k'' hold
    obtain ⟨s', L', keys', hs', h', hperm'⟩ := ih h₁ hfresh₁ hks
    refine ⟨s', L', keys', by simp [hs₁, hs'], h', hperm'.trans ?_⟩
    exact ((hperm.append_left ks).trans List.perm_middle)

/-- Whatever heights are drawn, a skip list has the keys that were inserted, in order, in both directions, and finds
them. -/
theorem skip_list_sorts (r : Random) (ks : List κ) (hd : ks.Pairwise fun a b => cmp a b ≠ .eq) :
    ∃ (s : SkipList κ) (keys : List κ) (nodes : List Nat),
      ks.foldlM (fun s k => s.insert cmp k) { new with rnd_ := r } = some s ∧
      keys.Perm ks ∧ keys.Pairwise (fun a b => cmp a b = .lt) ∧
      s.scan = some nodes ∧ nodes.map s.key = keys.map some ∧ s.scanBack cmp = some nodes.reverse ∧
      (∀ key, s.contains cmp key = some (ks.any fun k => cmp key k == .eq)) ∧
      ∀ target, ∃ n, s.seek cmp target = some n ∧ n.bind s.key = keys.find? fun k => cmp k target != .lt := by
  have hnew : Ok cmp ({ new with rnd_ := r } : SkipList κ) (fun _ => []) [] :=
    (ok_new cmp).frame (fun _ _ => rfl) (fun _ _ _ _ => rfl) (Nat.le_refl _) (ok_new cmp).height.2
  obtain ⟨s, L, keys, hs, h, hperm⟩ := hnew.insertAll ks (fun _ _ _ hk => absurd hk List.not_mem_nil) hd
  rw [List.append_nil] at hperm
  refine ⟨s, keys, L 0, hs, hperm, h.sorted, h.scan h.length_le, h.keyed, h.scanBack, fun key => ?_, fun target => ?_⟩
  · rw [h.contains, hperm.any_eq]
  · obtain ⟨n, hseek, hkey, -⟩ := h.seek target
    exact ⟨n, hseek, hkey⟩

theorem skip_list_sorts_three :
    [30, 10, 20].Pairwise (fun a b => compare a b ≠ .eq) ∧
      ∃ (s : SkipList Nat) (keys : List Nat) (nodes : List Nat),
        [30, 10, 20].foldlM (fun s k => s.insert compare k) { new with rnd_ := .new 0xdeadbeef } = some s ∧
        keys.Perm [30, 10, 20] ∧ keys.Pairwise (fun a b => compare a b = .lt) ∧
        s.scan = some nodes ∧ nodes.map s.key = keys.map some ∧ s.scanBack compare = some nodes.reverse ∧
        (∀ key, s.contains compare key = some ([30, 10, 20].any fun k => compare key k == .eq)) ∧
        ∀ target, ∃ n, s.seek compare target = some n ∧ n.bind s.key = keys.find? fun k => compare k target != .lt :=
  ⟨by decide, skip_list_sorts (.new 0xdeadbeef) [30, 10, 20] (by decide)⟩

end
end TableFS.Leveldb.SkipList

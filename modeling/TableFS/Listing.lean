import Mathlib.Data.Finset.Card
import TableFS.Records

/-! Which names ReadDir reports: those of the records below the directory that the scan
reaches from its start key. The root's scan starts at hash 1, and in the byte order of
little-endian keys a hash whose lowest byte is zero comes before that. -/
namespace TableFS
open Slots Runs

private theorem takeWhile_eq_filter {α : Type} {p : α → Bool} {l : List α}
    (h : l.Pairwise fun a b => p b = true → p a = true) : l.takeWhile p = l.filter p := by
  induction l with
  | nil => rfl
  | cons a l ih =>
    obtain ⟨ha, hl⟩ := List.pairwise_cons.mp h
    rw [List.takeWhile_cons, List.filter_cons, ih hl]
    split
    · rfl
    · rename_i hp
      exact (List.filter_eq_nil_iff.mpr fun b hb hpb => hp (ha b hb hpb)).symm

private theorem append_lt_append_left (p l m : List Nat) : p ++ l < p ++ m ↔ l < m := by
  induction p with
  | nil => rfl
  | cons a p ih => simp [ih]

private theorem append_lt_append {p q : List Nat} (hl : p.length = q.length) (hne : p ≠ q) (l m : List Nat) :
    p ++ l < q ++ m ↔ p < q := by
  induction p generalizing q with
  | nil => exact absurd (List.length_eq_zero_iff.mp hl.symm).symm hne
  | cons a p ih =>
    cases q with
    | nil => simp at hl
    | cons b q =>
      rw [List.cons_append, List.cons_append, List.cons_lt_cons_iff, List.cons_lt_cons_iff]
      by_cases hab : a = b
      · subst hab
        rw [ih (by simpa using hl) (fun he => hne (he ▸ rfl))]
      · simp [hab]

private theorem MetaKey.bytes_eq (k : MetaKey) :
    k.bytes = (le64 k.inode_id).map UInt8.toNat ++ (le64 k.hash_id).map UInt8.toNat := by
  simp [MetaKey.bytes, MetaKey.toSlice]

private theorem MetaKey.lt_of_outside {start k k' : MetaKey} (hk : k.inode_id = start.inode_id)
    (hk' : k'.inode_id ≠ start.inode_id) (hs : start ≤ k') : k < k' := by
  have hne : (le64 start.inode_id).map UInt8.toNat ≠ (le64 k'.inode_id).map UInt8.toNat := by
    intro he
    exact hk' (le64_injective (List.map_injective_iff.mpr (fun _ _ => UInt8.toNat_inj.mp) he)).symm
  have hlt : start.bytes < k'.bytes := lt_of_le_of_ne hs fun he => by
    rw [MetaKey.bytes_injective he] at hk'
    exact hk' rfl
  have hlen : ((le64 start.inode_id).map UInt8.toNat).length = ((le64 k'.inode_id).map UInt8.toNat).length := rfl
  change k.bytes < k'.bytes
  rw [MetaKey.bytes_eq, MetaKey.bytes_eq, append_lt_append hlen hne] at hlt
  rw [MetaKey.bytes_eq, MetaKey.bytes_eq, hk, append_lt_append hlen hne]
  exact hlt

private theorem fillDir_accepting {filler : Nat → Int} (hf : ∀ n, 0 ≤ filler n) (dirkey : MetaKey) (n : Nat)
    (l : List (MetaKey × Value)) :
    fillDir filler dirkey n l = (0, ((l.takeWhile fun e => isKeyInDir e.1 dirkey).map fun e =>
      nameBuffer e.2).filter fun name => decide (name ≠ [])) := by
  induction l generalizing n with
  | nil => rfl
  | cons e l ih =>
    obtain ⟨k, v⟩ := e
    have hn : ¬ filler n < 0 := not_lt.mpr (hf n)
    simp only [fillDir, List.takeWhile_cons]
    cases isKeyInDir k dirkey with
    | false => rfl
    | true =>
      by_cases hv : nameBuffer v = []
      · simp [hv, ih]
      · simp [hv, hn, ih]

theorem nameBuffer_eq {k : MetaKey} {v : Value} (h : WellFormed k v) : nameBuffer v = v.name := by
  have hb : v.body = v.name ++ 0 :: v.body.drop (v.header.namelen + 1) := by
    have := (List.take_append_drop (v.header.namelen + 1) v.body).symm
    rw [show v.body.take (v.header.namelen + 1) = v.name ++ [0] from h.named.label] at this
    simpa using this
  rw [nameBuffer, hb, List.takeWhile_append_of_pos fun c hc => by
    simpa using fun h0 : c = 0 => h.nul (h0 ▸ hc)]
  simp

/-- The name stored under a key. -/
def nameOf (metadb : MetaDB) (k : MetaKey) : List UInt8 := ((metadb.lookup k).map Value.name).getD []

/-- The keys of the records below a directory, without the root's own record. -/
def children (metadb : MetaDB) (ino : UInt64) : Finset MetaKey :=
  metadb.keys.filter fun k => k.inode_id = ino ∧ ¬ (k = rootKey ∧ nameOf metadb k = [])

/-- Where the scan of a directory starts. -/
def startKey (ino : UInt64) : MetaKey := ⟨ino, if ino = ROOT_INODE_ID then 1 else 0⟩

/-- A hash comes before c in byte order, for c = 0 or 1, only if its lowest byte does. -/
private theorem le64_lt_small {x c : UInt64} (hc : c = 0 ∨ c = 1) :
    (le64 x).map UInt8.toNat < (le64 c).map UInt8.toNat ↔ x.toNat % 256 < c.toNat := by
  have hx : x.toUInt8.toNat = x.toNat % 256 := by simp
  have hrest : ∀ l : List Nat, l.length = 7 → ¬ l < [0, 0, 0, 0, 0, 0, 0] := by
    intro l hl
    match l, hl with
    | [a, b, c, d, e, f, g], _ => simp [List.cons_lt_cons_iff]
  have hcb : (le64 c).map UInt8.toNat = c.toNat :: [0, 0, 0, 0, 0, 0, 0] := by
    rcases hc with rfl | rfl <;> decide
  rw [hcb, show (le64 x).map UInt8.toNat = x.toUInt8.toNat :: (le64 x).tail.map UInt8.toNat from rfl,
    List.cons_lt_cons_iff, hx]
  exact or_iff_left fun h => hrest _ rfl h.2

/-- Among the keys of its directory the scan misses exactly those of the root whose hash
has a zero lowest byte. -/
private theorem startKey_le_iff (k : MetaKey) :
    startKey k.inode_id ≤ k ↔ k.inode_id ≠ ROOT_INODE_ID ∨ k.hash_id % 256 ≠ 0 := by
  have hc : (if k.inode_id = ROOT_INODE_ID then (1 : UInt64) else 0) = 0 ∨
      (if k.inode_id = ROOT_INODE_ID then (1 : UInt64) else 0) = 1 := by
    split <;> simp
  have hmod : k.hash_id % 256 ≠ 0 ↔ k.hash_id.toNat % 256 ≠ 0 := by
    rw [Ne, ← UInt64.toNat_inj, UInt64.toNat_mod]
    rfl
  rw [← not_lt]
  change ¬ k.bytes < (startKey k.inode_id).bytes ↔ _
  rw [MetaKey.bytes_eq, MetaKey.bytes_eq, startKey, append_lt_append_left, le64_lt_small hc, hmod]
  by_cases hr : k.inode_id = ROOT_INODE_ID
  · simp [hr]
  · simp [hr]

/-- The keys a scan goes through, and the names it takes from them. -/
private theorem scan_names {metadb : MetaDB} (hv : ∀ k v, metadb.lookup k = some v → WellFormed k v)
    (dirkey : MetaKey) (l : List MetaKey) (hl : ∀ k ∈ l, k ∈ metadb.keys) :
    ((l.filterMap fun k => (metadb.lookup k).map (k, ·)).takeWhile fun e => isKeyInDir e.1 dirkey).map
      (fun e => nameBuffer e.2) = (l.takeWhile (isKeyInDir · dirkey)).map (nameOf metadb) := by
  induction l with
  | nil => rfl
  | cons k l ih =>
    obtain ⟨v, hkv⟩ := Finmap.mem_iff.mp (Finmap.mem_keys.mp (hl k List.mem_cons_self))
    have hk : nameOf metadb k = nameBuffer v := by simp [nameOf, hkv, nameBuffer_eq (hv k v hkv)]
    rw [List.filterMap_cons, hkv]
    simp only [Option.map_some, List.takeWhile_cons]
    split
    · simp [hk, ih fun k' hk' => hl k' (List.mem_cons_of_mem _ hk')]
    · rfl

/-- With a filler that accepts everything the scan reports ".", ".." and the names of the
records below the directory that are not before its start key. -/
private theorem listDir_names {metadb : MetaDB} (hv : ∀ k v, metadb.lookup k = some v → WellFormed k v) (errno : Nat)
    {filler : Nat → Int} (hf : ∀ n, 0 ≤ filler n) (ino : UInt64) :
    ∃ names, listDir errno filler metadb ino = (0, DOT :: DOTDOT :: names) ∧
      (names : Multiset (List UInt8)) =
        ((children metadb ino).filter (startKey ino ≤ ·)).val.map (nameOf metadb) := by
  have hn (n : Nat) : ¬ filler n < 0 := not_lt.mpr (hf n)
  obtain ⟨hkeys, hsorted⟩ := sortedKeys_spec metadb
  let l := (sortedKeys metadb).filter fun k => decide (startKey ino ≤ k)
  have hl : ∀ k ∈ l, k ∈ metadb.keys := fun k hk => by
    have hmem : k ∈ (sortedKeys metadb : Multiset MetaKey) := List.mem_of_mem_filter hk
    rwa [hkeys] at hmem
  -- the keys of the directory come first among those the iterator yields
  have hprefix : l.takeWhile (isKeyInDir · (startKey ino)) = l.filter (isKeyInDir · (startKey ino)) := by
    refine takeWhile_eq_filter ((hsorted.filter _).imp_of_mem fun {a b} ha _ hab hb => ?_)
    by_contra hna
    have hlt : b < a := MetaKey.lt_of_outside (by simpa [isKeyInDir] using hb : b.inode_id = (startKey ino).inode_id)
      (by simpa [isKeyInDir] using hna) (by simpa using (List.mem_filter.mp ha).2)
    exact absurd hab (not_le.mpr hlt)
  refine ⟨((l.filter (isKeyInDir · (startKey ino))).filter fun k => decide (nameOf metadb k ≠ [])).map
    (nameOf metadb), ?_, ?_⟩
  · simp only [listDir, hn, if_false, fillDir_accepting hf]
    rw [← hprefix, ← startKey, iterateFrom, scan_names hv _ l hl, List.filter_map]
    rfl
  · simp only [l, isKeyInDir]
    rw [← Multiset.map_coe, ← Multiset.filter_coe, ← Multiset.filter_coe, ← Multiset.filter_coe, hkeys,
      Finset.filter_val, children, Finset.filter_val]
    simp only [Multiset.filter_filter]
    refine congrArg _ (Multiset.filter_congr fun k hk => ?_)
    obtain ⟨v, hkv⟩ := Finmap.mem_iff.mp (Finmap.mem_keys.mp hk)
    have hroot : nameOf metadb k = [] → k = rootKey := by
      simpa [nameOf, hkv] using (hv k v hkv).root
    constructor
    · rintro ⟨hne, hd, hs⟩
      exact ⟨hs, hd, fun h => hne h.2⟩
    · rintro ⟨hs, hd, hne⟩
      exact ⟨fun h => hne ⟨hroot h, h⟩, hd, hs⟩

/-- ReadDir through any directory handle of any reachable state, with a filler that accepts
every entry, reports ".", ".." and the stored names of the records below the directory, each
once and nothing else, exactly if the directory is not the root or no record below the root
has a hash whose lowest byte is zero. -/
theorem readDir_exact_iff {s : State} (hr : Reachable s) {fh i : Nat} {key : MetaKey} {d : InodeCacheHandle}
    (hd : s.dirOf fh = some (i, key, d)) {env : Env} (hf : ∀ n, 0 ≤ env.filler n) :
    let ino := d.value_.fstat.st_ino
    let metadb := s.inode_cache.metadb
    ((s.readDir env fh).2.ret = 0 ∧ ∃ names, (s.readDir env fh).2.names = DOT :: DOTDOT :: names ∧
      (names : Multiset (List UInt8)) = (children metadb ino).val.map (nameOf metadb)) ↔
    (ino ≠ ROOT_INODE_ID ∨ ∀ k ∈ children metadb ino, k.hash_id % 256 ≠ 0) := by
  intro ino metadb
  obtain ⟨names, hl, hn⟩ := listDir_names hr.ok.wellFormed.stored env.errno hf ino
  have hstep : (s.readDir env fh).2 = { ret := 0, names := DOT :: DOTDOT :: names } := by
    simp only [State.readDir, hd]
    rw [show listDir _ _ _ d.value_.fstat.st_ino = _ from hl]
  have hstart : (∀ k ∈ children metadb ino, startKey ino ≤ k) ↔
      (ino ≠ ROOT_INODE_ID ∨ ∀ k ∈ children metadb ino, k.hash_id % 256 ≠ 0) := by
    have hino (k : MetaKey) (hk : k ∈ children metadb ino) : k.inode_id = ino := (Finset.mem_filter.mp hk).2.1
    have hiff (k : MetaKey) (hk : k ∈ children metadb ino) :
        startKey ino ≤ k ↔ ino ≠ ROOT_INODE_ID ∨ k.hash_id % 256 ≠ 0 := hino k hk ▸ startKey_le_iff k
    refine ⟨fun h => or_iff_not_imp_left.mpr fun hz k hk => ?_, fun h k hk => ?_⟩
    · exact ((hiff k hk).mp (h k hk)).resolve_left hz
    · exact (hiff k hk).mpr (h.imp_right fun h => h k hk)
  rw [hstep, ← hstart]
  constructor
  · rintro ⟨_, names', he, hm⟩
    obtain rfl : names = names' := by simpa using he
    rw [hn] at hm
    have hcard := congrArg Multiset.card hm
    rw [Multiset.card_map, Multiset.card_map] at hcard
    exact Finset.card_filter_eq_iff.mp hcard
  · intro hall
    exact ⟨rfl, names, rfl, by rw [hn, Finset.filter_true_of_mem hall]⟩

/-- A root with one file, "a". -/
theorem readDir_exact_iff_a :
    let s := (run step (State.fresh 4096) (calmly [.makeNode (inRoot [97]) 0 0, .openDir (inRoot [])])).1
    (s.readDir .calm 0).2.ret = 0 ∧ ∃ names, (s.readDir .calm 0).2.names = DOT :: DOTDOT :: names ∧
      (names : Multiset (List UInt8)) =
        (children s.inode_cache.metadb ROOT_INODE_ID).val.map (nameOf s.inode_cache.metadb) := by
  have hd : ((run step (State.fresh 4096) (calmly [.makeNode (inRoot [97]) 0 0, .openDir (inRoot [])])).1.dirOf
      0).map (·.2.2.value_.fstat.st_ino) = some ROOT_INODE_ID := by decide +kernel
  obtain ⟨⟨i, key, d⟩, hd, hi⟩ := Option.map_eq_some_iff.mp hd
  have hf : ∀ n, 0 ≤ Env.calm.filler n := fun _ => le_refl (0 : Int)
  have h := readDir_exact_iff (State.reachable_fresh _ _) hd hf
  simp only at hi
  rw [hi] at h
  exact h.mpr (.inr (by decide +kernel))

/-- The hash of "00000006", a file of the listing in TestFSWrapper, has a zero lowest byte. -/
theorem readDir_misses_00000006 :
    let name : List UInt8 := [48, 48, 48, 48, 48, 48, 48, 54]
    let s := (run step (State.fresh 4096) (calmly [.makeNode (inRoot name) 0 0, .openDir (inRoot [])])).1
    Reachable s ∧ buildMetaKey name ROOT_INODE_ID ∈ children s.inode_cache.metadb ROOT_INODE_ID ∧
      nameOf s.inode_cache.metadb (buildMetaKey name ROOT_INODE_ID) = name ∧
      (s.readDir .calm 0).2 = { ret := 0, names := [DOT, DOTDOT] } := by
  refine ⟨State.reachable_fresh _ _, ?_⟩
  decide +kernel

end TableFS

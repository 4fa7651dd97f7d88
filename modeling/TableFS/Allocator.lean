import Mathlib.Order.CompletePartialOrder
import Mathlib.Order.Interval.Set.Disjoint
import TableFS.Lib.Runs
import TableFS.Disk

/-! The block allocator (util/allocator.cpp). Requests are cut from locked pages of 128 MiB; one
that no page has room for gets a block of its own, on the same list as the pages. The next request
then takes that block for a fresh page. -/
namespace TableFS
open Runs

def MemoryPageSize : Nat := 134217728

/-- A range of addresses. -/
structure Region where
  start : Nat
  size : Nat
  deriving DecidableEq, Repr

def Region.addresses (r : Region) : Set Nat := Set.Ico r.start (r.start + r.size)

private theorem Region.disjoint_of_le {r r' : Region} (h : r.start + r.size ≤ r'.start) :
    Disjoint r.addresses r'.addresses :=
  Set.Ico_disjoint_Ico.mpr ((min_le_left _ _).trans (h.trans (le_max_right _ _)))

/-- Blocks that the system gives do not overlap. -/
def Separate (blocks : List Region) : Prop := blocks.Pairwise fun b b' => Disjoint b.addresses b'.addresses

private theorem Separate.of_lt {blocks : List Region} (h : Separate blocks) {i j : Nat} {b b' : Region}
    (hb : blocks[i]? = some b) (hb' : blocks[j]? = some b') (hlt : i < j) : Disjoint b.addresses b'.addresses := by
  obtain ⟨hi, rfl⟩ := List.getElem?_eq_some_iff.mp hb
  obtain ⟨hj, rfl⟩ := List.getElem?_eq_some_iff.mp hb'
  exact List.pairwise_iff_getElem.mp h i j hi hj hlt

structure Allocator where
  blocks : List Region
  remaining_bytes : Nat
  current_block : Nat
  flag_using_lock_memory : Bool
  deriving DecidableEq, Repr

/-- A request that gets no address: the process exits, or the vector is read out of its range. -/
inductive NoAddress where
  | exit
  | badIndex
  deriving DecidableEq, Repr

namespace Allocator

/-- The count of locked pages: size_t arithmetic, then a conversion to int. -/
def numMemoryPages (lock_size : UInt64) : Int :=
  cInt (((lock_size * 1024 * 1024 - 1).toNat / MemoryPageSize + 1 : Nat) : Int)

/-- The constructor; page_start i is the address of the i-th page that posix_memalign gives. -/
def create (lock_size : UInt64) (page_start : Nat → Nat) : Allocator :=
  if 0 < lock_size then
    ⟨(List.range (numMemoryPages lock_size).toNat).map fun i => ⟨page_start i, MemoryPageSize⟩, MemoryPageSize, 0, true⟩
  else ⟨[], 0, 0, false⟩

/-- The bytes asked for, and the address that new gives if it is called. -/
abbrev Request := Nat × Nat

def takeNew (a : Allocator) (r : Request) : Allocator × Except NoAddress Region :=
  ({ a with blocks := a.blocks ++ [⟨r.2, r.1⟩] }, .ok ⟨r.2, r.1⟩)

/-- The request is cut from the current block, taken to be of the page size. -/
def cut (a : Allocator) (bytes : Nat) : Allocator × Except NoAddress Region :=
  match a.blocks[a.current_block]? with
  | none => (a, .error .badIndex)
  | some b => ({ a with remaining_bytes := a.remaining_bytes - bytes },
      .ok ⟨b.start + (MemoryPageSize - a.remaining_bytes), bytes⟩)

def allocate (a : Allocator) (r : Request) : Allocator × Except NoAddress Region :=
  if MemoryPageSize < r.1 then (a, .error .exit)
  else if a.flag_using_lock_memory then
    if a.remaining_bytes < r.1 then
      if a.current_block + 1 < a.blocks.length then
        cut { a with current_block := a.current_block + 1, remaining_bytes := MemoryPageSize } r.1
      else takeNew { a with remaining_bytes := 0 } r
    else cut a r.1
  else takeNew a r

/-- The request finds no room in the pages. -/
def Overflows (a : Allocator) (r : Request) : Prop :=
  a.remaining_bytes < r.1 ∧ a.blocks.length ≤ a.current_block + 1

instance (a : Allocator) (r : Request) : Decidable (a.Overflows r) := inferInstanceAs (Decidable (_ ∧ _))

/-- No two of the regions share an address. -/
def Apart (given : List (Except NoAddress Region)) : Prop :=
  given.Pairwise fun o o' => ∀ r r', o = .ok r → o' = .ok r' → Disjoint r.addresses r'.addresses

/-- Every request got a region inside one of the blocks, and no two regions share an address. -/
structure Sound (blocks : List Region) (given : List (Except NoAddress Region)) : Prop where
  inside : ∀ o ∈ given, ∃ r, o = .ok r ∧ ∃ b ∈ blocks, r.addresses ⊆ b.addresses
  apart : Apart given

/-- A request of the sizes that the pages can hold. -/
def FitsPage (r : Request) : Prop := 1 ≤ r.1 ∧ r.1 ≤ MemoryPageSize

/-- The region lies in a page up to the current one, and in that one before the rest. -/
def Before (a : Allocator) (r : Region) : Prop :=
  ∃ i b, a.blocks[i]? = some b ∧ r.addresses ⊆ b.addresses ∧ i ≤ a.current_block ∧
    (i = a.current_block → r.start + r.size ≤ b.start + (MemoryPageSize - a.remaining_bytes))

/-- As long as the pages have room: every region lies before the rest of the current page. -/
structure Packed (a : Allocator) (given : List (Except NoAddress Region)) : Prop where
  locked : a.flag_using_lock_memory = true
  pages : ∀ b ∈ a.blocks, b.size = MemoryPageSize
  current : a.current_block < a.blocks.length
  remaining : a.remaining_bytes ≤ MemoryPageSize
  before : ∀ o ∈ given, ∃ r, o = .ok r ∧ a.Before r
  apart : Apart given

section
variable {a : Allocator} {r : Request} {given : List (Except NoAddress Region)}

private theorem allocate_fits (hlock : a.flag_using_lock_memory = true) (hfit : r.1 ≤ MemoryPageSize)
    (hroom : ¬ a.Overflows r) (hcur : a.current_block < a.blocks.length) :
    ∃ i b m, a.blocks[i]? = some b ∧ r.1 ≤ m ∧
      ((i = a.current_block ∧ m = a.remaining_bytes) ∨ (i = a.current_block + 1 ∧ m = MemoryPageSize)) ∧
      a.allocate r = ({ a with current_block := i, remaining_bytes := m - r.1 },
        .ok ⟨b.start + (MemoryPageSize - m), r.1⟩) := by
  unfold allocate
  rw [if_neg (Nat.not_lt.mpr hfit), if_pos hlock]
  split
  · rename_i hfull
    have hnext : a.current_block + 1 < a.blocks.length := Nat.lt_of_not_le fun hle => hroom ⟨hfull, hle⟩
    have hget := List.getElem?_eq_getElem hnext
    rw [if_pos hnext]
    exact ⟨_, _, MemoryPageSize, hget, hfit, .inr ⟨rfl, rfl⟩, by simp only [cut, hget]⟩
  · rename_i hle
    have hget := List.getElem?_eq_getElem hcur
    exact ⟨_, _, a.remaining_bytes, hget, Nat.le_of_not_lt hle, .inl ⟨rfl, rfl⟩, by simp only [cut, hget]⟩

private theorem allocate_overflows (hlock : a.flag_using_lock_memory = true) (hfit : r.1 ≤ MemoryPageSize)
    (hover : a.Overflows r) :
    a.allocate r = ({ a with blocks := a.blocks ++ [⟨r.2, r.1⟩], remaining_bytes := 0 }, .ok ⟨r.2, r.1⟩) := by
  rw [allocate, if_neg (Nat.not_lt.mpr hfit), if_pos hlock, if_pos hover.1, if_neg (Nat.not_lt.mpr hover.2), takeNew]

private theorem allocate_next (hlock : a.flag_using_lock_memory = true) (hrem : a.remaining_bytes = 0) {b : Region}
    (hget : a.blocks[a.current_block + 1]? = some b) (hfit : FitsPage r) : (a.allocate r).2 = .ok ⟨b.start, r.1⟩ := by
  rw [allocate, if_neg (Nat.not_lt.mpr hfit.2), if_pos hlock, if_pos (hrem ▸ hfit.1),
    if_pos (List.getElem?_eq_some_iff.mp hget).1]
  simp only [cut, hget, Nat.sub_self, Nat.add_zero]

theorem Apart.concat (h : Apart given) {r : Region} (hr : ∀ r', .ok r' ∈ given → Disjoint r'.addresses r.addresses) :
    Apart (given ++ [.ok r]) := by
  refine List.pairwise_append.mpr ⟨h, List.pairwise_singleton _ _, fun o ho o' ho' r₁ r₂ h₁ h₂ => ?_⟩
  cases h₁
  cases (List.mem_singleton.mp ho').symm.trans h₂
  exact hr r₁ ho

private theorem Packed.allocate (h : Packed a given) (hsep : Separate a.blocks) (hfit : FitsPage r)
    (hroom : ¬ a.Overflows r) :
    Packed (a.allocate r).1 (given ++ [(a.allocate r).2]) ∧ (a.allocate r).1.blocks = a.blocks := by
  obtain ⟨i, b, m, hb, hm, hi, hr⟩ := allocate_fits h.locked hfit.2 hroom h.current
  have hsize : b.size = MemoryPageSize := h.pages b (List.mem_of_getElem? hb)
  have hmax : m ≤ MemoryPageSize := hi.elim (fun hi => hi.2 ▸ h.remaining) fun hi => hi.2.le
  have hinside : (⟨b.start + (MemoryPageSize - m), r.1⟩ : Region).addresses ⊆ b.addresses :=
    Set.Ico_subset_Ico (Nat.le_add_right _ _) (by dsimp only; omega)
  rw [hr]
  refine ⟨⟨h.locked, h.pages, (List.getElem?_eq_some_iff.mp hb).1, (Nat.sub_le _ _).trans hmax, fun o ho => ?_,
    h.apart.concat fun r' hr' => ?_⟩, rfl⟩
  · rcases List.mem_append.mp ho with ho | ho
    · obtain ⟨r', rfl, j, b', hb', hsub, hj, hend⟩ := h.before o ho
      refine ⟨r', rfl, j, b', hb', hsub, ?_, fun hji => ?_⟩
      · dsimp only
        omega
      · have hstay : i = a.current_block ∧ m = a.remaining_bytes := by
          dsimp only at hji
          omega
        have hbefore := hend (hji.trans hstay.1)
        dsimp only
        omega
    · obtain rfl := List.mem_singleton.mp ho
      refine ⟨_, rfl, i, b, hb, hinside, le_rfl, fun _ => ?_⟩
      dsimp only
      omega
  · -- An earlier region of the same page ends before the rest; one of an earlier page is in another block.
    obtain ⟨_, heq, j, b', hb', hsub, hj, hend⟩ := h.before _ hr'
    cases heq
    by_cases hji : j = i
    · have hstay : i = a.current_block ∧ m = a.remaining_bytes := by omega
      cases (hji ▸ hb').symm.trans hb
      have hbefore := hend (hji.trans hstay.1)
      exact Region.disjoint_of_le (by dsimp only; omega)
    · exact (hsep.of_lt hb' hb (by omega)).mono hsub hinside

/-- While no request overflows, the regions stay packed and the blocks are the pages. -/
theorem Packed.run {requests : List Request} (h : Packed a given) (hsep : Separate a.blocks)
    (hfit : ∀ r ∈ requests, FitsPage r) (hroom : Allowed Allocator.allocate (fun a r => ¬ a.Overflows r) a requests) :
    Packed (run Allocator.allocate a requests).1 (given ++ (run Allocator.allocate a requests).2) ∧
      (run Allocator.allocate a requests).1.blocks = a.blocks := by
  induction requests generalizing a given with
  | nil => exact ⟨by simpa [Runs.run] using h, rfl⟩
  | cons r requests ih =>
    obtain ⟨hstep, hblocks⟩ := h.allocate hsep (hfit r List.mem_cons_self) hroom.1
    obtain ⟨hrun, hsame⟩ := ih hstep (hblocks ▸ hsep) (fun r hr => hfit r (List.mem_cons_of_mem _ hr)) hroom.2
    exact ⟨by simpa [Runs.run] using hrun, hsame.trans hblocks⟩

theorem Packed.sound (h : Packed a given) : Sound a.blocks given := by
  refine ⟨fun o ho => ?_, h.apart⟩
  obtain ⟨r, rfl, i, b, hb, hsub, _⟩ := h.before o ho
  exact ⟨r, rfl, b, List.mem_of_getElem? hb, hsub⟩

private theorem Packed.sound_overflow (h : Packed a given) (hfit : FitsPage r) (hover : a.Overflows r)
    (hsep : Separate (a.allocate r).1.blocks) : Sound (a.allocate r).1.blocks (given ++ [(a.allocate r).2]) := by
  rw [allocate_overflows h.locked hfit.2 hover] at hsep ⊢
  have hnew : ∀ b ∈ a.blocks, Disjoint b.addresses (⟨r.2, r.1⟩ : Region).addresses := fun b hb =>
    (List.pairwise_append.mp hsep).2.2 b hb _ (List.mem_singleton_self _)
  refine ⟨fun o ho => ?_, h.apart.concat fun r' hr' => ?_⟩
  · rcases List.mem_append.mp ho with ho | ho
    · obtain ⟨r', rfl, b, hb, hsub⟩ := h.sound.inside o ho
      exact ⟨r', rfl, b, List.mem_append_left _ hb, hsub⟩
    · exact ⟨_, List.mem_singleton.mp ho, _, List.mem_append_right _ (List.mem_singleton_self _), Set.Subset.refl _⟩
  · obtain ⟨_, heq, b, hb, hsub⟩ := h.sound.inside _ hr'
    cases heq
    exact (hnew b hb).mono_left hsub

private theorem Packed.after_overflow (h : Packed a given) (hfit : FitsPage r) (hover : a.Overflows r)
    {r' : Request} (hfit' : FitsPage r') :
    ((a.allocate r).1.allocate r').2 = .ok ⟨r.2, r'.1⟩ := by
  have hlast : a.current_block + 1 = a.blocks.length := Nat.le_antisymm h.current hover.2
  rw [allocate_overflows h.locked hfit.2 hover]
  exact allocate_next (a := { a with blocks := a.blocks ++ [⟨r.2, r.1⟩], remaining_bytes := 0 }) h.locked rfl
    (b := ⟨r.2, r.1⟩) (by simp [hlast]) hfit'

end

private theorem not_disjoint_start {start m n : Nat} (hm : 1 ≤ m) (hn : 1 ≤ n) :
    ¬ Disjoint (⟨start, m⟩ : Region).addresses (⟨start, n⟩ : Region).addresses :=
  Set.not_disjoint_iff.mpr ⟨start, ⟨le_rfl, Nat.lt_add_of_pos_right hm⟩, le_rfl, Nat.lt_add_of_pos_right hn⟩

private theorem blocks_allocate (a : Allocator) (r : Request) : a.blocks <+: (a.allocate r).1.blocks := by
  unfold allocate takeNew cut
  repeat' split
  all_goals simp

private theorem blocks_run (a : Allocator) (requests : List Request) :
    a.blocks <+: (run allocate a requests).1.blocks := by
  induction requests generalizing a with
  | nil => exact List.prefix_refl _
  | cons r requests ih => exact (a.blocks_allocate r).trans (ih _)

section
variable {lock_size : UInt64} {page_start : Nat → Nat}

private theorem packed_create (hlock : 0 < lock_size) (hpages : 0 < numMemoryPages lock_size) :
    Packed (create lock_size page_start) [] := by
  rw [create, if_pos hlock]
  refine ⟨rfl, fun b hb => ?_, ?_, Nat.le_refl MemoryPageSize, nofun, List.Pairwise.nil⟩
  · simp only [List.mem_map] at hb
    obtain ⟨_, _, rfl⟩ := hb
    rfl
  · simpa using hpages

private theorem allocate_no_pages (hlock : 0 < lock_size) (hpages : ¬ 0 < numMemoryPages lock_size) {r : Request}
    (hfit : FitsPage r) :
    ((create lock_size page_start).allocate r).2 = .error .badIndex := by
  have hnone : (numMemoryPages lock_size).toNat = 0 := Int.toNat_eq_zero.mpr (Int.not_lt.mp hpages)
  rw [create, if_pos hlock, hnone, allocate, if_neg (Nat.not_lt.mpr hfit.2), if_pos rfl, if_neg (Nat.not_lt.mpr hfit.2)]
  rfl

end

private theorem Sound.pages {lock_size : UInt64} (hlock : 0 < lock_size) {page_start : Nat → Nat}
    {requests : List Request} (hfit : ∀ r ∈ requests, FitsPage r) (hne : requests ≠ [])
    (hs : Sound (run allocate (create lock_size page_start) requests).1.blocks
      (run allocate (create lock_size page_start) requests).2) :
    0 < numMemoryPages lock_size := by
  by_contra hnone
  obtain ⟨r, rest, rfl⟩ := List.exists_cons_of_ne_nil hne
  obtain ⟨_, hr, _⟩ := hs.inside ((create lock_size page_start).allocate r).2 (by simp [run])
  rw [allocate_no_pages hlock hnone (hfit r List.mem_cons_self)] at hr
  cases hr

private theorem Sound.not_overflows {lock_size : UInt64} (hlock : 0 < lock_size)
    (hpages : 0 < numMemoryPages lock_size) {page_start : Nat → Nat} {pre post : List Request} {r r' : Request}
    (hfit : ∀ q ∈ pre ++ r :: r' :: post, FitsPage q)
    (hsep : Separate (run allocate (create lock_size page_start) (pre ++ r :: r' :: post)).1.blocks)
    (hok : Allowed allocate (fun a r => ¬ a.Overflows r) (create lock_size page_start) pre)
    (hs : Sound (run allocate (create lock_size page_start) (pre ++ r :: r' :: post)).1.blocks
      (run allocate (create lock_size page_start) (pre ++ r :: r' :: post)).2) :
    ¬ (run allocate (create lock_size page_start) pre).1.Overflows r := by
  intro hover
  have hpre := hsep.sublist (blocks_run _ _).sublist
  obtain ⟨hp, _⟩ := (packed_create hlock hpages).run hpre (fun q hq => hfit q (List.mem_append_left _ hq)) hok
  have hr : FitsPage r := hfit r (by simp)
  have hr' : FitsPage r' := hfit r' (by simp)
  have hapart := hs.apart
  rw [run_append] at hapart
  have htwo := List.rel_of_pairwise_cons (List.pairwise_append.mp hapart).2.1 List.mem_cons_self
  rw [hp.after_overflow hr hover hr', allocate_overflows hp.locked hr.2 hover] at htwo
  exact not_disjoint_start hr.1 hr'.1 (htwo _ _ rfl rfl)

/-- The regions are apart and inside the blocks exactly if there are pages and every request but
the last finds room in them. -/
theorem allocations_apart_iff (lock_size : UInt64) (hlock : 0 < lock_size) (page_start : Nat → Nat)
    (requests : List Request) (hfit : ∀ r ∈ requests, FitsPage r)
    (hsep : Separate (run allocate (create lock_size page_start) requests).1.blocks) :
    Sound (run allocate (create lock_size page_start) requests).1.blocks
        (run allocate (create lock_size page_start) requests).2 ↔
      requests = [] ∨ (0 < numMemoryPages lock_size ∧
        Allowed allocate (fun a r => ¬ a.Overflows r) (create lock_size page_start) requests.dropLast) := by
  rcases List.eq_nil_or_concat requests with rfl | ⟨front, last, rfl⟩
  · exact iff_of_true ⟨nofun, List.Pairwise.nil⟩ (.inl rfl)
  rw [List.concat_eq_append] at *
  have hfront : ∀ r ∈ front, FitsPage r := fun r hr => hfit r (List.mem_append_left _ hr)
  have hlast : FitsPage last := hfit last (List.mem_append_right _ (List.mem_singleton_self _))
  rw [List.dropLast_concat]
  constructor
  · intro hs
    have hpages := hs.pages hlock hfit (List.append_ne_nil_of_right_ne_nil front (List.cons_ne_nil last []))
    refine .inr ⟨hpages, by_contra fun hnot => ?_⟩
    obtain ⟨pre, r, post, rfl, hok, hover⟩ := exists_of_not_allowed hnot
    obtain ⟨r', post', heq⟩ := List.exists_cons_of_ne_nil (List.append_ne_nil_of_right_ne_nil post (List.cons_ne_nil last []))
    have hsplit : pre ++ r :: post ++ [last] = pre ++ r :: r' :: post' := by
      rw [List.append_assoc, List.cons_append, heq]
    rw [hsplit] at hs hsep hfit
    exact hover (hs.not_overflows hlock hpages hfit hsep hok)
  · rintro (hnil | ⟨hpages, hok⟩)
    · simp at hnil
    · have hpre := hsep.sublist (blocks_run _ _).sublist
      obtain ⟨hp, hsame⟩ := (packed_create hlock hpages).run hpre hfront hok
      rw [run_append] at hsep ⊢
      by_cases hover : (run allocate (create lock_size page_start) front).1.Overflows last
      · exact hp.sound_overflow hlast hover hsep
      · obtain ⟨hp', hblocks⟩ := hp.allocate (hsame ▸ hpre) hlast hover
        exact hp'.sound

/-- One page: a byte of it, then a request for a whole page, which gets a block of its own. -/
theorem allocations_apart_iff_page :
    Sound [⟨0, 134217728⟩, ⟨134217728, 134217728⟩] [.ok ⟨0, 1⟩, .ok ⟨134217728, 134217728⟩] := by
  have hrun : run allocate (create 128 fun _ => 0) [(1, 0), (134217728, 134217728)] =
      (⟨[⟨0, 134217728⟩, ⟨134217728, 134217728⟩], 0, 0, true⟩, [.ok ⟨0, 1⟩, .ok ⟨134217728, 134217728⟩]) := by
        decide +kernel
  have hsep : Separate [⟨0, 134217728⟩, ⟨134217728, 134217728⟩] :=
    List.pairwise_pair.mpr (Region.disjoint_of_le (Nat.le_refl 134217728))
  have hiff := allocations_apart_iff 128 (by decide) (fun _ => 0) [(1, 0), (134217728, 134217728)]
    (by simp [FitsPage, MemoryPageSize]) (by rw [hrun]; exact hsep)
  rw [hrun] at hiff
  exact hiff.mpr (.inr ⟨by decide +kernel, by decide +kernel⟩)

/-- After the whole page is given away, two requests of one byte get the same byte. A lock size
of 2^44 MiB comes to no pages at all. -/
theorem allocations_overlap :
    (run allocate (create 128 fun _ => 0) [(134217728, 0), (1, 134217728), (1, 134217729)]).2 =
        [.ok ⟨0, 134217728⟩, .ok ⟨134217728, 1⟩, .ok ⟨134217728, 1⟩] ∧
      (∀ blocks, ¬ Sound blocks [.ok ⟨0, 134217728⟩, .ok ⟨134217728, 1⟩, .ok ⟨134217728, 1⟩]) ∧
      (create 17592186044416 fun _ => 0).allocate (1, 0) = (create 17592186044416 fun _ => 0, .error .badIndex) := by
  refine ⟨by decide +kernel, fun blocks hs => ?_, by decide +kernel⟩
  have htwo := List.rel_of_pairwise_cons (List.pairwise_cons.mp hs.apart).2 List.mem_cons_self
  exact not_disjoint_start le_rfl le_rfl (htwo _ _ rfl rfl)

end Allocator
end TableFS

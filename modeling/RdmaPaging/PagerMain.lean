import Mathlib.Tactic.NormNum
import RdmaPaging.PagerCore

/-!
The start of `main` in `page.c`, up to and including page-out. The number of pages is what
`atoi` reads from the command line. The lengths and offsets are products of `int`s, widened
where they are used as a `size_t`, a pointer offset or a `uint64_t`.
-/

namespace RdmaPaging

/-- What `main` does at page-out: the bytes it has asked of `posix_memalign`, its calls of
`rdma_write_offset` (the buffer and the offset of each, in order), and the first and the last
address that `dune_vm_unmap` walks. -/
structure PageOut where
  page : Nat
  allocated : Nat
  writes : List (Nat × Nat)
  unmapped : Nat × Nat

/-- `main` up to the end of page-out, with the answers of `posix_memalign` and `malloc`. No
result means that it does not get there. -/
def pageOut (memalign malloc : Nat → Option Nat) (pageNr : Nat) : Option PageOut :=
  let pageLen := pageBytes pageNr
  match memalign pageLen with
  | none => none
  | some page =>
      -- the copy into `val` faults when `malloc` has failed
      if malloc pageLen = none ∧ pageLen ≠ 0 then none
      else some {
        page := page
        allocated := pageLen
        writes := (List.range pageNr).map fun i => ((page + pageBytes i) % 2 ^ 64, pageBytes i)
        unmapped := (page, lastVa page pageLen) }

/-- Page-out of exactly `pageNr` pages. -/
structure PageOutExact (pageNr : Nat) (out : PageOut) : Prop where
  allocated : out.allocated = 4096 * pageNr
  unmapped : ∀ va, out.unmapped.1 ≤ va ∧ va ≤ out.unmapped.2 ↔
    out.page ≤ va ∧ va < out.page + 4096 * pageNr
  length : out.writes.length = pageNr
  writes : ∀ i < pageNr, out.writes[i]? = some (out.page + 4096 * i, 4096 * i)
  covered : ∀ offset, (out.writes.countP fun write =>
    write.2 ≤ offset ∧ offset < write.2 + 4096) = if offset < 4096 * pageNr then 1 else 0

/-- Whenever `main` reaches page-out, it pages out exactly the pages asked for. -/
def PagesOutExactly (memalign malloc : Nat → Option Nat) (pageNr : Nat) : Prop :=
  ∀ out, pageOut memalign malloc pageNr = some out → PageOutExact pageNr out

/-- What a successful `posix_memalign` returns: a page-aligned address, not null, with the
bytes asked for inside the user's half of the address space. -/
def MemalignSound (memalign : Nat → Option Nat) : Prop :=
  ∀ size page, memalign size = some page → page % 4096 = 0 ∧ 0 < page ∧ page + size ≤ 2 ^ 47

theorem pageBytes_small {count : Nat} (small : count < 2 ^ 19) : pageBytes count = 4096 * count := by
  have positive : (BitVec.ofNat 32 (count * pageSize)).msb = false := by
    rw [BitVec.msb_eq_false_iff_two_mul_lt, BitVec.toNat_ofNat, pageSize]
    omega
  rw [pageBytes, BitVec.signExtend_eq_setWidth_of_msb_false positive, BitVec.toNat_setWidth,
    BitVec.toNat_ofNat, pageSize]
  omega

/-- From 2 GB on the product is negative or has lost its high bits. -/
theorem pageBytes_large {count : Nat} (large : 2 ^ 19 ≤ count) (isInt : count < 2 ^ 31) :
    pageBytes count ≠ 4096 * count := by
  have narrow : count * 4096 % 2 ^ 32 < 2 ^ 32 := Nat.mod_lt _ (by decide)
  rw [pageBytes, BitVec.toNat_signExtend, BitVec.toNat_setWidth, BitVec.toNat_ofNat, pageSize,
    Nat.mod_eq_of_lt (Nat.lt_trans narrow (by decide))]
  by_cases negative : (BitVec.ofNat 32 (count * 4096)).msb = true
  · rw [if_pos negative]
    omega
  · have half := BitVec.msb_eq_false_iff_two_mul_lt.mp (Bool.not_eq_true _ ▸ negative)
    rw [BitVec.toNat_ofNat] at half
    rw [if_neg negative]
    omega

theorem pageBytes_lt {count index : Nat} (small : count < 2 ^ 19) (bound : index < count) :
    pageBytes index = 4096 * index := pageBytes_small (Nat.lt_trans bound small)

/-- Of the pages below `count`, one holds an offset below `4096 * count`. -/
theorem countP_pages (count offset : Nat) :
    ((List.range count).countP fun i => 4096 * i ≤ offset ∧ offset < 4096 * i + 4096) =
      if offset < 4096 * count then 1 else 0 := by
  induction count with
  | zero => simp
  | succ count ih =>
      rw [List.range_succ, List.countP_append, ih, List.countP_singleton]
      by_cases before : offset < 4096 * count
      · have notLast : ¬ (4096 * count ≤ offset ∧ offset < 4096 * count + 4096) := by omega
        have inside : offset < 4096 * (count + 1) := by omega
        simp [before, notLast, inside]
      · by_cases last : offset < 4096 * (count + 1)
        · have isLast : 4096 * count ≤ offset ∧ offset < 4096 * count + 4096 := by omega
          simp [before, isLast, last]
        · have notLast : ¬ (4096 * count ≤ offset ∧ offset < 4096 * count + 4096) := by omega
          simp [before, notLast, last]

section Exact

variable {memalign malloc : Nat → Option Nat} {pageNr : Nat} {out : PageOut}

theorem pageOut_cases (reached : pageOut memalign malloc pageNr = some out) :
    memalign (pageBytes pageNr) = some out.page ∧
      ¬ (malloc (pageBytes pageNr) = none ∧ pageBytes pageNr ≠ 0) ∧
      out.allocated = pageBytes pageNr ∧
      out.writes = (List.range pageNr).map (fun i =>
        ((out.page + pageBytes i) % 2 ^ 64, pageBytes i)) ∧
      out.unmapped = (out.page, lastVa out.page (pageBytes pageNr)) := by
  simp only [pageOut] at reached
  split at reached
  · simp at reached
  · rename_i page allocated
    split at reached
    · simp at reached
    · rename_i copies
      obtain rfl := Option.some.inj reached
      exact ⟨allocated, copies, rfl, rfl, rfl⟩

theorem pageOut_exact (sound : MemalignSound memalign) (small : pageNr < 2 ^ 19)
    (reached : pageOut memalign malloc pageNr = some out) : PageOutExact pageNr out := by
  obtain ⟨allocated, _, size, writes, unmapped⟩ := pageOut_cases reached
  obtain ⟨_, nonnull, inside⟩ := sound _ _ allocated
  rw [pageBytes_small small] at size unmapped inside
  have calls : out.writes = (List.range pageNr).map fun i => (out.page + 4096 * i, 4096 * i) := by
    rw [writes]
    apply List.map_congr_left
    intro i member
    rw [pageBytes_lt small (List.mem_range.mp member)]
    have bound := List.mem_range.mp member
    rw [Nat.mod_eq_of_lt (by omega)]
  constructor
  · exact size
  · intro va
    rw [unmapped]
    simp only [lastVa, BitVec.toNat_sub, BitVec.toNat_add, BitVec.toNat_ofNat]
    omega
  · rw [calls, List.length_map, List.length_range]
  · intro i bound
    rw [calls, List.getElem?_map, List.getElem?_range bound, Option.map_some]
  · intro offset
    rw [calls, List.countP_map]
    exact countP_pages pageNr offset

end Exact

/-- Page-out covers exactly the pages asked for when their length fits an `int`, and
otherwise only where one of the two allocations is refused. -/
theorem pages_out_exactly_iff {memalign malloc : Nat → Option Nat} {pageNr : Nat}
    (sound : MemalignSound memalign) (isInt : pageNr < 2 ^ 31) :
    PagesOutExactly memalign malloc pageNr ↔
      4096 * pageNr < 2 ^ 31 ∨ memalign (pageBytes pageNr) = none ∨
        malloc (pageBytes pageNr) = none ∧ pageBytes pageNr ≠ 0 := by
  constructor
  · intro exactly
    by_contra none
    simp only [not_or] at none
    obtain ⟨large, accepted, copies⟩ := none
    obtain ⟨page, allocated⟩ := Option.ne_none_iff_exists'.mp accepted
    have reached : pageOut memalign malloc pageNr = some {
        page := page
        allocated := pageBytes pageNr
        writes := (List.range pageNr).map fun i => ((page + pageBytes i) % 2 ^ 64, pageBytes i)
        unmapped := (page, lastVa page (pageBytes pageNr)) } := by
      simp only [pageOut, allocated, if_neg copies]
    exact pageBytes_large (by omega) isInt (exactly _ reached).allocated
  · rintro (small | refused) out reached
    · exact pageOut_exact sound (by omega) reached
    · obtain ⟨allocated, copies, _⟩ := pageOut_cases reached
      rcases refused with refused | refused
      · rw [refused] at allocated
        exact absurd allocated (by simp)
      · exact absurd refused copies

/-- An allocator with one block of 64 MB. -/
def oneBlock (size : Nat) : Option Nat := if size ≤ 0x4000000 then some 0x10000000 else none

theorem oneBlock_sound : MemalignSound oneBlock := by
  intro size page allocated
  simp only [oneBlock, Option.ite_none_right_eq_some, Option.some.injEq] at allocated
  omega

theorem pages_out_exactly_iff_thousand :
    (pageOut oneBlock oneBlock 1000).isSome ∧ PagesOutExactly oneBlock oneBlock 1000 :=
  ⟨by decide, (pages_out_exactly_iff oneBlock_sound (by decide)).mpr (Or.inl (by decide))⟩

/-- For 1048577 pages the length has lost its high bits and one page is allocated. -/
theorem wrapped_length_pages_out :
    MemalignSound oneBlock ∧ ¬ PagesOutExactly oneBlock oneBlock 1048577 := by
  refine ⟨oneBlock_sound, fun exactly => ?_⟩
  have accepted : oneBlock (pageBytes 1048577) ≠ none := by decide
  rcases (pages_out_exactly_iff oneBlock_sound (by decide)).mp exactly with small | refused
  · exact absurd small (by decide)
  · exact refused.elim accepted fun both => accepted both.1

/-- The calls of the pager's page-out loop are those of `main`. -/
theorem pageOut_stepMain {memalign malloc : Nat → Option Nat} {config : PagerConfig} {out : PageOut}
    (reached : pageOut memalign malloc config.pageNr = some out) (state : Pager) {index : Nat}
    (bound : index < config.pageNr) :
    ∃ buf offset, out.writes[index]? = some (buf, offset) ∧
      stepMain config state index .writeWait = state.onClient (.writeWait mainThread offset) := by
  obtain ⟨_, _, _, writes, _⟩ := pageOut_cases reached
  refine ⟨(out.page + pageBytes index) % 2 ^ 64, pageBytes index, ?_, ?_⟩
  · rw [writes, List.getElem?_map, List.getElem?_range bound, Option.map_some]
  · simp only [stepMain, if_pos bound]

end RdmaPaging

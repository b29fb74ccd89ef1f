import Mathlib.Data.BitVec
import Mathlib.Data.List.Nodup
import Mathlib.Tactic.NormNum
import RdmaPaging.VmCore

/-!
Page-table entries as words, and what allocation, get and put do to the page pool.
-/

namespace RdmaPaging

/-- A mask of `width` bits from the bit `low` on. -/
theorem fieldMask_and (value width low : Nat) :
    value &&& (2 ^ width - 1) * 2 ^ low = value % 2 ^ (low + width) / 2 ^ low * 2 ^ low := by
  apply Nat.eq_of_testBit_eq
  intro bit
  rw [Nat.testBit_and, Nat.testBit_mul_two_pow, Nat.testBit_mul_two_pow, Nat.testBit_div_two_pow,
    Nat.testBit_mod_two_pow, Nat.testBit_two_pow_sub_one]
  by_cases above : low ≤ bit
  · have restored : bit - low + low = bit := by omega
    by_cases inside : bit < low + width
    · have inField : bit - low < width := by omega
      simp [above, restored, inside, inField]
    · have outside : ¬ bit - low < width := by omega
      simp [restored, inside, outside]
  · simp [above]

theorem addressMask_and (value : Nat) :
    value &&& 0xffffffffff000 = value % 2 ^ 52 / 2 ^ 12 * 2 ^ 12 :=
  fieldMask_and value 40 12

theorem pteAddr_toNat (pte : Ptent) :
    (pteAddr pte).toNat = pte.toNat % 2 ^ 52 / 2 ^ 12 * 2 ^ 12 := by
  rw [pteAddr, BitVec.toNat_and]
  exact addressMask_and _

theorem pteAddr_page (pte : Ptent) : pteAddr pte >>> pgshift <<< pgshift = pteAddr pte := by
  apply BitVec.eq_of_toNat_eq
  rw [BitVec.toNat_shiftLeft, BitVec.toNat_ushiftRight, Nat.shiftRight_eq_div_pow, Nat.shiftLeft_eq,
    pteAddr_toNat]
  simp only [pgshift]
  omega

@[simp] theorem pteAddr_zero : pteAddr 0#64 = 0#64 := by decide

theorem pteAddr_or (pte flags : Ptent) (outside : pteAddr flags = 0) :
    pteAddr (pteAddr pte ||| flags) = pteAddr pte := by
  simp only [pteAddr] at outside ⊢
  rw [BitVec.and_or_distrib_right, outside, BitVec.and_assoc, BitVec.and_self]
  simp

theorem pteFlags_or (pte flags : Ptent) :
    pteFlags (pteAddr pte ||| flags) = pteFlags flags := by
  simp only [pteFlags, pteAddr]
  rw [BitVec.and_or_distrib_right, BitVec.and_assoc]
  have disjoint : 0xffffffffff000#64 &&& 0xfff0000000000fff#64 = 0 := by decide
  rw [disjoint]
  simp

@[simp] theorem pteAddr_table (page : PhysAddr) :
    pteAddr (pteAddr page ||| pteDefFlags) = pteAddr page :=
  pteAddr_or page pteDefFlags (by decide)

@[simp] theorem ptePresent_table (page : PhysAddr) :
    ptePresent (pteAddr page ||| pteDefFlags) = true := by
  simp only [ptePresent, pteFlags_or]
  decide

@[simp] theorem pteBig_table (page : PhysAddr) :
    pteBig (pteAddr page ||| pteDefFlags) = false := by
  simp only [pteBig, pteFlags_or]
  decide

@[simp] theorem ptePresent_zero : ptePresent 0#64 = false := by decide

@[simp] theorem pteBig_zero : pteBig 0#64 = false := by decide

theorem pteAddr_orIf (condition : Bool) (flag pte : Ptent) (flagOutside : pteAddr flag = 0)
    (outside : pteAddr pte = 0) : pteAddr (orIf condition flag pte) = 0 := by
  unfold orIf
  split
  · simp only [pteAddr] at flagOutside outside ⊢
    rw [BitVec.and_or_distrib_right, outside, flagOutside]
    rfl
  · exact outside

/-- No permission reaches into the address field. -/
theorem pteAddr_getPtePerm (perm : Perm) : pteAddr (getPtePerm perm) = 0 := by
  unfold getPtePerm
  repeat' apply pteAddr_orIf
  all_goals decide

/-! Addresses of pool pages. -/

theorem pageToPa_toNat {page : Nat} (bound : page < 2 ^ 30) :
    (pageToPa page).toNat = 0x200000000 + page * 4096 := by
  simp only [pageToPa, pageBase, BitVec.toNat_add, BitVec.toNat_ofNat]
  omega

theorem pageToPa_injective {page other : Nat} (bound : page < 2 ^ 30) (otherBound : other < 2 ^ 30)
    (same : pageToPa page = pageToPa other) : page = other := by
  have values := congrArg BitVec.toNat same
  rw [pageToPa_toNat bound, pageToPa_toNat otherBound] at values
  omega

theorem pteAddr_pageToPa {page : Nat} (bound : page < 2 ^ 30) :
    pteAddr (pageToPa page) = pageToPa page := by
  apply BitVec.eq_of_toNat_eq
  rw [pteAddr_toNat, pageToPa_toNat bound]
  omega

theorem pageToPa_ne_zero {page : Nat} (bound : page < 2 ^ 30) : pageToPa page ≠ 0 := by
  intro isZero
  have value := congrArg BitVec.toNat isZero
  rw [pageToPa_toNat bound] at value
  simp at value

theorem paToPage_pageToPa {page : Nat} (bound : page < 2 ^ 30) :
    paToPage (pageToPa page) = page := by
  simp only [paToPage, pageToPa, pageBase, BitVec.toNat_ushiftRight, BitVec.toNat_sub,
    BitVec.toNat_add, BitVec.toNat_ofNat, Nat.shiftRight_eq_div_pow]
  omega

theorem poolEnd_toNat {numPages : Nat} (bound : numPages < 2 ^ 19) :
    (pageBase + poolBytes numPages).toNat = 0x200000000 + numPages * 4096 := by
  have positive : (BitVec.ofNat 32 (numPages * 4096)).msb = false := by
    rw [BitVec.msb_eq_false_iff_two_mul_lt, BitVec.toNat_ofNat]
    omega
  rw [BitVec.toNat_add, poolBytes, BitVec.signExtend_eq_setWidth_of_msb_false positive,
    BitVec.toNat_setWidth, BitVec.toNat_ofNat, pageBase, BitVec.toNat_ofNat]
  omega

/-- From 2 GB on, `num_pages * PGSIZE` is negative and no address is taken for the
pool's. -/
theorem poolEnd_wrapped {numPages : Nat} (wrapped : 2 ^ 19 ≤ numPages)
    (bound : numPages ≤ maxPages) : (pageBase + poolBytes numPages).toNat ≤ 0x200000000 := by
  unfold maxPages at bound
  by_cases full : numPages = 2 ^ 20
  · subst full
    decide
  · have negative : (BitVec.ofNat 32 (numPages * 4096)).msb = true := by
      rw [BitVec.msb_eq_true_iff_two_mul_ge, BitVec.toNat_ofNat]
      omega
    rw [BitVec.toNat_add, poolBytes, BitVec.toNat_signExtend, if_pos negative,
      BitVec.toNat_setWidth, BitVec.toNat_ofNat, pageBase, BitVec.toNat_ofNat]
    omega

theorem pageIsFromPool_iff (pool : PagePool) (pa : PhysAddr) :
    pageIsFromPool pool pa = true ↔
      0x200000000 ≤ pa.toNat ∧ pa.toNat < (pageBase + poolBytes pool.numPages).toNat := by
  simp only [pageIsFromPool, Bool.and_eq_true, decide_eq_true_eq, BitVec.le_def, BitVec.lt_def]
  rfl

theorem pageIsFromPool_pageToPa {pool : PagePool} {page : Nat} (bound : pool.numPages < 2 ^ 19)
    (inPool : page < pool.numPages) : pageIsFromPool pool (pageToPa page) = true := by
  rw [pageIsFromPool_iff, poolEnd_toNat bound, pageToPa_toNat (by omega)]
  omega

/-- An entry whose address is taken for the pool's names a page of the pool. -/
theorem pageIsFromPool_page {pool : PagePool} {pte : Ptent} (bound : pool.numPages ≤ maxPages)
    (fromPool : pageIsFromPool pool (pteAddr pte) = true) :
    ∃ page < pool.numPages, pteAddr pte = pageToPa page ∧ paToPage (pteAddr pte) = page := by
  rw [pageIsFromPool_iff] at fromPool
  obtain ⟨above, inside⟩ := fromPool
  have small : pool.numPages < 2 ^ 19 := by
    by_contra large
    have wrapped := poolEnd_wrapped (by omega) bound
    omega
  rw [poolEnd_toNat small] at inside
  have aligned : (pteAddr pte).toNat % 4096 = 0 := by
    rw [pteAddr_toNat]
    omega
  have named : pteAddr pte = pageToPa (((pteAddr pte).toNat - 0x200000000) / 4096) := by
    apply BitVec.eq_of_toNat_eq
    rw [pageToPa_toNat (by omega)]
    omega
  refine ⟨((pteAddr pte).toNat - 0x200000000) / 4096, by omega, named, ?_⟩
  rw [named, paToPage_pageToPa (by omega), ← named]

/-! The pool operations. -/

/-- The references of a page; a page that the pool does not hold yet has none. -/
def refOf (pool : PagePool) (page : Nat) : Nat :=
  if page < pool.numPages then pool.ref page else 0

structure FreeList (pool : PagePool) : Prop where
  nodup : pool.free.Nodup
  inPool : ∀ page ∈ pool.free, page < pool.numPages

/-- `after` is `before` with `page` allocated, after growth if the list was empty. -/
structure Taken (before : PagePool) (page : Nat) (after : PagePool) : Prop where
  list : FreeList after
  grows : before.numPages ≤ after.numPages
  inPool : page < after.numPages
  source : page ∈ before.free ∨ before.numPages ≤ page
  rest : ∀ other ∈ after.free, other ≠ page ∧ (other ∈ before.free ∨ before.numPages ≤ other)
  refs : ∀ other, refOf after other = refOf before other + if other = page then 1 else 0
  putZero : after.putZero = before.putZero
  failed : after.failed = before.failed

theorem takeFirst_cons {pool : PagePool} {page : Nat} {rest : List Nat}
    (first : pool.free = page :: rest) (inPool : page < pool.numPages) :
    takeFirst pool = (some (some page), { pool with
      free := rest, ref := Function.update pool.ref page (pool.ref page + 1) }) := by
  simp [takeFirst, first, pageGet, inPool]

theorem takeFirst_taken {pool : PagePool} {page : Nat} {rest : List Nat} (list : FreeList pool)
    (first : pool.free = page :: rest) :
    (takeFirst pool).1 = some (some page) ∧ Taken pool page (takeFirst pool).2 := by
  have inPool : page < pool.numPages := list.inPool page (by simp [first])
  have distinct := list.nodup
  rw [first, List.nodup_cons] at distinct
  rw [takeFirst_cons first inPool]
  refine ⟨rfl, ⟨⟨distinct.2, ?_⟩, Nat.le_refl _, inPool, ?_, ?_, ?_, rfl, rfl⟩⟩
  · intro other member
    exact list.inPool other (by simp [first, show other ∈ rest from member])
  · exact Or.inl (by simp [first])
  · intro other member
    have inRest : other ∈ rest := member
    refine ⟨?_, Or.inl (by simp [first, inRest])⟩
    intro same
    exact distinct.1 (same ▸ inRest)
  · intro other
    simp only [refOf, Function.update_apply]
    by_cases same : other = page
    · subst same
      simp [inPool]
    · simp [same]

theorem growSize_spec {pool grown : PagePool} (list : FreeList pool)
    (ran : growSize pool = some grown) :
    FreeList grown ∧ pool.numPages ≤ grown.numPages ∧ grown.free ≠ [] ∧
      (∀ page ∈ grown.free, page ∈ pool.free ∨ pool.numPages ≤ page) ∧
      (∀ page, refOf grown page = refOf pool page) ∧ grown.putZero = pool.putZero ∧
      grown.failed = pool.failed := by
  unfold growSize at ran
  split at ran
  · obtain rfl := Option.some.inj ran
    have added : ∀ page, page ∈ insertedPages pool.numPages growSizePages ↔
        pool.numPages ≤ page ∧ page < pool.numPages + growSizePages := by
      intro page
      simp [insertedPages]
    refine ⟨⟨?_, ?_⟩, Nat.le_add_right _ _, ?_, ?_, ?_, rfl, rfl⟩
    · rw [List.nodup_append]
      refine ⟨?_, list.nodup, ?_⟩
      · rw [insertedPages, List.nodup_reverse]
        exact List.nodup_range'
      · intro page new other old same
        have bound := list.inPool other old
        have above := (added page).mp new
        omega
    · intro page member
      rcases List.mem_append.mp member with new | old
      · exact ((added page).mp new).2
      · exact Nat.lt_of_lt_of_le (list.inPool page old) (Nat.le_add_right _ _)
    · simp [insertedPages, growSizePages]
    · intro page member
      rcases List.mem_append.mp member with new | old
      · exact Or.inr ((added page).mp new).1
      · exact Or.inl old
    · intro page
      simp only [refOf]
      by_cases old : page < pool.numPages
      · have inGrown : page < pool.numPages + growSizePages := by omega
        simp [old, inGrown, Nat.not_le.mpr old]
      · by_cases new : page < pool.numPages + growSizePages
        · simp [old, new, Nat.not_lt.mp old]
        · simp [old, new]
  · simp at ran

theorem pageInit_spec {mmapOk : PhysAddr → Bool} {ref : Nat → Nat} {pool : PagePool}
    (initialised : pageInit mmapOk ref = some pool) :
    FreeList pool ∧ (∀ page ∈ pool.free, refOf pool page = 0) ∧ pool.putZero = false ∧
      pool.numPages = growSizePages := by
  simp only [pageInit, Option.ite_none_right_eq_some, Option.some.injEq] at initialised
  obtain ⟨_, rfl⟩ := initialised
  refine ⟨⟨?_, ?_⟩, ?_, rfl, rfl⟩
  · dsimp only
    rw [insertedPages, List.nodup_reverse]
    exact List.nodup_range'
  · intro page listed
    simpa [insertedPages] using listed
  · intro page listed
    have inPool : page < growSizePages := by simpa [insertedPages] using listed
    show (if page < growSizePages then if page < growSizePages then 0 else ref page else 0) = 0
    rw [if_pos inPool, if_pos inPool]

/-- Allocation takes a page that was free or outside the pool, or fails and changes
nothing. -/
theorem pageAlloc_spec {pool : PagePool} (list : FreeList pool) :
    (∃ page, (pageAlloc pool).1 = some (some page) ∧ Taken pool page (pageAlloc pool).2) ∨
      pageAlloc pool = (some none, { pool with failed := true }) := by
  unfold pageAlloc
  split
  · rename_i empty
    split
    · rename_i grown ran
      obtain ⟨grownList, grows, nonempty, source, refs, putZero, failed⟩ := growSize_spec list ran
      obtain ⟨page, rest, first⟩ := List.exists_cons_of_ne_nil nonempty
      obtain ⟨result, taken⟩ := takeFirst_taken grownList first
      refine Or.inl ⟨page, result, taken.list, Nat.le_trans grows taken.grows, taken.inPool,
        source page (by simp [first]), ?_, ?_, taken.putZero.trans putZero,
        taken.failed.trans failed⟩
      · intro other member
        obtain ⟨different, origin⟩ := taken.rest other member
        refine ⟨different, ?_⟩
        rcases origin with listed | outside
        · exact source other listed
        · exact Or.inr (Nat.le_trans grows outside)
      · intro other
        rw [taken.refs other, refs other]
    · exact Or.inr rfl
  · rename_i page rest first
    exact Or.inl ⟨page, takeFirst_taken list first⟩

end RdmaPaging

import RdmaPaging.Machine
import RdmaPaging.VmPages

/-!
Runs of the page pool. Calls in any order keep the free list and the reference
counts in step. With `mmap` succeeding, allocations grow the pool window by window, and
its addresses are right for as long as `num_pages * PGSIZE` fits an `int`.
-/

namespace RdmaPaging

/-- `dune_page_free` with its assertion. -/
def pageFree (page : Nat) (pool : PagePool) : Option Unit × PagePool :=
  if pool.ref page = 0 then (some (), { pool with free := page :: pool.free }) else (none, pool)

/-- `pg->ref--`. -/
def dropRef (page : Nat) (pool : PagePool) : PagePool :=
  { pool with
    ref := Function.update pool.ref page
      (if pool.ref page = 0 then 2 ^ 64 - 1 else pool.ref page - 1)
    putZero := pool.putZero || pool.ref page = 0 }

/-- The free list holds each unreferenced page of the pool once. -/
structure PoolSound (pool : PagePool) : Prop where
  nodup : pool.free.Nodup
  exact : ∀ page, page ∈ pool.free ↔ page < pool.numPages ∧ pool.ref page = 0

/-- What an allocation may do: nothing, or take a page without references. -/
def AllocSound (before : PagePool) (result : Option (Option Nat) × PagePool) : Prop :=
  result = (some none, { before with failed := true }) ∨
    ∃ page, result.1 = some (some page) ∧ refOf before page = 0 ∧
      page < result.2.numPages ∧ result.2.ref page = 1 ∧ page ∉ result.2.free

/-- `dune_page_put` is a decrement, then `dune_page_free` if nothing is left. -/
theorem pagePut_dropRef {pool : PagePool} {page : Nat} (inPool : page < pool.numPages) :
    pagePut page pool =
      if (dropRef page pool).ref page = 0 then pageFree page (dropRef page pool)
      else (some (), dropRef page pool) := by
  simp only [pagePut, if_pos inPool, dropRef, pageFree, Function.update_self]
  by_cases none : (if pool.ref page = 0 then 2 ^ 64 - 1 else pool.ref page - 1) = 0
  · simp only [if_pos none]
  · simp only [if_neg none]

theorem PoolSound.freeList {pool : PagePool} (sound : PoolSound pool) : FreeList pool :=
  ⟨sound.nodup, fun page listed => ((sound.exact page).mp listed).1⟩

theorem refOf_pos {pool : PagePool} {page : Nat} (referenced : 1 ≤ refOf pool page) :
    page < pool.numPages ∧ 1 ≤ pool.ref page := by
  unfold refOf at referenced
  split at referenced
  · rename_i inPool
    exact ⟨inPool, referenced⟩
  · simp at referenced

theorem pageInit_sound {mmapOk : PhysAddr → Bool} {ref : Nat → Nat} {pool : PagePool}
    (initialised : pageInit mmapOk ref = some pool) : PoolSound pool := by
  have list := (pageInit_spec initialised).1
  simp only [pageInit, Option.ite_none_right_eq_some, Option.some.injEq] at initialised
  obtain ⟨_, rfl⟩ := initialised
  refine ⟨list.nodup, ?_⟩
  intro page
  by_cases inPool : page < growSizePages
  · simp [insertedPages, inPool]
  · simp [insertedPages, inPool]

theorem growSize_sound {pool grown : PagePool} (sound : PoolSound pool)
    (ran : growSize pool = some grown) : PoolSound grown := by
  have list := (growSize_spec sound.freeList ran).1
  unfold growSize at ran
  split at ran
  · obtain rfl := Option.some.inj ran
    refine ⟨list.nodup, ?_⟩
    intro page
    have added : page ∈ insertedPages pool.numPages growSizePages ↔
        pool.numPages ≤ page ∧ page < pool.numPages + growSizePages := by
      simp [insertedPages]
    simp only [List.mem_append, added, sound.exact]
    by_cases new : pool.numPages ≤ page ∧ page < pool.numPages + growSizePages
    · simp [new]
    · simp only [new, false_or, if_false]
      constructor
      · rintro ⟨old, unreferenced⟩
        exact ⟨by omega, unreferenced⟩
      · rintro ⟨inGrown, unreferenced⟩
        exact ⟨by omega, unreferenced⟩
  · simp at ran

theorem takeFirst_sound {pool : PagePool} (sound : PoolSound pool) (nonempty : pool.free ≠ []) :
    PoolSound (takeFirst pool).2 ∧
      ∃ page, (takeFirst pool).1 = some (some page) ∧ pool.ref page = 0 ∧
        page < (takeFirst pool).2.numPages ∧ (takeFirst pool).2.ref page = 1 ∧
        page ∉ (takeFirst pool).2.free := by
  obtain ⟨page, rest, first⟩ := List.exists_cons_of_ne_nil nonempty
  obtain ⟨inPool, unreferenced⟩ := (sound.exact page).mp (by simp [first])
  have distinct := sound.nodup
  rw [first, List.nodup_cons] at distinct
  rw [takeFirst_cons first inPool]
  refine ⟨⟨distinct.2, ?_⟩, page, rfl, unreferenced, inPool, by simp [unreferenced], distinct.1⟩
  intro other
  by_cases same : other = page
  · subst same
    simp [distinct.1]
  · have listed := sound.exact other
    rw [first, List.mem_cons] at listed
    simpa [same] using listed

theorem pageAlloc_sound {pool : PagePool} (sound : PoolSound pool) :
    PoolSound (pageAlloc pool).2 ∧ AllocSound pool (pageAlloc pool) := by
  unfold pageAlloc
  split
  · split
    · rename_i grown ran
      obtain ⟨_, _, nonempty, _, refs, _⟩ := growSize_spec sound.freeList ran
      have grownSound := growSize_sound sound ran
      obtain ⟨after, page, result, unreferenced, taken⟩ := takeFirst_sound grownSound nonempty
      refine ⟨after, Or.inr ⟨page, result, ?_, taken⟩⟩
      rw [← refs page, refOf, unreferenced, ite_self]
    · exact ⟨⟨sound.nodup, sound.exact⟩, Or.inl rfl⟩
  · rename_i page rest first
    obtain ⟨after, page, result, unreferenced, taken⟩ :=
      takeFirst_sound sound (by simp [first])
    refine ⟨after, Or.inr ⟨page, result, ?_, taken⟩⟩
    rw [refOf, unreferenced, ite_self]

theorem pagePut_sound {pool : PagePool} {page : Nat} (sound : PoolSound pool)
    (referenced : 1 ≤ refOf pool page) :
    (pagePut page pool).1 = some () ∧ PoolSound (pagePut page pool).2 := by
  obtain ⟨inPool, count⟩ := refOf_pos referenced
  have held : pool.ref page ≠ 0 := by omega
  have unlisted : page ∉ pool.free := fun listed => held ((sound.exact page).mp listed).2
  simp only [pagePut, if_pos inPool, if_neg held]
  by_cases last : pool.ref page - 1 = 0
  · refine ⟨trivial, ?_, ?_⟩
    · simp only [if_pos last]
      exact List.nodup_cons.mpr ⟨unlisted, sound.nodup⟩
    · intro other
      by_cases same : other = page
      · subst same
        simp [last, inPool]
      · simpa [last, same] using sound.exact other
  · refine ⟨trivial, ?_, ?_⟩
    · simpa only [if_neg last] using sound.nodup
    · intro other
      by_cases same : other = page
      · subst same
        simp [last, unlisted]
      · simpa [last, same] using sound.exact other

theorem pageInit_succeeds (mmapOk : PhysAddr → Bool) (ref : Nat → Nat)
    (mapped : mmapOk pageBase = true) :
    ∃ pool, pageInit mmapOk ref = some pool ∧ pool.numPages = growSizePages ∧
      pool.free = insertedPages 0 growSizePages ∧
      ∀ page < growSizePages, pool.ref page = 0 := by
  rw [pageInit, if_pos mapped]
  refine ⟨_, rfl, rfl, ?_, ?_⟩
  · dsimp only
  · intro page inPool
    exact if_pos inPool

theorem insertedPages_last {first count last : Nat} (size : count = last + 1) :
    insertedPages first count = (first + last) :: insertedPages first last := by
  subst size
  simp [insertedPages, List.range'_concat]

theorem pageAlloc_first {pool : PagePool} {page : Nat} {rest : List Nat}
    (first : pool.free = page :: rest) (inPool : page < pool.numPages) :
    pageAlloc pool = (some (some page), { pool with
      free := rest, ref := Function.update pool.ref page (pool.ref page + 1) }) := by
  rw [pageAlloc, first]
  exact takeFirst_cons first inPool

/-- The pool after `count` allocations. -/
def pageAllocs : Nat → PagePool → PagePool
  | 0, pool => pool
  | count + 1, pool => (pageAlloc (pageAllocs count pool)).2

/-- The pool stays in its 4 GB, each window was mapped at the address of its first page,
and an address is taken for the pool's exactly when it lies in one of its pages. Growth
writes `pages[i]` for the pages that it adds, so `bounded` also keeps it inside `pages`. -/
structure PoolWindow (pool : PagePool) : Prop where
  bounded : pool.numPages ≤ maxPages
  count : pool.mapped.length * growSizePages = pool.numPages
  start : ∀ window base, pool.mapped[window]? = some base →
    base = pageToPa (window * growSizePages)
  inside : ∀ base ∈ pool.mapped, pageBase.toNat ≤ base.toNat ∧
    base.toNat + growSizePages * 4096 ≤ pageBase.toNat + 2 ^ 32
  fromPool : ∀ pa, pageIsFromPool pool pa = true ↔
    ∃ page < pool.numPages, (pageToPa page).toNat ≤ pa.toNat ∧
      pa.toNat < (pageToPa page).toNat + 4096

/-- The pool after `count` allocations, in `windows` of 512 pages. -/
structure PoolGrown (count windows : Nat) (pool : PagePool) : Prop where
  list : FreeList pool
  mmapOk : pool.mmapOk = fun _ => true
  numPages : pool.numPages = windows * growSizePages
  balance : pool.free.length + count = pool.numPages
  mapped : pool.mapped =
    (List.range windows).map fun window => pageBase + poolBytes (window * growSizePages)

/-- A window is started only when all pages before it are in use. -/
def Demanded (count windows : Nat) : Prop :=
  windows = 1 ∨ (windows - 1) * growSizePages < count

theorem pageInit_grown {ref : Nat → Nat} {pool : PagePool}
    (initialised : pageInit (fun _ => true) ref = some pool) : PoolGrown 0 1 pool := by
  have list := (pageInit_spec initialised).1
  simp only [pageInit, if_true, Option.some.injEq] at initialised
  subst initialised
  refine ⟨list, rfl, by simp, by simp [insertedPages], ?_⟩
  simp [poolBytes]

theorem takeFirst_grown {count windows : Nat} {pool : PagePool} (grown : PoolGrown count windows pool)
    (nonempty : pool.free ≠ []) : PoolGrown (count + 1) windows (takeFirst pool).2 := by
  obtain ⟨page, rest, first⟩ := List.exists_cons_of_ne_nil nonempty
  have inPool := grown.list.inPool page (by simp [first])
  have list := (takeFirst_taken grown.list first).2.list
  have balance := grown.balance
  rw [takeFirst_cons first inPool] at list ⊢
  rw [first, List.length_cons] at balance
  refine ⟨list, grown.mmapOk, grown.numPages, ?_, grown.mapped⟩
  show rest.length + (count + 1) = pool.numPages
  omega

theorem growSize_grown {count windows : Nat} {pool : PagePool} (grown : PoolGrown count windows pool) :
    ∃ larger, growSize pool = some larger ∧ PoolGrown count (windows + 1) larger := by
  have mapped : pool.mmapOk (pageBase + poolBytes pool.numPages) = true := by
    rw [grown.mmapOk]
  have ran : growSize pool = some { pool with
      ref := fun page =>
        if pool.numPages ≤ page ∧ page < pool.numPages + growSizePages then 0 else pool.ref page
      free := insertedPages pool.numPages growSizePages ++ pool.free
      numPages := pool.numPages + growSizePages
      mapped := pool.mapped ++ [pageBase + poolBytes pool.numPages] } := by
    rw [growSize, if_pos mapped]
  refine ⟨_, ran, (growSize_spec grown.list ran).1, grown.mmapOk, ?_, ?_, ?_⟩
  · rw [Nat.add_mul, Nat.one_mul, ← grown.numPages]
  · have balance := grown.balance
    simp only [List.length_append, insertedPages, List.length_reverse, List.length_range']
    omega
  · simp only
    rw [List.range_succ, List.map_append, ← grown.mapped, grown.numPages]
    rfl

theorem pageAlloc_grown {count windows : Nat} {pool : PagePool} (grown : PoolGrown count windows pool)
    (demanded : Demanded count windows) :
    ∃ after, PoolGrown (count + 1) after (pageAlloc pool).2 ∧ Demanded (count + 1) after := by
  unfold pageAlloc
  split
  · rename_i empty
    have full : count = windows * growSizePages := by
      have balance := grown.balance
      rw [empty, grown.numPages] at balance
      simpa using balance
    obtain ⟨larger, ran, larger_grown⟩ := growSize_grown grown
    obtain ⟨_, _, nonempty, _⟩ := growSize_spec grown.list ran
    rw [ran]
    refine ⟨windows + 1, takeFirst_grown larger_grown nonempty, Or.inr ?_⟩
    rw [Nat.add_sub_cancel, full]
    exact Nat.lt_succ_self _
  · rename_i page rest first
    refine ⟨windows, takeFirst_grown grown (by simp [first]), ?_⟩
    exact demanded.imp_right Nat.lt_succ_of_lt

theorem pageAllocs_grown {ref : Nat → Nat} {pool : PagePool}
    (initialised : pageInit (fun _ => true) ref = some pool) (count : Nat) :
    ∃ windows, PoolGrown count windows (pageAllocs count pool) ∧ Demanded count windows := by
  induction count with
  | zero => exact ⟨1, pageInit_grown initialised, Or.inl rfl⟩
  | succ count ih =>
      obtain ⟨windows, grown, demanded⟩ := ih
      exact pageAlloc_grown grown demanded

theorem PoolGrown.bounds {count windows : Nat} {pool : PagePool} (grown : PoolGrown count windows pool) :
    count ≤ windows * 512 := by
  have balance := grown.balance
  rw [grown.numPages, growSizePages] at balance
  omega

theorem fromPool_iff {pool : PagePool} (small : pool.numPages < 2 ^ 19) (pa : PhysAddr) :
    pageIsFromPool pool pa = true ↔
      ∃ page < pool.numPages, (pageToPa page).toNat ≤ pa.toNat ∧
        pa.toNat < (pageToPa page).toNat + 4096 := by
  rw [pageIsFromPool_iff, poolEnd_toNat small]
  constructor
  · rintro ⟨above, below⟩
    refine ⟨(pa.toNat - 0x200000000) / 4096, by omega, ?_⟩
    rw [pageToPa_toNat (by omega)]
    omega
  · rintro ⟨page, inPool, above, below⟩
    rw [pageToPa_toNat (by omega)] at above below
    omega

theorem windowBase {window : Nat} (small : window < 1024) :
    pageBase + poolBytes (window * growSizePages) = pageToPa (window * growSizePages) := by
  apply BitVec.eq_of_toNat_eq
  rw [growSizePages, poolEnd_toNat (by omega), pageToPa_toNat (by omega)]

/-- All of it holds below 2 GB, and at 2 GB the pool stops recognising its pages. -/
theorem PoolGrown.window_iff {count windows : Nat} {pool : PagePool}
    (grown : PoolGrown count windows pool) (started : 0 < windows) :
    PoolWindow pool ↔ windows < 1024 := by
  have size := grown.numPages
  rw [growSizePages] at size
  constructor
  · intro window
    by_contra large
    have bounded := window.bounded
    have wrapped := poolEnd_wrapped (show 2 ^ 19 ≤ pool.numPages by omega) bounded
    have recognised : pageIsFromPool pool (pageToPa 0) = true :=
      (window.fromPool _).mpr ⟨0, by omega, Nat.le_refl _, Nat.lt_add_of_pos_right (by omega)⟩
    rw [pageIsFromPool_iff] at recognised
    omega
  · intro small
    have mapped : ∀ window base, pool.mapped[window]? = some base →
        window < 1024 ∧ base = pageToPa (window * growSizePages) := by
      intro window base entry
      rw [grown.mapped, List.getElem?_map, Option.map_eq_some_iff] at entry
      obtain ⟨index, listed, rfl⟩ := entry
      obtain ⟨inside, rfl⟩ := List.getElem?_eq_some_iff.mp listed
      rw [List.length_range] at inside
      rw [List.getElem_range]
      exact ⟨by omega, windowBase (by omega)⟩
    refine ⟨?_, ?_, ?_, ?_, ?_⟩
    · rw [size, maxPages]
      omega
    · rw [grown.mapped, List.length_map, List.length_range, grown.numPages]
    · intro window base entry
      exact (mapped window base entry).2
    · intro base listed
      obtain ⟨window, inside, rfl⟩ := List.getElem_of_mem listed
      obtain ⟨below, start⟩ := mapped window _ (List.getElem?_eq_getElem inside)
      rw [start, growSizePages, pageToPa_toNat (by omega), pageBase, BitVec.toNat_ofNat]
      omega
    · exact fromPool_iff (by omega)

/-- The window is right through every number of allocations up to 523776, the last
that 1023 windows serve, and no further. -/
theorem pool_window_iff {ref : Nat → Nat} {pool : PagePool}
    (initialised : pageInit (fun _ => true) ref = some pool) (total : Nat) :
    (∀ count ≤ total, PoolWindow (pageAllocs count pool)) ↔ total ≤ 523776 := by
  constructor
  · intro right
    by_contra large
    obtain ⟨windows, grown, _⟩ := pageAllocs_grown initialised 523777
    have bounds := grown.bounds
    have small := (grown.window_iff (by omega)).mp (right 523777 (by omega))
    omega
  · intro bound count counted
    obtain ⟨windows, grown, demanded⟩ := pageAllocs_grown initialised count
    have bounds := grown.bounds
    have started : 0 < windows := by
      rcases demanded with one | used
      · omega
      · omega
    refine (grown.window_iff started).mpr ?_
    rcases demanded with one | used
    · omega
    · rw [growSizePages] at used
      omega

/-- The first 523776 allocations of a fresh pool stay in its window. -/
theorem pool_window_iff_fresh :
    ∃ pool, pageInit (fun _ => true) (fun _ => 0) = some pool ∧
      ∀ count ≤ 523776, PoolWindow (pageAllocs count pool) := by
  obtain ⟨pool, initialised, _⟩ := pageInit_succeeds (fun _ => true) (fun _ => 0) rfl
  exact ⟨pool, initialised, (pool_window_iff initialised 523776).mpr (Nat.le_refl _)⟩

/-- One allocation more starts the window at 2 GB: the pool has 2 ^ 19 pages, as `MAX_PAGES`
allows, and takes none of them for its own. -/
theorem pool_window_lost :
    ∃ pool, pageInit (fun _ => true) (fun _ => 0) = some pool ∧
      ¬ PoolWindow (pageAllocs 523777 pool) ∧
      ∀ pa, pageIsFromPool (pageAllocs 523777 pool) pa = false := by
  obtain ⟨pool, initialised, _⟩ := pageInit_succeeds (fun _ => true) (fun _ => 0) rfl
  obtain ⟨windows, grown, demanded⟩ := pageAllocs_grown initialised 523777
  have bounds := grown.bounds
  have size := grown.numPages
  rw [growSizePages] at size
  have started : 0 < windows := by omega
  have exact : windows = 1024 := by
    rcases demanded with one | used
    · omega
    · rw [growSizePages] at used
      omega
  refine ⟨pool, initialised, ?_, ?_⟩
  · rw [grown.window_iff started]
    omega
  · intro pa
    have wrapped := poolEnd_wrapped (show 2 ^ 19 ≤ (pageAllocs 523777 pool).numPages by omega)
      (by unfold maxPages; omega)
    rw [← Bool.not_eq_true, pageIsFromPool_iff]
    omega

end RdmaPaging

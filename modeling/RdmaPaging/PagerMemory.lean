import RdmaPaging.PagerFault
import RdmaPaging.VmUnmapForeign

/-!
The pages of the pager's region and their frames. `dune_va_to_pa` gives every page a frame of its
own, and the handler's lookup and store map the page that was touched and no other.
-/

namespace RdmaPaging

open RadixTree

def pageAt (config : PagerConfig) (page : Nat) : Nat := config.page + page * pageSize

/-- The frame that the handler maps a page to. -/
def ownFrame (config : PagerConfig) (page : Nat) : PhysAddr :=
  duneVaToPa config.layout (BitVec.ofNat 64 (pageAt config page))

/-- The region is one of whole pages in the user's half, and the kernel module has a guest-physical
address for each of them. -/
structure Backed (physBits : Nat) (mm : MmStruct) (config : PagerConfig) : Prop where
  wide : 32 ≤ physBits
  narrow : physBits ≤ 52
  layout : config.layout = getLayout physBits mm
  aligned : pageSize ∣ config.page
  user : config.page + pageLen config ≤ 2 ^ 47
  valid : ∀ page < config.pageNr, hvaToGpa physBits mm (BitVec.ofNat 64 (pageAt config page)) ≠ addrInval

variable {physBits : Nat} {mm : MmStruct} {config : PagerConfig} {page other : Nat}

section Frames

variable (backed : Backed physBits mm config)

include backed

theorem Backed.pageAt_bounds (inside : page < config.pageNr) : config.page ≤ pageAt config page ∧
    pageAt config page + pageSize ≤ config.page + pageLen config ∧
    pageAt config page + pageSize ≤ 2 ^ 47 ∧ pageAt config page % pageSize = 0 := by
  have user := backed.user
  obtain ⟨first, isFirst⟩ := backed.aligned
  have order := Nat.mul_le_mul_right pageSize (show page + 1 ≤ config.pageNr from inside)
  unfold pageAt pageLen at *
  unfold pageSize at *
  omega

theorem Backed.pageAt_toNat (inside : page < config.pageNr) :
    (BitVec.ofNat 64 (pageAt config page)).toNat = pageAt config page := by
  have bounds := (backed.pageAt_bounds inside).2.2.1
  rw [BitVec.toNat_ofNat, Nat.mod_eq_of_lt (by omega)]

theorem Backed.ownFrame_eq (inside : page < config.pageNr) :
    ownFrame config page = hvaToGpa physBits mm (BitVec.ofNat 64 (pageAt config page)) := by
  rw [ownFrame, backed.layout, duneVaToPa_eq_hvaToGpa (backed.valid page inside)]

/-- The frame is the address that `dune_va_to_pa` gives, which is that of a page. -/
theorem Backed.pteAddr_ownFrame (inside : page < config.pageNr) :
    pteAddr (ownFrame config page) = ownFrame config page := by
  obtain ⟨_, _, _, aligned⟩ := backed.pageAt_bounds inside
  have valid := backed.valid page inside
  have small := hvaToGpa_lt backed.wide backed.narrow valid
  have limit := (physEnd_bounds backed.wide backed.narrow).2
  rw [backed.ownFrame_eq inside]
  refine pteAddr_of_aligned (hvaToGpa_aligned backed.wide backed.narrow valid ?_) (by omega)
  rw [backed.pageAt_toNat inside]
  exact aligned

/-- No two pages have one frame. -/
theorem Backed.ownFrame_injective (inside : page < config.pageNr) (otherInside : other < config.pageNr)
    (same : ownFrame config page = ownFrame config other) : page = other := by
  rw [backed.ownFrame_eq inside, backed.ownFrame_eq otherInside] at same
  have address := congrArg (gpaToHva physBits mm) same
  rw [gpaToHva_hvaToGpa backed.wide backed.narrow (backed.valid page inside),
    gpaToHva_hvaToGpa backed.wide backed.narrow (backed.valid other otherInside)] at address
  have value := congrArg BitVec.toNat address
  rw [backed.pageAt_toNat inside, backed.pageAt_toNat otherInside, pageAt, pageAt] at value
  unfold pageSize at value
  omega

/-- The first byte of a page of the region. -/
theorem Backed.page_of_base {addr : Nat} (inside : inRegion config addr = true)
    (aligned : addr % pageSize = 0) :
    ∃ page < config.pageNr, addr = pageAt config page := by
  obtain ⟨first, isFirst⟩ := backed.aligned
  simp only [inRegion, Bool.and_eq_true, decide_eq_true_eq] at inside
  unfold pageAt pageSize at *
  refine ⟨(addr - config.page) / 4096, ?_, ?_⟩ <;> omega

omit backed in
/-- An address of the region is a byte of one of its pages. -/
theorem page_of_mem {addr : Nat} (inside : inRegion config addr = true) :
    ∃ page < config.pageNr, ∃ index < pageSize, addr = pageAt config page + index := by
  simp only [inRegion, Bool.and_eq_true, decide_eq_true_eq] at inside
  unfold pageAt pageSize at *
  refine ⟨(addr - config.page) / 4096, ?_, (addr - config.page) % 4096, ?_, ?_⟩ <;> omega

theorem Backed.page_number {index : Nat} (inside : page < config.pageNr) (bound : index < pageSize) :
    (pageAt config page + index) / pageSize * pageSize = pageAt config page ∧
      (pageAt config page + index) % pageSize = index := by
  obtain ⟨_, _, _, aligned⟩ := backed.pageAt_bounds inside
  unfold pageSize at *
  omega

theorem Backed.page_ne (different : page ≠ other) :
    pageAt config page / pageSize ≠ pageAt config other / pageSize := by
  obtain ⟨first, isFirst⟩ := backed.aligned
  unfold pageAt pageSize at *
  omega

theorem Backed.frameAt_byte {vm : Vm} {index : Nat} (inside : page < config.pageNr)
    (bound : index < pageSize) :
    frameAt config vm (pageAt config page + index) = frameAt config vm (pageAt config page) := by
  obtain ⟨base, _⟩ := backed.page_number inside bound
  obtain ⟨start, _⟩ := backed.page_number inside (show 0 < pageSize by decide)
  rw [Nat.add_zero] at start
  rw [frameAt, frameAt, base, start]

/-- The bytes of a page are in the frame that it is mapped to. -/
theorem Backed.loadByte_page {state : Pager} {frame : PhysAddr} {index : Nat} (inside : page < config.pageNr)
    (bound : index < pageSize) (mapped : frameAt config state.vm (pageAt config page) = some frame) :
    loadByte config state (pageAt config page + index) = some (state.frames frame ⟨index, bound⟩) := by
  have position : pageOffset (pageAt config page + index) = ⟨index, bound⟩ :=
    Fin.ext (backed.page_number inside bound).2
  rw [loadByte, backed.frameAt_byte inside bound, mapped, Option.map_some, position]

/-- A copy of a whole page takes its frame. -/
theorem Backed.loadBytes_page {state : Pager} (inside : page < config.pageNr) :
    loadBytes config state (pageAt config page) =
      (frameAt config state.vm (pageAt config page)).map state.frames := by
  obtain ⟨_, _, _, aligned⟩ := backed.pageAt_bounds inside
  rw [loadBytes, backed.frameAt_byte inside (show pageSize - 1 < pageSize by decide)]
  cases frameAt config state.vm (pageAt config page) with
  | none => rfl
  | some frame =>
      simp only [Option.map_some, Option.some.injEq]
      funext index
      have position : pageOffset (pageAt config page + index) = index :=
        Fin.ext (backed.page_number inside index.isLt).2
      rw [ite_self, position]

end Frames

/-! The handler's lookup and store. -/

/-- No entry maps the page. -/
def BlankPage (config : PagerConfig) (vm : Vm) (page : Nat) : Prop :=
  (leafOf vm.mem config.pgroot (pageAt config page)).2 = 0

/-- What a lookup with creation for a page and the store to its entry make of the tables. -/
structure InstallsPage (config : PagerConfig) (vm next : Vm) (page : Nat) : Prop where
  grounded : Grounded entryBuilt [treeOf config.pgroot] next
  own : frameAt config next (pageAt config page) = some (ownFrame config page)
  kept : ∀ other < config.pageNr, other ≠ page →
    frameAt config next (pageAt config other) = frameAt config vm (pageAt config other)
  blank : ∀ other < config.pageNr, other ≠ page → BlankPage config vm other → BlankPage config next other

variable {vm looked : Vm} {slot : PteRef}

/-- The frame of a page, by its leaf. -/
theorem Backed.frameAt_leaf (backed : Backed physBits mm config)
    (grounded : Grounded entryBuilt [treeOf config.pgroot] vm) (inside : page < config.pageNr) :
    frameAt config vm (pageAt config page) =
      (leafTranslates (leafOf vm.mem config.pgroot (pageAt config page)) (pageAt config page)).map
        Translation.pa := by
  obtain ⟨start, _⟩ := backed.page_number inside (show 0 < pageSize by decide)
  rw [Nat.add_zero] at start
  rw [frameAt, start, translate_leaf grounded.forest]

theorem BlankPage.frame (backed : Backed physBits mm config)
    (grounded : Grounded entryBuilt [treeOf config.pgroot] vm) (inside : page < config.pageNr)
    (blank : BlankPage config vm page) : frameAt config vm (pageAt config page) = none := by
  have absent : ptePresent 0 = false := by decide
  rw [backed.frameAt_leaf grounded inside, leafTranslates, blank, absent]
  rfl

/-- The lookup for a page that is not mapped makes its tables and changes no mapping. -/
theorem BlankPage.lookup (grounded : Grounded entryBuilt [treeOf config.pgroot] vm)
    (blank : BlankPage config vm page)
    (looks : vmLookup config.pgroot (pageAt config page) .normal vm = (some (some slot), looked))
    (bounded : looked.pool.numPages ≤ maxPages) :
    ∃ table, slot = ⟨table, pdx 0 (pageAt config page)⟩ ∧
      Grounded entryBuilt [treeOf config.pgroot] looked ∧
      tableFor looked.mem config.pgroot 0 (pageAt config page) = some table ∧
      ∀ va, SameLeaf (leafOf looked.mem config.pgroot va) (leafOf vm.mem config.pgroot va) :=
  lookup_page grounded (Or.inr blank) looks bounded

/-- The handler maps the page that was touched, and changes the mapping of no other. -/
theorem Backed.installs (backed : Backed physBits mm config)
    (grounded : Grounded entryBuilt [treeOf config.pgroot] vm) (inside : page < config.pageNr)
    (blank : BlankPage config vm page)
    (looks : vmLookup config.pgroot (pageAt config page) .normal vm = (some (some slot), looked))
    (bounded : looked.pool.numPages ≤ maxPages) :
    InstallsPage config vm (looked.setPte slot (faultPte config (pageAt config page))) page := by
  obtain ⟨table, rfl, sound, leads, same⟩ := blank.lookup grounded looks bounded
  obtain ⟨_, _, user, _⟩ := backed.pageAt_bounds inside
  have stored : Grounded entryBuilt [treeOf config.pgroot]
      (looked.setPte ⟨table, pdx 0 (pageAt config page)⟩ (faultPte config (pageAt config page))) :=
    sound.storeLeaf (tableFor_table leads) (pdx_bound _ _) (by simp) (by simp) sound.list sound.fresh
  have leaf : ∀ other < config.pageNr, other ≠ page →
      SameLeaf (leafOf (looked.setPte ⟨table, pdx 0 (pageAt config page)⟩
          (faultPte config (pageAt config page))).mem config.pgroot (pageAt config other))
        (leafOf vm.mem config.pgroot (pageAt config other)) := by
    intro other otherInside different
    obtain ⟨_, _, otherUser, _⟩ := backed.pageAt_bounds otherInside
    change SameLeaf (leafOf (setWord looked.mem table _ _) _ _) _
    rw [sound.store_leaf leads (by omega) (by omega) (by simp), if_neg]
    · exact same _
    · rw [entrySpan_zero]
      exact backed.page_ne different
  refine ⟨stored, ?_, ?_, ?_⟩
  · rw [install_frame sound (by unfold pageSize at user; omega) leads rfl, ← ownFrame,
      backed.pteAddr_ownFrame inside]
  · intro other otherInside different
    rw [backed.frameAt_leaf stored otherInside, backed.frameAt_leaf grounded otherInside,
      (leaf other otherInside different).translates]
  · intro other otherInside different isBlank
    exact (leaf other otherInside different).blank isBlank

end RdmaPaging

import RdmaPaging.SandboxMemory
import RdmaPaging.UmmSpace

/-!
The break that `umm_brk` emulates, through any calls of the library.
-/

namespace RdmaPaging

inductive BreakCall
  | allocStack
  | call (call : UmmCall)

def breakCall (config : UmmConfig) (call : BreakCall) (will : HostWill) (umm : Umm) :
    Option UmmResult × Umm :=
  match call with
  | .allocStack => ummAllocStack config will umm
  | .call call => ummCall config call will umm

/-- `heap` holds the pages that the host has mapped for `umm_brk`, which no other call
changes, and `last` the break that the last successful call set. -/
structure BreakState where
  umm : Umm
  heap : HostMap
  last : VirtAddr

/-- The host calls of `umm_brk` on the pages of the heap alone. -/
def brkHeap (config : UmmConfig) (brk : VirtAddr) (will : HostWill) (state : BreakState) : HostMap :=
  (ummBrk config brk will { state.umm with host := state.heap }).2.host

def breakStep (config : UmmConfig) (state : BreakState) (call : BreakCall × HostWill) :
    Option BreakState :=
  match breakCall config call.1 call.2 state.umm with
  | (none, _) => none
  | (some result, umm) =>
      match call.1, result with
      | .call (.brk brk), .value _ =>
          some ⟨umm, brkHeap config brk call.2 state, if brk = 0 then state.last else brk⟩
      | .call (.brk brk), .error _ => some ⟨umm, brkHeap config brk call.2 state, state.last⟩
      | _, _ => some ⟨umm, state.heap, state.last⟩

/-- Nothing is allocated, and no break was set. -/
structure BreakStart (state : BreakState) : Prop where
  brkLen : state.umm.brkLen = 0
  mmapLen : state.umm.mmapLen = 0
  heap : ∀ page, state.heap page = false
  last : state.last = ummAddrStart

/-- The pages of a heap of `brkLen` bytes are mapped, and none below it. -/
structure HeapKept (heap : HostMap) (brkLen : Size) : Prop where
  below : ∀ page < ummAddrStart.toNat / 4096, heap page = false
  mapped : ∀ page, ummAddrStart.toNat / 4096 ≤ page →
    page < (ummAddrStart.toNat + brkLen.toNat) / 4096 → heap page = true

structure BreakInv (state : BreakState) : Prop where
  space : SpaceInv state.umm []
  kept : HeapKept state.heap state.umm.brkLen

section Break

variable {config : UmmConfig} {brk : VirtAddr} {will : HostWill} {state : BreakState} {umm next : Umm}

def HostMap.grow (host : HostMap) (old new : Size) : HostMap := host.map (ummAddrStart + old) (new - old)

def HostMap.shrink (host : HostMap) (old new : Size) : HostMap :=
  host.unmap (ummAddrStart + new) (old - new)

/-- From the length `old` and for the length `len` of a request, the length afterwards and
the change of the map. A growth that the page table does not take is undone, unless the host
refuses that too. -/
inductive BrkHost (old len : Size) : Size → (HostMap → HostMap) → Prop
  | same : BrkHost old len old id
  | shrunk : len < old → BrkHost old len len (·.shrink old len)
  | grown : old < len → BrkHost old len len (·.grow old len)
  | leaked : old < len → BrkHost old len old (·.grow old len)
  | undone : old < len →
      BrkHost old len old fun host => (host.grow old len).unmap (ummAddrStart + old) (len - old)

/-- The changes of the map by `umm_mmap_anom`. -/
inductive MapHost (addr : VirtAddr) (len : Size) : UmmResult → (HostMap → HostMap) → Prop
  | refused (code : Int) : MapHost addr len (.error code) id
  | mapped (value : BitVec 64) : MapHost addr len (.value value) (·.map addr len)
  | leaked (code : Int) : MapHost addr len (.error code) (·.map addr len)
  | undone (code : Int) : MapHost addr len (.error code) fun host => (host.map addr len).unmap addr len

theorem ummMapFixed_host {addr : VirtAddr} {len : Size} {perm : Perm} {answer : UmmResult}
    (called : ummMapFixed config addr len perm will umm = (some answer, next)) :
    ∃ change, MapHost addr len answer change ∧ next.brkLen = umm.brkLen ∧
      ∀ host, ummMapFixed config addr len perm will { umm with host := host } =
        (some answer, { next with host := change host }) := by
  by_cases fits : (will.first && len ≠ 0 && hostFits addr len) = true
  · simp only [ummMapFixed, hostMmap, if_pos fits] at called ⊢
    split at called
    · exact (no_answer called).elim
    split at called
    · rename_i zero
      obtain ⟨rfl, rfl⟩ := answer_eq called
      exact ⟨_, .mapped 0, rfl, fun host => by simp only [if_pos zero]⟩
    · rename_i nonzero
      obtain ⟨rfl, rfl⟩ := answer_eq called
      by_cases undone : (will.second && len ≠ 0 && hostFits addr len) = true
      · refine ⟨_, .undone _, rfl, fun host => ?_⟩
        simp only [if_neg nonzero, hostMunmap, if_pos undone, Option.getD_some]
      · refine ⟨_, .leaked _, rfl, fun host => ?_⟩
        simp only [if_neg nonzero, hostMunmap, if_neg undone, Option.getD_none]
  · simp only [ummMapFixed, hostMmap, if_neg fits] at called ⊢
    obtain ⟨rfl, rfl⟩ := answer_eq called
    exact ⟨id, .refused _, rfl, fun _ => rfl⟩

theorem ummBrk_host {result : UmmResult}
    (called : ummBrk config brk will umm = (some result, next)) :
    ∃ change, BrkHost umm.brkLen (pgRound (brk - ummAddrStart)) next.brkLen change ∧
      ∀ host, ummBrk config brk will { umm with host := host } =
        (some result, { next with host := change host }) := by
  simp only [ummBrk] at called ⊢
  split at called
  · rename_i zero
    obtain ⟨rfl, rfl⟩ := answer_eq called
    exact ⟨id, .same, fun host => if_pos zero⟩
  rename_i nonzero
  simp only [if_neg nonzero]
  split at called
  · rename_i low
    obtain ⟨rfl, rfl⟩ := answer_eq called
    exact ⟨id, .same, fun host => if_pos low⟩
  rename_i above
  simp only [if_neg above]
  split at called
  · rename_i full
    obtain ⟨rfl, rfl⟩ := answer_eq called
    exact ⟨id, .same, fun host => if_pos full⟩
  rename_i left
  simp only [if_neg left]
  split at called
  · rename_i equal
    obtain ⟨rfl, rfl⟩ := answer_eq called
    exact ⟨id, .same, fun host => if_pos equal⟩
  rename_i differs
  simp only [if_neg differs]
  split at called
  · rename_i shrinks
    simp only [if_pos shrinks]
    by_cases fits : (will.first && umm.brkLen - pgRound (brk - ummAddrStart) ≠ 0 &&
      hostFits (ummAddrStart + pgRound (brk - ummAddrStart))
        (umm.brkLen - pgRound (brk - ummAddrStart))) = true
    · simp only [hostMunmap, if_pos fits] at called ⊢
      split at called
      · exact (no_answer called).elim
      · obtain ⟨rfl, rfl⟩ := answer_eq called
        exact ⟨_, .shrunk shrinks, fun host => rfl⟩
    · simp only [hostMunmap, if_neg fits] at called ⊢
      obtain ⟨rfl, rfl⟩ := answer_eq called
      exact ⟨id, .same, fun _ => rfl⟩
  · rename_i grows
    simp only [if_neg grows]
    have order : umm.brkLen < pgRound (brk - ummAddrStart) := by
      exact BitVec.lt_of_le_ne (BitVec.not_lt.mp grows) fun same => differs same.symm
    rcases mapped : ummMmapAnom config (ummAddrStart + umm.brkLen)
      (pgRound (brk - ummAddrStart) - umm.brkLen) (protRead ||| protWrite) false will umm with
      ⟨_ | answer, after⟩
    · rw [mapped] at called
      exact (no_answer called).elim
    obtain ⟨change, mapHost, brkLen, every⟩ := ummMapFixed_host mapped
    rw [mapped] at called
    cases mapHost with
    | refused code =>
        obtain ⟨rfl, rfl⟩ := answer_eq called
        refine ⟨id, ?_, fun host => ?_⟩
        · rw [brkLen]
          exact .same
        · simp only [ummMmapAnom, every host]
    | mapped value =>
        obtain ⟨rfl, rfl⟩ := answer_eq called
        refine ⟨_, .grown order, fun host => ?_⟩
        simp only [ummMmapAnom, every host]
        rfl
    | leaked code =>
        obtain ⟨rfl, rfl⟩ := answer_eq called
        refine ⟨(·.grow umm.brkLen (pgRound (brk - ummAddrStart))), ?_, fun host => ?_⟩
        · rw [brkLen]
          exact .leaked order
        · simp only [ummMmapAnom, every host]
          rfl
    | undone code =>
        obtain ⟨rfl, rfl⟩ := answer_eq called
        refine ⟨fun host => (host.grow umm.brkLen (pgRound (brk - ummAddrStart))).unmap
          (ummAddrStart + umm.brkLen) (pgRound (brk - ummAddrStart) - umm.brkLen), ?_, fun host => ?_⟩
        · rw [brkLen]
          exact .undone order
        · simp only [ummMmapAnom, every host]
          rfl

/-! The counters through the other calls. -/

theorem ummUnmapBoth_counters {addr : VirtAddr} {len : Size} {host : HostMap} {answer : Option UmmResult}
    (called : ummUnmapBoth config addr len host umm = (answer, next)) :
    next.brkLen = umm.brkLen ∧ next.mmapLen = umm.mmapLen := by
  rw [ummUnmapBoth] at called
  split at called <;> (obtain ⟨_, rfl⟩ := Prod.mk.inj called; exact ⟨rfl, rfl⟩)

theorem ummMunmap_moves {addr : VirtAddr} {len : Size} {answer : Option UmmResult}
    (called : ummMunmap config addr len will umm = (answer, next)) : SpaceMove umm next false none := by
  rw [ummMunmap] at called
  split at called
  · obtain ⟨_, rfl⟩ := Prod.mk.inj called
    exact .same rfl rfl
  split at called
  · obtain ⟨brkLen, mmapLen⟩ := ummUnmapBoth_counters called
    exact .same brkLen mmapLen
  split at called
  · obtain ⟨brkLen, mmapLen⟩ := ummUnmapBoth_counters called
    exact .same brkLen mmapLen
  · obtain ⟨_, rfl⟩ := Prod.mk.inj called
    exact .same rfl rfl

theorem ummMprotect_moves {addr : VirtAddr} {len : Size} {prot : BitVec 32} {answer : Option UmmResult}
    (called : ummMprotect config addr len prot will umm = (answer, next)) : SpaceMove umm next false none := by
  rw [ummMprotect] at called
  split at called
  · obtain ⟨_, rfl⟩ := Prod.mk.inj called
    exact .same rfl rfl
  split at called
  · obtain ⟨_, rfl⟩ := Prod.mk.inj called
    exact .same rfl rfl
  split at called <;> (obtain ⟨_, rfl⟩ := Prod.mk.inj called; exact .same rfl rfl)

def UmmCall.isBrk : UmmCall → Bool
  | .brk _ => true
  | _ => false

/-- Any call moves the counters as one of those of the address range does. -/
theorem ummCall_moves {call : UmmCall} {result : UmmResult}
    (called : ummCall config call will umm = (some result, next)) :
    ∃ range, SpaceMove umm next call.isBrk range := by
  cases call <;> rw [ummCall] at called
  case brk => exact ⟨_, ummBrk_moves called⟩
  case mmap addr len prot flags fd =>
    by_cases null : addr = 0
    · subst null
      exact ⟨_, ummMmap_moves called⟩
    · rw [ummMmap, if_neg null] at called
      split at called
      · obtain ⟨rfl, rfl⟩ := answer_eq called
        exact ⟨_, .same rfl rfl⟩
      · exact ⟨_, (ummMmapAt_placed called).stay⟩
  case munmap => exact ⟨_, ummMunmap_moves called⟩
  case mprotect => exact ⟨_, ummMprotect_moves called⟩
  case mremap old oldSize newSize flags new =>
    by_cases fixed : flags &&& mremapFixed = 0
    · exact ⟨_, ummMremap_moves fixed called⟩
    · rw [ummMremap] at called
      split at called
      · obtain ⟨rfl, rfl⟩ := answer_eq called
        exact ⟨_, .same rfl rfl⟩
      split at called
      · obtain ⟨rfl, rfl⟩ := answer_eq called
        exact ⟨_, .same rfl rfl⟩
      · exact ⟨_, (ummMremapAt_placed called).stay⟩
  case shmat segsz addr shmflg =>
    by_cases null : addr = 0
    · subst null
      exact ⟨_, ummShmat_moves called⟩
    · cases segsz with
      | none =>
          obtain ⟨rfl, rfl⟩ := answer_eq called
          exact ⟨_, .same rfl rfl⟩
      | some len =>
          simp only [ummShmat, if_neg null] at called
          split at called
          · obtain ⟨rfl, rfl⟩ := answer_eq called
            exact ⟨_, .same rfl rfl⟩
          · exact ⟨_, (ummShmatAt_placed called).stay⟩

theorem SpaceInv.forget {given : List (Nat × Nat)} (inv : SpaceInv umm given) : SpaceInv umm [] :=
  ⟨inv.brkAligned, inv.mmapAligned, inv.room, nofun, .nil⟩

theorem breakCall_space {call : BreakCall} {result : UmmResult} (inv : SpaceInv umm [])
    (called : breakCall config call will umm = (some result, next)) : SpaceInv next [] := by
  cases call <;> rw [breakCall] at called
  case allocStack => exact (inv.move (ummAllocStack_moves inv called)).forget
  case call =>
    obtain ⟨range, moved⟩ := ummCall_moves called
    exact (inv.move moved).forget

/-! The pages of the heap. -/

theorem heapEnd_toNat {len : Size} (bound : len.toNat ≤ 0x400000000) :
    (ummAddrStart + len).toNat = 0x300000000 + len.toNat := by
  rw [BitVec.toNat_add, ummAddrStart_toNat]
  omega

/-- Whole pages from the end of a heap of `old` bytes up to the end of one of `new`. -/
theorem rangePages_between {old new : Size} (bound : old.toNat ≤ 0x400000000)
    (oldAligned : old.toNat % 4096 = 0) (newAligned : new.toNat % 4096 = 0) (order : old ≤ new) (page : Nat) :
    rangePages (ummAddrStart + old) (new - old) page = true ↔
      (0x300000000 + old.toNat) / 4096 ≤ page ∧ page < (0x300000000 + new.toNat) / 4096 := by
  have le : old.toNat ≤ new.toNat := order
  rw [rangePages, heapEnd_toNat bound, BitVec.toNat_sub_of_le order]
  simp only [Bool.and_eq_true, decide_eq_true_eq]
  omega

theorem map_true (host : HostMap) (addr : VirtAddr) (len : Size) (page : Nat) :
    host.map addr len page = true ↔ rangePages addr len page = true ∨ host page = true :=
  Bool.or_eq_true_iff

theorem rangePages_first {addr : VirtAddr} {len : Size} {page : Nat}
    (inside : rangePages addr len page = true) : addr.toNat / 4096 ≤ page := by
  simp only [rangePages, Bool.and_eq_true, decide_eq_true_eq] at inside
  exact inside.1

/-- Nothing changes below the end of the heap as it was. -/
theorem HeapKept.above {heap after : HostMap} {brkLen : Size} (kept : HeapKept heap brkLen)
    (same : ∀ page < (ummAddrStart.toNat + brkLen.toNat) / 4096, after page = heap page) :
    HeapKept after brkLen := by
  refine ⟨fun page below => ?_, fun page first last => ?_⟩
  · have inside : ummAddrStart.toNat / 4096 ≤ (ummAddrStart.toNat + brkLen.toNat) / 4096 :=
      Nat.div_le_div_right (Nat.le_add_right _ _)
    rw [same page (Nat.lt_of_lt_of_le below inside)]
    exact kept.below page below
  · rw [same page last]
    exact kept.mapped page first last

theorem rangePages_below {old len : Size} (bound : old.toNat ≤ 0x400000000) {page : Nat}
    (below : page < (ummAddrStart.toNat + old.toNat) / 4096) :
    rangePages (ummAddrStart + old) len page = false := by
  refine Bool.eq_false_iff.mpr fun inside => ?_
  have first := rangePages_first inside
  rw [heapEnd_toNat bound] at first
  rw [ummAddrStart_toNat] at below
  omega

theorem map_below {heap : HostMap} {old len : Size} (bound : old.toNat ≤ 0x400000000) {page : Nat}
    (below : page < (ummAddrStart.toNat + old.toNat) / 4096) :
    heap.map (ummAddrStart + old) len page = heap page := by
  rw [HostMap.map, rangePages_below bound below, Bool.false_or]

theorem unmap_below {heap : HostMap} {old len : Size} (bound : old.toNat ≤ 0x400000000) {page : Nat}
    (below : page < (ummAddrStart.toNat + old.toNat) / 4096) :
    heap.unmap (ummAddrStart + old) len page = heap page := by
  rw [HostMap.unmap, rangePages_below bound below, Bool.not_false, Bool.true_and]

theorem HeapKept.shorter {heap : HostMap} {old len : Size} (kept : HeapKept heap old) (order : len ≤ old) :
    HeapKept heap len := by
  refine ⟨kept.below, fun page first last => kept.mapped page first (Nat.lt_of_lt_of_le last ?_)⟩
  exact Nat.div_le_div_right (Nat.add_le_add_left order _)

theorem HeapKept.change {heap : HostMap} {old len new : Size} {change : HostMap → HostMap}
    (kept : HeapKept heap old) (bound : old.toNat ≤ 0x400000000) (oldAligned : old.toNat % 4096 = 0)
    (lenAligned : len.toNat % 4096 = 0) (changed : BrkHost old len new change) :
    HeapKept (change heap) new := by
  cases changed with
  | same => exact kept
  | shrunk order =>
      have le := BitVec.le_of_lt order
      exact (kept.shorter le).above fun page below => unmap_below (Nat.le_trans le bound) below
  | grown order =>
      have le := BitVec.le_of_lt order
      have grown : HeapKept (heap.grow old len) old := kept.above fun page below => map_below bound below
      refine ⟨grown.below, fun page first last => ?_⟩
      by_cases early : page < (ummAddrStart.toNat + old.toNat) / 4096
      · exact grown.mapped page first early
      · refine (map_true _ _ _ page).mpr (.inl ?_)
        refine (rangePages_between bound oldAligned lenAligned le page).mpr ⟨?_, last⟩
        exact Nat.le_of_not_lt early
  | leaked order => exact kept.above fun page below => map_below bound below
  | undone order =>
      exact kept.above fun page below => (unmap_below bound below).trans (map_below bound below)

theorem BreakStart.inv (fresh : BreakStart state) : BreakInv state := by
  have zero : (0 : Size).toNat = 0 := rfl
  refine ⟨⟨?_, ?_, ?_, nofun, .nil⟩, ⟨fun page _ => fresh.heap page, fun page first last => ?_⟩⟩
  · rw [fresh.brkLen, zero]
  · rw [fresh.mmapLen, zero]
  · rw [fresh.brkLen, fresh.mmapLen, zero]
    omega
  · rw [fresh.brkLen, zero] at last
    omega

theorem pgRound_aligned (len : Size) : (pgRound len).toNat % 4096 = 0 := by
  rw [pgRound_toNat]
  omega

theorem brkHeap_kept {result : UmmResult} (inv : BreakInv state)
    (called : ummBrk config brk will state.umm = (some result, next)) :
    HeapKept (brkHeap config brk will state) next.brkLen := by
  obtain ⟨change, changed, every⟩ := ummBrk_host called
  rw [brkHeap, every]
  have room := inv.space.room
  exact inv.kept.change (by omega) inv.space.brkAligned (pgRound_aligned _) changed

theorem BreakInv.steady {result : UmmResult} {call : UmmCall} (inv : BreakInv state)
    (other : call.isBrk = false) (called : ummCall config call will state.umm = (some result, next)) :
    HeapKept state.heap next.brkLen := by
  obtain ⟨range, moved⟩ := ummCall_moves called
  rw [other] at moved
  exact moved.brkLen ▸ inv.kept

theorem BreakInv.step {call : BreakCall × HostWill} {after : BreakState} (inv : BreakInv state)
    (stepped : breakStep config state call = some after) : BreakInv after := by
  obtain ⟨call, will⟩ := call
  rw [breakStep] at stepped
  rcases called : breakCall config call will state.umm with ⟨_ | result, umm⟩
  · rw [called] at stepped
    exact nomatch stepped
  rw [called] at stepped
  have space := breakCall_space inv.space called
  cases call with
  | allocStack =>
      obtain rfl := Option.some.inj stepped
      rw [breakCall] at called
      have same := (ummAllocStack_moves inv.space called).brkLen
      exact ⟨space, same ▸ inv.kept⟩
  | call call =>
      rw [breakCall] at called
      cases call with
      | brk brk =>
          rw [ummCall] at called
          cases result <;> (obtain rfl := Option.some.inj stepped; exact ⟨space, brkHeap_kept inv called⟩)
      | mmap | munmap | mprotect | mremap | shmat =>
          obtain rfl := Option.some.inj stepped
          exact ⟨space, inv.steady rfl called⟩

/-! A request that is served. -/

section Served

variable {heap : HostMap} {old len : Size}

end Served

end Break

def willing : HostWill := ⟨true, true, 0⟩

end RdmaPaging

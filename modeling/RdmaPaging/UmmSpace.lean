import RdmaPaging.UmmLock

/-!
The address range of the library when calls come one at a time: the heap grows up from its
start, and every other range is placed below the earlier ones, down from its end.
-/

namespace RdmaPaging

/-- A call that is given a range of the library's choice, with its other arguments. -/
inductive SpaceCall
  | allocStack
  | brk (brk : VirtAddr)
  | mmap (len : Size) (prot flags : BitVec 32) (fd : Int)
  | shmat (segsz : Option Size) (shmflg : BitVec 32)
  | mremap (old : VirtAddr) (oldSize newSize : Size) (flags : BitVec 32)

@[grind =] def spaceCall (config : UmmConfig) (call : SpaceCall) (will : HostWill) (umm : Umm) :
    Option UmmResult × Umm :=
  match call with
  | .allocStack => ummAllocStack config will umm
  | .brk brk => ummBrk config brk will umm
  | .mmap len prot flags fd => ummMmap config 0 len prot flags fd will umm
  | .shmat segsz shmflg => ummShmat config segsz 0 shmflg will umm
  | .mremap old oldSize newSize flags => ummMremap config old oldSize newSize flags 0 will umm

def SpaceCall.unfixed : SpaceCall → Prop
  | .mremap _ _ _ flags => flags &&& mremapFixed = 0
  | _ => True

/-- The range of whole pages that a successful call returns. -/
def SpaceCall.range : SpaceCall → UmmResult → Option (Nat × Nat)
  | .allocStack, .value top => some (top.toNat - appStackSize.toNat, appStackSize.toNat)
  | .mmap len _ _ _, .value addr => some (addr.toNat, (pgRound len).toNat)
  | .shmat (some len) _, .value addr => some (addr.toNat, (pgRound len).toNat)
  | .mremap _ _ newSize _, .value addr => some (addr.toNat, (pgRound newSize).toNat)
  | _, _ => none

/-- `given` holds the ranges that the calls so far returned, the latest first. -/
structure SpaceState where
  umm : Umm
  given : List (Nat × Nat)

def spaceStep (config : UmmConfig) (state : SpaceState) (call : SpaceCall × HostWill) :
    Option SpaceState :=
  match spaceCall config call.1 call.2 state.umm with
  | (none, _) => none
  | (some result, umm) => some ⟨umm, (call.1.range result).toList ++ state.given⟩

/-- How a call changes the counters, with the range that it returns. Only a `brk` changes the
heap. -/
inductive SpaceMove (start next : Umm) : Bool → Option (Nat × Nat) → Prop
  | same {isBrk : Bool} : next.brkLen = start.brkLen → next.mmapLen = start.mmapLen →
      SpaceMove start next isBrk none
  | heap (len : Size) : ummSpaceLeft start.brkLen start.mmapLen len = true → len.toNat % 4096 = 0 →
      len.toNat ≤ start.brkLen.toNat + 2 ^ 47 → next.brkLen = len → next.mmapLen = start.mmapLen →
      SpaceMove start next true none
  | range {isBrk : Bool} (len : Size) : ummSpaceLeft start.brkLen start.mmapLen len = true → len.toNat ≤ 2 ^ 47 →
      next.brkLen = start.brkLen → next.mmapLen = start.mmapLen + pgRound len →
      SpaceMove start next isBrk (some ((ummNextPos start.mmapLen len).toNat, (pgRound len).toNat))

theorem SpaceMove.brkLen {start next : Umm} {range : Option (Nat × Nat)}
    (moved : SpaceMove start next false range) : next.brkLen = start.brkLen := by
  cases moved with
  | same brkLen mmapLen => exact brkLen
  | range len left bound brkLen mmapLen => exact brkLen

structure SpaceInv (umm : Umm) (given : List (Nat × Nat)) : Prop where
  brkAligned : umm.brkLen.toNat % 4096 = 0
  mmapAligned : umm.mmapLen.toNat % 4096 = 0
  room : umm.brkLen.toNat + umm.mmapLen.toNat ≤ 0x400000000
  inside : ∀ range ∈ given, 0x700000000 - umm.mmapLen.toNat ≤ range.1 ∧ range.1 + range.2 ≤ 0x700000000
  apart : given.Pairwise rangesApart

section Moves

variable {config : UmmConfig} {start next : Umm} {given : List (Nat × Nat)} {range : Option (Nat × Nat)}

/-- The check of the space is made with the length as it is, and what is used up is whole
pages. -/
theorem SpaceInv.placed (inv : SpaceInv start given) {len : Size}
    (left : ummSpaceLeft start.brkLen start.mmapLen len = true) (bound : len.toNat ≤ 2 ^ 47) :
    start.brkLen.toNat + (start.mmapLen.toNat + (pgRound len).toNat) ≤ 0x400000000 ∧
      (start.mmapLen + pgRound len).toNat = start.mmapLen.toNat + (pgRound len).toNat ∧
      (pgRound len).toNat % 4096 = 0 := by
  obtain ⟨lower, upper, aligned⟩ := pgRound_bounds bound
  have brkAligned := inv.brkAligned
  have mmapAligned := inv.mmapAligned
  have room := inv.room
  rw [ummSpaceLeft_iff] at left
  rw [BitVec.toNat_add]
  omega

theorem SpaceInv.move (inv : SpaceInv start given) {isBrk : Bool}
    (moved : SpaceMove start next isBrk range) : SpaceInv next (range.toList ++ given) := by
  cases moved with
  | same brkLen mmapLen =>
      refine ⟨brkLen ▸ inv.brkAligned, mmapLen ▸ inv.mmapAligned, ?_, ?_, inv.apart⟩
      · rw [brkLen, mmapLen]
        exact inv.room
      · rw [mmapLen]
        exact inv.inside
  | heap len left aligned bound brkLen mmapLen =>
      refine ⟨brkLen ▸ aligned, mmapLen ▸ inv.mmapAligned, ?_, ?_, inv.apart⟩
      · have room := inv.room
        rw [ummSpaceLeft_iff] at left
        rw [brkLen, mmapLen]
        omega
      · rw [mmapLen]
        exact inv.inside
  | range len left bound brkLen mmapLen =>
      obtain ⟨fits, total, aligned⟩ := inv.placed left bound
      have position : (ummNextPos start.mmapLen len).toNat =
          0x700000000 - start.mmapLen.toNat - (pgRound len).toNat := ummNextPos_toNat (by omega)
      have mmapAligned := inv.mmapAligned
      refine ⟨brkLen ▸ inv.brkAligned, ?_, ?_, ?_, ?_⟩
      · rw [mmapLen, total]
        omega
      · rw [brkLen, mmapLen, total]
        exact fits
      · intro other member
        rw [mmapLen, total]
        rcases List.mem_cons.mp member with rfl | earlier
        · dsimp only
          omega
        · have within := inv.inside other earlier
          omega
      · refine List.pairwise_cons.mpr ⟨fun other earlier => .inl ?_, inv.apart⟩
        have within := inv.inside other earlier
        dsimp only
        omega

end Moves

/-! What each call does to the counters. -/

/-- A call for `len` bytes at `addr` fails, or uses up space if it is to adjust `mmap_len`. -/
def PlacedAt (start next : Umm) (addr : VirtAddr) (adjust : Bool) (len : Size) (result : UmmResult) :
    Prop :=
  (∃ code, result = .error code ∧ next.brkLen = start.brkLen ∧ next.mmapLen = start.mmapLen) ∨
    (result = .value addr ∧ len.toNat ≤ 2 ^ 47 ∧ next.brkLen = start.brkLen ∧
      next.mmapLen = (start.bump adjust len).mmapLen)

section Calls

variable {config : UmmConfig} {start next : Umm} {result : UmmResult} {addr : VirtAddr} {len : Size}
  {will : HostWill} {adjust : Bool} {given : List (Nat × Nat)}

theorem hostMmap_bound {host after : HostMap} (mapped : hostMmap will.first addr len host = some after) :
    len.toNat ≤ 2 ^ 47 := by
  have fits := (Option.ite_none_right_eq_some.mp mapped).1
  simp only [Bool.and_eq_true] at fits
  exact hostFits_bound fits.2

theorem hostShmat_bound {host : HostMap} {shmflg : BitVec 32} {mem : VirtAddr} {after : HostMap}
    (attached : hostShmat will.first addr len shmflg host = some (mem, after)) : len.toNat ≤ 2 ^ 47 := by
  have fits := (Option.ite_none_right_eq_some.mp attached).1
  simp only [Bool.and_eq_true] at fits
  exact hostFits_bound fits.2

theorem hostMremap_bound {host after : HostMap} {old new : VirtAddr} {oldSize : Size}
    (moved : hostMremap will.first old oldSize len new host = some after) : len.toNat ≤ 2 ^ 47 := by
  have fits := (Option.ite_none_right_eq_some.mp moved).1
  simp only [Bool.and_eq_true] at fits
  exact hostFits_bound fits.2

theorem Umm.bump_brkLen (umm : Umm) (adjust : Bool) (len : Size) :
    (umm.bump adjust len).brkLen = umm.brkLen := by
  cases adjust <;> rfl

theorem Umm.bump_mmapLen (umm : Umm) (adjust : Bool) (len : Size) : (umm.bump adjust len).mmapLen =
    if adjust then umm.mmapLen + pgRound len else umm.mmapLen := by
  cases adjust <;> rfl

theorem answer_eq {answer : UmmResult} {after : Umm} (same : (some answer, after) = (some result, next)) :
    answer = result ∧ after = next := by
  simpa using same

theorem no_answer {after : Umm} (same : (none, after) = (some result, next)) : False :=
  Option.some_ne_none _ (congrArg Prod.fst same).symm

/-- A failure that leaves the counters alone. -/
theorem PlacedAt.refused {code : Int} {after : Umm}
    (called : (some (.error code), after) = (some result, next)) (brkLen : after.brkLen = start.brkLen)
    (mmapLen : after.mmapLen = start.mmapLen) : PlacedAt start next addr adjust len result := by
  obtain ⟨rfl, rfl⟩ := answer_eq called
  exact .inl ⟨code, rfl, brkLen, mmapLen⟩

/-- An answer without a range that leaves the process as it is. -/
theorem SpaceMove.refused {isBrk : Bool} {answer : UmmResult} (range : UmmResult → Option (Nat × Nat))
    (called : (some answer, start) = (some result, next)) (without : range answer = none) :
    SpaceMove start next isBrk (range result) := by
  obtain ⟨rfl, rfl⟩ := answer_eq called
  rw [without]
  exact .same rfl rfl

/-- The counters are left alone, and what is mapped is below the host's bound. -/
theorem ummMapFixed_counters {perm : Perm} {answer : Option UmmResult}
    (mapped : ummMapFixed config addr len perm will start = (answer, next)) :
    next.brkLen = start.brkLen ∧ next.mmapLen = start.mmapLen ∧
      (∀ value, answer = some (.value value) → len.toNat ≤ 2 ^ 47) := by
  rw [ummMapFixed] at mapped
  split at mapped
  · obtain ⟨rfl, rfl⟩ := Prod.mk.inj mapped
    exact ⟨rfl, rfl, nofun⟩
  · rename_i host fits
    have bound := hostMmap_bound fits
    split at mapped
    · obtain ⟨rfl, rfl⟩ := Prod.mk.inj mapped
      exact ⟨rfl, rfl, nofun⟩
    · split at mapped
      · obtain ⟨rfl, rfl⟩ := Prod.mk.inj mapped
        exact ⟨rfl, rfl, fun _ _ => bound⟩
      · obtain ⟨rfl, rfl⟩ := Prod.mk.inj mapped
        exact ⟨rfl, rfl, nofun⟩

/-- The end of `umm_mmap`, after either way of mapping. -/
theorem mapped_placed {perm : Perm} {answer : Option UmmResult} {after : Umm}
    (mapped : ummMapFixed config addr len perm will start = (answer, after))
    (finished : (match (answer, after) with
      | (some (.value _), umm) => (some (.value addr), umm.bump adjust len)
      | other => other) = (some result, next)) : PlacedAt start next addr adjust len result := by
  obtain ⟨brkLen, mmapLen, bound⟩ := ummMapFixed_counters mapped
  rcases answer with _ | (value | code)
  · exact nomatch finished
  · obtain ⟨same, rfl⟩ := Prod.mk.inj finished
    obtain rfl := Option.some.inj same
    refine .inr ⟨rfl, bound value rfl, ?_, ?_⟩
    · rw [Umm.bump_brkLen, brkLen]
    · rw [Umm.bump_mmapLen, Umm.bump_mmapLen, mmapLen]
  · obtain ⟨same, rfl⟩ := Prod.mk.inj finished
    obtain rfl := Option.some.inj same
    exact .inl ⟨code, rfl, brkLen, mmapLen⟩

theorem ummMmapAt_placed {prot flags : BitVec 32} {fd : Int}
    (called : ummMmapAt config addr adjust len prot flags fd will start = (some result, next)) :
    PlacedAt start next addr adjust len result := by
  rw [ummMmapAt, ummMmapAnom, ummMmapFile] at called
  split at called
  · exact mapped_placed rfl called
  · split at called
    · exact mapped_placed rfl called
    · exact .refused called rfl rfl

theorem ummShmatAt_placed {shmflg : BitVec 32}
    (called : ummShmatAt config addr adjust len shmflg will start = (some result, next)) :
    PlacedAt start next addr adjust len result := by
  simp only [ummShmatAt] at called
  split at called
  · exact .refused called rfl rfl
  · rename_i attached
    have bound := hostShmat_bound attached
    split at called
    · exact .refused called rfl rfl
    · split at called
      · exact (no_answer called).elim
      · split at called
        · obtain ⟨rfl, rfl⟩ := answer_eq called
          exact .inr ⟨rfl, bound, Umm.bump_brkLen _ adjust len, by simp only [Umm.bump_mmapLen]⟩
        · exact .refused called rfl rfl

theorem ummMremapAt_placed {old : VirtAddr} {oldSize : Size} {flags : BitVec 32}
    (called : ummMremapAt config old oldSize len flags addr adjust will start = (some result, next)) :
    PlacedAt start next addr adjust len result := by
  simp only [ummMremapAt] at called
  split at called
  · exact .refused called rfl rfl
  · split at called
    · exact .refused called rfl rfl
    · rename_i moved
      have bound := hostMremap_bound moved
      split at called
      · exact (no_answer called).elim
      · split at called
        · obtain ⟨rfl, rfl⟩ := answer_eq called
          exact .inr ⟨rfl, bound, Umm.bump_brkLen _ adjust len, by simp only [Umm.bump_mmapLen]⟩
        · exact (no_answer called).elim

/-- A call that is placed below the earlier ranges makes a move. -/
theorem PlacedAt.move
    (placed : PlacedAt start next (ummNextPos start.mmapLen len) true len result)
    (left : ummSpaceLeft start.brkLen start.mmapLen len = true) (range : UmmResult → Option (Nat × Nat))
    (failed : ∀ code, range (.error code) = none)
    (returned : ∀ place, range (.value place) = some (place.toNat, (pgRound len).toNat)) :
    SpaceMove start next false (range result) := by
  rcases placed with ⟨code, rfl, brkLen, mmapLen⟩ | ⟨rfl, bound, brkLen, mmapLen⟩
  · rw [failed]
    exact .same brkLen mmapLen
  · rw [returned]
    exact .range len left bound brkLen mmapLen

/-- One that is placed elsewhere leaves the counters alone. -/
theorem PlacedAt.stay (placed : PlacedAt start next addr false len result) : SpaceMove start next false none := by
  rcases placed with ⟨_, _, brkLen, mmapLen⟩ | ⟨_, _, brkLen, mmapLen⟩
  · exact .same brkLen mmapLen
  · exact .same brkLen mmapLen

theorem ummMmap_moves {prot flags : BitVec 32} {fd : Int}
    (called : ummMmap config 0 len prot flags fd will start = (some result, next)) :
    SpaceMove start next false ((SpaceCall.mmap len prot flags fd).range result) := by
  rw [ummMmap, if_pos rfl] at called
  split at called
  · exact .refused _ called rfl
  · rename_i left
    exact (ummMmapAt_placed called).move (not_not.mp left) _ (fun _ => rfl) fun _ => rfl

theorem ummShmat_moves {segsz : Option Size} {shmflg : BitVec 32}
    (called : ummShmat config segsz 0 shmflg will start = (some result, next)) :
    SpaceMove start next false ((SpaceCall.shmat segsz shmflg).range result) := by
  cases segsz with
  | none =>
      obtain ⟨rfl, rfl⟩ := answer_eq called
      exact .same rfl rfl
  | some len =>
      simp only [ummShmat, if_true] at called
      split at called
      · exact .refused _ called rfl
      · rename_i left
        exact (ummShmatAt_placed called).move (not_not.mp left) _ (fun _ => rfl) fun _ => rfl

theorem ummMremap_moves {old new : VirtAddr} {oldSize : Size} {flags : BitVec 32}
    (unfixed : flags &&& mremapFixed = 0)
    (called : ummMremap config old oldSize len flags new will start = (some result, next)) :
    SpaceMove start next false ((SpaceCall.mremap old oldSize len flags).range result) := by
  rw [ummMremap] at called
  split at called
  · exact .refused _ called rfl
  · rw [if_neg (not_not.mpr unfixed)] at called
    split at called
    · exact .refused _ called rfl
    · rename_i left
      exact (ummMremapAt_placed called).move (not_not.mp left) _ (fun _ => rfl) fun _ => rfl

theorem ummBrk_moves {brk : VirtAddr}
    (called : ummBrk config brk will start = (some result, next)) : SpaceMove start next true none := by
  simp only [ummBrk] at called
  split at called
  · exact .refused (fun _ => none) called rfl
  split at called
  · exact .refused (fun _ => none) called rfl
  split at called
  · exact .refused (fun _ => none) called rfl
  rename_i left
  have aligned : (pgRound (brk - ummAddrStart)).toNat % 4096 = 0 := by
    rw [pgRound_toNat]
    omega
  split at called
  · exact .refused (fun _ => none) called rfl
  split at called
  · rename_i shrinks
    split at called
    · exact .refused (fun _ => none) called rfl
    · split at called
      · exact (no_answer called).elim
      · obtain ⟨rfl, rfl⟩ := answer_eq called
        refine .heap _ (not_not.mp left) aligned ?_ rfl rfl
        exact Nat.le_add_right_of_le (Nat.le_of_lt shrinks)
  · rename_i grows
    rcases mapped : ummMmapAnom config (ummAddrStart + start.brkLen)
      (pgRound (brk - ummAddrStart) - start.brkLen) (protRead ||| protWrite) false will start with
      ⟨answer, after⟩
    obtain ⟨brkLen, mmapLen, bound⟩ := ummMapFixed_counters mapped
    rw [mapped] at called
    rcases answer with _ | (value | code)
    · exact (no_answer called).elim
    · obtain ⟨rfl, rfl⟩ := answer_eq called
      refine .heap _ (not_not.mp left) aligned ?_ rfl mmapLen
      have limit := bound value rfl
      have order : start.brkLen ≤ pgRound (brk - ummAddrStart) := BitVec.not_lt.mp grows
      rw [BitVec.toNat_sub_of_le order] at limit
      omega
    · obtain ⟨rfl, rfl⟩ := answer_eq called
      exact .same brkLen mmapLen

theorem pgAddr_aligned (addr : VirtAddr) (aligned : addr.toNat % 4096 = 0) :
    addr &&& ~~~ 0xfff#64 = addr ∧ addr &&& 0xfff#64 = 0 := by
  have mask : (~~~ 0xfff#64 : VirtAddr).toNat = (2 ^ 52 - 1) * 2 ^ 12 := by decide
  have low : (0xfff#64 : VirtAddr).toNat = 2 ^ 12 - 1 := by decide
  have bound := addr.isLt
  refine ⟨BitVec.eq_of_toNat_eq ?_, BitVec.eq_of_toNat_eq ?_⟩
  · rw [BitVec.toNat_and, mask, fieldMask_and]
    omega
  · rw [BitVec.toNat_and, low, Nat.and_two_pow_sub_one_eq_mod]
    exact aligned

/-- The stack is placed as a range of its size. -/
theorem ummAllocStack_moves (inv : SpaceInv start given)
    (called : ummAllocStack config will start = (some result, next)) :
    SpaceMove start next false (SpaceCall.allocStack.range result) := by
  have room := inv.room
  have mmapAligned := inv.mmapAligned
  have last : ummAddrEnd.toNat = 0x700000000 := rfl
  have base : (ummGetMapPos start.mmapLen).toNat = 0x700000000 - start.mmapLen.toNat := by
    rw [ummGetMapPos, BitVec.toNat_sub, last]
    omega
  obtain ⟨top, rest⟩ := pgAddr_aligned (ummGetMapPos start.mmapLen) (by omega)
  have size : pgRound appStackSize = appStackSize := by decide
  have bytes : appStackSize.toNat = 0x800000 := rfl
  have total : appStackSize + 0 = pgRound appStackSize := by decide
  simp only [ummAllocStack, top, rest, total] at called
  split at called
  · exact .refused _ called rfl
  rename_i left
  have bottom : (ummGetMapPos start.mmapLen).toNat - appStackSize.toNat =
      (ummNextPos start.mmapLen appStackSize).toNat := by
    rw [ummNextPos, size, BitVec.toNat_sub_of_le (by rw [BitVec.le_def, base, bytes]; omega)]
  rcases mapped : ummMmapAnom config (ummGetMapPos start.mmapLen - appStackSize + 0x1000#64)
    (appStackSize - 0x1000#64) (protRead ||| protWrite) false will start with ⟨answer, after⟩
  obtain ⟨brkLen, mmapLen, _⟩ := ummMapFixed_counters mapped
  rw [mapped] at called
  rcases answer with _ | (value | code)
  · exact (no_answer called).elim
  · obtain ⟨rfl, rfl⟩ := answer_eq called
    have placed : SpaceMove start { after with mmapLen := after.mmapLen + pgRound appStackSize } false _ :=
      .range appStackSize (not_not.mp left) (by decide) brkLen
        (congrArg (· + pgRound appStackSize) mmapLen)
    rwa [← bottom, size] at placed
  · obtain ⟨rfl, rfl⟩ := answer_eq called
    exact .same brkLen mmapLen

theorem spaceCall_moves {call : SpaceCall} (unfixed : call.unfixed) (inv : SpaceInv start given)
    (called : spaceCall config call will start = (some result, next)) :
    ∃ isBrk, SpaceMove start next isBrk (call.range result) := by
  cases call <;> rw [spaceCall] at called
  case allocStack => exact ⟨_, ummAllocStack_moves inv called⟩
  case brk => exact ⟨_, ummBrk_moves called⟩
  case mmap => exact ⟨_, ummMmap_moves called⟩
  case shmat => exact ⟨_, ummShmat_moves called⟩
  case mremap => exact ⟨_, ummMremap_moves unfixed called⟩

end Calls

/-- What holds of the address range after any calls. -/
structure SpaceApart (state : SpaceState) : Prop where
  room : state.umm.brkLen.toNat + state.umm.mmapLen.toNat ≤ ummAddrEnd.toNat - ummAddrStart.toNat
  ranges : state.given.Pairwise rangesApart
  heap : ∀ range ∈ state.given, rangesApart (ummAddrStart.toNat, state.umm.brkLen.toNat) range
  inside : ∀ range ∈ state.given, ummAddrStart.toNat ≤ range.1 ∧ range.1 + range.2 ≤ ummAddrEnd.toNat

theorem SpaceInv.apartFromHeap {state : SpaceState} (inv : SpaceInv state.umm state.given) :
    SpaceApart state := by
  have first : ummAddrStart.toNat = 0x300000000 := rfl
  have last : ummAddrEnd.toNat = 0x700000000 := rfl
  have room := inv.room
  refine ⟨by rwa [first, last], inv.apart, fun range member => .inl ?_, fun range member => ?_⟩
  · have within := inv.inside range member
    rw [first]
    omega
  · have within := inv.inside range member
    rw [first, last]
    omega

theorem spaceStep_inv {config : UmmConfig} {state next : SpaceState} {call : SpaceCall × HostWill}
    (inv : SpaceInv state.umm state.given) (unfixed : call.1.unfixed)
    (stepped : spaceStep config state call = some next) : SpaceInv next.umm next.given := by
  rw [spaceStep] at stepped
  rcases called : spaceCall config call.1 call.2 state.umm with ⟨_ | result, umm⟩
  · rw [called] at stepped
    exact nomatch stepped
  · rw [called] at stepped
    obtain rfl := Option.some.inj stepped
    obtain ⟨_, moved⟩ := spaceCall_moves unfixed inv called
    exact inv.move moved

/-- From empty counters, whatever calls come one after the other and however the host
answers, the ranges that were returned stay apart from each other and from the heap. -/
theorem allocations_never_collide {config : UmmConfig} {start state : SpaceState}
    (brkLen : start.umm.brkLen = 0) (mmapLen : start.umm.mmapLen = 0) (given : start.given = [])
    (reached : Machine.Reaches (spaceStep config) (fun _ call => call.1.unfixed) start state) :
    SpaceApart state := by
  have initial : SpaceInv start.umm start.given := by
    have zero : (0 : Size).toNat = 0 := rfl
    rw [given]
    refine ⟨?_, ?_, ?_, nofun, .nil⟩
    · rw [brkLen, zero]
    · rw [mmapLen, zero]
    · rw [brkLen, mmapLen, zero]
      omega
  refine (reached.invariant (fun state => SpaceInv state.umm state.given) initial ?_).apartFromHeap
  exact fun state call next inv unfixed stepped => spaceStep_inv inv unfixed stepped

/-- A process that has mapped nothing yet, with a page table of one table that every entry
points to. -/
def freshSpace : SpaceState where
  umm := {
    vm := {
      pool := {
        numPages := 0
        ref := fun _ => 0
        free := []
        mmapOk := fun _ => false
        mapped := []
        failed := false
        putZero := false }
      mem := fun _ _ => 0x1007#64 }
    host := fun _ => false
    brkLen := 0
    mmapLen := 0 }
  given := []

def freshConfig : UmmConfig where
  pgroot := 0x1000#64
  layout := ⟨0x4000000000#64, 0x7f0000000000#64, 0x7ff000000000#64⟩

def anonymousCall : SpaceCall × HostWill := (.mmap 0x1000 0x3 0x22 (-1), ⟨true, true, 0⟩)

theorem allocations_never_collide_mmap :
    ∃ state, Machine.Reaches (spaceStep freshConfig) (fun _ call => call.1.unfixed) freshSpace state ∧
      state.given = [(0x6fffff000, 0x1000)] ∧ SpaceApart state := by
  have outcome : (spaceStep freshConfig freshSpace anonymousCall).map SpaceState.given =
      some [(0x6fffff000, 0x1000)] := by decide +kernel
  obtain ⟨state, stepped, given⟩ := Option.map_eq_some_iff.mp outcome
  have unfixed : anonymousCall.1.unfixed := trivial
  have reached : Machine.Reaches (spaceStep freshConfig) (fun _ call => call.1.unfixed) freshSpace state :=
    .tail .refl unfixed stepped
  exact ⟨state, reached, given, allocations_never_collide rfl rfl rfl reached⟩

end RdmaPaging

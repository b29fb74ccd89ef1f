import RdmaPaging.EptBalance
import RdmaPaging.VmSweep

/-!
The memory that a fault enters into an EPT. The entry stands where the guest-physical
address leads and holds the frame of the host's page, so its bytes are the process's when
`gpa_to_hva` keeps the offsets in a page of that size.
-/

namespace RdmaPaging

open RadixTree (tableAt)

/-- The host-physical address that the processor makes of a guest-physical one. It takes bits
12 to 51 of an entry, as in a page table. -/
def Ept.translate (ept : Ept) (gpa : PhysAddr) : Option PhysAddr :=
  (ept.leaf gpa.toNat).map fun leaf =>
    ((pteAddr leaf.2) >>> (pgshift + 9 * leaf.1)) <<< (pgshift + 9 * leaf.1) +
      BitVec.ofNat 64 (gpa.toNat % entrySpan leaf.1)

/-- The level of the entry that a fault makes. -/
def faultLevel : Option GupPage → Nat
  | none => 0
  | some page => page.level

/-- The host's 4 KB page at the faulting address. -/
def faultPage : Option GupPage → PfnSource → PhysAddr
  | some page, _ => page.page
  | none, .pfn number => number <<< 12
  | none, _ => 0

/-- A page of the host at `hva`. Physical addresses have 52 bits at most; a huge page is one
aligned block of memory, and `page` the part of it at `hva`. -/
structure HostPage (page : GupPage) (hva : VirtAddr) : Prop where
  small : page.page.val.toNat < 2 ^ 52
  aligned : page.level ≠ 0 → entrySpan page.level ∣ page.head.val.toNat
  part : page.level ≠ 0 → page.page.val.toNat =
    page.head.val.toNat + hva.toNat % entrySpan page.level / 4096 * 4096

/-- What the host answers for `hva`: a page of it, or the frame that `follow_pfn` finds. When
`follow_pfn` fails its result is not 0. -/
def HostBacks (gup : Option GupPage) (source : PfnSource) (hva : VirtAddr) : Prop :=
  match gup with
  | some page => HostPage page hva
  | none => source ≠ .unfollowed 0 ∧ ∀ number, source = .pfn number → number.toNat < 2 ^ 40

/-- The host-physical address of the byte at `other`, in the host page that has the 4 KB page
`page` at `hva`. -/
def hostByte (page : PhysAddr) (hva other : VirtAddr) : PhysAddr :=
  page + (other - BitVec.ofNat 64 (hva.toNat / 4096 * 4096))

/-- Two addresses lie in one aligned block of the size of an entry. -/
def SameBlock (level : Nat) (address other : BitVec 64) : Prop :=
  address.toNat / entrySpan level = other.toNat / entrySpan level

/-- Every byte of the faulting host page that the new entry covers is translated to its
place in the host's memory. -/
def InstalledRight (config : EptConfig) (gpa : PhysAddr) (gup : Option GupPage)
    (source : PfnSource) (ept : Ept) : Prop :=
  ∀ g, SameBlock (faultLevel gup) g gpa →
    SameBlock (faultLevel gup) (gpaToHva config.physBits config.mm g)
      (gpaToHva config.physBits config.mm gpa) →
    ept.translate g = some (hostByte (faultPage gup source)
      (gpaToHva config.physBits config.mm gpa) (gpaToHva config.physBits config.mm g))

/-- `gpa_to_hva` keeps the offset of an address in 1 GB: always in the identity region, in a
window when its base in the process fits. -/
def GigaFits (physBits : Nat) (mm : MmStruct) (gpa : PhysAddr) : Prop :=
  if gpa < physEnd physBits - gpaStackSize - gpaMapSize then True
  else if gpa < physEnd physBits - gpaStackSize then
    (lgAlign mm.mmapBase).toNat % 2 ^ 30 = gpaMapSize.toNat % 2 ^ 30
  else (lgAlign mm.startStack).toNat % 2 ^ 30 = 0

/-! Offsets. -/

section Offsets

variable {physBits : Nat} {mm : MmStruct} {gpa : PhysAddr}

theorem physEnd_giga (wide : 32 ≤ physBits) (narrow : physBits ≤ 52) :
    (physEnd physBits).toNat % 2 ^ 30 = 0 := by
  rw [physEnd_toNat narrow]
  exact Nat.mod_eq_zero_of_dvd (Nat.pow_dvd_pow 2 (show 30 ≤ physBits by omega))

/-- Below the end of the guest-physical space `gpa_to_hva` keeps offsets in 2 MB. -/
theorem gpaToHva_huge (wide : 32 ≤ physBits) (narrow : physBits ≤ 52)
    (inside : gpa < physEnd physBits) :
    (gpaToHva physBits mm gpa).toNat % 2 ^ 21 = gpa.toNat % 2 ^ 21 := by
  have giga := physEnd_giga wide narrow
  have mapBase := mapRegion_toNat wide narrow
  have stackBase := stackRegion_toNat wide narrow
  have mapAligned := lgAlign_huge mm.mmapBase
  have stackAligned := lgAlign_huge mm.startStack
  have mapSize : gpaMapSize.toNat = 0x70000000 := by decide
  have stackSize : gpaStackSize.toNat = 0x10000000 := by decide
  obtain ⟨low, high⟩ := physEnd_bounds wide narrow
  unfold gpaToHva
  split
  · rfl
  · split
    · rw [BitVec.toNat_sub, BitVec.toNat_add, BitVec.toNat_sub, mapBase, mapSize]
      omega
    · rw [BitVec.toNat_sub, BitVec.toNat_add, BitVec.toNat_sub, stackBase, stackSize]
      omega

theorem gpaToHva_giga (wide : 32 ≤ physBits) (narrow : physBits ≤ 52)
    (inside : gpa < physEnd physBits) :
    (gpaToHva physBits mm gpa).toNat % 2 ^ 30 = gpa.toNat % 2 ^ 30 ↔ GigaFits physBits mm gpa := by
  have giga := physEnd_giga wide narrow
  have mapBase := mapRegion_toNat wide narrow
  have stackBase := stackRegion_toNat wide narrow
  have mapSize : gpaMapSize.toNat = 0x70000000 := by decide
  have stackSize : gpaStackSize.toNat = 0x10000000 := by decide
  obtain ⟨low, high⟩ := physEnd_bounds wide narrow
  unfold gpaToHva GigaFits
  split
  · simp
  · split
    · rw [BitVec.toNat_sub, BitVec.toNat_add, BitVec.toNat_sub, mapBase, mapSize]
      omega
    · rw [BitVec.toNat_sub, BitVec.toNat_add, BitVec.toNat_sub, stackBase, stackSize]
      omega

theorem gpa_inside (wide : 32 ≤ physBits) (narrow : physBits ≤ 52)
    (valid : gpaToHva physBits mm gpa ≠ addrInval) : gpa < physEnd physBits := by
  have mapBase := mapRegion_toNat wide narrow
  have stackBase := stackRegion_toNat wide narrow
  rw [BitVec.lt_def]
  unfold gpaToHva at valid
  split at valid
  · rename_i inIdentity
    rw [BitVec.lt_def] at inIdentity
    omega
  · split at valid
    · rename_i inMap
      rw [BitVec.lt_def] at inMap
      omega
    · split at valid
      · rename_i inStack
        rwa [BitVec.lt_def] at inStack
      · exact absurd rfl valid

end Offsets

/-! The entry of a fault that returns 0. -/

variable {ept before after : Ept} {config : EptConfig} {makeWrite : Bool} {gpa : PhysAddr}
variable {gup : Option GupPage} {source : PfnSource} {supply : Supply}

/-- The entry that a fault makes. -/
def faultEntry (config : EptConfig) (makeWrite : Bool) : Option GupPage → PfnSource → Epte
  | some page, _ => pageEntry config makeWrite page
  | none, source =>
      epteAddr (faultPage none source) ||| eptLeafFlags config.adEnabled makeWrite pfnmapFlags

theorem eptLookupFrom_error {create : Bool} {level i : Nat} {dir : PhysAddr} {ret : Int}
    (failed : (eptLookupFrom supply create gpa level i dir ept).1 = .error ret) : ret ≠ 0 := by
  induction i generalizing dir ept with
  | zero => simp [eptLookupFrom] at failed
  | succ i ih =>
      rw [eptLookupFrom] at failed
      split at failed
      · rcases entered : eptEnter supply create (i + 1) ⟨dir, pdx (i + 1) gpa.toNat⟩ ept with
          ⟨other | ⟨⟨⟩⟩, next⟩
        · rw [entered] at failed
          simp only [Except.error.injEq] at failed
          subst failed
          unfold eptEnter at entered
          repeat' split at entered
          all_goals simp [enoent, enomem] at entered
          all_goals omega
        · rw [entered] at failed
          dsimp only at failed
          split at failed
          · rw [if_pos (show i + 1 ≠ 1 ∨ i + 1 ≠ 2 by omega)] at failed
            simp only [Except.error.injEq, einval] at failed
            omega
          · exact ih failed
      · simp at failed

/-- A fault that returns 0 has entered the page where the lookup led. -/
structure Installed (before after : Ept) (gpa : PhysAddr) (level : Nat) (slot : PteRef)
    (epte : Epte) : Prop where
  tree : EptTree before
  leads : before.tableFor gpa.toNat level = some slot.dir
  index : slot.index = pdx level gpa.toNat
  stored : Stored before after level slot epte
  leaf : LeafEntry level epte
  small : level ≤ 2

theorem eptInstall_installed {page : GupPage} (tree : EptTree ept) (fresh : Fresh ept supply)
    (done : (eptInstall config makeWrite gpa page supply ept).1 = 0) :
    ∃ before slot, Installed before (eptInstall config makeWrite gpa page supply ept).2 gpa
      page.level slot (pageEntry config makeWrite page) := by
  have small := page.level_le
  obtain ⟨grown, found⟩ := eptLookupGpa_grown gpa tree (show page.level ≤ 3 by omega) fresh
  unfold eptInstall at done ⊢
  rcases result : eptLookupGpa supply gpa page.level true ept with ⟨ret | slot, next⟩
  · rw [result] at done
    have failed : (eptLookupGpa supply gpa page.level true ept).1 = .error ret := by rw [result]
    exact absurd done (eptLookupFrom_error failed)
  · rw [result] at grown found
    obtain ⟨index, leads⟩ := found slot rfl
    have inside := Ept.tableFor_inside leads
    have bound : slot.index < nptentries := by
      rw [index]
      exact pdx_lt_nptentries _ _
    have empties := eptClearOld_emptied grown.tree small inside bound
    exact ⟨_, slot, empties.tree grown.tree inside bound, empties.stored.tableFor grown.tree leads,
      index, eptEnterPage_stored config makeWrite page empties.zero,
      pageEntry_leaf config makeWrite page, small⟩

theorem eptSetPfnmapEpte_installed (tree : EptTree ept) (fresh : Fresh ept supply)
    (answers : source ≠ .unfollowed 0)
    (done : (eptSetPfnmapEpte config makeWrite gpa source supply ept).1 = 0) :
    ∃ before slot, Installed before (eptSetPfnmapEpte config makeWrite gpa source supply ept).2 gpa
      0 slot (faultEntry config makeWrite none source) := by
  obtain ⟨grown, found⟩ := eptLookupGpa_grown gpa tree (Nat.zero_le 3) fresh
  unfold eptSetPfnmapEpte at done ⊢
  cases source with
  | noVma => exact absurd (show -efault = 0 from done) (by decide)
  | ordinary => exact absurd (show -efault = 0 from done) (by decide)
  | unfollowed ret =>
      have isZero : ret = 0 := done
      rw [isZero] at answers
      exact absurd rfl answers
  | pfn number =>
      simp only [followPfn] at done ⊢
      rcases result : eptLookupGpa supply gpa 0 true ept with ⟨ret | slot, next⟩
      · rw [result] at done
        have failed : (eptLookupGpa supply gpa 0 true ept).1 = .error ret := by rw [result]
        exact absurd done (eptLookupFrom_error failed)
      · rw [result] at grown found
        obtain ⟨index, leads⟩ := found slot rfl
        have inside := Ept.tableFor_inside leads
        have bound : slot.index < nptentries := by
          rw [index]
          exact pdx_lt_nptentries _ _
        dsimp only at grown leads inside ⊢
        have empties := eptClearFound_emptied grown.tree inside bound
        have leaf := pfnmapFlags_leaf config.adEnabled makeWrite (number <<< 12)
        exact ⟨_, slot, empties.tree grown.tree inside bound,
          empties.stored.tableFor grown.tree leads, index,
          stored_of_zero leaf (Nat.zero_le 2) empties.zero rfl rfl rfl rfl, leaf, Nat.zero_le 2⟩

theorem eptSetEpte_installed (tree : EptTree ept) (fresh : Fresh ept supply)
    (answers : gup = none → source ≠ .unfollowed 0)
    (done : (eptSetEpte config makeWrite gpa gup source supply ept).1 = 0) :
    ∃ before slot, Installed before (eptSetEpte config makeWrite gpa gup source supply ept).2 gpa
      (faultLevel gup) slot (faultEntry config makeWrite gup source) := by
  cases gup with
  | none => exact eptSetPfnmapEpte_installed tree fresh (answers rfl) done
  | some page =>
      have held : Fresh (ept.getPage page.page) supply := ⟨fresh.unused, fresh.apart⟩
      exact eptInstall_installed (tree.getPage page.page) held done

/-! Its translations. -/

theorem pdx_block {level step : Nat} {address other : BitVec 64}
    (block : SameBlock level address other) (above : level ≤ step) :
    pdx step address.toNat = pdx step other.toNat := by
  obtain ⟨width, span⟩ := entrySpan_dvd above
  rw [SameBlock] at block
  rw [pdx_eq, pdx_eq, span, ← Nat.div_div_eq_div_mul, ← Nat.div_div_eq_div_mul, block]

theorem Installed.leaf_eq {level : Nat} {slot : PteRef} {epte : Epte} {g : PhysAddr}
    (installed : Installed before after gpa level slot epte) (block : SameBlock level g gpa) :
    after.leaf g.toNat = some (level, epte) := by
  have inside := Ept.tableFor_inside installed.leads
  have leads : before.tableFor g.toNat level = some slot.dir := by
    rw [← installed.leads]
    have small := installed.small
    apply RadixTree.tableAt_route (fun step above => ?_) (by omega)
    exact pdx_block block (Nat.le_of_lt above)
  have index : pdx level g.toNat = slot.index := by
    rw [installed.index]
    exact pdx_block block (Nat.le_refl _)
  rw [installed.stored.leaf_eq installed.tree inside, if_pos ⟨leads, index⟩,
    if_pos installed.leaf.present]

/-- The frame in the entry of a fault. -/
def faultFrame (gup : Option GupPage) (source : PfnSource) : PhysAddr :=
  match gup with
  | some page => if page.level = 0 then page.page else page.head
  | none => faultPage none source

theorem pteAddr_entry (frame flags : Epte) (outside : pteAddr flags = 0) :
    pteAddr (epteAddr frame ||| flags) = pteAddr frame := by
  simp only [pteAddr] at outside ⊢
  rw [BitVec.and_or_distrib_right, outside, epteAddr, BitVec.and_assoc]
  have inside : ~~~ 0xfff#64 &&& 0xffffffffff000#64 = 0xffffffffff000#64 := by decide
  rw [inside]
  simp

theorem pteAddr_faultEntry (config : EptConfig) (makeWrite : Bool) (gup : Option GupPage)
    (source : PfnSource) :
    pteAddr (faultEntry config makeWrite gup source) = pteAddr (faultFrame gup source) := by
  cases gup with
  | none =>
      apply pteAddr_entry
      cases makeWrite <;> cases config.adEnabled <;> decide
  | some page =>
      simp only [faultEntry, pageEntry, faultFrame]
      split
      · apply pteAddr_entry
        cases makeWrite <;> cases config.adEnabled <;> decide
      · apply pteAddr_entry
        cases makeWrite <;> cases config.adEnabled <;> decide

theorem pageFrame_aligned (page : PageFrame) : page.val.toNat % 4096 = 0 := by
  have masked : page.val &&& 0xfff#64 = 0#64 := by
    rw [← page.2, epteAddr, BitVec.and_assoc]
    have disjoint : ~~~ 0xfff#64 &&& 0xfff#64 = 0#64 := by decide
    rw [disjoint, BitVec.and_zero]
  have value := congrArg BitVec.toNat masked
  rw [BitVec.toNat_and] at value
  have low : page.val.toNat &&& (2 ^ 12 - 1) = 0 := value
  rwa [Nat.and_two_pow_sub_one_eq_mod] at low

/-- The frame is an aligned block, and the 4 KB page at `hva` its part at the offset of `hva`. -/
theorem faultFrame_spec {hva : VirtAddr} (backs : HostBacks gup source hva) :
    (faultFrame gup source).toNat < 2 ^ 52 ∧
      entrySpan (faultLevel gup) ∣ (faultFrame gup source).toNat ∧
      (faultPage gup source).toNat = (faultFrame gup source).toNat +
        hva.toNat % entrySpan (faultLevel gup) / 4096 * 4096 := by
  have small : entrySpan 0 = 4096 := rfl
  cases gup with
  | none =>
      have page : (faultPage none source).toNat < 2 ^ 52 ∧
          (faultPage none source).toNat % 4096 = 0 := by
        cases source with
        | pfn number =>
            have bound := backs.2 number rfl
            rw [faultPage, BitVec.toNat_shiftLeft, Nat.shiftLeft_eq]
            omega
        | _ => exact ⟨Nat.two_pow_pos 52, rfl⟩
      simp only [faultFrame, faultLevel, small]
      exact ⟨page.1, Nat.dvd_of_mod_eq_zero page.2, by omega⟩
  | some page =>
      have bound := backs.small
      have aligned := pageFrame_aligned page.page
      simp only [faultFrame, faultLevel, faultPage]
      by_cases level : page.level = 0
      · rw [if_pos level, level, small]
        exact ⟨bound, Nat.dvd_of_mod_eq_zero aligned, by omega⟩
      · have part := backs.part level
        rw [if_neg level]
        exact ⟨by omega, backs.aligned level, part⟩

theorem Installed.translate_eq {slot : PteRef} {hva : VirtAddr} {g : PhysAddr}
    (installed : Installed before after gpa (faultLevel gup) slot
      (faultEntry config makeWrite gup source)) (backs : HostBacks gup source hva)
    (block : SameBlock (faultLevel gup) g gpa) :
    after.translate g = some
      (faultFrame gup source + BitVec.ofNat 64 (g.toNat % entrySpan (faultLevel gup))) := by
  obtain ⟨small, ⟨blocks, aligned⟩, _⟩ := faultFrame_spec backs
  have page : 4096 ∣ (faultFrame gup source).toNat :=
    Nat.dvd_trans (entrySpan_dvd (Nat.zero_le _)) ⟨blocks, aligned⟩
  have address : pteAddr (faultFrame gup source) = faultFrame gup source :=
    pteAddr_of_aligned (Nat.mod_eq_zero_of_dvd page) small
  have shifted : (faultFrame gup source >>> (pgshift + 9 * faultLevel gup)) <<<
      (pgshift + 9 * faultLevel gup) = faultFrame gup source := by
    apply BitVec.eq_of_toNat_eq
    have span : 2 ^ (pgshift + 9 * faultLevel gup) = entrySpan (faultLevel gup) := rfl
    rw [BitVec.toNat_shiftLeft, BitVec.toNat_ushiftRight, Nat.shiftLeft_eq,
      Nat.shiftRight_eq_div_pow, span, aligned, Nat.mul_div_cancel_left _ (entrySpan_pos _),
      Nat.mul_comm blocks, ← aligned]
    omega
  rw [Ept.translate, installed.leaf_eq block]
  simp only [Option.map_some]
  rw [pteAddr_faultEntry, address, shifted]

theorem hostByte_eq {hva other : VirtAddr} (backs : HostBacks gup source hva)
    (block : SameBlock (faultLevel gup) other hva) :
    hostByte (faultPage gup source) hva other =
      faultFrame gup source + BitVec.ofNat 64 (other.toNat % entrySpan (faultLevel gup)) := by
  obtain ⟨_, _, part⟩ := faultFrame_spec backs
  have page : 4096 ∣ entrySpan (faultLevel gup) := entrySpan_dvd (Nat.zero_le _)
  have start : 4096 ∣ entrySpan (faultLevel gup) * (hva.toNat / entrySpan (faultLevel gup)) :=
    Nat.dvd_trans page (Nat.dvd_mul_right _ _)
  have here := Nat.div_add_mod hva.toNat (entrySpan (faultLevel gup))
  have there := Nat.div_add_mod other.toNat (entrySpan (faultLevel gup))
  rw [SameBlock] at block
  rw [block] at there
  apply BitVec.eq_of_toNat_eq
  rw [hostByte, BitVec.toNat_add, BitVec.toNat_sub, BitVec.toNat_add, BitVec.toNat_ofNat,
    BitVec.toNat_ofNat, part]
  have bound := other.isLt
  have hvaBound := hva.isLt
  -- the start of the block is one number for omega
  generalize entrySpan (faultLevel gup) * (hva.toNat / entrySpan (faultLevel gup)) = base at *
  generalize other.toNat % entrySpan (faultLevel gup) = offset at *
  generalize hva.toNat % entrySpan (faultLevel gup) = hvaOffset at *
  omega

theorem faultLevel_le (gup : Option GupPage) : faultLevel gup ≤ 2 := by
  cases gup with
  | none => exact Nat.zero_le 2
  | some page => exact page.level_le

/-- The block of a valid address lies below the end of the guest-physical space. -/
theorem block_inside {level : Nat} {g : PhysAddr} (wide : 32 ≤ config.physBits)
    (narrow : config.physBits ≤ 52) (small : level ≤ 2)
    (valid : gpaToHva config.physBits config.mm gpa ≠ addrInval) (block : SameBlock level g gpa) :
    g < physEnd config.physBits := by
  have inside := gpa_inside wide narrow valid
  have giga : 2 ^ 30 ∣ (physEnd config.physBits).toNat :=
    Nat.dvd_of_mod_eq_zero (physEnd_giga wide narrow)
  obtain ⟨blocks, limit⟩ : entrySpan level ∣ (physEnd config.physBits).toNat :=
    Nat.dvd_trans (entrySpan_dvd small) giga
  rw [BitVec.lt_def, limit] at inside ⊢
  have below := Nat.div_lt_of_lt_mul inside
  rw [SameBlock] at block
  rwa [← block, Nat.div_lt_iff_lt_mul (entrySpan_pos level), Nat.mul_comm] at below

/-- The bytes are right exactly where `gpa_to_hva` keeps the offset in the entry. -/
theorem installedRight_iff {slot : PteRef}
    (installed : Installed before after gpa (faultLevel gup) slot
      (faultEntry config makeWrite gup source))
    (backs : HostBacks gup source (gpaToHva config.physBits config.mm gpa)) :
    InstalledRight config gpa gup source after ↔
      ∀ g, SameBlock (faultLevel gup) g gpa →
        SameBlock (faultLevel gup) (gpaToHva config.physBits config.mm g)
          (gpaToHva config.physBits config.mm gpa) →
        (gpaToHva config.physBits config.mm g).toNat % entrySpan (faultLevel gup) =
          g.toNat % entrySpan (faultLevel gup) := by
  refine forall_congr' fun g => forall_congr' fun block => forall_congr' fun samePage => ?_
  rw [installed.translate_eq backs block, hostByte_eq backs samePage, Option.some.injEq,
    BitVec.add_right_inj]
  constructor
  · intro same
    have values := congrArg BitVec.toNat same
    have left := Nat.lt_of_le_of_lt (Nat.mod_le g.toNat (entrySpan (faultLevel gup))) g.isLt
    have right := Nat.lt_of_le_of_lt (Nat.mod_le (gpaToHva config.physBits config.mm g).toNat
      (entrySpan (faultLevel gup))) (gpaToHva config.physBits config.mm g).isLt
    rw [BitVec.toNat_ofNat, BitVec.toNat_ofNat, Nat.mod_eq_of_lt left,
      Nat.mod_eq_of_lt right] at values
    exact values.symm
  · intro same
    rw [same]

/-- A fault that returns 0 enters the right memory for 4 KB and 2 MB pages and in the identity
region, and for a 1 GB page of a window when the bases of the windows fit. -/
theorem ept_fault_right_iff (wide : 32 ≤ config.physBits) (narrow : config.physBits ≤ 52)
    (tree : EptTree ept) (fresh : Fresh ept supply)
    (valid : gpaToHva config.physBits config.mm gpa ≠ addrInval)
    (backs : HostBacks gup source (gpaToHva config.physBits config.mm gpa))
    (done : (eptSetEpte config makeWrite gpa gup source supply ept).1 = 0) :
    InstalledRight config gpa gup source
        (eptSetEpte config makeWrite gpa gup source supply ept).2 ↔
      (faultLevel gup = 2 → ∀ g, SameBlock 2 g gpa →
        SameBlock 2 (gpaToHva config.physBits config.mm g)
          (gpaToHva config.physBits config.mm gpa) →
        GigaFits config.physBits config.mm g) := by
  have answers : gup = none → source ≠ .unfollowed 0 := by
    rintro rfl
    exact backs.1
  obtain ⟨before, slot, installed⟩ := eptSetEpte_installed tree fresh answers done
  have small := faultLevel_le gup
  rw [installedRight_iff installed backs]
  constructor
  · intro right level g block samePage
    rw [level] at right
    rw [← gpaToHva_giga wide narrow (block_inside wide narrow (Nat.le_refl 2) valid block)]
    exact right g block samePage
  · intro fits g block samePage
    have inside := block_inside wide narrow small valid block
    have huge : (gpaToHva config.physBits config.mm g).toNat % 2 ^ 21 = g.toNat % 2 ^ 21 :=
      gpaToHva_huge wide narrow inside
    generalize faultLevel gup = level at *
    obtain rfl | rfl | rfl : level = 0 ∨ level = 1 ∨ level = 2 := by omega
    · have span : entrySpan 0 = 4096 := rfl
      rw [span]
      omega
    · exact huge
    · exact (gpaToHva_giga wide narrow inside).mpr (fits rfl g block samePage)

/-- A 2 MB page of the identity region: the host's page at the address, its part at the
fault, and the fault's result. -/
theorem ept_fault_right_iff_huge :
    (eptSetEpte usualEpt true 0x201000#64 (some hugePage) .noVma threeTables firstEpt).1 = 0 ∧
      InstalledRight usualEpt 0x201000#64 (some hugePage) .noVma
        (eptSetEpte usualEpt true 0x201000#64 (some hugePage) .noVma threeTables firstEpt).2 := by
  have tree := (vmxInitEpt_balanced (show vmxInitEpt (fun _ _ => 0)
    (some ⟨0x1000#64, by decide⟩) = .ok firstEpt from rfl)).1
  have backs : HostBacks (some hugePage) .noVma
      (gpaToHva usualEpt.physBits usualEpt.mm 0x201000#64) :=
    ⟨by decide, fun _ => by decide, fun _ => by decide⟩
  have done : (eptSetEpte usualEpt true 0x201000#64 (some hugePage) .noVma threeTables
      firstEpt).1 = 0 := by decide
  refine ⟨done, ?_⟩
  rw [ept_fault_right_iff (by decide) (by decide) tree threeTables_fresh (by decide) backs done]
  intro giga
  exact absurd giga (by decide)

/-- A page of 1 GB, and its 4 KB part 128 MB into it. -/
def gigaPage : GupPage where
  page := ⟨0x88000000#64, by decide⟩
  head := ⟨0x80000000#64, by decide⟩
  order := 18

/-- A 1 GB page in the mapping window. The window starts 128 MB into the page and at a 1 GB
boundary of the guest, so the fault enters memory 128 MB below the process's. -/
theorem giga_fault_misplaced :
    (eptSetEpte usualEpt true 0x7f80000000#64 (some gigaPage) .noVma threeTables firstEpt).1 = 0 ∧
      HostBacks (some gigaPage) .noVma
        (gpaToHva usualEpt.physBits usualEpt.mm 0x7f80000000#64) ∧
      (eptSetEpte usualEpt true 0x7f80000000#64 (some gigaPage) .noVma threeTables
        firstEpt).2.translate 0x7f80000000#64 = some 0x80000000#64 ∧
      ¬ InstalledRight usualEpt 0x7f80000000#64 (some gigaPage) .noVma
        (eptSetEpte usualEpt true 0x7f80000000#64 (some gigaPage) .noVma threeTables
          firstEpt).2 := by
  have backs : HostBacks (some gigaPage) .noVma
      (gpaToHva usualEpt.physBits usualEpt.mm 0x7f80000000#64) :=
    ⟨by decide, fun _ => by decide, fun _ => by decide⟩
  have entered : (eptSetEpte usualEpt true 0x7f80000000#64 (some gigaPage) .noVma threeTables
      firstEpt).2.translate 0x7f80000000#64 = some 0x80000000#64 := by decide
  refine ⟨by decide, backs, entered, ?_⟩
  intro right
  have translated := right 0x7f80000000#64 rfl rfl
  rw [entered] at translated
  exact absurd translated (by decide)

end RdmaPaging

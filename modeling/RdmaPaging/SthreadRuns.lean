import RdmaPaging.SthreadTables

/-!
A recycled sthread against a fresh one. As long as an sthread runs, a page of its private memory
whose entry is clean holds what it held at the launch; the exit call puts back the others. This is
kept by all that happens, except that the host does not mark what it fills.
-/

namespace RdmaPaging

/-! The checkpoint. -/

theorem checkpointedSize_cons (seg : Segment) (rest : List Segment) : checkpointedSize (seg :: rest) =
    (if seg.writable then seg.stop - seg.start else 0) + checkpointedSize rest := by
  unfold checkpointedSize
  rw [List.filter_cons]
  split
  · rw [List.map_cons, List.sum_cons]
  · rw [Nat.zero_add]

theorem Segment.page_at (seg : Segment) {index page : Nat}
    (here : (pagesBetween seg.start (seg.stop - 4096))[index / 4096]? = some page) :
    index < seg.stop - seg.start ∧ canonicalVa (page * 4096) + index % 4096 = seg.start + index := by
  have startAligned := seg.startAligned
  have stopAligned := seg.stopAligned
  have ordered := seg.ordered
  have half := seg.canonical
  obtain ⟨inPages, value⟩ := List.getElem?_eq_some_iff.mp here
  have total := seg.pages_length
  have number : seg.start % 2 ^ 48 / 4096 + index / 4096 = page := by
    rw [← value]
    simp [pagesBetween]
  refine ⟨by omega, ?_⟩
  unfold canonicalVa
  split <;> omega

/-- What `checkpoint_do` leaves from its cursor on. -/
structure Checkpointed (segments : List Segment) (cursor : Nat) (mem : HostMem) (after : Nat × HostMem) :
    Prop where
  frame : ∀ addr, addr < cursor ∨ cursor + checkpointedSize segments ≤ addr → after.2 addr = mem addr
  bytes : ∀ index page, (writablePages segments)[index / 4096]? = some page →
    after.2 (cursor + index) = mem (canonicalVa (page * 4096) + index % 4096)

theorem checkpointDo_checkpointed {segments : List Segment} {cursor : Nat}
    (apart : ∀ seg ∈ segments, Apart cursor (checkpointedSize segments) seg.start (seg.stop - seg.start))
    (mem : HostMem) : Checkpointed segments cursor mem (checkpointDo segments (cursor, mem)) := by
  induction segments generalizing cursor mem with
  | nil => exact ⟨fun _ _ => rfl, by simp [writablePages]⟩
  | cons seg rest ih =>
      have sum := checkpointedSize_cons seg rest
      rw [checkpointDo, List.foldl_cons]
      by_cases writable : seg.writable = true
      · rw [if_pos writable] at sum
        rw [if_pos writable]
        have here := apart seg (by simp)
        have pages : writablePages (seg :: rest) =
            pagesBetween seg.start (seg.stop - 4096) ++ writablePages rest := by
          rw [writablePages, List.filter_cons, if_pos writable, List.flatMap_cons, writablePages]
        have length := seg.pages_length
        have restApart : ∀ other ∈ rest, Apart (cursor + (seg.stop - seg.start)) (checkpointedSize rest)
            other.start (other.stop - other.start) := by
          intro other member
          have whole := apart other (by simp [member])
          unfold Apart at whole ⊢
          omega
        have further := ih restApart (memcpy mem cursor seg.start (seg.stop - seg.start))
        refine ⟨fun addr outside => ?_, fun index page found => ?_⟩
        · have same : memcpy mem cursor seg.start (seg.stop - seg.start) addr = mem addr := by
            unfold memcpy
            exact if_neg (by omega)
          exact (further.frame addr (by omega)).trans same
        · rw [pages] at found
          by_cases inSeg : index / 4096 < (pagesBetween seg.start (seg.stop - 4096)).length
          · rw [List.getElem?_append_left inSeg] at found
            obtain ⟨inside, address⟩ := seg.page_at found
            have copied : memcpy mem cursor seg.start (seg.stop - seg.start) (cursor + index) =
                mem (seg.start + index) := by
              unfold memcpy
              rw [if_pos ⟨by omega, by omega⟩, Nat.add_sub_cancel_left]
            rw [address, ← copied]
            exact further.frame _ (Or.inl (by omega))
          · rw [List.getElem?_append_right (by omega)] at found
            have position : index / 4096 - (pagesBetween seg.start (seg.stop - 4096)).length =
                (index - (seg.stop - seg.start)) / 4096 := by omega
            rw [position] at found
            have bytes := further.bytes _ page found
            have target : cursor + (seg.stop - seg.start) + (index - (seg.stop - seg.start)) = cursor + index := by
              omega
            have offset : (index - (seg.stop - seg.start)) % 4096 = index % 4096 := by omega
            rw [target, offset] at bytes
            refine bytes.trans (if_neg ?_)
            -- the page is of another segment, which the checkpoint does not overlap
            have listed := List.mem_of_getElem? found
            obtain ⟨other, recorded, _, covers⟩ := (mem_writablePages (writablePages_bound listed)).mp listed
            have whole := apart other (by simp [recorded])
            have otherAligned := other.stopAligned
            rw [Segment.covers, decide_eq_true_eq] at covers
            have pageAligned : canonicalVa (page * 4096) % 4096 = 0 := by
              unfold canonicalVa
              split <;> omega
            unfold Apart at whole
            omega
      · rw [if_neg writable] at sum
        rw [if_neg writable]
        have pages : writablePages (seg :: rest) = writablePages rest := by
          rw [writablePages, List.filter_cons, if_neg writable, writablePages]
        rw [Nat.zero_add] at sum
        rw [sum] at apart
        have further := ih (fun other member => apart other (by simp [member])) mem
        refine ⟨fun addr outside => further.frame addr (by omega), fun index page found => ?_⟩
        rw [pages] at found
        exact further.bytes index page found

/-! What is kept. -/

/-- The private memory of an sthread is as it was at the launch. -/
structure Restored (w : Wedge) (before mem : HostMem) (s : Sthread PageTable) : Prop where
  copy : ∀ index < w.size,
    mem (s.writable + index) = w.checkpoint before (w.checkpointedMem + index)
  blank : ∀ addr, s.stack ≤ addr → addr < s.stack + stackSize → mem addr = 0

/-- While an sthread runs, its pages with clean entries are as they were at the launch. -/
structure Kept (w : Wedge) (before mem : HostMem) (s : Sthread PageTable) : Prop where
  lodged : Lodged w s.stack s.writable
  context : ScBuilt w.tags s.sc
  table : SameButUse s.pgroot (w.freshTable s)
  copy : ∀ index page, (writablePages w.segments)[index / 4096]? = some page →
    (s.pgroot page).has pteD = false →
    mem (s.writable + index) = w.checkpoint before (w.checkpointedMem + index)
  blank : ∀ addr, s.stack ≤ addr → addr < s.stack + stackSize →
    (s.pgroot (addr / 4096)).has pteD = false → mem addr = 0
  restored : s.state ≠ .running → Restored w before mem s

/-- Two sthreads of the list. -/
def Separate (w : Wedge) (s other : Sthread PageTable) : Prop :=
  s.id ≠ other.id ∧ Strangers w s.stack s.writable other.stack other.writable

structure MachineInv (w : Wedge) (before : HostMem) (m : Machine) : Prop where
  checkpoint : ∀ index < w.size,
    m.mem (w.checkpointedMem + index) = w.checkpoint before (w.checkpointedMem + index)
  kept : ∀ s ∈ m.sthreads, Kept w before m.mem s
  ids : ∀ s ∈ m.sthreads, s.id ≤ m.lastId
  apart : m.sthreads.Pairwise (Separate w)

section Invariant

variable {w : Wedge} {before mem next : HostMem} {m : Machine} {s t other : Sthread PageTable} {addr : Nat}

theorem copy_index (w : Wedge) {index : Nat} : index < w.size ↔
    ∃ page, (writablePages w.segments)[index / 4096]? = some page := by
  have total : 4096 * (writablePages w.segments).length = w.size := writablePages_length w.segments
  constructor
  · intro inside
    exact ⟨_, List.getElem?_eq_getElem (by omega)⟩
  · rintro ⟨page, here⟩
    obtain ⟨inPages, _⟩ := List.getElem?_eq_some_iff.mp here
    omega

theorem OwnDirty.owns (dirty : OwnDirty w s addr) : s.owns w addr := by
  rcases dirty with ⟨low, page, here, _⟩ | ⟨low, high, _⟩
  · have inside := (copy_index w).mpr ⟨page, here⟩
    exact Or.inr ⟨low, by omega⟩
  · exact Or.inl ⟨low, high⟩

theorem Strangers.symm {stack writable otherStack otherWritable : Nat}
    (strangers : Strangers w stack writable otherStack otherWritable) :
    Strangers w otherStack otherWritable stack writable := by
  unfold Strangers Apart at *
  omega

theorem Strangers.owns (strangers : Strangers w s.stack s.writable t.stack t.writable)
    (one : s.owns w addr) : ¬ t.owns w addr := by
  unfold Strangers Apart at strangers
  unfold Sthread.owns at *
  omega

theorem Lodged.off_checkpoint (lodged : Lodged w s.stack s.writable) (own : s.owns w addr) :
    ¬ (w.checkpointedMem ≤ addr ∧ addr < w.checkpointedMem + w.size) := by
  have stackApart := lodged.stackCheckpoint
  have copyApart := lodged.copyCheckpoint
  unfold Apart at stackApart copyApart
  unfold Sthread.owns at own
  omega

theorem Restored.congr (restored : Restored w before mem s)
    (same : ∀ addr, s.owns w addr → next addr = mem addr) : Restored w before next s := by
  refine ⟨fun index inside => ?_, fun addr low high => ?_⟩
  · rw [same _ (Or.inr ⟨by omega, by omega⟩)]
    exact restored.copy index inside
  · rw [same addr (Or.inl ⟨low, high⟩)]
    exact restored.blank addr low high

theorem Kept.congr (kept : Kept w before mem s) (same : ∀ addr, s.owns w addr → next addr = mem addr) :
    Kept w before next s := by
  refine ⟨kept.lodged, kept.context, kept.table, fun index page here clean => ?_,
    fun addr low high clean => ?_, fun stopped => (kept.restored stopped).congr same⟩
  · have inside := (copy_index w).mpr ⟨page, here⟩
    rw [same _ (Or.inr ⟨by omega, by omega⟩)]
    exact kept.copy index page here clean
  · rw [same addr (Or.inl ⟨low, high⟩)]
    exact kept.blank addr low high clean

instance : Std.Symm (Separate w) where
  symm _ _ both := ⟨both.1.symm, both.2.symm⟩

theorem MachineInv.strangers (inv : MachineInv w before m) (one : s ∈ m.sthreads) (two : t ∈ m.sthreads)
    (different : s.id ≠ t.id) : Strangers w s.stack s.writable t.stack t.writable := by
  exact (inv.apart.forall one two fun same => different (congrArg Sthread.id same)).2

theorem MachineInv.unique (inv : MachineInv w before m) (one : s ∈ m.sthreads) (two : t ∈ m.sthreads)
    (sameId : s.id = t.id) : s = t := by
  by_contra different
  exact (inv.apart.forall one two different).1 sameId

theorem running_some {id : Nat} (found : m.running id = some s) :
    s ∈ m.sthreads ∧ s.id = id ∧ s.state = .running := by
  have holds := List.find?_some found
  exact ⟨List.mem_of_find?_eq_some found, by simpa using holds⟩

/-- One sthread and its memory change. -/
theorem MachineInv.put (inv : MachineInv w before m) (t : Sthread PageTable) (next : HostMem) (member : s ∈ m.sthreads) (sameId : t.id = s.id)
    (sameStack : t.stack = s.stack) (sameCopy : t.writable = s.writable) (kept : Kept w before next t)
    (elsewhere : ∀ addr, ¬ s.owns w addr → PrivateAddr w m addr → next addr = m.mem addr) :
    MachineInv w before { m.put t with mem := next } := by
  have cases_ : ∀ other ∈ (m.put t).sthreads, other = t ∨ other ∈ m.sthreads ∧ other.id ≠ s.id := by
    intro other inPut
    obtain ⟨old, oldMember, rfl⟩ := List.mem_map.mp inPut
    split
    · exact Or.inl rfl
    · rename_i different
      exact Or.inr ⟨oldMember, fun same => different (same.trans sameId.symm)⟩
  have place : ∀ old ∈ m.sthreads, (if old.id = t.id then t else old).id = old.id ∧
      (if old.id = t.id then t else old).stack = old.stack ∧
      (if old.id = t.id then t else old).writable = old.writable := by
    intro old oldMember
    split
    · rename_i same
      obtain rfl := inv.unique oldMember member (same.trans sameId)
      exact ⟨sameId, sameStack, sameCopy⟩
    · exact ⟨rfl, rfl, rfl⟩
  refine ⟨fun index inside => ?_, fun other inPut => ?_, fun other inPut => ?_, ?_⟩
  · rw [← inv.checkpoint index inside]
    apply elsewhere
    · intro own
      exact (inv.kept s member).lodged.off_checkpoint own ⟨by omega, by omega⟩
    · exact Or.inl ⟨by omega, by omega⟩
  · rcases cases_ other inPut with rfl | ⟨oldMember, different⟩
    · exact kept
    · refine (inv.kept other oldMember).congr fun addr own => elsewhere addr ?_ (Or.inr ⟨other, oldMember, own⟩)
      exact (inv.strangers oldMember member different).owns own
  · rcases cases_ other inPut with rfl | ⟨oldMember, _⟩
    · rw [sameId]
      exact inv.ids s member
    · exact inv.ids other oldMember
  · rw [Machine.put, List.pairwise_map]
    refine inv.apart.imp_of_mem fun {one two} oneMember twoMember both => ?_
    obtain ⟨oneId, oneStack, oneCopy⟩ := place one oneMember
    obtain ⟨twoId, twoStack, twoCopy⟩ := place two twoMember
    rw [Separate, oneId, oneStack, oneCopy, twoId, twoStack, twoCopy]
    exact both

/-- A running sthread goes on, and private memory changes on its dirty pages only. -/
theorem MachineInv.write (inv : MachineInv w before m) (member : s ∈ m.sthreads) (running : t.state = .running)
    (sameId : t.id = s.id) (sameStack : t.stack = s.stack) (sameCopy : t.writable = s.writable)
    (context : ScBuilt w.tags t.sc) (table : SameButUse t.pgroot (w.freshTable t))
    (dirtier : ∀ page, (s.pgroot page).has pteD = true → (t.pgroot page).has pteD = true)
    (marked : ∀ addr, next addr ≠ m.mem addr → PrivateAddr w m addr → OwnDirty w t addr) :
    MachineInv w before { m.put t with mem := next } := by
  have kept := inv.kept s member
  have owned : ∀ addr, s.owns w addr → PrivateAddr w m addr := fun addr own => Or.inr ⟨s, member, own⟩
  have cleaner : ∀ page, (t.pgroot page).has pteD = false → (s.pgroot page).has pteD = false := by
    intro page clean
    by_contra dirty
    rw [dirtier page (by simpa using dirty)] at clean
    simp at clean
  have both := kept.lodged.both
  apply inv.put t next member sameId sameStack sameCopy
  · refine ⟨by rw [sameStack, sameCopy]; exact kept.lodged, context, table, fun index page here clean => ?_,
      fun addr low high clean => ?_, fun stopped => absurd running stopped⟩
    · have inside := (copy_index w).mpr ⟨page, here⟩
      rw [sameCopy, ← kept.copy index page here (cleaner page clean)]
      by_contra changed
      rcases marked _ changed (owned _ (Or.inr ⟨by omega, by omega⟩)) with ⟨_, other, there, dirty⟩ | ⟨low, high, _⟩
      · rw [sameCopy, Nat.add_sub_cancel_left, here, Option.some.injEq] at there
        rw [← there, clean] at dirty
        simp at dirty
      · rw [sameStack] at low high
        unfold Apart at both
        omega
    · rw [sameStack] at low high
      rw [← kept.blank addr low high (cleaner _ clean)]
      by_contra changed
      rcases marked _ changed (owned _ (Or.inl ⟨low, high⟩)) with ⟨above, page, there, _⟩ | ⟨_, _, dirty⟩
      · have inside := (copy_index w).mpr ⟨page, there⟩
        rw [sameCopy] at above inside
        unfold Apart at both
        omega
      · rw [clean] at dirty
        simp at dirty
  · intro addr foreign isPrivate
    by_contra changed
    have own := (marked addr changed isPrivate).owns
    unfold Sthread.owns at own foreign
    rw [sameStack, sameCopy] at own
    exact foreign own

/-! The steps. -/

theorem writeBytes_changed {dst : Nat} {bytes : List (BitVec 8)} (changed : writeBytes mem dst bytes addr ≠ mem addr) :
    ∃ turn < bytes.length, addr = dst + turn := by
  unfold writeBytes at changed
  split at changed
  · rename_i above
    refine ⟨addr - dst, ?_, by omega⟩
    by_contra beyond
    rw [List.getD_eq_getElem?_getD, List.getElem?_eq_none (by omega)] at changed
    exact changed rfl
  · exact absurd rfl changed

theorem freshTable_congr (sameStack : t.stack = s.stack) (sameCopy : t.writable = s.writable)
    (sameMem : t.sc.mem = s.sc.mem) : w.freshTable t = w.freshTable s := by
  rw [← newSthread_pgroot w t 0 rfl, ← newSthread_pgroot w s 0 sameMem, sameStack, sameCopy]

theorem SameButUse.relabel {table : PageTable} (same : SameButUse table (w.freshTable s))
    (samePgroot : t.pgroot = table) (sameStack : t.stack = s.stack) (sameCopy : t.writable = s.writable)
    (sameMem : t.sc.mem = s.sc.mem) : SameButUse t.pgroot (w.freshTable t) := by
  rw [samePgroot, freshTable_congr sameStack sameCopy sameMem]
  exact same

theorem page_number (page : Nat) {offset : Nat} (inPage : offset < 4096) :
    (page * 4096 + offset) / 4096 = page := by
  omega

theorem page_below {page offset limit : Nat} (aligned : limit % 4096 = 0) (below : page * 4096 < limit)
    (inPage : offset < 4096) : page * 4096 + offset < limit := by
  obtain ⟨count, rfl⟩ := Nat.dvd_of_mod_eq_zero aligned
  have less : page < count := by omega
  calc page * 4096 + offset < page * 4096 + 4096 := Nat.add_lt_add_left inPage _
    _ = 4096 * (page + 1) := by rw [Nat.mul_comm, Nat.mul_succ]
    _ ≤ 4096 * count := Nat.mul_le_mul_left 4096 less

theorem size_pages (w : Wedge) : w.size % 4096 = 0 := by
  have total : 4096 * (writablePages w.segments).length = w.size := writablePages_length w.segments
  omega

/-- A byte of a page that is in no region is private to nobody. -/
theorem MachineInv.public (inv : MachineInv w before m) (ready : w.Ready) {base offset : Nat}
    (aligned : base % 4096 = 0) (inPage : offset < 4096)
    (outside : ∀ start size, w.Mapped start size → ¬ (start ≤ base ∧ base < start + size)) :
    ¬ PrivateAddr w m (base + offset) := by
  have pages := size_pages w
  have stackPages : stackSize = 40960 := by decide
  rintro (⟨low, high⟩ | ⟨other, member, ⟨low, high⟩ | ⟨low, high⟩⟩)
  · have start := ready.checkpoint.aligned
    exact outside _ _ ready.checkpoint ⟨by omega, by omega⟩
  · have lodged := (inv.kept other member).lodged
    have start := lodged.stackMapped.aligned
    exact outside _ _ lodged.stackMapped ⟨by omega, by omega⟩
  · have lodged := (inv.kept other member).lodged
    have start := lodged.copyMapped.aligned
    exact outside _ _ lodged.copyMapped ⟨by omega, by omega⟩

theorem store_inv (inv : MachineInv w before m) (ready : w.Ready) {id va : Nat} {byte : BitVec 8} {after : Machine}
    (found : m.running id = some s) (stored : userStore w m s va byte = some after) :
    MachineInv w before after := by
  obtain ⟨member, _, running⟩ := running_some found
  have kept := inv.kept s member
  have bound : va % 2 ^ 48 / 4096 < 2 ^ 36 := by omega
  have inPage := Nat.mod_lt va (show 0 < 4096 by decide)
  simp only [userStore] at stored
  generalize va % 2 ^ 48 / 4096 = page at stored bound
  generalize va % 4096 = offset at stored inPage
  split at stored
  · rename_i allowed
    obtain ⟨present, user, _⟩ := allowed
    obtain rfl := Option.some.inj stored
    have marks : ∀ other, s.pgroot.set page (s.pgroot page ||| (pteA ||| pteD)) other =
        if other = page then s.pgroot page ||| (pteA ||| pteD) else s.pgroot other := fun _ => rfl
    have fresh : w.freshTable { s with pgroot := s.pgroot.set page (s.pgroot page ||| (pteA ||| pteD)) } =
        w.freshTable s := freshTable_congr rfl rfl rfl
    have dirty : (s.pgroot.set page (s.pgroot page ||| (pteA ||| pteD)) page).has pteD = true := by
      rw [marks, if_pos rfl]
      exact has_used _
    refine inv.write member running rfl rfl rfl kept.context ?_ ?_ ?_
    · intro other
      rw [fresh, ← kept.table other]
      simp only [marks]
      split
      · rename_i same
        rw [used_masked, same]
      · rfl
    · intro other dirtyBefore
      simp only [marks]
      split
      · exact has_used _
      · exact dirtyBefore
    · intro addr changed isPrivate
      obtain ⟨turn, single, rfl⟩ := writeBytes_changed changed
      obtain rfl : turn = 0 := by simpa using single
      rw [Nat.add_zero] at isPrivate ⊢
      rcases user_target ready kept.lodged kept.context kept.table bound present user with
        ⟨turn, here, address⟩ | ⟨low, high, address⟩ | outside
      · have position : (s.writable + 4096 * turn + offset - s.writable) / 4096 = turn := by omega
        have above : s.writable ≤ s.writable + 4096 * turn + offset := by omega
        rw [address]
        exact Or.inl ⟨above, page, by rw [position]; exact here, dirty⟩
      · have aligned := kept.lodged.stackMapped.aligned
        have size : stackSize = 40960 := by decide
        have number := page_number page inPage
        have below : page * 4096 + offset < s.stack + stackSize :=
          page_below (by omega) high inPage
        rw [address]
        exact Or.inr ⟨Nat.le_trans low (Nat.le_add_right _ _), below, by rw [number]; exact dirty⟩
      · exact absurd isPrivate (inv.public ready (hostAddr_aligned ready.layout _) inPage outside)
  · simp at stored

theorem walk_inv (inv : MachineInv w before m) (member : s ∈ m.sthreads) (running : s.state = .running) (walk : Nat) :
    MachineInv w before (m.put { s with walk := walk }) := by
  have kept := inv.kept s member
  have stays : ∀ addr, m.mem addr ≠ m.mem addr → PrivateAddr w m addr → OwnDirty w { s with walk := walk } addr :=
    fun _ changed => absurd rfl changed
  exact inv.write (t := { s with walk := walk }) member running rfl rfl rfl kept.context
    (kept.table.relabel rfl rfl rfl rfl) (fun _ dirty => dirty) stays

theorem read_inv (inv : MachineInv w before m) {id ptr len : Nat} {fd : BitVec 32} {bytes : List (BitVec 8)}
    {after : Machine} (found : m.running id = some s) (marked : FillsDirty w m (.read id fd ptr len bytes))
    (called : readCall w m s fd ptr len bytes = some after) : MachineInv w before after := by
  obtain ⟨member, _, running⟩ := running_some found
  have kept := inv.kept s member
  unfold readCall at called
  split at called
  · obtain rfl := Option.some.inj called
    exact inv
  · rename_i permitted
    split at called
    · simp at called
    · split at called
      · rename_i readable
        obtain rfl := Option.some.inj called
        refine inv.write member running rfl rfl rfl kept.context (kept.table.relabel rfl rfl rfl rfl)
          (fun _ dirty => dirty) ?_
        intro addr changed isPrivate
        obtain ⟨turn, inBuffer, rfl⟩ := writeBytes_changed changed
        exact marked s found (by simpa using permitted) readable turn inBuffer isPrivate
      · obtain rfl := Option.some.inj called
        exact walk_inv inv member running _

theorem open_inv (inv : MachineInv w before m) {id ptr len : Nat} {fd : BitVec 32} {after : Machine}
    (found : m.running id = some s) (called : openCall w m s ptr len fd = some after) :
    MachineInv w before after := by
  obtain ⟨member, _, running⟩ := running_some found
  have kept := inv.kept s member
  simp only [openCall] at called
  split at called
  · simp at called
  · obtain rfl := Option.some.inj called
    exact inv
  · split at called
    · simp at called
    · split at called
      · obtain rfl := Option.some.inj called
        exact walk_inv inv member running _
      · obtain ⟨sc, added, rfl⟩ := Option.map_eq_some_iff.mp called
        have sameMem : sc.mem = s.sc.mem := by
          simp only [scFdAdd] at added
          split at added
          · obtain rfl := Option.some.inj added
            rfl
          · simp at added
        refine inv.write member running rfl rfl rfl (kept.context.fdAdd added)
          (kept.table.relabel rfl rfl rfl sameMem) (fun _ dirty => dirty) ?_
        intro addr changed
        exact absurd rfl changed

theorem exit_inv (inv : MachineInv w before m) (ready : w.Ready) {id : Nat} {ret : BitVec 64}
    (found : m.running id = some s) : MachineInv w before (exitCall w m s ret) := by
  obtain ⟨member, _, _⟩ := running_some found
  have kept := inv.kept s member
  have lodged := kept.lodged
  have both := lodged.both
  have recycled := recycle_recycled ready lodged kept.table m.mem
  unfold exitCall
  generalize recycle w s m.mem = after at recycled
  obtain ⟨t, mem⟩ := after
  obtain ⟨sameId, sameStack, sameCopy, sameSc, table, frame, copy, blank⟩ := recycled
  simp only at sameId sameStack sameCopy sameSc table frame copy blank ⊢
  have copied : ∀ index page, (writablePages w.segments)[index / 4096]? = some page →
      mem (s.writable + index) = w.checkpoint before (w.checkpointedMem + index) := by
    intro index page here
    rw [copy index page here]
    split
    · exact inv.checkpoint index ((copy_index w).mpr ⟨page, here⟩)
    · rename_i clean
      exact kept.copy index page here (by simpa using clean)
  have blanked : ∀ addr, s.stack ≤ addr → addr < s.stack + stackSize → mem addr = 0 := by
    intro addr low high
    rw [blank addr low high]
    split
    · rfl
    · rename_i clean
      exact kept.blank addr low high (by simpa using clean)
  refine inv.put _ _ member sameId sameStack sameCopy ?_ fun addr foreign _ => frame addr foreign
  refine ⟨?_, ?_, ?_, fun index page here _ => ?_, fun addr low high _ => ?_, fun _ => ⟨fun index inside => ?_,
    fun addr low high => ?_⟩⟩
  · rw [sameStack, sameCopy]
    exact lodged
  · rw [sameSc]
    exact kept.context
  · exact table.relabel rfl sameStack sameCopy (congrArg Sc.mem sameSc)
  · rw [sameCopy]
    exact copied index page here
  · rw [sameStack] at low high
    exact blanked addr low high
  · obtain ⟨page, here⟩ := (copy_index w).mp inside
    rw [sameCopy]
    exact copied index page here
  · rw [sameStack] at low high
    exact blanked addr low high

theorem join_inv (inv : MachineInv w before m) {id : Nat} {after : Machine} (joined : sthreadJoin m id = some after) :
    MachineInv w before after := by
  unfold sthreadJoin at joined
  split at joined
  · obtain rfl := Option.some.inj joined
    exact inv
  · rename_i s found
    have member := List.mem_of_find?_eq_some found
    have kept := inv.kept s member
    split at joined
    · rename_i zombie
      obtain rfl := Option.some.inj joined
      refine inv.put { s with state := .dead } m.mem member rfl rfl rfl ?_ fun _ _ _ => rfl
      have restored := kept.restored (by simp [zombie])
      exact ⟨kept.lodged, kept.context, kept.table.relabel rfl rfl rfl rfl, kept.copy, kept.blank,
        fun _ => ⟨restored.copy, restored.blank⟩⟩
    · simp at joined

/-- A memory with a fresh stack and copy. -/
theorem newMemory_restored (inv : MachineInv w before m) (id : Nat) (sc : Sc) {stack writable : Nat}
    (lodged : Lodged w stack writable) :
    Restored w before (w.newMemory stack writable m.mem) (w.newSthread id stack writable sc) ∧
      ∀ addr, ¬ (w.newSthread id stack writable sc).owns w addr →
        w.newMemory stack writable m.mem addr = m.mem addr := by
  have both := lodged.both
  have stackApart := lodged.stackCheckpoint
  have copyApart := lodged.copyCheckpoint
  unfold Apart at both stackApart copyApart
  refine ⟨⟨fun index inside => ?_, fun addr low high => ?_⟩, fun addr foreign => ?_⟩
  · have target : writable ≤ writable + index ∧ writable + index < writable + w.size := ⟨by omega, by omega⟩
    have offset : writable + index - writable = index := by omega
    have offCopy : ¬ (writable ≤ w.checkpointedMem + index ∧ w.checkpointedMem + index < writable + w.size) := by
      omega
    have offStack : ¬ (stack ≤ w.checkpointedMem + index ∧ w.checkpointedMem + index < stack + stackSize) := by
      omega
    simp only [Wedge.newMemory, Wedge.newSthread, memcpy, memzero, if_pos target, offset, if_neg offCopy,
      if_neg offStack]
    exact inv.checkpoint index inside
  · have inside : stack ≤ addr ∧ addr < stack + stackSize := ⟨low, high⟩
    have offCopy : ¬ (writable ≤ addr ∧ addr < writable + w.size) := by omega
    simp only [Wedge.newMemory, memcpy, memzero, if_pos inside, if_neg offCopy]
  · have offStack : ¬ (stack ≤ addr ∧ addr < stack + stackSize) := fun inside => foreign (Or.inl inside)
    have offCopy : ¬ (writable ≤ addr ∧ addr < writable + w.size) := fun inside => foreign (Or.inr inside)
    simp only [Wedge.newMemory, memcpy, memzero, if_neg offStack, if_neg offCopy]

/-- `sthread_create` keeps the invariant and launches an sthread whose memory is restored. -/
theorem create_inv (inv : MachineInv w before m) {sc : Sc} {stack writable : Nat}
    (allowed : Allowed w m (.create sc stack writable)) :
    MachineInv w before (sthreadCreate w m sc stack writable).2 ∧
      ∃ t ∈ (sthreadCreate w m sc stack writable).2.sthreads,
        t.id = (sthreadCreate w m sc stack writable).1 ∧ t.state = .running ∧ t.sc = sc ∧
        Restored w before (sthreadCreate w m sc stack writable).2.mem t := by
  obtain ⟨context, fresh⟩ := allowed
  unfold sthreadCreate
  split
  · rename_i s found
    have member := List.mem_of_find?_eq_some found
    have isDead := List.find?_some found
    simp only [decide_eq_true_eq] at isDead
    have kept := inv.kept s member
    have restored := kept.restored (by simp [isDead.1])
    have relaunched : Restored w before m.mem { s with sc := sc, state := .running } :=
      ⟨restored.copy, restored.blank⟩
    refine ⟨?_, { s with sc := sc, state := .running }, ?_, rfl, rfl, rfl, relaunched⟩
    · apply inv.put { s with sc := sc, state := .running } m.mem member rfl rfl rfl ?_
        fun _ _ _ => rfl
      exact ⟨kept.lodged, context, kept.table.relabel rfl rfl rfl isDead.2.symm, kept.copy, kept.blank,
        fun _ => relaunched⟩
    · exact List.mem_map.mpr ⟨s, member, if_pos rfl⟩
  · rename_i none
    obtain ⟨lodged, others⟩ := fresh none
    obtain ⟨restored, frame⟩ := newMemory_restored inv (m.lastId + 1) sc lodged
    refine ⟨⟨fun index inside => ?_, fun other member => ?_, fun other member => ?_, ?_⟩, _, List.mem_cons_self,
      rfl, rfl, rfl, restored⟩
    · rw [← inv.checkpoint index inside]
      apply frame
      intro own
      exact lodged.off_checkpoint (s := w.newSthread (m.lastId + 1) stack writable sc) own ⟨by omega, by omega⟩
    · rcases List.mem_cons.mp member with rfl | old
      · refine ⟨lodged, context, ?_, fun index page here _ => ?_, fun addr low high _ => restored.blank addr low high,
          fun _ => restored⟩
        · intro page
          rw [← newSthread_pgroot w _ (m.lastId + 1) rfl]
          rfl
        · exact restored.copy index ((copy_index w).mpr ⟨page, here⟩)
      · refine (inv.kept other old).congr fun addr own => frame addr ?_
        exact Strangers.owns (t := w.newSthread (m.lastId + 1) stack writable sc) (others other old).symm own
    · rcases List.mem_cons.mp member with rfl | old
      · exact Nat.le_refl _
      · exact Nat.le_succ_of_le (inv.ids other old)
    · refine List.pairwise_cons.mpr ⟨fun other old => ⟨?_, others other old⟩, inv.apart⟩
      have bound := inv.ids other old
      exact Nat.ne_of_gt (Nat.lt_succ_of_le bound)

theorem start_inv (w : Wedge) (before : HostMem) : MachineInv w before (w.start before) :=
  ⟨fun _ _ => rfl, by simp [Wedge.start], by simp [Wedge.start], by simp [Wedge.start]⟩

theorem step_inv (inv : MachineInv w before m) (ready : w.Ready) {event : SthreadEvent} {after : Machine}
    (allowed : Allowed w m event) (marked : FillsDirty w m event) (stepped : sthreadStep w m event = some after) :
    MachineInv w before after := by
  cases event with
  | create sc stack writable =>
      obtain rfl := Option.some.inj stepped
      exact (create_inv inv allowed).1
  | store id va byte =>
      obtain ⟨s, found, stored⟩ := Option.bind_eq_some_iff.mp stepped
      exact store_inv inv ready found stored
  | read id fd ptr len bytes =>
      obtain ⟨s, found, called⟩ := Option.bind_eq_some_iff.mp stepped
      exact read_inv inv found marked called
  | openFile id ptr len fd =>
      obtain ⟨s, found, called⟩ := Option.bind_eq_some_iff.mp stepped
      exact open_inv inv found called
  | exit id ret =>
      obtain ⟨s, found, rfl⟩ := Option.map_eq_some_iff.mp stepped
      exact exit_inv inv ready found
  | join id => exact join_inv inv stepped

theorem runs_inv (ready : w.Ready) (runs : Runs w before (FillsDirty w) m) : MachineInv w before m := by
  induction runs with
  | start => exact start_inv w before
  | step _ allowed marked stepped ih => exact step_inv ih ready allowed marked stepped

end Invariant

end RdmaPaging

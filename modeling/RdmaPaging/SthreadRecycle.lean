import RdmaPaging.SthreadRuns

/-!
A recycled sthread against a fresh one, and a call to `read` by which the host leaves a byte in
the memory of the next.
-/

namespace RdmaPaging

/-! The launch. -/

section Launch

variable {w : Wedge} {before mem : HostMem} {s : Sthread PageTable}

theorem checkpoint_bytes (ready : w.Ready) (before : HostMem) {index page : Nat}
    (here : (writablePages w.segments)[index / 4096]? = some page) :
    w.checkpoint before (w.checkpointedMem + index) = before (canonicalVa (page * 4096) + index % 4096) :=
  (checkpointDo_checkpointed ready.checkpoint.segments before).bytes index page here

theorem Segment.canonicalVa_covered (seg : Segment) {va : Nat} (covers : seg.covers va = true) :
    canonicalVa (va % 2 ^ 48) = va := by
  have half := seg.canonical
  rw [Segment.covers, decide_eq_true_eq] at covers
  unfold canonicalVa
  split <;> omega

theorem restored_segment (ready : w.Ready) (kept : Kept w before mem s) (restored : Restored w before mem s)
    {seg : Segment} (recorded : seg ∈ w.segments) (writable : seg.writable = true) {va : Nat}
    (covers : seg.covers va = true) : seen w mem s va = some (before va) := by
  have address := seg.canonicalVa_covered covers
  have canonical : va % 2 ^ 48 < 2 ^ 48 := Nat.mod_lt _ (by decide)
  have split := canonicalVa_page canonical
  have offset : va % 2 ^ 48 % 4096 = va % 4096 := Nat.mod_mod_of_dvd va (by decide)
  rw [address, offset] at split
  have bound : va % 2 ^ 48 / 4096 < 2 ^ 36 := by omega
  have listed : va % 2 ^ 48 / 4096 ∈ writablePages w.segments := by
    rw [mem_writablePages bound]
    refine ⟨seg, recorded, writable, ?_⟩
    rw [← seg.covers_page canonical, address]
    exact covers
  obtain ⟨turn, here⟩ := List.mem_iff_getElem?.mp listed
  have inPage := Nat.mod_lt va (show 0 < 4096 by decide)
  simp only [seen]
  generalize va % 2 ^ 48 / 4096 = page at split here ⊢
  -- the entry of the page in its page table
  have entry := freshTable_copy (s := s) ready here
  have present : (s.pgroot page).has pteP = true := by
    rw [kept.table.has (by decide), entry]
    exact copyEntry_present _ _
  have index : (4096 * turn + va % 4096) / 4096 = turn := by omega
  have inCopy : 4096 * turn + va % 4096 < w.size := (copy_index w).mpr ⟨page, by rw [index]; exact here⟩
  have host : w.layout.hostAddr (pteAddr (s.pgroot page)) = s.writable + 4096 * turn := by
    have aligned := kept.lodged.copyMapped.aligned
    have first := kept.lodged.copyMapped.first
    have last := kept.lodged.copyMapped.last
    rw [kept.table.address, entry]
    exact hostAddr_copyEntry ready.layout (by omega) (by omega) (by omega)
  -- the bytes of the copy are those of the checkpoint
  have byte := restored.copy _ inCopy
  have rest : (4096 * turn + va % 4096) % 4096 = va % 4096 := by omega
  have bytes := checkpoint_bytes ready before (index.symm ▸ here)
  rw [bytes, rest, ← split, ← Nat.add_assoc] at byte
  rw [if_pos present, host, byte]

theorem restored_stack (ready : w.Ready) (kept : Kept w before mem s) (restored : Restored w before mem s) {va : Nat}
    (onStack : s.onStack va = true) : seen w mem s va = some 0 := by
  rw [Sthread.onStack, decide_eq_true_eq] at onStack
  have user := kept.lodged.stackMapped.user ready
  have aligned := kept.lodged.stackMapped.aligned
  have canonical : va % 2 ^ 48 = va := Nat.mod_eq_of_lt (by omega)
  have low : s.stack ≤ va / 4096 * 4096 := by omega
  have high : va / 4096 * 4096 < s.stack + stackSize := by omega
  obtain ⟨present, host⟩ := freshTable_stack ready kept.lodged low high
  rw [← kept.table.has (by decide)] at present
  rw [← kept.table.address] at host
  simp only [seen, canonical]
  rw [if_pos present, host, Nat.div_add_mod', restored.blank va onStack.1 onStack.2]

theorem restored_startsFresh (ready : w.Ready) (kept : Kept w before mem s) (restored : Restored w before mem s) :
    StartsFresh w before mem s s.sc := by
  refine ⟨rfl, fun page => ?_, fun seg recorded writable va covers =>
    restored_segment ready kept restored recorded writable covers, fun va => restored_stack ready kept restored⟩
  rw [newSthread_pgroot w s s.id rfl]
  exact masked_of_same (kept.table page) (by decide)

/-- Every launch is fresh in the runs in which the host fills no clean page of private memory. -/
theorem recycled_starts_fresh (ready : w.Ready) (before : HostMem) :
    LaunchesFresh w before (FillsDirty w) := by
  intro m runs sc stack writable allowed
  obtain ⟨inv, s, member, launched, running, context, restored⟩ := create_inv (runs_inv ready runs) allowed
  have fresh := restored_startsFresh ready (inv.kept s member) restored
  rw [context] at fresh
  exact ⟨s, member, launched, running, fresh⟩

end Launch

/-! The mappings of `__setup_mappings_full`. -/

/-- The entries for the first 4 GB and for the mapping area. -/
def fullMaster (layout : DuneLayout) : PageTable := fun page =>
  if page * 4096 < 2 ^ 32 then BitVec.ofNat 64 (page * 4096) ||| pteDefFlags
  else if layout.mmapBase.toNat ≤ page * 4096 ∧ page * 4096 < layout.mmapBase.toNat + gpaMapSize.toNat then
    duneVaToPa layout (BitVec.ofNat 64 (page * 4096)) ||| pteDefFlags
  else 0

section Full

variable {layout : DuneLayout} {page : Nat}

theorem flags_present (word : Ptent) : (word ||| pteDefFlags).has pteP = true := by
  rw [Ptent.has, decide_eq_true_eq]
  intro zero
  rw [BitVec.and_or_distrib_right] at zero
  exact absurd (BitVec.or_eq_zero_iff.mp zero).2 (by decide)

/-- Every page that is mapped is mapped at its own address. -/
theorem fullMaster_own (sound : layout.Sound) (roomy : 2 ^ 32 + 2 ^ 31 ≤ layout.physLimit.toNat)
    (present : (fullMaster layout page).has pteP = true) :
    layout.hostAddr (pteAddr (fullMaster layout page)) = page * 4096 := by
  have noAddress : pteAddr pteDefFlags = 0 := by decide
  unfold fullMaster at present ⊢
  split
  · rename_i low
    have value : (BitVec.ofNat 64 (page * 4096)).toNat = page * 4096 := by
      rw [BitVec.toNat_ofNat]
      omega
    have whole : pteAddr (BitVec.ofNat 64 (page * 4096)) = BitVec.ofNat 64 (page * 4096) :=
      pteAddr_of_aligned (by omega) (by omega)
    have address : pteAddr (BitVec.ofNat 64 (page * 4096) ||| pteDefFlags) = BitVec.ofNat 64 (page * 4096) := by
      rw [← whole]
      exact pteAddr_or _ _ noAddress
    obtain ⟨_, mapStart⟩ := sound.regions
    rw [address, DuneLayout.hostAddr, if_pos (by rw [BitVec.lt_def]; omega), value]
  · rename_i high
    split
    · rename_i mapped
      exact hostAddr_mapped sound (by omega) mapped.1 mapped.2 noAddress
    · rename_i unmapped
      rw [if_neg high, if_neg unmapped] at present
      exact absurd present (by decide)

theorem fullMaster_present (first : layout.mmapBase.toNat ≤ page * 4096)
    (last : page * 4096 < layout.mmapBase.toNat + gpaMapSize.toNat) : (fullMaster layout page).has pteP = true := by
  unfold fullMaster
  split
  · exact flags_present _
  · rw [if_pos ⟨first, last⟩]
    exact flags_present _

end Full

/-! A read into a page that the sthread has not stored to. The layout is the one for which
`walk_check_perm` computes the addresses of the host. -/

def leakLayout : DuneLayout where
  physLimit := 0x480000000#64
  mmapBase := 0x7f0000000000#64
  stackBase := 0x7f0080000000#64

def dataSegment : Segment where
  start := 0x601000
  stop := 0x602000
  flags := protRead ||| protWrite
  startAligned := rfl
  stopAligned := rfl
  ordered := by decide
  canonical := by decide

def leakWedge : Wedge where
  layout := leakLayout
  segments := [dataSegment]
  tags := []
  checkpointedMem := 0x7f0000000000
  master := fullMaster leakLayout

/-- One descriptor for reading. -/
def leakContext : Sc where
  mem := List.replicate 8 0
  fd := [0x301, 0, 0, 0, 0, 0, 0, 0]
  sys := List.replicate 16 0

theorem leakLayout_sound : leakLayout.Sound := by
  constructor <;> decide

theorem leakWedge_pages : writablePages leakWedge.segments = [0x601] := by decide

theorem leakWedge_size : leakWedge.size = 4096 := by decide

theorem leakWedge_mapped {start size : Nat} (aligned : start % 4096 = 0) (first : 0x7f0000000000 ≤ start)
    (last : start + size ≤ 0x7f0070000000) : leakWedge.Mapped start size where
  aligned := aligned
  first := first
  last := last
  segments := by
    intro seg recorded
    obtain rfl : seg = dataSegment := List.mem_singleton.mp recorded
    exact Or.inr (Nat.le_trans (by decide) first)
  tags := by
    intro tag member
    exact absurd member (List.not_mem_nil)
  own := fun page _ present _ _ => fullMaster_own leakLayout_sound (by decide) present

theorem leakWedge_ready : leakWedge.Ready where
  layout := leakLayout_sound
  distinct := List.pairwise_singleton _ _
  present := by
    rw [leakWedge_pages]
    decide
  checkpoint := leakWedge_mapped (by decide) (by decide) (by decide)

theorem recycled_starts_fresh_leak : leakWedge.Ready ∧ LaunchesFresh leakWedge (fun _ => 0) (FillsDirty leakWedge) :=
  ⟨leakWedge_ready, recycled_starts_fresh leakWedge_ready fun _ => 0⟩

def leakStack : Nat := 0x7f0000100000
def leakCopy : Nat := 0x7f0000200000

theorem leakWedge_lodged : Lodged leakWedge leakStack leakCopy where
  stackMapped := leakWedge_mapped (by decide) (by decide) (by decide)
  copyMapped := leakWedge_mapped (by decide) (by decide) (by decide)
  stackPages := by
    intro page first last
    have low : leakStack = 0x7f0000100000 := rfl
    have size : stackSize = 40960 := rfl
    have base : leakLayout.mmapBase.toNat = 0x7f0000000000 := rfl
    have area : gpaMapSize.toNat = 0x70000000 := by decide
    have present : (fullMaster leakLayout page).has pteP = true :=
      fullMaster_present (by omega) (by omega)
    exact ⟨present, fullMaster_own leakLayout_sound (by decide) present⟩
  both := Or.inl (by decide)
  stackCheckpoint := Or.inr (by decide)
  copyCheckpoint := Or.inr (by decide)

theorem leakContext_built : ScBuilt leakWedge.tags leakContext := .fdAdd .init (by decide : scFdAdd scInit 3 protRead = some leakContext)

theorem leak_entry {s : Sthread PageTable} (isCopy : s.writable = leakCopy) :
    leakWedge.freshTable s 0x601 = copyEntry leakWedge.layout leakCopy 0 := by
  have first : (writablePages leakWedge.segments)[0]? = some 0x601 := by
    rw [leakWedge_pages]
    rfl
  have entry := freshTable_copy (s := s) leakWedge_ready first
  rw [isCopy, Nat.mul_zero] at entry
  exact entry

theorem leak_perm {s : Sthread PageTable} (entry : s.pgroot 0x601 = copyEntry leakWedge.layout leakCopy 0) :
    hasMemPerm leakWedge s 0x601000 1 = (true, leakCopy) := by
  have pages : pagesBetween 0x601000 ((0x601000 + 1) % 2 ^ 64) = [0x601] := by decide
  have occupied : s.pgroot 0x601 ≠ 0 := by
    rw [entry]
    exact present_nonzero (copyEntry_present _ _)
  have checked : walkCheckPerm leakWedge.layout (0x601000 / 2 ^ 48 * 2 ^ 48 + 0x601 * 4096)
      (copyEntry leakWedge.layout leakCopy 0) 0 = (0, copyEntry leakWedge.layout leakCopy 0, leakCopy) := by
    decide
  simp only [hasMemPerm, tableWalk, pages, walkPages]
  rw [if_neg occupied, entry, checked]
  rfl

/-- The only sthread of the run, and the first byte of its copy. -/
structure Lone (m : Machine) (s : Sthread PageTable) (byte : BitVec 8) : Prop where
  only : m.sthreads = [s]
  id : s.id = 1
  stack : s.stack = leakStack
  copy : s.writable = leakCopy
  sc : s.sc = leakContext
  table : SameButUse s.pgroot (leakWedge.freshTable s)
  byte : m.mem leakCopy = byte

section Leak

variable {m : Machine} {s : Sthread PageTable} {byte : BitVec 8}

theorem Lone.running (lone : Lone m s byte) (running : s.state = .running) : m.running 1 = some s := by
  simp [Machine.running, lone.only, lone.id, running]

theorem Lone.put (lone : Lone m s byte) {t : Sthread PageTable} (sameId : t.id = s.id) :
    (m.put t).sthreads = [t] := by
  simp [Machine.put, lone.only, sameId]

/-- The first creation of a run. -/
theorem create_first (w : Wedge) (before : HostMem) (sc : Sc) (stack writable : Nat) :
    ∃ mem s, sthreadCreate w (w.start before) sc stack writable = (1, ⟨mem, [s], 1⟩) ∧
      s = w.newSthread 1 stack writable sc := ⟨_, _, rfl, rfl⟩

theorem leak_created (before : HostMem) : ∃ m s byte, Runs leakWedge before (fun _ _ => True) m ∧
    Lone m s byte ∧ s.state = .running ∧ s.walk = 4096 ∧
    s.pgroot 0x601 = copyEntry leakWedge.layout leakCopy 0 := by
  have allowed : Allowed leakWedge (leakWedge.start before) (.create leakContext leakStack leakCopy) :=
    ⟨leakContext_built, fun _ => ⟨leakWedge_lodged, by simp [Wedge.start]⟩⟩
  obtain ⟨mem, s, created, isNew⟩ := create_first leakWedge before leakContext leakStack leakCopy
  obtain ⟨isId, isRunning, isStack, isCopy, isSc⟩ : s.id = 1 ∧ s.state = .running ∧ s.stack = leakStack ∧
      s.writable = leakCopy ∧ s.sc = leakContext := by
    rw [isNew]
    exact ⟨rfl, rfl, rfl, rfl, rfl⟩
  have table : s.pgroot = leakWedge.freshTable s := by
    rw [← newSthread_pgroot leakWedge s 1 rfl, isStack, isCopy, isSc, ← isNew]
  have walked : s.walk = 4096 := by
    rw [isNew, newSthread_walk leakWedge_ready, leakWedge_size]
  have stepped : sthreadStep leakWedge (leakWedge.start before) (.create leakContext leakStack leakCopy) =
      some ⟨mem, [s], 1⟩ := by
    rw [sthreadStep, created]
  refine ⟨_, s, mem leakCopy, .step .start allowed trivial stepped, ⟨rfl, isId, isStack, isCopy, isSc, ?_, rfl⟩,
    isRunning, walked, ?_⟩
  · rw [← table]
    exact fun _ => rfl
  · rw [table]
    exact leak_entry isCopy

/-- The sthread reads one byte into a page that it has not stored to. -/
theorem Lone.read (lone : Lone m s byte) (running : s.state = .running) (walked : s.walk = 4096)
    (entry : s.pgroot 0x601 = copyEntry leakWedge.layout leakCopy 0) :
    ∃ next t, sthreadStep leakWedge m (.read 1 3 0x601000 1 [0xaa]) = some next ∧ Lone next t 0xaa ∧
      t.state = .running ∧ (t.pgroot 0x601).has pteD = false := by
  have permitted : hasFdPerm leakContext 3 protRead = true := by decide
  have perm := leak_perm entry
  have buffer : bufferAddr leakWedge s 0x601000 1 = leakCopy := by
    rw [bufferAddr, perm]
    rfl
  have called : sthreadStep leakWedge m (.read 1 3 0x601000 1 [0xaa]) =
      some { m.put { s with walk := leakCopy } with mem := writeBytes m.mem leakCopy [0xaa] } := by
    rw [sthreadStep, lone.running running, Option.bind_some, readCall, lone.sc, permitted, if_neg (by simp),
      walked, if_neg (by decide), buffer, perm, if_pos rfl]
  have clean : (s.pgroot 0x601).has pteD = false := by
    rw [entry]
    decide
  refine ⟨_, { s with walk := leakCopy }, called, ⟨lone.put rfl, lone.id, lone.stack, lone.copy, lone.sc,
    lone.table.relabel rfl rfl rfl rfl, ?_⟩, running, clean⟩
  simp [writeBytes]

/-- The exit call leaves the byte, since the entry is clean. -/
theorem Lone.exit (lone : Lone m s byte) (clean : (s.pgroot 0x601).has pteD = false) :
    ∃ t, Lone (exitCall leakWedge m s 0) t byte ∧ t.state = .zombie := by
  have lodged : Lodged leakWedge s.stack s.writable := by
    rw [lone.stack, lone.copy]
    exact leakWedge_lodged
  have first : (writablePages leakWedge.segments)[0 / 4096]? = some 0x601 := by
    rw [leakWedge_pages]
    rfl
  have recycled := recycle_recycled leakWedge_ready lodged lone.table m.mem
  unfold exitCall
  generalize recycle leakWedge s m.mem = after at recycled
  obtain ⟨t, mem⟩ := after
  obtain ⟨sameId, sameStack, sameCopy, sameSc, table, _, copy, _⟩ := recycled
  have kept := copy 0 0x601 first
  rw [clean, if_neg (by simp), Nat.add_zero, lone.copy, lone.byte] at kept
  simp only at sameId sameStack sameCopy sameSc table kept ⊢
  exact ⟨{ t with ret := 0, state := .zombie }, ⟨lone.put sameId, sameId.trans lone.id,
    sameStack.trans lone.stack, sameCopy.trans lone.copy, sameSc.trans lone.sc,
    table.relabel rfl sameStack sameCopy (congrArg Sc.mem sameSc), kept⟩, rfl⟩

/-- `sthread_join`, or the reuse by `sthread_create`. -/
theorem Lone.relabel (lone : Lone m s byte) (state : StState) :
    Lone (m.put { s with sc := leakContext, state := state }) { s with sc := leakContext, state := state } byte := by
  exact ⟨lone.put rfl, lone.id, lone.stack, lone.copy, rfl,
    lone.table.relabel rfl rfl rfl (congrArg Sc.mem lone.sc.symm), lone.byte⟩

/-- What the sthread sees in its segment. -/
theorem Lone.seen (lone : Lone m s byte) : seen leakWedge m.mem s 0x601000 = some byte := by
  have entry := leak_entry lone.copy
  have present : (s.pgroot 0x601).has pteP = true := by
    rw [lone.table.has (by decide), entry]
    exact copyEntry_present _ _
  have address : leakWedge.layout.hostAddr (pteAddr (s.pgroot 0x601)) = leakCopy := by
    rw [lone.table.address, entry]
    decide
  have page : 0x601000 % 2 ^ 48 / 4096 = 0x601 := by decide
  have offset : 0x601000 % 4096 = 0 := by decide
  simp only [RdmaPaging.seen, page, offset]
  rw [if_pos present, address, Nat.add_zero, lone.byte]

end Leak

/-- A byte that the host puts into a clean page is there when the next sthread starts. -/
theorem read_survives_recycling : leakWedge.Ready ∧
    ¬ LaunchesFresh leakWedge (fun _ => 0) (fun _ _ => True) := by
  refine ⟨leakWedge_ready, fun fresh => ?_⟩
  obtain ⟨m, s, byte, runs, lone, running, walked, entry⟩ := leak_created fun _ => 0
  obtain ⟨filled, s, called, lone, running, clean⟩ := lone.read running walked entry
  have short : Allowed leakWedge m (.read 1 3 0x601000 1 [0xaa]) := Nat.le_refl 1
  have reads := Runs.step runs short trivial called
  obtain ⟨t, gone, zombie⟩ := lone.exit clean
  have exited : sthreadStep leakWedge filled (.exit 1 0) = some (exitCall leakWedge filled s 0) := by
    rw [sthreadStep, lone.running running, Option.map_some]
  have anyExit : Allowed leakWedge filled (.exit 1 0) := trivial
  have exits := reads.step anyExit trivial exited
  generalize exitCall leakWedge filled s 0 = left at gone exits
  have dead := gone.relabel .dead
  have joined : sthreadStep leakWedge left (.join 1) =
      some (left.put { t with sc := leakContext, state := .dead }) := by
    simp [sthreadStep, sthreadJoin, gone.only, gone.id, zombie, ← gone.sc]
  have anyJoin : Allowed leakWedge left (.join 1) := trivial
  have joins := exits.step anyJoin trivial joined
  generalize left.put { t with sc := leakContext, state := .dead } = last at joins dead
  have reused : last.sthreads.find? (fun s => s.state = .dead ∧ s.sc.mem = leakContext.mem) =
      some { t with sc := leakContext, state := .dead } := by
    rw [dead.only]
    rfl
  have allowed : Allowed leakWedge last (.create leakContext 0 0) := by
    refine ⟨leakContext_built, fun none => ?_⟩
    rw [reused] at none
    simp at none
  obtain ⟨again, member, _, _, starts⟩ := fresh last joins leakContext 0 0 allowed
  have relaunched := dead.relabel .running
  rw [sthreadCreate, reused] at member starts
  rw [relaunched.only, List.mem_singleton] at member
  have zero := starts.segments dataSegment (List.mem_singleton_self _) rfl 0x601000 rfl
  rw [member, relaunched.seen] at zero
  simp at zero

end RdmaPaging

import RdmaPaging.PagerCore
import RdmaPaging.VmAgree

/-!
One run of `pgflt_handler` by itself: the entry that it installs, the READ that it posts and the
copy that it makes, and the run of the pager that they are.
-/

namespace RdmaPaging

open RadixTree

variable {config : PagerConfig} {state : Pager} {addr : Nat}

/-- What a run leaves and where it has been: the offset of the READ of a page from the server and
the address that the page is copied to. -/
structure PageIn where
  vm : Vm
  frames : PhysAddr → Buf pageSize
  source : Nat
  target : Nat

/-- `rdma_read_offset` with nobody else on the connection. A READ that the server's NIC refuses
ends the process, and so does a copy to a page that is not mapped. -/
def rdmaReadOffset (config : PagerConfig) (state : Pager) (buf offset : Nat) : Option PageIn :=
  let wr : SendWr pageSize := requestAt state.client .rdmaRead offset
  if accessOk state.client.serverMr wr then
    (storeBytes config state buf (bytesAt state.client.remote wr.remoteAddr)).map fun frames =>
      ⟨state.vm, frames, offset, buf⟩
  else none

/-- `pgflt_handler`. -/
@[grind =] def pgfltHandler (config : PagerConfig) (state : Pager) (addr : Nat) : Option PageIn :=
  match vmLookup config.pgroot addr .normal state.vm with
  | (some (some pte), vm) =>
      rdmaReadOffset config { state with vm := vm.setPte pte (faultPte config addr) } addr
        (BitVec.ofNat 64 addr - BitVec.ofNat 64 config.page).toNat
  | _ => none

def pageLen (config : PagerConfig) : Nat := config.pageNr * pageSize

/-- What is claimed of a run for a fault at an address. -/
structure PagesIn (config : PagerConfig) (state : Pager) (addr : Nat) (run : PageIn) : Prop where
  overwrites : ∀ index < pageSize, run.target ≤ addr / pageSize * pageSize + index ∧
    addr / pageSize * pageSize + index < run.target + pageSize
  remoteCopy : ∀ index < pageSize,
    loadByte config { state with vm := run.vm, frames := run.frames } (addr / pageSize * pageSize + index) =
      some (state.client.remote
        (state.client.serverMr.addr + (addr / pageSize * pageSize - config.page) + index))
  nothingElse : ∀ va, run.target ≤ va → va < run.target + pageSize → va / pageSize = addr / pageSize
  otherFrames : ∀ frame, frameAt config run.vm addr ≠ some frame → run.frames frame = state.frames frame
  reads : ∀ offset, run.source ≤ offset → offset < run.source + pageSize → offset < pageLen config

/-- The pager has its region, and the server has a region of that length. -/
structure PagerReady (config : PagerConfig) (state : Pager) : Prop where
  built : RootBuilt state.vm config.pgroot
  aligned : pageSize ∣ config.page
  user : config.page + pageLen config ≤ 2 ^ 47
  peer : state.client.conn.peerMr = state.client.serverMr
  served : pageLen config ≤ state.client.serverMr.length
  noWrap : state.client.serverMr.addr + state.client.serverMr.length ≤ 2 ^ 64

theorem pgfltHandler_target {run : PageIn} (runs : pgfltHandler config state addr = some run) :
    run.target = addr := by
  unfold pgfltHandler at runs
  split at runs
  · simp only [rdmaReadOffset, Option.ite_none_right_eq_some, Option.map_eq_some_iff] at runs
    obtain ⟨_, frames, _, rfl⟩ := runs
    rfl
  · simp at runs

/-! The entry. -/

theorem faultPte_eq (config : PagerConfig) (addr : Nat) : faultPte config addr =
    pteAddr (duneVaToPa config.layout (BitVec.ofNat 64 addr)) ||| (pteP ||| pteW) :=
  BitVec.or_comm _ _

theorem pteAddr_faultPte (config : PagerConfig) (addr : Nat) :
    pteAddr (faultPte config addr) = pteAddr (duneVaToPa config.layout (BitVec.ofNat 64 addr)) := by
  rw [faultPte_eq]
  exact pteAddr_or _ _ (by decide)

theorem faultPte_present (config : PagerConfig) (addr : Nat) : ptePresent (faultPte config addr) = true := by
  have masked : faultPte config addr &&& pteP = pteP := by
    rw [faultPte, BitVec.or_assoc, BitVec.and_comm, BitVec.and_or_distrib_left, BitVec.and_self]
    ext bit
    simp only [BitVec.getElem_or, BitVec.getElem_and]
    cases pteP[bit] <;> simp
  have flags : pteFlags (faultPte config addr) &&& pteP = faultPte config addr &&& pteP := by
    rw [pteFlags, BitVec.and_assoc]
    rfl
  simp only [ptePresent, flags, masked]
  decide

/-- The entry that the handler installs maps the page of the address. -/
theorem install_frame {vm : Vm} {table : PhysAddr} {va : Nat}
    (grounded : Grounded entryBuilt [treeOf config.pgroot] vm) (user : addr < 2 ^ 47)
    (leads : tableFor vm.mem config.pgroot 0 addr = some table)
    (samePage : va / pageSize = addr / pageSize) :
    frameAt config (vm.setPte ⟨table, pdx 0 addr⟩ (faultPte config addr)) va =
      some (pteAddr (duneVaToPa config.layout (BitVec.ofNat 64 addr))) := by
  have stored : Grounded entryBuilt [treeOf config.pgroot]
      (vm.setPte ⟨table, pdx 0 addr⟩ (faultPte config addr)) :=
    grounded.storeLeaf (tableFor_table leads) (pdx_bound _ _) (by simp) (by simp) grounded.list grounded.fresh
  unfold pageSize at samePage
  have leaf : leafOf (vm.setPte ⟨table, pdx 0 addr⟩ (faultPte config addr)).mem config.pgroot
      (va / pageSize * pageSize) = (0, faultPte config addr) := by
    have inside : va / pageSize * pageSize < 2 ^ 48 := by
      unfold pageSize
      omega
    change leafOf (setWord vm.mem table (pdx 0 addr) (faultPte config addr)) _ _ = _
    rw [grounded.store_leaf leads (by omega) inside (by simp), if_pos]
    rw [entrySpan_zero, pageSize]
    omega
  rw [frameAt, translate_leaf stored.forest, leaf, leafTranslates, if_pos (faultPte_present config addr)]
  have offset : va / pageSize * pageSize % 2 ^ (pgshift + 9 * 0) = 0 := by
    unfold pageSize pgshift
    omega
  simp only [Option.map_some, leafTranslation, offset]
  rw [Nat.mul_zero, Nat.add_zero, pteAddr_faultPte, pteAddr_page]
  simp

/-! The copy. -/

/-- A copy to a page that is mapped writes its frame. -/
theorem storeBytes_page (state : Pager) {frame : PhysAddr} {va : Nat} (bytes : Buf pageSize) (aligned : va % pageSize = 0)
    (mapped : ∀ other, other / pageSize = va / pageSize → frameAt config state.vm other = some frame) :
    storeBytes config state va bytes = some (Function.update state.frames frame bytes) := by
  have last : (va + (pageSize - 1)) / pageSize = va / pageSize := by
    unfold pageSize at aligned ⊢
    omega
  rw [storeBytes, mapped va rfl, mapped _ last]
  simp only [aligned, Option.some.injEq]
  funext other index
  by_cases same : other = frame
  · subst same
    have position : pageOffset (index - 0) = index := Fin.ext (Nat.mod_eq_of_lt index.isLt)
    rw [if_pos ⟨rfl, Nat.zero_le _⟩, Function.update_self, position]
  · simp [same]

section Run

variable (ready : PagerReady config state) (inside : inRegion config addr = true)

include ready inside

theorem region_bounds : config.page ≤ addr ∧ addr < config.page + pageLen config ∧ addr < 2 ^ 47 := by
  have user := ready.user
  simp only [inRegion, Bool.and_eq_true, decide_eq_true_eq] at inside
  unfold pageLen at user ⊢
  exact ⟨inside.1, inside.2, by omega⟩

theorem fault_offset : (BitVec.ofNat 64 addr - BitVec.ofNat 64 config.page).toNat = addr - config.page := by
  obtain ⟨low, _, user⟩ := region_bounds ready inside
  simp only [BitVec.toNat_sub, BitVec.toNat_ofNat]
  omega

/-- The pages of the region are whole, so a page in it ends in it. -/
theorem page_ends (aligned : addr % pageSize = 0) : addr - config.page + pageSize ≤ pageLen config := by
  obtain ⟨low, high, _⟩ := region_bounds ready inside
  obtain ⟨first, isPage⟩ := ready.aligned
  unfold pageLen pageSize at *
  omega

theorem read_request (aligned : addr % pageSize = 0) :
    (requestAt state.client .rdmaRead (addr - config.page)).remoteAddr =
        state.client.serverMr.addr + (addr - config.page) ∧
      accessOk state.client.serverMr (requestAt state.client .rdmaRead (addr - config.page)) = true := by
  have ends := page_ends ready inside aligned
  have served := ready.served
  have noWrap := ready.noWrap
  have positive : 0 < pageSize := by decide
  have address : (requestAt state.client .rdmaRead (addr - config.page)).remoteAddr =
      state.client.serverMr.addr + (addr - config.page) := by
    rw [requestAt, ready.peer]
    exact Nat.mod_eq_of_lt (by omega)
  refine ⟨address, ?_⟩
  simp only [accessOk, address, Bool.and_eq_true, decide_eq_true_eq]
  exact ⟨⟨congrArg IbvMr.rkey ready.peer, by omega⟩, by omega⟩

variable {vm : Vm} {frame : PhysAddr}
variable (mapped : ∀ va, va / pageSize = addr / pageSize → frameAt config vm va = some frame)

include mapped

/-- The read for the first byte of a page that is mapped. -/
theorem rdmaReadOffset_aligned (aligned : addr % pageSize = 0) :
    rdmaReadOffset config { state with vm := vm } addr (addr - config.page) =
      some ⟨vm, Function.update state.frames frame
        (bytesAt state.client.remote (state.client.serverMr.addr + (addr - config.page))),
        addr - config.page, addr⟩ := by
  obtain ⟨address, accepted⟩ := read_request ready inside aligned
  have stored := storeBytes_page { state with vm := vm }
    (bytesAt state.client.remote (state.client.serverMr.addr + (addr - config.page))) aligned mapped
  rw [rdmaReadOffset, if_pos accepted]
  dsimp only
  rw [address, stored, Option.map_some]

/-- It pages in the page and touches nothing else. -/
theorem pagesIn_aligned (aligned : addr % pageSize = 0) :
    PagesIn config state addr ⟨vm, Function.update state.frames frame
      (bytesAt state.client.remote (state.client.serverMr.addr + (addr - config.page))),
      addr - config.page, addr⟩ := by
  have ends := page_ends ready inside aligned
  have base : addr / pageSize * pageSize = addr := Nat.div_mul_cancel (Nat.dvd_of_mod_eq_zero aligned)
  have positive : 0 < pageSize := by decide
  have samePage : ∀ index < pageSize, (addr + index) / pageSize = addr / pageSize := by
    intro index bound
    rw [← base, Nat.mul_comm, Nat.mul_add_div positive, Nat.div_eq_of_lt bound, Nat.add_zero,
      Nat.mul_div_cancel_left _ positive]
  constructor
  · intro index bound
    rw [base]
    exact ⟨Nat.le_add_right _ _, Nat.add_lt_add_left bound _⟩
  · intro index bound
    have position : pageOffset (addr + index) = ⟨index, bound⟩ := by
      apply Fin.ext
      change (addr + index) % pageSize = index
      rw [← base, Nat.mul_comm, Nat.mul_add_mod, Nat.mod_eq_of_lt bound]
    rw [base, loadByte, mapped _ (samePage index bound), Option.map_some]
    dsimp only
    rw [Function.update_self, position]
    rfl
  · intro va first last
    dsimp only at first last
    have split : va = addr + (va - addr) := by omega
    rw [split]
    exact samePage _ (by omega)
  · intro other different
    rw [mapped _ rfl] at different
    exact Function.update_of_ne (fun same => different (by rw [same])) _ _
  · intro offset first last
    exact Nat.lt_of_lt_of_le last ends

end Run

theorem leafFor_of_mapsBig {mem : PhysAddr → Nat → Ptent} {va level : Nat} {dir : PhysAddr}
    (small : mapsBig mem level dir va = false) :
    (leafFor mem va level dir).1 = 0 ∨ ptePresent (leafFor mem va level dir).2 = false := by
  induction level generalizing dir with
  | zero => exact Or.inl rfl
  | succ level ih =>
      simp only [mapsBig, Bool.and_eq_false_iff, Bool.or_eq_false_iff] at small
      rcases entry_cases level (mem dir (pdx (level + 1) va)) with
        ⟨slot, stops, _, _⟩ | ⟨_, present, names, _⟩ | ⟨_, absent, stops⟩
      · rw [(leafFor_stop stops).1]
        right
        rcases small with absent | ⟨notSlot, _⟩
        · exact absent
        · exact absurd (notSlot.symm.trans slot) (by simp)
      · rw [(leafFor_down names).1]
        apply ih
        rcases small with absent | ⟨_, deeper⟩
        · exact absurd (absent.symm.trans present) (by simp)
        · exact deeper
      · rw [(leafFor_stop stops).1]
        exact Or.inr absent

/-- A run pages in the page of the address, and touches nothing else, exactly when the address is
the first of its page and the pool has the tables that are missing for it. -/
theorem page_in_iff (ready : PagerReady config state) (inside : inRegion config addr = true)
    (small : mapsBig state.vm.mem 3 config.pgroot addr = false)
    (bounded : (vmLookup config.pgroot addr .normal state.vm).2.pool.numPages ≤ maxPages) :
    (∃ run, pgfltHandler config state addr = some run ∧ PagesIn config state addr run) ↔
      addr % pageSize = 0 ∧ supplies (leafOf state.vm.mem config.pgroot addr).1 state.vm.pool = true := by
  have looks := lookup_creates 3 config.pgroot state.vm ready.built (tableAt_self 3 _)
    (leafFor_of_mapsBig small) (by rw [← vmLookup_from]; exact Nat.not_lt.mpr bounded)
  change if supplies (leafOf state.vm.mem config.pgroot addr).1 state.vm.pool = true then _ else _ at looks
  rw [← vmLookup_from] at looks
  constructor
  · rintro ⟨run, runs, pages⟩
    have target := pgfltHandler_target runs
    refine ⟨?_, ?_⟩
    · -- the last byte of the copy is on the page of the first
      have last := pages.nothingElse (addr + (pageSize - 1)) (by omega) (by unfold pageSize; omega)
      unfold pageSize at last ⊢
      omega
    · by_contra short
      rw [if_neg short] at looks
      unfold pgfltHandler at runs
      split at runs
      · rename_i found
        rw [found] at looks
        exact absurd looks (by simp)
      · simp at runs
  · rintro ⟨aligned, supplied⟩
    rw [if_pos supplied] at looks
    obtain ⟨table, vm, found, grounded, leads⟩ := looks
    have user := (region_bounds ready inside).2.2
    have mapped : ∀ va, va / pageSize = addr / pageSize →
        frameAt config (vm.setPte ⟨table, pdx 0 addr⟩ (faultPte config addr)) va =
          some (pteAddr (duneVaToPa config.layout (BitVec.ofNat 64 addr))) :=
      fun va samePage => install_frame grounded user leads samePage
    refine ⟨_, ?_, pagesIn_aligned ready inside mapped aligned⟩
    rw [pgfltHandler, found]
    dsimp only
    rw [fault_offset ready inside]
    exact rdmaReadOffset_aligned ready inside mapped aligned

/-- A region of two pages at 256 MB that is unmapped, and a server with two pages. -/
def twoPages : PagerConfig where
  layout := ⟨0x1000000000#64, 0x7f0000000000#64, 0x7ff000000000#64⟩
  pgroot := 0x1000#64
  page := 0x10000000
  pageNr := 2

def pagedOut : Pager where
  client := rdmaInitStart
    { connected := true
      peerMr := ⟨0x5000, 0x2000, 7⟩
      recvMsg := ⟨.msgMr, ⟨0x5000, 0x2000, 7⟩⟩
      sendMsg := ⟨.msgMr, ⟨0, 0, 0⟩⟩
      rdmaLocalRegion := fun _ => 0
      rdmaRemoteRegion := fun _ => 0
      sendState := .ssInit
      recvState := .rsMrRecv }
    ⟨0x5000, 0x2000, 7⟩ fun position => UInt8.ofNat position
  vm := blankVm
  frames := fun _ _ => 0
  next := none
  syscallMtx := none
  faults := fun _ => .none
  handled := []
  stores := []
  loads := []

theorem pagedOut_ready : PagerReady twoPages pagedOut where
  built := (blank_grounded (pageInit_spec blankVm_pool).1 (by decide)).weaken fun _ _ => Or.inl
  aligned := by decide
  user := by decide
  peer := rfl
  served := by decide
  noWrap := by decide

theorem page_in_iff_first :
    ∃ run, pgfltHandler twoPages pagedOut 0x10001000 = some run ∧ PagesIn twoPages pagedOut 0x10001000 run :=
  (page_in_iff pagedOut_ready (by decide) (by decide +kernel) (by decide +kernel)).mpr
    ⟨by decide, by decide +kernel⟩

/-- A fault at the second byte of a page does not bring in its page. -/
theorem unaligned_fault_pages_in_badly :
    PagerReady twoPages pagedOut ∧ inRegion twoPages 0x10000001 = true ∧
      mapsBig pagedOut.vm.mem 3 twoPages.pgroot 0x10000001 = false ∧
      ¬ ∃ run, pgfltHandler twoPages pagedOut 0x10000001 = some run ∧
        PagesIn twoPages pagedOut 0x10000001 run := by
  refine ⟨pagedOut_ready, by decide, by decide +kernel, ?_⟩
  rintro ⟨run, runs, pages⟩
  have target := pgfltHandler_target runs
  have first := (pages.overwrites 0 (by decide)).1
  rw [target] at first
  exact absurd first (by decide)

/-! The run of the pager. -/

/-- A fault is taken and nothing else is under way. -/
structure AtRest (tid addr : Nat) (state : Pager) : Prop where
  out : state.next = none
  taken : state.faults tid = .taken addr
  unlocked : state.syscallMtx = none
  usable : usable state.client = true
  idle : state.client.threads tid = .idle
  sendQueue : state.client.sendQueue = []
  executed : state.client.executed = []
  cq : state.client.cq = []
  polled : state.client.polled = none
  readOps : state.client.readOps = 0
  sendState : state.client.conn.sendState = .ssInit
  recvState : state.client.conn.recvState = .rsMrRecv

/-- The steps of a run, with those of the NIC and of the poller. -/
def handlerSteps (tid : Nat) : List PagerAction :=
  [.lock tid, .install tid, .readPost tid, .background .nicExec, .background .nicComplete,
    .background .pollCq, .background .handleWc, .readWait tid, .readCopy tid, .unlock tid]

/-- A run is one of the pager. -/
theorem pgfltHandler_steps {tid : Nat} {run : PageIn} (rest : AtRest tid addr state)
    (runs : pgfltHandler config state addr = some run) :
    ∃ final, (handlerSteps tid).foldlM (pagerStep config) state = some final ∧ final.vm = run.vm ∧
      final.frames = run.frames ∧ final.faults tid = .none ∧ final.syscallMtx = none ∧
      ∃ read, final.client.returned = state.client.returned ++ [read] ∧ read.offset = run.source := by
  obtain ⟨out, taken, unlocked, isUsable, idle, sendQueue, executed, cq, polled, readOps, sendState, recvState⟩ := rest
  unfold pgfltHandler at runs
  split at runs
  · rename_i pte vm found
    simp only [rdmaReadOffset, Option.ite_none_right_eq_some, Option.map_eq_some_iff] at runs
    obtain ⟨accepted, frames, stored, rfl⟩ := runs
    have notFreed : state.client.freed = false := by
      simp only [usable, Bool.and_eq_true, Bool.not_eq_true'] at isUsable
      exact isUsable.2
    have context : state.client.connContext = true := by
      simp only [usable, Bool.and_eq_true, Bool.not_eq_true'] at isUsable
      exact isUsable.1
    have opcode : ∀ offset, (requestAt state.client .rdmaRead offset).opcode = .rdmaRead := fun _ => rfl
    have copied : ∀ other : Pager, other.vm = vm.setPte pte (faultPte config addr) →
        other.frames = state.frames → storeBytes config other addr (bytesAt state.client.remote
          (requestAt state.client .rdmaRead
            (BitVec.ofNat 64 addr - BitVec.ofNat 64 config.page).toNat).remoteAddr) = some frames := by
      intro other sameVm sameFrames
      rw [← stored, storeBytes, storeBytes, sameVm, sameFrames]
    simp only [handlerSteps, List.foldlM, pagerStep, stepHandler, Pager.onClient, Pager.setFault, step, Action.party,
      stepApi, stepNic, stepPoller, executeHead, onCompletion, finishCompletion, onSend, setThread, postSend,
      Action.isBackground, out, taken, unlocked, usable, notFreed, context, idle, sendQueue, executed, cq,
      polled, readOps, sendState, recvState, found, accepted, opcode, copied, Function.update_self,
      Option.bind_eq_bind, Option.bind_some, Option.map_some, if_true, if_false, Bool.false_eq_true,
      List.nil_append, Bool.not_false, Bool.and_true, reduceCtorEq, and_self, Nat.zero_add, Nat.lt_add_one]
    exact ⟨_, rfl, rfl, rfl, Function.update_self _ _ _, rfl, _, rfl, rfl⟩
  · simp at runs

end RdmaPaging

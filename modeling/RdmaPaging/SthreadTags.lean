import RdmaPaging.RunSteps
import RdmaPaging.SthreadIsolation

/-!
The allocator for tagged memory. `smalloc` bumps the pointer of a tag, and tests whether a block
fits by a sum of 64-bit words.
-/

namespace RdmaPaging

open RunSteps

/-- `struct tag`. -/
structure TagEntry where
  id : BitVec 32
  buf : BitVec 64
  p : BitVec 64
  len : BitVec 32
deriving DecidableEq

/-- `_tags` and `_tag_id`. -/
structure TagHeap where
  tags : List TagEntry
  nextId : BitVec 32
deriving DecidableEq

/-- `tag_new`, with the address that `mmap` returns. -/
def tagNew (buf : BitVec 64) (heap : TagHeap) : BitVec 32 × TagHeap :=
  (heap.nextId, ⟨⟨heap.nextId, buf, buf, BitVec.ofNat 32 tagSize⟩ :: heap.tags, heap.nextId + 1⟩)

def TagHeap.find (heap : TagHeap) (tid : BitVec 32) : Option TagEntry :=
  heap.tags.find? fun tag => tag.id = tid

/-- `t->t_p += sz`, at the tag that the loop stopped at. -/
def advance (tid : BitVec 32) (sz : BitVec 64) : List TagEntry → List TagEntry
  | [] => []
  | tag :: rest => if tag.id = tid then { tag with p := tag.p + sz } :: rest else tag :: advance tid sz rest

/-- `smalloc`. The address 0 is `NULL`. -/
def smalloc (tid : BitVec 32) (sz : BitVec 64) (heap : TagHeap) : BitVec 64 × TagHeap :=
  match heap.find tid with
  | none => (0, heap)
  | some tag =>
      if tag.len.signExtend 64 < tag.p - tag.buf + sz then (0, heap)
      else (tag.p, { heap with tags := advance tid sz heap.tags })

/-! Runs. -/

/-- A block that `smalloc` returned, with the buffer of its tag. -/
structure TagBlock where
  buf : BitVec 64
  start : BitVec 64
  size : BitVec 64

structure TagRun where
  heap : TagHeap
  blocks : List TagBlock

def TagRun.start : TagRun := ⟨⟨[], 0⟩, []⟩

inductive TagCall
  | tagNew (buf : BitVec 64)
  | smalloc (tid : BitVec 32) (sz : BitVec 64)

def TagRun.step (run : TagRun) : TagCall → TagRun
  | .tagNew buf => { run with heap := (RdmaPaging.tagNew buf run.heap).2 }
  | .smalloc tid sz =>
      let result := RdmaPaging.smalloc tid sz run.heap
      match run.heap.find tid with
      | some tag =>
          if result.1 = 0 then { run with heap := result.2 }
          else ⟨result.2, ⟨tag.buf, result.1, sz⟩ :: run.blocks⟩
      | none => { run with heap := result.2 }

def TagRun.after (calls : List TagCall) : TagRun := RunSteps.after TagRun.step .start calls

/-- What the blocks of a tag take of its buffer. -/
def usedBytes (blocks : List TagBlock) (buf : BitVec 64) : Nat :=
  ((blocks.filter fun block => block.buf = buf).map fun block => block.size.toNat).sum

/-- `mmap` returns user memory that is not in use. -/
structure FreshBuffer (heap : TagHeap) (buf : BitVec 64) : Prop where
  notNull : buf ≠ 0
  user : buf.toNat + tagSize ≤ 2 ^ 47
  apart : ∀ tag ∈ heap.tags, Apart buf.toNat tagSize tag.buf.toNat tagSize

/-- The non-empty blocks of a tag are apart, and inside its buffer. -/
structure BlocksSound (run : TagRun) : Prop where
  inside : ∀ block ∈ run.blocks, block.size ≠ 0 → block.buf.toNat ≤ block.start.toNat ∧
    block.start.toNat + block.size.toNat ≤ block.buf.toNat + tagSize
  apart : run.blocks.Pairwise fun block other => block.size ≠ 0 → other.size ≠ 0 →
    block.buf = other.buf → Apart block.start.toNat block.size.toNat other.start.toNat other.size.toNat

/-- `smalloc` returns `NULL` exactly when there is no such tag, or not so many bytes left in it, and
then changes nothing. -/
structure CallSound (run : TagRun) (tid : BitVec 32) (sz : BitVec 64) : Prop where
  null : (smalloc tid sz run.heap).1 = 0 ↔
    ∀ tag, run.heap.find tid = some tag → tagSize < usedBytes run.blocks tag.buf + sz.toNat
  unchanged : (smalloc tid sz run.heap).1 = 0 → (smalloc tid sz run.heap).2 = run.heap

/-- The sum of the offset in the tag and the size is below `2 ^ 64`. -/
def NoWrap (run : TagRun) (tid : BitVec 32) (sz : BitVec 64) : Prop :=
  ∀ tag, run.heap.find tid = some tag → (tag.p - tag.buf).toNat + sz.toNat < 2 ^ 64

/-- Something holds of every call of `smalloc`, with the run before it. -/
def EachAlloc (calls : List TagCall) (holds : TagRun → BitVec 32 → BitVec 64 → Prop) : Prop :=
  Each TagRun.step .start (fun run call => ∀ tid sz, call = .smalloc tid sz → holds run tid sz) calls

def EachFresh (calls : List TagCall) : Prop :=
  Each TagRun.step .start (fun run call => ∀ buf, call = .tagNew buf → FreshBuffer run.heap buf) calls

/-- What the allocator is for, over a whole run. -/
structure TagsSound (calls : List TagCall) : Prop where
  blocks : ∀ before, before <+: calls → BlocksSound (TagRun.after before)
  calls : EachAlloc calls CallSound

/-! One call. -/

section Heap

variable {tags before after : List TagEntry} {tag : TagEntry} {tid : BitVec 32} {sz : BitVec 64}

theorem advance_split (others : ∀ other ∈ before, other.id ≠ tid) (isTag : tag.id = tid) :
    advance tid sz (before ++ tag :: after) = before ++ { tag with p := tag.p + sz } :: after := by
  induction before with
  | nil => rw [List.nil_append, advance, if_pos isTag, List.nil_append]
  | cons other rest ih =>
      rw [List.cons_append, advance, if_neg (others other (by simp)),
        ih fun other member => others other (by simp [member])]
      rfl

theorem find_split {heap : TagHeap} (found : heap.find tid = some tag) :
    ∃ before after, heap.tags = before ++ tag :: after ∧
      advance tid sz heap.tags = before ++ { tag with p := tag.p + sz } :: after := by
  obtain ⟨isTag, before, after, split, others⟩ := List.find?_eq_some_iff_append.mp found
  refine ⟨before, after, split, ?_⟩
  rw [split]
  exact advance_split (by simpa using others) (by simpa using isTag)

end Heap

/-- What the runs keep as long as no sum wraps. -/
structure TagRun.Sound (run : TagRun) : Prop where
  distinct : (run.heap.tags.map TagEntry.buf).Nodup
  len : ∀ tag ∈ run.heap.tags, tag.len = BitVec.ofNat 32 tagSize
  notNull : ∀ tag ∈ run.heap.tags, tag.buf ≠ 0
  user : ∀ tag ∈ run.heap.tags, tag.buf.toNat + tagSize ≤ 2 ^ 47
  pointer : ∀ tag ∈ run.heap.tags, tag.p.toNat = tag.buf.toNat + usedBytes run.blocks tag.buf
  room : ∀ tag ∈ run.heap.tags, usedBytes run.blocks tag.buf ≤ tagSize
  owned : ∀ block ∈ run.blocks, ∃ tag ∈ run.heap.tags, tag.buf = block.buf
  below : ∀ block ∈ run.blocks, block.buf.toNat ≤ block.start.toNat ∧
    block.start.toNat + block.size.toNat ≤ block.buf.toNat + usedBytes run.blocks block.buf
  apart : run.blocks.Pairwise fun block other => block.buf = other.buf →
    Apart block.start.toNat block.size.toNat other.start.toNat other.size.toNat

section Calls

variable {run : TagRun} {tag : TagEntry} {tid : BitVec 32} {sz buf : BitVec 64}

theorem usedBytes_cons (block : TagBlock) (blocks : List TagBlock) (buf : BitVec 64) :
    usedBytes (block :: blocks) buf =
      (if block.buf = buf then block.size.toNat else 0) + usedBytes blocks buf := by
  unfold usedBytes
  by_cases same : block.buf = buf
  · simp [same]
  · simp [same]

theorem usedBytes_none {blocks : List TagBlock} (other : ∀ block ∈ blocks, block.buf ≠ buf) :
    usedBytes blocks buf = 0 := by
  have none : (blocks.filter fun block => block.buf = buf) = [] := by
    rw [List.filter_eq_nil_iff]
    intro block member
    simpa using other block member
  rw [usedBytes, none]
  rfl

theorem TagRun.Sound.blocks (sound : run.Sound) : BlocksSound run := by
  refine ⟨fun block member _ => ?_, sound.apart.imp fun apart _ _ same => apart same⟩
  obtain ⟨tag, owner, same⟩ := sound.owned block member
  have room := sound.room tag owner
  have below := sound.below block member
  rw [same] at room
  omega

theorem TagRun.Sound.offset (sound : run.Sound) (member : tag ∈ run.heap.tags) :
    (tag.p - tag.buf).toNat = usedBytes run.blocks tag.buf := by
  have pointer := sound.pointer tag member
  rw [BitVec.toNat_sub_of_le (by rw [BitVec.le_def]; omega)]
  omega

/-- The test of `smalloc`, with the sum as a word. -/
theorem TagRun.Sound.refuses (sound : run.Sound) (member : tag ∈ run.heap.tags) :
    tag.len.signExtend 64 < tag.p - tag.buf + sz ↔
      tagSize < (usedBytes run.blocks tag.buf + sz.toNat) % 2 ^ 64 := by
  have len : ((BitVec.ofNat 32 tagSize).signExtend 64).toNat = tagSize := by decide
  rw [sound.len tag member, BitVec.lt_def, len, BitVec.toNat_add, sound.offset member]

theorem TagRun.Sound.pointer_ne (sound : run.Sound) (member : tag ∈ run.heap.tags) : tag.p ≠ 0 := by
  intro null
  have notNull := sound.notNull tag member
  have pointer := sound.pointer tag member
  rw [null] at pointer
  apply notNull
  apply BitVec.eq_of_toNat_eq
  change 0 = _ at pointer
  change _ = 0
  omega

/-- A call does what it is for exactly if the sum does not wrap. -/
theorem TagRun.Sound.call_iff (sound : run.Sound) (tid : BitVec 32) (sz : BitVec 64) :
    CallSound run tid sz ↔ NoWrap run tid sz := by
  cases found : run.heap.find tid with
  | none =>
      have result : smalloc tid sz run.heap = (0, run.heap) := by rw [smalloc, found]
      refine iff_of_true ⟨?_, fun _ => congrArg Prod.snd result⟩ ?_
      · simp [result, found]
      · simp [NoWrap, found]
  | some tag =>
      have member : tag ∈ run.heap.tags := List.mem_of_find?_eq_some found
      have room := sound.room tag member
      have size : tagSize = 40960 := by decide
      have word := sz.isLt
      have wraps : NoWrap run tid sz ↔ usedBytes run.blocks tag.buf + sz.toNat < 2 ^ 64 := by
        simp only [NoWrap, found, Option.some.injEq, forall_eq', sound.offset member]
      by_cases refused : tag.len.signExtend 64 < tag.p - tag.buf + sz
      · have result : smalloc tid sz run.heap = (0, run.heap) := by rw [smalloc, found]; exact if_pos refused
        rw [sound.refuses member] at refused
        refine iff_of_true ⟨?_, fun _ => congrArg Prod.snd result⟩ (wraps.mpr ?_)
        · simp only [result, found, Option.some.injEq, true_iff]
          rintro _ rfl
          omega
        · omega
      · have result : (smalloc tid sz run.heap).1 = tag.p := by
          rw [smalloc, found]
          exact congrArg Prod.fst (if_neg refused)
        have returned : (smalloc tid sz run.heap).1 ≠ 0 := by
          rw [result]
          exact sound.pointer_ne member
        rw [sound.refuses member] at refused
        rw [wraps]
        constructor
        · rintro ⟨null, _⟩
          have fits := mt null.mpr returned
          simp only [found, Option.some.injEq, forall_eq'] at fits
          omega
        · intro noWrap
          refine ⟨iff_of_false returned ?_, fun null => absurd null returned⟩
          simp only [found, Option.some.injEq, forall_eq']
          omega

theorem TagRun.Sound.tagNew (sound : run.Sound) (fresh : FreshBuffer run.heap buf) :
    (run.step (.tagNew buf)).Sound := by
  have size : tagSize = 40960 := by decide
  have other : ∀ tag ∈ run.heap.tags, tag.buf ≠ buf := by
    rintro tag member rfl
    have apart := fresh.apart tag member
    unfold Apart at apart
    omega
  have none : usedBytes run.blocks buf = 0 := by
    apply usedBytes_none
    intro block member same
    obtain ⟨tag, owner, isBuf⟩ := sound.owned block member
    exact other tag owner (isBuf.trans same)
  have new : ∀ (holds : TagEntry → Prop),
      holds ⟨run.heap.nextId, buf, buf, BitVec.ofNat 32 tagSize⟩ →
      (∀ tag ∈ run.heap.tags, holds tag) →
        ∀ tag ∈ (run.step (.tagNew buf)).heap.tags, holds tag := by
    intro holds first rest tag member
    rcases List.mem_cons.mp member with rfl | old
    · exact first
    · exact rest tag old
  refine ⟨?_, new _ rfl sound.len, new _ fresh.notNull sound.notNull, new _ fresh.user sound.user,
    new _ ?_ sound.pointer, new _ ?_ sound.room, ?_, sound.below, sound.apart⟩
  · refine List.nodup_cons.mpr ⟨?_, sound.distinct⟩
    intro member
    obtain ⟨tag, inTags, same⟩ := List.mem_map.mp member
    exact other tag inTags same
  · exact (congrArg (buf.toNat + ·) none).symm
  · exact Nat.le_trans (Nat.le_of_eq none) (Nat.zero_le _)
  · intro block member
    obtain ⟨tag, owner, same⟩ := sound.owned block member
    exact ⟨tag, List.mem_cons_of_mem _ owner, same⟩

/-- The entries after the pointer of one of them has moved. -/
theorem TagRun.Sound.moved {before after : List TagEntry} (sound : run.Sound)
    (split : run.heap.tags = before ++ tag :: after) {holds : TagEntry → Prop}
    (own : holds { tag with p := tag.p + sz })
    (rest : ∀ other ∈ run.heap.tags, tag.buf ≠ other.buf → holds other) :
    ∀ other ∈ before ++ { tag with p := tag.p + sz } :: after, holds other := by
  have distinct := sound.distinct
  rw [split, List.map_append, List.map_cons, List.nodup_middle, List.nodup_cons,
    ← List.map_append] at distinct
  intro other member
  have places : other = { tag with p := tag.p + sz } ∨ other ∈ before ++ after := by
    simp only [List.mem_append, List.mem_cons] at member ⊢
    tauto
  rcases places with rfl | elsewhere
  · exact own
  · apply rest
    · rw [split]
      simp only [List.mem_append, List.mem_cons] at elsewhere ⊢
      tauto
    · intro same
      exact distinct.1 (List.mem_map.mpr ⟨other, elsewhere, same.symm⟩)

/-- A block that fits is taken from the end of what the tag has given. -/
theorem TagRun.Sound.take {before after : List TagEntry} (sound : run.Sound)
    (split : run.heap.tags = before ++ tag :: after)
    (fits : usedBytes run.blocks tag.buf + sz.toNat ≤ tagSize) :
    TagRun.Sound ⟨⟨before ++ { tag with p := tag.p + sz } :: after, run.heap.nextId⟩,
      ⟨tag.buf, tag.p, sz⟩ :: run.blocks⟩ := by
  have member : tag ∈ run.heap.tags := by simp [split]
  have user := sound.user tag member
  have pointer := sound.pointer tag member
  have size : tagSize = 40960 := by decide
  have bufs : (before ++ { tag with p := tag.p + sz } :: after).map TagEntry.buf =
      run.heap.tags.map TagEntry.buf := by
    rw [split, List.map_append, List.map_append, List.map_cons, List.map_cons]
  have own : usedBytes (⟨tag.buf, tag.p, sz⟩ :: run.blocks) tag.buf =
      sz.toNat + usedBytes run.blocks tag.buf := by
    rw [usedBytes_cons, if_pos rfl]
  have old : ∀ other : TagEntry, tag.buf ≠ other.buf →
      usedBytes (⟨tag.buf, tag.p, sz⟩ :: run.blocks) other.buf = usedBytes run.blocks other.buf := by
    intro other different
    rw [usedBytes_cons, if_neg different, Nat.zero_add]
  refine ⟨bufs ▸ sound.distinct, sound.moved split (sound.len tag member) ?_,
    sound.moved split (sound.notNull tag member) ?_, sound.moved split user ?_,
    sound.moved split ?_ ?_, sound.moved split ?_ ?_, ?_, ?_, ?_⟩
  · exact fun other inTags _ => sound.len other inTags
  · exact fun other inTags _ => sound.notNull other inTags
  · exact fun other inTags _ => sound.user other inTags
  · dsimp only
    rw [own, BitVec.toNat_add]
    omega
  · intro other inTags different
    rw [old other different]
    exact sound.pointer other inTags
  · rw [own]
    omega
  · intro other inTags different
    rw [old other different]
    exact sound.room other inTags
  · intro block inBlocks
    have owner : block.buf ∈ run.heap.tags.map TagEntry.buf := by
      rcases List.mem_cons.mp inBlocks with rfl | earlier
      · exact List.mem_map.mpr ⟨tag, member, rfl⟩
      · exact List.mem_map.mpr (sound.owned block earlier)
    rw [← bufs] at owner
    exact List.mem_map.mp owner
  · intro block inBlocks
    dsimp only
    rcases List.mem_cons.mp inBlocks with rfl | earlier
    · rw [own]
      dsimp only
      omega
    · have below := sound.below block earlier
      rw [usedBytes_cons]
      omega
  · refine List.pairwise_cons.mpr ⟨?_, sound.apart⟩
    intro block earlier same
    have below := sound.below block earlier
    dsimp only at same ⊢
    rw [← same] at below
    right
    omega

theorem TagRun.Sound.smalloc (sound : run.Sound) (noWrap : NoWrap run tid sz) :
    (run.step (.smalloc tid sz)).Sound := by
  cases found : run.heap.find tid with
  | none =>
      have stays : run.step (.smalloc tid sz) = run := by simp [TagRun.step, RdmaPaging.smalloc, found]
      rw [stays]
      exact sound
  | some tag =>
      have member : tag ∈ run.heap.tags := List.mem_of_find?_eq_some found
      by_cases refused : tag.len.signExtend 64 < tag.p - tag.buf + sz
      · have stays : run.step (.smalloc tid sz) = run := by
          simp only [TagRun.step, RdmaPaging.smalloc, found, if_pos refused]
          rfl
        rw [stays]
        exact sound
      · have fits : usedBytes run.blocks tag.buf + sz.toNat ≤ tagSize := by
          have small := noWrap tag found
          rw [sound.offset member] at small
          rw [sound.refuses member, Nat.mod_eq_of_lt small] at refused
          omega
        obtain ⟨before, after, split, advanced⟩ := @find_split tag tid sz run.heap found
        have next : run.step (.smalloc tid sz) =
            ⟨⟨before ++ { tag with p := tag.p + sz } :: after, run.heap.nextId⟩,
              ⟨tag.buf, tag.p, sz⟩ :: run.blocks⟩ := by
          simp only [TagRun.step, RdmaPaging.smalloc, found, if_neg refused, if_neg (sound.pointer_ne member),
            advanced]
        rw [next]
        exact sound.take split fits

end Calls

/-! Whole runs. -/

section Runs

variable {calls : List TagCall}

theorem start_sound : TagRun.start.Sound := by
  refine ⟨List.nodup_nil, ?_, ?_, ?_, ?_, ?_, ?_, ?_, List.Pairwise.nil⟩ <;> simp [TagRun.start]

theorem TagRun.Sound.step {run : TagRun} (sound : run.Sound) (call : TagCall)
    (fresh : ∀ buf, call = .tagNew buf → FreshBuffer run.heap buf)
    (noWrap : ∀ tid sz, call = .smalloc tid sz → NoWrap run tid sz) : (run.step call).Sound := by
  cases call with
  | tagNew buf => exact sound.tagNew (fresh buf rfl)
  | smalloc tid sz => exact sound.smalloc (noWrap tid sz rfl)

/-- As long as no sum wraps the runs keep their invariant. -/
theorem TagRun.after_sound (fresh : EachFresh calls) (noWrap : EachAlloc calls NoWrap) :
    (TagRun.after calls).Sound :=
  (Each.and fresh noWrap).invariant start_sound fun _ call sound both => sound.step call both.1 both.2

/-- The allocator does what it is for over a run exactly if no sum wraps in it. -/
theorem smalloc_runs (calls : List TagCall) (fresh : EachFresh calls) :
    TagsSound calls ↔ EachAlloc calls NoWrap := by
  have agree : EachAlloc calls CallSound ↔ EachAlloc calls NoWrap := by
    refine each_iff start_sound (fun run call sound fresh noWrap => sound.step call fresh noWrap) ?_ fresh
    intro run call sound _
    exact forall_congr' fun tid => forall_congr' fun sz => imp_congr_right fun _ => sound.call_iff tid sz
  constructor
  · rintro ⟨_, each⟩
    exact agree.mp each
  · intro noWrap
    refine ⟨fun before initial => ?_, agree.mpr noWrap⟩
    exact (TagRun.after_sound (Each.within fresh initial) (Each.within noWrap initial)).blocks

end Runs

theorem one_tag_fresh (first : BitVec 64) (sizes : List (BitVec 64)) (notNull : first ≠ 0)
    (user : first.toNat + tagSize ≤ 2 ^ 47) :
    EachFresh (.tagNew first :: sizes.map (TagCall.smalloc 0)) := by
  rintro before _ initial buf rfl
  cases before with
  | nil =>
      obtain ⟨same, _⟩ := List.cons_prefix_cons.mp initial
      obtain rfl := TagCall.tagNew.inj same
      exact ⟨notNull, user, fun tag member => absurd member (by simp [after, TagRun.start])⟩
  | cons call rest =>
      have later : TagCall.tagNew buf ∈ sizes.map (TagCall.smalloc 0) :=
        (List.cons_prefix_cons.mp initial).2.subset (by simp)
      simp at later

/-- Sixteen bytes, then all but sixteen of the address space, then the first sixteen again. -/
theorem smalloc_wraps :
    EachFresh [.tagNew 0x10000#64, .smalloc 0 16#64, .smalloc 0 (-16#64), .smalloc 0 16#64] ∧
      ¬ TagsSound [.tagNew 0x10000#64, .smalloc 0 16#64, .smalloc 0 (-16#64), .smalloc 0 16#64] := by
  refine ⟨one_tag_fresh _ [16#64, -16#64, 16#64] (by decide) (by decide), fun sound => ?_⟩
  have blocks : (TagRun.after
      [.tagNew 0x10000#64, .smalloc 0 16#64, .smalloc 0 (-16#64), .smalloc 0 16#64]).blocks =
      [⟨0x10000#64, 0x10000#64, 16#64⟩, ⟨0x10000#64, 0x10010#64, -16#64⟩,
        ⟨0x10000#64, 0x10000#64, 16#64⟩] := rfl
  have overlap := (sound.blocks _ (List.prefix_refl _)).apart
  rw [blocks] at overlap
  have twice := (List.pairwise_cons.mp overlap).1 ⟨0x10000#64, 0x10000#64, 16#64⟩ (by simp)
    (by decide) (by decide) rfl
  exact absurd twice (by unfold Apart; decide)

theorem smalloc_runs_small : EachFresh [.tagNew 0x10000#64, .smalloc 0 16#64] ∧
    TagsSound [.tagNew 0x10000#64, .smalloc 0 16#64] := by
  have fresh : EachFresh [.tagNew 0x10000#64, .smalloc 0 16#64] :=
    one_tag_fresh _ [16#64] (by decide) (by decide)
  have noWrap : EachAlloc (([] ++ [.tagNew 0x10000#64]) ++ [.smalloc 0 16#64]) NoWrap := by
    refine each_snoc.mpr ⟨each_snoc.mpr ⟨each_nil, ?_⟩, ?_⟩
    · rintro tid sz ⟨⟩
    · rintro tid sz ⟨⟩ tag found
      obtain rfl : ⟨0, 0x10000#64, 0x10000#64, BitVec.ofNat 32 tagSize⟩ = tag := Option.some.inj found
      decide
  exact ⟨fresh, (smalloc_runs _ fresh).mpr noWrap⟩

end RdmaPaging

import RdmaPaging.SthreadTables

/-!
Read-only memory of an sthread. The first pass compares the recorded segments with the address
that a walk of the whole space makes for an entry. For the upper half of the space that is not
the canonical address.
-/

namespace RdmaPaging

open RadixTree

section Clone

variable {mem : PhysAddr → Nat → Ptent} {level : Nat} {dir : PhysAddr} {va : Nat}

end Clone

section Tables

variable {Root : Type} {layout : DuneLayout} {segments : List Segment} {tags : List Tag} {s : Sthread Root}
variable {table : PageTable} {page : Nat}

end Tables

section Theorem

variable {layout : DuneLayout} {segments : List Segment} {tags : List Tag} {pgroot : PhysAddr}
variable {id stack writable : Nat} {sc : Sc} {vm : Vm}

end Theorem

/-- The layout of a processor with 36 address bits. -/
def smallLayout : DuneLayout := ⟨0x1000000000#64, 0x7f0000000000#64, 0x7fff00000000#64⟩

end RdmaPaging

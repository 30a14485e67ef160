import Os161.Vm.State

/-!
# Swap space

`kern/vm/swapspace.c`: the table of swap slots and the two transfers. Slot `i` of the table owns
one page of the swap file, at the offset `swapspace_init` puts in its `physical_addr`. `swap_in`
and `swap_out` look a slot up by virtual address alone; neither the valid bit nor the process takes
part in the search.

The transfers assume what the interface promises: `VOP_READ` and `VOP_WRITE` on the swap file move
exactly one page at the offset they are given.
-/

namespace Os161.Vm

open Os161.Lib

/-- The bytes of one page of physical memory, from `p` on. -/
def ramPage (ram : Paddr → UInt8) (p : Paddr) : Fin 4096 → UInt8 :=
  fun k => ram (p + BitVec.ofNat 32 k)

/-- The bytes of one page of the swap file, from `offset` on. -/
def filePage (file : Int → UInt8) (offset : Int) : Fin 4096 → UInt8 :=
  fun k => file (offset + k)

/-- `VOP_READ` of one page of the swap file into the frame at `p`. -/
def vopRead (file : Int → UInt8) (offset : Int) (p : Paddr) (ram : Paddr → UInt8) :
    Paddr → UInt8 :=
  fun a => if (a - p).toNat < 4096 then file (offset + (a - p).toNat) else ram a

/-- `VOP_WRITE` of the frame at `p` to one page of the swap file. -/
def vopWrite (ram : Paddr → UInt8) (p : Paddr) (offset : Int) (file : Int → UInt8) :
    Int → UInt8 :=
  fun o => if offset ≤ o ∧ o < offset + 4096 then ram (p + BitVec.ofNat 32 (o - offset).toNat)
    else file o

/-- The slot both transfers find for a virtual address: the first one that carries it. -/
def swapSlot (swapspace : List PageTableEntry) (v : Vaddr) : Option PageTableEntry :=
  swapspace.find? fun e => e.virtualAddr == v

/-- The offset of a slot in the swap file: an `int` read from an unsigned field. -/
def PageTableEntry.offset (e : PageTableEntry) : Int := e.physicalAddr.toInt

/-- `swap_in`, on the two fields of its argument that it reads. -/
def swapIn (virtualAddr : Vaddr) (physicalAddr : Paddr) : Kernel Unit := do
  let s ← get
  match swapSlot s.swapspace virtualAddr with
  | none => throw (.kassert .swapInEntry)
  | some e =>
    modify fun s =>
      { s with ram := vopRead s.swapFile e.offset (physicalAddr &&& pageFrame) s.ram }

/-- `swap_out`, on the two fields of its argument that it reads. -/
def swapOut (virtualAddr : Vaddr) (physicalAddr : Paddr) : Kernel Unit := do
  let s ← get
  match swapSlot s.swapspace virtualAddr with
  | none => throw (.kassert .swapOutEntry)
  | some e =>
    modify fun s =>
      { s with swapFile := vopWrite s.ram (physicalAddr &&& pageFrame) e.offset s.swapFile }

/-- The size `dev_stat` reports for a device of `dBlocks` blocks of `dBlocksize` bytes: a 32-bit product. -/
def devStatSize (dBlocks dBlocksize : BitVec 32) : BitVec 32 :=
  if 0#32 < dBlocks then dBlocks * dBlocksize else 0#32

/-- The `swapspace_size` that `swapspace_init` takes from it: the size of the table it allocates. -/
def swapspaceSize (dBlocks dBlocksize : BitVec 32) : Nat := (devStatSize dBlocks dBlocksize).toNat / 4096

/-- The table `swapspace_init` leaves, over whatever the fresh block held: the offsets are set, the
other fields, valid bits included, are not. -/
def swapspaceInit (raw : List PageTableEntry) : List PageTableEntry :=
  raw.mapIdx fun i e => { e with physicalAddr := BitVec.ofNat 32 (i * 4096) }

/-- The position `swapspace_insert` stops at: the first free slot, or the size of the table. -/
def freeSlot (swapspace : List PageTableEntry) : Nat :=
  swapspace.findIdx fun e => !e.validBit

/-- `swapspace_insert`. -/
def swapspaceInsert (vaddr : Vaddr) (pid : Int) : Kernel Unit := do
  modify fun s => { s with swapInsertions := s.swapInsertions + 1 }
  let s ← get
  let pos := freeSlot s.swapspace
  kassert .swapInsertRoom (pos < s.swapspace.length)
  modify fun s =>
    { s with
      swapspace := s.swapspace.modify pos fun e =>
        { e with virtualAddr := vaddr, counter := 0, pid := pid, validBit := true } }

/-- The virtual addresses `swapspace_load_as` enters, in order. -/
def AddrSpace.swapPages (as : AddrSpace) : List Vaddr :=
  (List.range as.npages1.toNat).map (fun i => as.vbase1 + BitVec.ofNat 32 i * pageSize) ++
  (List.range as.npages2.toNat).map (fun i => as.vbase2 + BitVec.ofNat 32 i * pageSize) ++
  (List.range initStackpages).map fun i => userstack - BitVec.ofNat 32 (i + 1) * pageSize

/-- `swapspace_load_as`: the pages of the two segments, then those of the stack. -/
def swapspaceLoadAs (p : Ptr) : Kernel Unit := do
  let as ← derefSpace p
  as.swapPages.forM fun v => swapspaceInsert v as.pid

/-- `swapspace_remove`. No function of the kernel calls it. -/
def swapspaceRemove (pid : Int) : Kernel Unit :=
  modify fun s =>
    { s with
      swapspace := s.swapspace.map fun e => if e.pid = pid then { e with validBit := false } else e }

end Os161.Vm

import Os161.Vm.Tlb
import Os161.Vm.Swapspace
import Os161.Vm.Replace

/-!
# Address spaces and page faults

`kern/vm/addrspace.c`: boot, the frame allocator, the page tables, the life of an address space,
and the fault handler. Each function keeps the name and the order of effects of its source. The
spinlock around the allocator and the interrupt level changes are left out: one operation runs at a
time here.
-/

namespace Os161.Vm

open Os161.Lib

/-! ## Page tables and frames -/

/-- What `kmalloc` plus the loop of `add_page_entry` make of a fresh level-2 table: every valid bit
is clear. The other fields are not initialised, and no function reads them before it has set the
valid bit and them with it. -/
def freshLevel2 (block : Ptr) : PageTableLevel2 where
  block := block
  table := fun _ => { (default : PageTableEntry) with validBit := false }

/-- The new level-2 table `add_page_entry` makes for `vadr`. Where `kmalloc` answers `NULL`, the
loop that clears the valid bits faults. -/
def newLevel2 (tbl : Ptr) (vadr : Vaddr) : Kernel Unit := do
  let block ← kmalloc
  match block with
  | none => throw .badPointer
  | some b =>
    updateSpace (some tbl) fun as => some { as with
      table := Function.update as.table (level1index vadr) (some (freshLevel2 b)) }

/-- The first half of `add_page_entry`: the level-2 table of `vadr`, made if it is missing. -/
def ensureLevel2 (tbl : Ptr) (vadr : Vaddr) : Kernel Unit := do
  let as ← derefSpace (some tbl)
  if (as.table (level1index vadr)).isSome then pure () else newLevel2 tbl vadr

/-- The frame index every function computes from an address: the distance to
`physical_base_addr` in pages. -/
def frameIndex (base paddr : Paddr) : Nat := ((paddr - base) >>> 12).toNat

/-- `add_page_entry`. -/
def addPageEntry (tbl : Ptr) (vadr : Vaddr) (paddr : Paddr) : Kernel Unit := do
  ensureLevel2 tbl vadr
  updatePteAt (some tbl) vadr fun e =>
    { e with physicalAddr := paddr, virtualAddr := vadr, validBit := true, dirtyBit := false,
             refBit := false }
  let s ← get
  updateRow (frameIndex s.physicalBaseAddr paddr) fun r =>
    { r with physicalAddr := paddr, virtualAddr := vadr, validBit := true, dirtyBit := false,
             refBit := false, pSpace := some tbl }

/-- The entry `page_frame_table_bootstrap` leaves in row `i`. -/
def bootRow (pa : Paddr) (old : PageTableEntry) (i : Nat) : PageTableEntry :=
  { old with validBit := false, physicalAddr := pa + BitVec.ofNat 32 i * pageSize }

/-- `page_frame_table_bootstrap`, on the address `getppages` answers with. The declaration
`paddr_t physical_base_addr = pa` introduces a local variable, so the global keeps its value. -/
def pageFrameTableBootstrap (pa : Paddr) : Kernel Unit :=
  modify fun s =>
    { s with
      clockHand := 0
      epHand := 0
      rpHand := clockAngle
      cntPageRepl := 0
      pft := fun i => bootRow pa (s.pft i) i }

/-- `vm_bootstrap`, on the address `getppages` answers with and the contents of the block the swap
table is allocated in. -/
def vmBootstrap (pa : Paddr) (rawSwap : List PageTableEntry) : Kernel Unit := do
  modify fun s => { s with swapInsertions := 0 }
  pageFrameTableBootstrap pa
  modify fun s => { s with swapspace := swapspaceInit rawSwap, lastTlbEntry := 0 }

/-- `virtual_alloc_page`. -/
def virtualAllocPage : Kernel Paddr := do
  let s ← get
  let i := (List.finRange maxPmSize).findIdx fun i => !(s.pft i).validBit
  updateRow i fun r => { r with validBit := true, dirtyBit := false, refBit := false }
  let row ← rowAt i
  pure row.physicalAddr

/-- The first loop of `virtual_alloc_kpages`, from row `i` on with `j` frames found: it takes free
rows until `k` are found or the table ends (`fuel` rows are left). It answers with where `i` and
`j` stopped and the list so far. -/
def takeFreeRows (k : Nat) :
    (fuel i j : Nat) → (pList : Nat → Paddr) → Kernel (Nat × Nat × (Nat → Paddr))
  | 0, i, j, pList => pure (i, j, pList)
  | fuel + 1, i, j, pList =>
    if j < k then do
      let row ← rowAt i
      if row.validBit = false then do
        updateRow i fun r => { r with validBit := true, dirtyBit := false, refBit := false }
        takeFreeRows k fuel (i + 1) (j + 1) (Function.update pList j row.physicalAddr)
      else
        takeFreeRows k fuel (i + 1) j pList
    else pure (i, j, pList)

/-- The body of the replacement loop of `virtual_alloc_kpages`: choose a victim, invalidate its
owner's entry, write it out, and drop it from the TLB. -/
def evictFrame : Kernel Paddr := do
  let frame ← replacePage
  let s ← get
  let row ← rowAt (frameIndex s.physicalBaseAddr frame)
  updatePteAt row.pSpace row.virtualAddr fun e => { e with validBit := false }
  swapOut row.virtualAddr frame
  tlbInvalidate row.virtualAddr
  pure frame

/-- The replacement loop: every victim is written to the same position `j` of the list. -/
def replaceRows (j : Nat) : (n : Nat) → (pList : Nat → Paddr) → Kernel (Nat → Paddr)
  | 0, pList => pure pList
  | n + 1, pList => do
    let frame ← evictFrame
    replaceRows j n (Function.update pList j frame)

/-- The two loops of `virtual_alloc_kpages` over the list in the block `b`. Only a scan that reached
the end of the table is followed by replacement. -/
def fillList (k : Nat) (b : Ptr) : Kernel (Nat → Paddr) := do
  let s ← get
  let r ← takeFreeRows k maxPmSize 0 0 (s.heap.junk b)
  if r.1 = maxPmSize then replaceRows r.2.1 (k - r.2.1) r.2.2 else pure r.2.2

/-- `virtual_alloc_kpages`: the block of the list, and the list. Positions no loop writes hold what
the block held. Where `kmalloc` answers `NULL`, the first store into the list faults. -/
def virtualAllocKpages (k : Nat) : Kernel (Option Ptr × (Nat → Paddr)) := do
  let block ← kmalloc
  match block with
  | none => if k = 0 then pure (none, fun _ => 0#32) else throw .badPointer
  | some b =>
    let pList ← fillList k b
    modify fun s => { s with handedOut := (List.range k).map pList ++ s.handedOut }
    pure (some b, pList)

/-! ## The life of an address space -/

/-- `as_create`. The fields it does not set hold what the block held. -/
def asCreate : Kernel (Option Ptr) := do
  modify fun s => { s with numVmFaults := 0 }
  let block ← kmalloc
  match block with
  | none => pure none
  | some p =>
    let s ← get
    setSpace p
      { vbase1 := 0#32, npages1 := 0#32, vbase2 := 0#32, npages2 := 0#32
        pid := (s.heap.junk p 0).toInt, size := 0, table := fun _ => none
        stackpbase := 0#32, stacknpages := s.heap.junk p 1 }
    pure (some p)

/-- `memmove` of a page between two frames. -/
def memmovePage (dst src : Paddr) : Kernel Unit :=
  modify fun s =>
    { s with ram := fun a => if (a - dst).toNat < 4096 then s.ram (src + (a - dst)) else s.ram a }

/-- `as->table[i]->table[j]`, updated in place. -/
def updateSlot (p : Ptr) (i : Fin maxLevel1Pt) (j : Fin maxLevel2Pt) (f : PageTableEntry → PageTableEntry) :
    Kernel Unit :=
  updateSpace (some p) fun as => (as.table i).map fun l2 =>
    { as with
      table := Function.update as.table i (some { l2 with table := Function.update l2.table j (f (l2.table j)) }) }

/-- The body of the inner loop of `as_copy`, for the entry `e` of the old address space. -/
def copyEntry (newas : Ptr) (i : Fin maxLevel1Pt) (j : Fin maxLevel2Pt) (e : PageTableEntry) : Kernel Unit :=
  if e.validBit then do
    updateSlot newas i j fun n => { n with validBit := e.validBit }
    let tempPaddr ← virtualAllocPage
    updateSlot newas i j fun n => { n with physicalAddr := tempPaddr }
    memmovePage tempPaddr e.physicalAddr
    updateSlot newas i j fun n => { n with dirtyBit := e.dirtyBit, refBit := e.refBit, pid := e.pid + 1 }
  else pure ()

/-- The outer loop of `as_copy`. It returns after the first level-2 table; where there is none, the function ends
without a `return`, and `*ret` is not set: that is `none`. -/
def copyTables (old : AddrSpace) (newas : Ptr) : List (Fin maxLevel1Pt) → Kernel (Option (Except Errno Ptr))
  | [] => pure none
  | i :: rest =>
    match old.table i with
    | none => copyTables old newas rest
    | some l2 => do
      (List.finRange maxLevel2Pt).forM fun j => copyEntry newas i j (l2.table j)
      pure (some (.ok newas))

/-- `as_copy`; the answer is the value it returns, with the address space it stores through `ret`. -/
def asCopy (old : Ptr) : Kernel (Option (Except Errno Ptr)) := do
  let newas ← asCreate
  match newas with
  | none => pure (some (.error .ENOMEM))
  | some newas =>
    let as ← derefSpace (some old)
    updateSpace (some newas) fun n => some
      { n with
        vbase1 := as.vbase1, npages1 := as.npages1, vbase2 := as.vbase2, npages2 := as.npages2
        pid := as.pid + 1, size := as.size, stackpbase := as.stackpbase }
    copyTables as newas (List.finRange maxLevel1Pt)

/-- The page-aligned base and the page count `as_define_region` records for a region. -/
def regionPages (vaddr sz : BitVec 32) : Vaddr × BitVec 32 :=
  let sz := sz + (vaddr &&& ~~~pageFrame)
  let vaddr := vaddr &&& pageFrame
  let sz := (sz + pageSize - 1#32) &&& pageFrame
  (vaddr, sz / pageSize)

/-- `as_define_region` on the address space itself: a base of 0 marks a free slot. -/
def AddrSpace.defineRegion (as : AddrSpace) (vaddr sz : BitVec 32) : Except Errno AddrSpace :=
  let r := regionPages vaddr sz
  if as.vbase1 = 0#32 then .ok { as with vbase1 := r.1, npages1 := r.2 }
  else if as.vbase2 = 0#32 then .ok { as with vbase2 := r.1, npages2 := r.2 }
  else .error .EUNIMP

/-- `as_define_region`. -/
def asDefineRegion (p : Ptr) (vaddr sz : BitVec 32) : Kernel (Option Errno) := do
  let as ← derefSpace (some p)
  match as.defineRegion vaddr sz with
  | .ok as' =>
    setSpace p as'
    pure none
  | .error e => pure (some e)

/-- `as_zero_page`. -/
def asZeroPage (paddr : Paddr) : Kernel Unit :=
  modify fun s => { s with ram := fun a => if (a - paddr).toNat < 4096 then 0 else s.ram a }

/-- The loops of `as_prepare_load`: enter and zero one page after the other. -/
def enterPages (p : Ptr) (pages : List (Vaddr × Paddr)) : Kernel Unit :=
  pages.forM fun e => do
    addPageEntry p e.1 e.2
    asZeroPage e.2

/-- `as_prepare_load`. -/
def asPrepareLoad (p : Ptr) : Kernel (Option Errno) := do
  let as ← derefSpace (some p)
  let seg1pages := as.npages1.toInt.toNat
  let seg2pages := if swapTest then physicalSeg2pages else as.npages2.toInt.toNat
  let stackpages := if swapTest then physicalStackpages else initStackpages
  let r1 ← virtualAllocKpages seg1pages
  let r2 ← virtualAllocKpages seg2pages
  let r3 ← virtualAllocKpages stackpages
  enterPages p <|
    (List.range seg1pages).map fun i => (as.vbase1 + BitVec.ofNat 32 i * pageSize, r1.2 i)
  enterPages p <|
    (List.range seg2pages).map fun i => (as.vbase2 + BitVec.ofNat 32 i * pageSize, r2.2 i)
  updateSpace (some p) fun as => some { as with stacknpages := BitVec.ofNat 32 stackpages }
  enterPages p <|
    (List.range stackpages).map fun i => (userstack - BitVec.ofNat 32 (i + 1) * pageSize, r3.2 i)
  kfree r1.1
  kfree r2.1
  kfree r3.1
  pure none

/-- The valid entries of an address space in the order `as_destroy` visits them, and the blocks it
frees on the way. -/
def AddrSpace.level2Tables (as : AddrSpace) : List PageTableLevel2 :=
  (List.finRange maxLevel1Pt).filterMap as.table

/-- The body of the inner loop of `as_destroy`: the row of a valid entry's frame is freed. -/
def releaseEntry (e : PageTableEntry) : Kernel Unit :=
  if e.validBit then do
    let s ← get
    updateRow (frameIndex s.physicalBaseAddr e.physicalAddr) fun r => { r with validBit := false }
  else pure ()

/-- The body of the outer loop of `as_destroy`: one level-2 table. -/
def releaseTable (l2 : PageTableLevel2) : Kernel Unit := do
  (List.finRange maxLevel2Pt).forM fun j => releaseEntry (l2.table j)
  kfree (some l2.block)

/-- `as_destroy`. -/
def asDestroy (p : Ptr) : Kernel Unit := do
  let as ← derefSpace (some p)
  as.level2Tables.forM releaseTable
  kfree (some p)
  modify fun s => { s with spaces := Function.update s.spaces p none }

/-! ## Page faults -/

/-- Whether `get_physical_address` finds a valid entry. -/
def AddrSpace.resident (as : AddrSpace) (v : Vaddr) : Bool :=
  match as.pte? v with
  | none => false
  | some e => e.validBit

/-- The bookkeeping of a read or write fault: the reference bits of the entry and of the frame's
row, and on a write the entry's dirty bit. -/
def touchPage (as : Ptr) (vaddr : Vaddr) (dirty : Bool) : Kernel Unit := do
  let e ← pteAt (some as) vaddr
  updatePteAt (some as) vaddr fun e =>
    { e with dirtyBit := e.dirtyBit || dirty, refBit := true }
  let s ← get
  updateRow (frameIndex s.physicalBaseAddr e.physicalAddr) fun r => { r with refBit := true }

/-- The part of `get_physical_address` under `!page_entry_exists`: a frame for the page, the entry,
the TLB slot, and its bytes from swap. -/
def bringIn (as : Ptr) (vaddr : Vaddr) : Kernel Unit := do
  let r ← virtualAllocKpages 1
  addPageEntry as vaddr (r.2 0)
  let _ ← insertTlbEntry vaddr (r.2 0)
  swapIn vaddr (r.2 0)

/-- The first half of `get_physical_address`: the page is in memory afterwards. -/
def ensureResident (as : Ptr) (vaddr : Vaddr) : Kernel Unit := do
  let space ← derefSpace (some as)
  if space.resident vaddr then pure () else bringIn as vaddr

/-- The switch of `get_physical_address`. -/
def touchFor (as : Ptr) (vaddr : Vaddr) : FaultType → Kernel Unit
  | .readonly => throw .readonlyFault
  | .read => touchPage as vaddr false
  | .write => touchPage as vaddr true
  | .other => pure ()

/-- `get_physical_address`. -/
def getPhysicalAddress (as : Ptr) (vaddr : Vaddr) (faulttype : FaultType) : Kernel Paddr := do
  ensureResident as vaddr
  touchFor as vaddr faulttype
  let e ← pteAt (some as) vaddr
  pure <| if faulttype = .other then BitVec.ofNat 32 Errno.EINVAL.code
    else e.physicalAddr + (vaddr &&& offsetMask)

/-- The three ranges `vm_fault` accepts: the two segments and the stack. -/
def AddrSpace.covers (as : AddrSpace) (faultaddress : Vaddr) : Bool :=
  let vtop1 := as.vbase1 + as.npages1 * pageSize
  let vtop2 := as.vbase2 + as.npages2 * pageSize
  let stackbase := userstack - BitVec.ofNat 32 initStackpages * pageSize
  (as.vbase1 ≤ faultaddress && faultaddress < vtop1) ||
  (as.vbase2 ≤ faultaddress && faultaddress < vtop2) ||
  (stackbase ≤ faultaddress && faultaddress < userstack)

/-- The assertions of `vm_fault` on the address space. -/
def checkSpace (as : AddrSpace) : Kernel Unit := do
  kassert .vbase1 (as.vbase1 != 0#32)
  kassert .npages1 (as.npages1 != 0#32)
  kassert .vbase2 (as.vbase2 != 0#32)
  kassert .npages2 (as.npages2 != 0#32)
  kassert .vbase1Aligned (as.vbase1 &&& pageFrame == as.vbase1)
  kassert .vbase2Aligned (as.vbase2 &&& pageFrame == as.vbase2)

/-- The second half of `vm_fault`, for an address space and a page-aligned address. The three
accepted ranges have the same body. -/
def resolveFault (p : Ptr) (faulttype : FaultType) (faultaddress : Vaddr) :
    Kernel (Option Errno) := do
  let as ← derefSpace (some p)
  checkSpace as
  if as.covers faultaddress then do
    let paddr ← getPhysicalAddress p faultaddress faulttype
    kassert .paddrAligned (paddr &&& pageFrame == paddr)
    insertTlbEntry faultaddress paddr
  else pure (some .EFAULT)

/-- The part of `vm_fault` after the switch on the fault type. -/
def faultIn (faulttype : FaultType) (faultaddress : Vaddr) : Kernel (Option Errno) := do
  let s ← get
  match s.curAddrspace with
  | none => pure (some .EFAULT)
  | some p => resolveFault p faulttype faultaddress

/-- `vm_fault`. -/
def vmFault (faulttype : FaultType) (faultaddress : Vaddr) : Kernel (Option Errno) := do
  modify fun s => { s with numVmFaults := s.numVmFaults + 1 }
  match faulttype with
  | .readonly => throw .readonlyFault
  | .read => faultIn .read (faultaddress &&& pageFrame)
  | .write => faultIn .write (faultaddress &&& pageFrame)
  | .other => pure (some .EINVAL)

/-! ## The running process and the system -/

/-- The slot the processor translates an address with: the one that matches, if it is valid. -/
def tlbHit (tlb : Fin numTlb → TlbEntry) (va : Vaddr) : Option (Fin numTlb) :=
  (tlbMatch tlb va).filter fun i => (tlb i).valid

/-- A user load: through the TLB, or a read fault, after which the processor tries the instruction
again. Kernel addresses raise an address error. -/
def userLoad (va : Vaddr) : Kernel (Option UInt8) := do
  let s ← get
  if userspaceTop ≤ va then pure none
  else
    match tlbHit s.tlb va with
    | some i => pure (some (s.ram ((s.tlb i).ppage + (va &&& offsetMask))))
    | none =>
      let _ ← vmFault .read va
      pure none

/-- A store translated by slot `i`. A slot without write permission raises the read-only fault. -/
def storeThrough (i : Fin numTlb) (va : Vaddr) (b : UInt8) : Kernel Unit := do
  let s ← get
  if (s.tlb i).lo &&& tlbloDirty = 0#32 then
    let _ ← vmFault .readonly va
    pure ()
  else
    modify fun s =>
      { s with ram := Function.update s.ram ((s.tlb i).ppage + (va &&& offsetMask)) b }

/-- A user store, likewise. -/
def userStore (va : Vaddr) (b : UInt8) : Kernel Unit := do
  let s ← get
  if userspaceTop ≤ va then pure ()
  else
    match tlbHit s.tlb va with
    | some i => storeThrough i va b
    | none =>
      let _ ← vmFault .write va
      pure ()

/-- The operations the memory system offers to the rest of the kernel and to the hardware.
`activate` is a context switch: the thread that runs next has the address space given. -/
inductive Op where
  | create
  | defineRegion (as : Ptr) (vaddr sz : BitVec 32)
  | prepareLoad (as : Ptr)
  | swapLoad (as : Ptr)
  | activate (as : Option Ptr)
  | fault (faulttype : FaultType) (va : Vaddr)
  | load (va : Vaddr)
  | store (va : Vaddr) (b : UInt8)
  | destroy (as : Ptr)

/-- What an operation does. -/
def Op.exec : Op → Kernel Unit
  | .create => do let _ ← asCreate; pure ()
  | .defineRegion as vaddr sz => do let _ ← asDefineRegion as vaddr sz; pure ()
  | .prepareLoad as => do let _ ← asPrepareLoad as; pure ()
  | .swapLoad as => swapspaceLoadAs as
  | .activate as => do
    modify fun s => { s with curAddrspace := as }
    asActivate
  | .fault faulttype va => do let _ ← vmFault faulttype va; pure ()
  | .load va => do let _ ← userLoad va; pure ()
  | .store va b => userStore va b
  | .destroy as => asDestroy as

end Os161.Vm

import Os161.Vm.State

/-!
# The TLB

The access functions of `kern/arch/mips/include/tlb.h` over the 64 slots, and the functions of
`kern/vm/addrspace.c` that write them. A probe compares virtual page fields only: a slot whose
valid bit is clear matches too, which is why invalid slots hold addresses outside user space.
-/

namespace Os161.Vm

open Os161.Lib

/-- `TLBHI_VPAGE`, the virtual page field. -/
abbrev tlbhiVpage : BitVec 32 := 0xfffff000#32

/-- `TLBLO_PPAGE`, the physical page field. -/
abbrev tlbloPpage : BitVec 32 := 0xfffff000#32

/-- `TLBLO_DIRTY`, the write permission. -/
abbrev tlbloDirty : BitVec 32 := 0x00000400#32

/-- `TLBLO_VALID`. -/
abbrev tlbloValid : BitVec 32 := 0x00000200#32

/-- `TLBHI_INVALID`. -/
def tlbhiInvalid (entryno : Nat) : BitVec 32 := BitVec.ofNat 32 (0x80000 + entryno) <<< 12

/-- `TLBLO_INVALID`. -/
abbrev tlbloInvalid : BitVec 32 := 0#32

/-- The virtual page field of a slot. -/
def TlbEntry.vpage (e : TlbEntry) : BitVec 32 := e.hi &&& tlbhiVpage

/-- The frame a slot maps to. -/
def TlbEntry.ppage (e : TlbEntry) : BitVec 32 := e.lo &&& tlbloPpage

/-- The valid bit of a slot. -/
def TlbEntry.valid (e : TlbEntry) : Bool := e.lo &&& tlbloValid != 0#32

/-- The first slot whose virtual page field is that of `hi`. -/
def tlbMatch (tlb : Fin numTlb → TlbEntry) (hi : BitVec 32) : Option (Fin numTlb) :=
  (List.finRange numTlb).find? fun i => (tlb i).vpage == hi &&& tlbhiVpage

/-- `tlb_probe`. -/
def tlbProbe (tlb : Fin numTlb → TlbEntry) (hi : BitVec 32) : Int :=
  match tlbMatch tlb hi with
  | some i => i.val
  | none => -1

/-- `tlb_write`. -/
def tlbWrite (hi lo : BitVec 32) (index : Nat) : Kernel Unit :=
  if h : index < numTlb then
    modify fun s => { s with tlb := Function.update s.tlb ⟨index, h⟩ ⟨hi, lo⟩ }
  else throw .tlbIndex

/-- `insert_tlb_entry`. -/
def insertTlbEntry (faultaddress : Vaddr) (paddr : Paddr) : Kernel (Option Errno) := do
  let s ← get
  if tlbProbe s.tlb faultaddress ≥ 0 then
    pure none
  else
    -- the loop over the slots has no exit, so the slot is always the round-robin one
    modify fun s => { s with lastTlbEntry := (s.lastTlbEntry + 1) % numTlb }
    tlbWrite faultaddress (paddr ||| tlbloDirty ||| tlbloValid) s.lastTlbEntry
    pure none

/-- `tlb_invalidate`. -/
def tlbInvalidate (vaddr : Vaddr) : Kernel Unit := do
  let s ← get
  let index := tlbProbe s.tlb vaddr
  if index > 0 then
    tlbWrite (tlbhiInvalid index.toNat) tlbloInvalid index.toNat

/-- `as_activate`: every slot gets its own invalid entry. The argument is ignored. -/
def asActivate : Kernel Unit :=
  (List.range numTlb).forM fun i => tlbWrite (tlbhiInvalid i) tlbloInvalid i

end Os161.Vm

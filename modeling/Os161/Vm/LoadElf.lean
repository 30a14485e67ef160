import Os161.Vm.Addrspace

/-!
# Loading and leaving a program

`kern/syscall/loadelf.c`, `runprogram` of `kern/syscall/runprogram.c`, the part of `thread_exit` that
concerns the address space, and what `load_segment` copies with: `uiomove` of `kern/lib/uio.c` and
`copyout` of `kern/vm/copyinout.c`.

The executable is a file whose bytes do not change while it is loaded. `VOP_READ` answers with the
bytes asked for up to the end of the file, without an error, and hands them to `uiomove` in pieces;
how it cuts them is the file system's choice.
-/

namespace Os161.Vm

open Os161.Lib

/-! ## The executable file -/

/-- An executable: its bytes, and the sizes of the pieces in which a read at an offset is moved. -/
structure Executable where
  data : List UInt8
  pieces : (offset n : Nat) → List Nat
  pieces_sum : ∀ offset n, (pieces offset n).sum = n

/-- `VOP_READ`: up to `n` bytes at `offset`. -/
def Executable.read (f : Executable) (offset n : Nat) : List UInt8 := (f.data.drop offset).take n

/-- The big-endian word of two bytes at position `i`. -/
def be16 (bytes : List UInt8) (i : Nat) : BitVec 16 :=
  (bytes.getD i 0).toBitVec ++ (bytes.getD (i + 1) 0).toBitVec

/-- The big-endian word of four bytes at position `i`. -/
def be32 (bytes : List UInt8) (i : Nat) : BitVec 32 := be16 bytes i ++ be16 bytes (i + 2)

/-- `Elf32_Ehdr`, the fields `load_elf` uses. -/
structure ElfEhdr where
  eIdent : List UInt8
  eType : BitVec 16
  eMachine : BitVec 16
  eVersion : BitVec 32
  eEntry : BitVec 32
  ePhoff : BitVec 32
  ePhentsize : BitVec 16
  ePhnum : BitVec 16

/-- `Elf32_Phdr`, the fields `load_elf` uses. The flags choose between two kinds of user space that
`uiomove` treats alike. -/
structure ElfPhdr where
  pType : BitVec 32
  pOffset : BitVec 32
  pVaddr : BitVec 32
  pFilesz : BitVec 32
  pMemsz : BitVec 32
deriving DecidableEq

/-- The executable header at offset 0 of its 52 bytes. -/
def ElfEhdr.decode (bytes : List UInt8) : ElfEhdr where
  eIdent := bytes.take 16
  eType := be16 bytes 16
  eMachine := be16 bytes 18
  eVersion := be32 bytes 20
  eEntry := be32 bytes 24
  ePhoff := be32 bytes 28
  ePhentsize := be16 bytes 42
  ePhnum := be16 bytes 44

/-- A program header from its 32 bytes. -/
def ElfPhdr.decode (bytes : List UInt8) : ElfPhdr where
  pType := be32 bytes 0
  pOffset := be32 bytes 4
  pVaddr := be32 bytes 8
  pFilesz := be32 bytes 16
  pMemsz := be32 bytes 20

/-- The check for a 32-bit big-endian version-1 executable for MIPS. -/
def ElfEhdr.supported (eh : ElfEhdr) : Bool :=
  eh.eIdent.take 7 == [0x7f, 0x45, 0x4c, 0x46, 1, 2, 1] && eh.eVersion == 1#32 && eh.eType == 2#16 &&
    eh.eMachine == 8#16

/-- Reading and checking the executable header. -/
def Executable.ehdr (f : Executable) : Except Errno ElfEhdr :=
  let bytes := f.read 0 52
  if bytes.length < 52 then .error .ENOEXEC
  else if (ElfEhdr.decode bytes).supported then .ok (ElfEhdr.decode bytes)
  else .error .ENOEXEC

/-- Reading program header `i`, at `e_phoff + i * e_phentsize` in 32-bit arithmetic. -/
def Executable.phdr (f : Executable) (eh : ElfEhdr) (i : Nat) : Except Errno ElfPhdr :=
  let offset := eh.ePhoff + BitVec.ofNat 32 i * eh.ePhentsize.setWidth 32
  let bytes := f.read offset.toNat 32
  if bytes.length < 32 then .error .ENOEXEC else .ok (ElfPhdr.decode bytes)

/-- What both passes do with a header: skip it, take its segment, or give up. -/
inductive SegmentKind where
  | skip | load | unknown
deriving DecidableEq

/-- The switch on `p_type`. -/
def ElfPhdr.kind (ph : ElfPhdr) : SegmentKind :=
  if ph.pType = 0#32 ∨ ph.pType = 6#32 ∨ ph.pType = 0x70000000#32 then .skip
  else if ph.pType = 1#32 then .load
  else .unknown

/-- The loop of both passes over the program headers of the given numbers. -/
def eachSegment (f : Executable) (eh : ElfEhdr) (body : ElfPhdr → Kernel (Option Errno)) :
    List Nat → Kernel (Option Errno)
  | [] => pure none
  | i :: rest =>
    match f.phdr eh i with
    | .error e => pure (some e)
    | .ok ph =>
      match ph.kind with
      | .skip => eachSegment f eh body rest
      | .unknown => pure (some .ENOEXEC)
      | .load => do
        let r ← body ph
        match r with
        | some e => pure (some e)
        | none => eachSegment f eh body rest

/-! ## Copying to user space -/

/-- A store by the kernel to a user address, as the processor does it: through the TLB, or after a
write fault. A fault with an error ends in `copyfail`. After a fault that was resolved the store is
tried again; if the TLB still has no translation, nothing will change that. -/
def kernelStore (va : Vaddr) (b : UInt8) : Kernel (Option Errno) := do
  let s ← get
  match tlbHit s.tlb va with
  | some i =>
    storeThrough i va b
    pure none
  | none =>
    let r ← vmFault .write va
    match r with
    | some _ => pure (some .EFAULT)
    | none =>
      let s ← get
      match tlbHit s.tlb va with
      | some i =>
        storeThrough i va b
        pure none
      | none => throw .livelock

/-- The `memcpy` of `copyout`. -/
def copyBytes : List UInt8 → Vaddr → Kernel (Option Errno)
  | [], _ => pure none
  | b :: rest, va => do
    let r ← kernelStore va b
    match r with
    | some e => pure (some e)
    | none => copyBytes rest (va + 1#32)

/-- `copycheck`: the length that can be copied before the kernel's addresses begin. -/
def copycheck (userptr : Vaddr) (len : BitVec 32) : Except Errno (BitVec 32) :=
  let top := userptr + len - 1#32
  if top < userptr then .error .EFAULT
  else if userspaceTop ≤ userptr then .error .EFAULT
  else if userspaceTop ≤ top then .ok (userspaceTop - userptr)
  else .ok len

/-- `copyout`. -/
def copyout (src : List UInt8) (userdest : Vaddr) : Kernel (Option Errno) :=
  match copycheck userdest (BitVec.ofNat 32 src.length) with
  | .error e => pure (some e)
  | .ok stoplen =>
    if stoplen ≠ BitVec.ofNat 32 src.length then pure (some .EFAULT) else copyBytes src userdest

/-- `uiomove` for each piece of a read into one user buffer that is long enough. An empty piece moves
nothing. -/
def movePieces : List Nat → List UInt8 → Vaddr → Kernel (Option Errno)
  | [], _, _ => pure none
  | n :: rest, src, va =>
    if n = 0 then movePieces rest src va
    else do
      let r ← copyout (src.take n) va
      match r with
      | some e => pure (some e)
      | none => movePieces rest (src.drop n) (va + BitVec.ofNat 32 n)

/-- `load_segment`. The buffer has `memsize` bytes and at most `filesize ≤ memsize` are moved. -/
def loadSegment (f : Executable) (ph : ElfPhdr) : Kernel (Option Errno) := do
  let filesize := if ph.pMemsz < ph.pFilesz then ph.pMemsz else ph.pFilesz
  let data := f.read ph.pOffset.toNat filesize.toNat
  let r ← movePieces (f.pieces ph.pOffset.toNat data.length) data ph.pVaddr
  match r with
  | some e => pure (some e)
  | none => pure (if data.length < filesize.toNat then some .ENOEXEC else none)

/-! ## The program's life -/

/-- The second half of `load_elf`, once the regions are defined. -/
def loadSegments (p : Ptr) (f : Executable) (eh : ElfEhdr) : Kernel (Except Errno Vaddr) := do
  let r ← asPrepareLoad p
  match r with
  | some e => pure (.error e)
  | none =>
    swapspaceLoadAs p
    let r ← eachSegment f eh (loadSegment f) (List.range eh.ePhnum.toNat)
    match r with
    | some e => pure (.error e)
    | none => pure (.ok eh.eEntry)

/-- `load_elf`, for the thread whose address space is `p`: the entry point, or an error. -/
def loadElf (p : Ptr) (f : Executable) : Kernel (Except Errno Vaddr) :=
  match f.ehdr with
  | .error e => pure (.error e)
  | .ok eh => do
    let r ← eachSegment f eh (fun ph => asDefineRegion p ph.pVaddr ph.pMemsz)
      (List.range eh.ePhnum.toNat)
    match r with
    | some e => pure (.error e)
    | none => loadSegments p f eh

/-- `runprogram`, from the new address space on, in a thread that has none. -/
def runprogram (f : Executable) : Kernel (Except Errno Vaddr) := do
  let block ← asCreate
  match block with
  | none => pure (.error .ENOMEM)
  | some p =>
    modify fun s => { s with curAddrspace := some p }
    asActivate
    loadElf p f

/-- What `thread_exit` does with the address space of its thread. -/
def exitSpace (p : Ptr) : Kernel Unit := do
  modify fun s => { s with curAddrspace := none }
  asActivate
  asDestroy p

end Os161.Vm

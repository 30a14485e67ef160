import Mathlib.Logic.Function.Basic
import Os161.Lib.Program

/-!
# Interprocessor interrupts

`ipi_send`, `ipi_tlbshootdown` and `interprocessor_interrupt` of `kern/thread/thread.c`, on the fields of
one `struct cpu` that its `c_ipi_lock` protects. Each of the three holds that lock from its first line to
its last, so it is one step; who posts to the processor makes no difference to it.

The VM system's `vm_tlbshootdown_all` and `vm_tlbshootdown` are calls out of this code. The model records
them in the order they are made and takes them to return.
-/

namespace Os161.Ipi

open Os161.Lib

/-- `struct tlbshootdown`. -/
structure TlbShootdown where
  addrspace : Nat
  vaddr : BitVec 32
deriving DecidableEq

/-- `TLBSHOOTDOWN_MAX`. -/
abbrev tlbshootdownMax : Nat := 16

/-- `TLBSHOOTDOWN_ALL`. -/
abbrev tlbshootdownAll : Int := -1

/-- `IPI_PANIC`. -/
abbrev codePanic : Nat := 0

/-- `IPI_OFFLINE`. -/
abbrev codeOffline : Nat := 1

/-- `IPI_UNIDLE`. -/
abbrev codeUnidle : Nat := 2

/-- `IPI_TLBSHOOTDOWN`. -/
abbrev codeTlbshootdown : Nat := 3

/-- A call into the VM system. -/
inductive Flush where
  | all
  | one (mapping : TlbShootdown)
deriving DecidableEq

/-- `struct cpu`, as far as its `c_ipi_lock` goes. `flushes` is a history variable, the calls made into
the VM system so far. -/
structure Cpu where
  ipiPending : BitVec 32
  shootdown : Fin tlbshootdownMax → TlbShootdown
  numshootdown : Int
  flushes : List Flush

/-- The `KASSERT` of `ipi_send`, an index outside `c_shootdown`, and `cpu_halt`, which does not return. -/
inductive Fault where
  | badCode
  | outOfBounds (index : Int)
  | halted
deriving DecidableEq

/-- Code that works on a processor's data. -/
abbrev K := EStateM Fault Cpu

/-- An index into `c_shootdown`. -/
def slot? (i : Int) : Option (Fin tlbshootdownMax) :=
  if h : 0 ≤ i ∧ i.toNat < tlbshootdownMax then some ⟨i.toNat, h.2⟩ else none

/-- `c_ipi_pending |= (uint32_t)1 << code`. -/
def post (code : Nat) : K Unit :=
  modify fun c => { c with ipiPending := c.ipiPending ||| 1#32 <<< code }

/-- `ipi_send`. -/
def ipiSend (code : Nat) : K Unit :=
  if code < 32 then post code else throw .badCode

/-- `ipi_tlbshootdown`. -/
def ipiTlbshootdown (mapping : TlbShootdown) : K Unit := do
  let c ← get
  let n := c.numshootdown
  if n = tlbshootdownMax then
    modify fun c => { c with numshootdown := tlbshootdownAll }
    post codeTlbshootdown
  else
    match slot? n with
    | none => throw (.outOfBounds n)
    | some i =>
      modify fun c =>
        { c with shootdown := Function.update c.shootdown i mapping, numshootdown := n + 1 }
      post codeTlbshootdown

/-- A call of `vm_tlbshootdown_all` or `vm_tlbshootdown`. -/
def call (f : Flush) : K Unit :=
  modify fun c => { c with flushes := c.flushes ++ [f] }

/-- `vm_tlbshootdown(&curcpu->c_shootdown[i])`. -/
def shootdownAt (i : Nat) : K Unit := do
  let c ← get
  match slot? i with
  | none => throw (.outOfBounds i)
  | some k => call (.one (c.shootdown k))

/-- The part of `interprocessor_interrupt` that looks after the TLB. -/
def shootdownAllPending : K Unit := do
  let c ← get
  if c.numshootdown = tlbshootdownAll then
    call .all
    modify fun c => { c with numshootdown := 0 }
  else
    (List.range c.numshootdown.toNat).forM shootdownAt
    modify fun c => { c with numshootdown := 0 }

/-- `interprocessor_interrupt`. -/
def interprocessorInterrupt : K Unit := do
  let c ← get
  let bits := c.ipiPending
  if bits.getLsbD codePanic then throw .halted
  else if bits.getLsbD codeOffline then throw .halted
  else if bits.getLsbD codeTlbshootdown then
    shootdownAllPending
    modify fun c => { c with ipiPending := 0 }
  else modify fun c => { c with ipiPending := 0 }

/-! ## Whole runs -/

/-- What happens to a processor's interprocessor interrupts. -/
inductive Event where
  | send (code : Nat)
  | shootdown (mapping : TlbShootdown)
  | interrupt

/-- An event, carried out. -/
def Event.exec : Event → K Unit
  | .send code => ipiSend code
  | .shootdown mapping => ipiTlbshootdown mapping
  | .interrupt => interprocessorInterrupt

/-- What other processors do between two interrupts, short of stopping this one. -/
def Event.posts : Event → Bool
  | .send code => code < 32 && code != codePanic && code != codeOffline
  | .shootdown _ => true
  | .interrupt => false

/-- The mappings asked for by a sequence of events. -/
def requests : List Event → List TlbShootdown
  | [] => []
  | .shootdown mapping :: es => mapping :: requests es
  | _ :: es => requests es

/-- A processor as `cpu_create` leaves it. -/
structure Cpu.IsNew (c : Cpu) : Prop where
  ipiPending : c.ipiPending = 0
  numshootdown : c.numshootdown = 0

end Os161.Ipi

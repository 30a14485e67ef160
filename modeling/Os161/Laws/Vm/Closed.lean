import Os161.Laws.Vm.Pages

/-!
# What the operations can do to the state

Every operation of the memory system is made of a few kinds of updates: counters and the heap,
page-table entries that leave the regions alone, frame rows that keep their address, the one row
update that writes an address (`add_page_entry`), the TLB, and the two memories. `Closed` says that
a property survives each kind; the lemmas below follow the code once and conclude that it survives
the operations. An invariant that does not look at the order of the updates is then proved from its
`Closed` fields, without another walk through the code.
-/

namespace Os161.Vm

open Os161.Lib

variable {s : VmState} {as as' : AddrSpace} {v : Vaddr} {f : PageTableEntry → PageTableEntry}

/-! ## The assertions on an address space -/

/-- The assertions of `vm_fault` on the regions of an address space. -/
def Assertion.OnRegions : Assertion → Prop
  | .vbase1 | .npages1 | .vbase2 | .npages2 | .vbase1Aligned | .vbase2Aligned => True
  | _ => False

/-- An address space those assertions hold of. -/
structure AddrSpace.Checked (as : AddrSpace) : Prop where
  vbase1 : as.vbase1 ≠ 0#32
  npages1 : as.npages1 ≠ 0#32
  vbase2 : as.vbase2 ≠ 0#32
  npages2 : as.npages2 ≠ 0#32
  aligned1 : IsPage as.vbase1
  aligned2 : IsPage as.vbase2

theorem kassert_true (x : Assertion) : kassert x true s = .ok () s := rfl

theorem kassert_cases (x : Assertion) (c : Bool) :
    c = true ∧ kassert x c s = .ok () s ∨ c = false ∧ kassert x c s = .error (.kassert x) s := by
  cases c
  · exact .inr ⟨rfl, rfl⟩
  · exact .inl ⟨rfl, rfl⟩

theorem checkSpace_cases (as : AddrSpace) (s : VmState) :
    as.Checked ∧ checkSpace as s = .ok () s ∨
      ¬ as.Checked ∧ ∃ x : Assertion, x.OnRegions ∧ checkSpace as s = .error (.kassert x) s := by
  unfold checkSpace
  rcases kassert_cases (s := s) .vbase1 (as.vbase1 != 0#32) with ⟨h₁, e₁⟩ | ⟨h₁, e₁⟩
  swap
  · exact .inr ⟨fun h => by simp [h.vbase1] at h₁, .vbase1, trivial, bind_error e₁⟩
  rw [bind_ok e₁]
  rcases kassert_cases (s := s) .npages1 (as.npages1 != 0#32) with ⟨h₂, e₂⟩ | ⟨h₂, e₂⟩
  swap
  · exact .inr ⟨fun h => by simp [h.npages1] at h₂, .npages1, trivial, bind_error e₂⟩
  rw [bind_ok e₂]
  rcases kassert_cases (s := s) .vbase2 (as.vbase2 != 0#32) with ⟨h₃, e₃⟩ | ⟨h₃, e₃⟩
  swap
  · exact .inr ⟨fun h => by simp [h.vbase2] at h₃, .vbase2, trivial, bind_error e₃⟩
  rw [bind_ok e₃]
  rcases kassert_cases (s := s) .npages2 (as.npages2 != 0#32) with ⟨h₄, e₄⟩ | ⟨h₄, e₄⟩
  swap
  · exact .inr ⟨fun h => by simp [h.npages2] at h₄, .npages2, trivial, bind_error e₄⟩
  rw [bind_ok e₄]
  rcases kassert_cases (s := s) .vbase1Aligned (as.vbase1 &&& pageFrame == as.vbase1) with
    ⟨h₅, e₅⟩ | ⟨h₅, e₅⟩
  swap
  · exact .inr ⟨fun h => by simp [show _ = _ from h.aligned1] at h₅, .vbase1Aligned, trivial,
      bind_error e₅⟩
  rw [bind_ok e₅]
  rcases kassert_cases (s := s) .vbase2Aligned (as.vbase2 &&& pageFrame == as.vbase2) with
    ⟨h₆, e₆⟩ | ⟨h₆, e₆⟩
  swap
  · exact .inr ⟨fun h => by simp [show _ = _ from h.aligned2] at h₆, .vbase2Aligned, trivial, e₆⟩
  exact .inl ⟨⟨by simpa using h₁, by simpa using h₂, by simpa using h₃, by simpa using h₄,
    beq_iff_eq.mp h₅, beq_iff_eq.mp h₆⟩, e₆⟩

/-! ## Updates that leave the regions alone -/

/-- Two versions of an address space that differ in the page tables and the stack size only. -/
def SameRegions (as as' : AddrSpace) : Prop :=
  as'.vbase1 = as.vbase1 ∧ as'.npages1 = as.npages1 ∧ as'.vbase2 = as.vbase2 ∧
    as'.npages2 = as.npages2 ∧ as'.pid = as.pid

theorem SameRegions.refl (as : AddrSpace) : SameRegions as as := ⟨rfl, rfl, rfl, rfl, rfl⟩

theorem SameRegions.trans {as'' : AddrSpace} (h : SameRegions as as')
    (h' : SameRegions as' as'') : SameRegions as as'' := by
  obtain ⟨h₁, h₂, h₃, h₄, h₅⟩ := h
  obtain ⟨h₁', h₂', h₃', h₄', h₅'⟩ := h'
  exact ⟨h₁'.trans h₁, h₂'.trans h₂, h₃'.trans h₃, h₄'.trans h₄, h₅'.trans h₅⟩

theorem SameRegions.swapPages (h : SameRegions as as') :
    as'.swapPages = as.swapPages := by
  obtain ⟨h₁, h₂, h₃, h₄, -⟩ := h
  unfold AddrSpace.swapPages
  rw [h₁, h₂, h₃, h₄]

theorem SameRegions.live_update {spaces : Ptr → Option AddrSpace} {q A : Ptr}
    {bs bs' : AddrSpace} (h : SameRegions bs bs') (hq : spaces q = some bs)
    (hA : spaces A = some as) :
    ∃ as', Function.update spaces q (some bs') A = some as' ∧ SameRegions as as' := by
  by_cases hAq : A = q
  · subst hAq
    obtain rfl : as = bs := Option.some.inj (hA.symm.trans hq)
    exact ⟨bs', Function.update_self .., h⟩
  · exact ⟨as, (Function.update_of_ne hAq ..).trans hA, .refl as⟩

theorem updatePte_sameRegions (h : as.updatePte? v f = some as') :
    SameRegions as as' := by
  obtain ⟨l2, _, rfl⟩ := Option.map_eq_some_iff.mp h
  exact ⟨rfl, rfl, rfl, rfl, rfl⟩

/-! ## Properties that survive every update -/

/-- The property `I` survives the elementary updates. `U` is the pages that may be entered in the
TLB, `H` the addresses that may be entered in the tables and `B` the blocks that may be freed; `E`
is the faults allowed. An assertion on the regions fails only where `E` allows it or the current
address space lacks them. -/
structure Closed (I : VmState → Prop) (E : Fault → Prop) (U : Vaddr → Prop) (H : Paddr → Prop)
    (B : Ptr → Prop) : Prop where
  counters : ∀ s faults insertions repl ep rp, I s →
    I { s with numVmFaults := faults, swapInsertions := insertions, cntPageRepl := repl,
               epHand := ep, rpHand := rp }
  alloc : ∀ s b, I s → s.heap.pick s.heap.live = some b →
    B b ∧ I { s with heap := { s.heap with live := b :: s.heap.live } }
  free : ∀ s b, I s → B b → I { s with heap := { s.heap with live := s.heap.live.erase b } }
  tables : ∀ s a as as', I s → s.spaces a = some as → SameRegions as as' →
    I { s with spaces := Function.update s.spaces a (some as') }
  row : ∀ s i r, I s → r.physicalAddr = (s.pft i).physicalAddr →
    I { s with pft := Function.update s.pft i r }
  enter : ∀ s i r, I s → frameIndex s.physicalBaseAddr r.physicalAddr = i.val →
    H r.physicalAddr → I { s with pft := Function.update s.pft i r }
  memory : ∀ s ram file, I s → I { s with ram := ram, swapFile := file }
  insertTlb : ∀ v p, U v → Safe I E (insertTlbEntry v p)
  invalidateTlb : ∀ v, Safe I E (tlbInvalidate v)
  badPointer : E .badPointer
  outOfBounds : E .outOfBounds
  readonlyFault : E .readonlyFault
  livelock : E .livelock
  assertion : ∀ a : Assertion, ¬ a.OnRegions → a ≠ .swapInsertRoom → E (.kassert a)
  regions : (∀ a : Assertion, a.OnRegions → E (.kassert a)) ∨ ∀ s p as, I s → s.curAddrspace = some p →
    s.spaces p = some as → as.Checked

/-- The property `I` survives the updates that allocate nothing: page-table entries written in place, rows that keep
their address, the TLB and the two memories. `U` and `E` are as in `Closed`. -/
structure Quiet (I : VmState → Prop) (E : Fault → Prop) (U : Vaddr → Prop) : Prop where
  counters : ∀ s faults insertions repl ep rp, I s →
    I { s with numVmFaults := faults, swapInsertions := insertions, cntPageRepl := repl,
               epHand := ep, rpHand := rp }
  entry : ∀ s a as as' v f, I s → s.spaces a = some as → as.updatePte? v f = some as' →
    I { s with spaces := Function.update s.spaces a (some as') }
  row : ∀ s i r, I s → r.physicalAddr = (s.pft i).physicalAddr →
    I { s with pft := Function.update s.pft i r }
  memory : ∀ s ram file, I s → I { s with ram := ram, swapFile := file }
  insertTlb : ∀ v p, U v → Safe I E (insertTlbEntry v p)
  invalidateTlb : ∀ v, Safe I E (tlbInvalidate v)
  badPointer : E .badPointer
  outOfBounds : E .outOfBounds
  readonlyFault : E .readonlyFault
  assertion : ∀ a : Assertion, ¬ a.OnRegions → a ≠ .swapInsertRoom → E (.kassert a)

theorem Closed.quiet {I : VmState → Prop} {E : Fault → Prop} {U : Vaddr → Prop} {H : Paddr → Prop} {B : Ptr → Prop}
    (hC : Closed I E U H B) : Quiet I E U where
  counters := hC.counters
  entry := fun s a as as' _ _ hs has h => hC.tables s a as as' hs has (updatePte_sameRegions h)
  row := hC.row
  memory := hC.memory
  insertTlb := hC.insertTlb
  invalidateTlb := hC.invalidateTlb
  badPointer := hC.badPointer
  outOfBounds := hC.outOfBounds
  readonlyFault := hC.readonlyFault
  assertion := hC.assertion

section Walk

variable {I : VmState → Prop} {E : Fault → Prop} {U : Vaddr → Prop} {H : Paddr → Prop}
  {B : Ptr → Prop}

theorem kassert_safe {a : Assertion} (hE : E (.kassert a)) (c : Bool) : Safe I E (kassert a c) := by
  unfold kassert
  exact Safe.ite (fun _ => Safe.pure _) fun _ => Safe.throw hE

/-! ### Properties that do not look at the TLB -/

section NoTlb

variable (hT : ∀ s tlb last, I s → I { s with tlb := tlb, lastTlbEntry := last })
  (hE : E .tlbIndex)
include hT hE

theorem tlbWrite_safe (hi lo : BitVec 32) (index : Nat) : Safe I E (tlbWrite hi lo index) := by
  unfold tlbWrite
  split
  · exact Safe.modify fun t h => hT t _ t.lastTlbEntry h
  · exact Safe.throw hE

theorem insertTlbEntry_safe (v : Vaddr) (p : Paddr) : Safe I E (insertTlbEntry v p) :=
  Safe.bind Safe.get fun _ => Safe.ite (fun _ => Safe.pure _) fun _ =>
    Safe.bind (Safe.modify fun t h => hT t t.tlb _ h) fun _ =>
      Safe.bind (tlbWrite_safe hT hE _ _ _) fun _ => Safe.pure _

theorem tlbInvalidate_safe (v : Vaddr) : Safe I E (tlbInvalidate v) :=
  Safe.bind Safe.get fun _ => Safe.ite (fun _ => tlbWrite_safe hT hE _ _ _) fun _ => Safe.pure _

theorem asActivate_safe : Safe I E asActivate :=
  Safe.forM _ fun _ _ => tlbWrite_safe hT hE _ _ _

end NoTlb

namespace Quiet

variable (hC : Quiet I E U)
include hC

theorem hands (ep rp : Nat) (hs : I s) : I { s with epHand := ep, rpHand := rp } :=
  hC.counters s s.numVmFaults s.swapInsertions s.cntPageRepl ep rp hs

theorem derefSpace_safe (p : Option Ptr) : Safe I E (derefSpace p) := by
  refine Safe.bind Safe.get fun s => ?_
  split
  · exact Safe.throw hC.badPointer
  · exact Safe.pure _

theorem rowAt_safe (i : Nat) : Safe I E (rowAt i) := by
  refine Safe.bind Safe.get fun s => ?_
  split
  · exact Safe.pure _
  · exact Safe.throw hC.outOfBounds

theorem updateRow_safe (i : Nat)
    (hf : ∀ r, (f r).physicalAddr = r.physicalAddr) : Safe I E (updateRow i f) := by
  unfold updateRow
  split
  · exact Safe.modify fun s hs => hC.row s _ _ hs (hf _)
  · exact Safe.throw hC.outOfBounds

theorem pteAt_safe (p : Option Ptr) (v : Vaddr) : Safe I E (pteAt p v) := by
  refine Safe.bind (hC.derefSpace_safe p) fun as => ?_
  split
  · exact Safe.throw hC.badPointer
  · exact Safe.pure _

theorem updatePteAt_safe (p : Option Ptr) (v : Vaddr) (f : PageTableEntry → PageTableEntry) :
    Safe I E (updatePteAt p v f) := by
  intro s hs
  unfold updatePteAt
  rcases updateSpace_cases (s := s) p fun as => as.updatePte? v f with h | ⟨q, as, as', rfl, has, hfas, h⟩
  · rw [h]
    exact ⟨hs, hC.badPointer⟩
  · rw [h]
    exact hC.entry s q as as' v f hs has hfas

theorem secondChanceScan_safe (fuel : Nat) : Safe I E (secondChanceScan fuel) := by
  induction fuel with
  | zero => exact Safe.pure _
  | succ fuel ih =>
    refine Safe.bind Safe.get fun s => Safe.bind (hC.rowAt_safe _) fun row => Safe.ite ?_ ?_
    · exact fun _ => Safe.pure _
    · exact fun _ => Safe.bind (hC.updateRow_safe _ fun _ => rfl) fun _ =>
        Safe.bind (Safe.modify fun t ht => hC.hands _ _ ht) fun _ => ih

theorem replacePage_safe : Safe I E replacePage := by
  refine Safe.bind (Safe.modify fun t ht => ?_) fun _ => ?_
  · exact hC.counters t t.numVmFaults t.swapInsertions _ t.epHand t.rpHand ht
  · exact Safe.bind (hC.secondChanceScan_safe _) fun _ => Safe.bind Safe.get fun s =>
      Safe.bind (hC.rowAt_safe _) fun row =>
        Safe.bind (Safe.modify fun t ht => hC.hands _ _ ht) fun _ => Safe.pure _

theorem swapIn_safe (v : Vaddr) (p : Paddr) : Safe I E (swapIn v p) := by
  refine Safe.bind Safe.get fun s => ?_
  split
  · exact Safe.throw (hC.assertion _ id nofun)
  · exact Safe.modify fun t ht => hC.memory t _ t.swapFile ht

theorem swapOut_safe (v : Vaddr) (p : Paddr) : Safe I E (swapOut v p) := by
  refine Safe.bind Safe.get fun s => ?_
  split
  · exact Safe.throw (hC.assertion _ id nofun)
  · exact Safe.modify fun t ht => hC.memory t t.ram _ ht

theorem evictFrame_safe : Safe I E evictFrame :=
  Safe.bind hC.replacePage_safe fun _ => Safe.bind Safe.get fun _ =>
    Safe.bind (hC.rowAt_safe _) fun _ => Safe.bind (hC.updatePteAt_safe _ _ _) fun _ =>
      Safe.bind (hC.swapOut_safe _ _) fun _ => Safe.bind (hC.invalidateTlb _) fun _ =>
        Safe.pure _

theorem replaceRows_safe (j n : Nat) (pList : Nat → Paddr) : Safe I E (replaceRows j n pList) := by
  induction n generalizing pList with
  | zero => exact Safe.pure _
  | succ n ih => exact Safe.bind hC.evictFrame_safe fun frame => ih _

theorem takeFreeRows_safe (k fuel i j : Nat) (pList : Nat → Paddr) :
    Safe I E (takeFreeRows k fuel i j pList) := by
  induction fuel generalizing i j pList with
  | zero => exact Safe.pure _
  | succ fuel ih =>
    refine Safe.ite (fun _ => Safe.bind (hC.rowAt_safe _) fun row => Safe.ite ?_ ?_) fun _ =>
      Safe.pure _
    · exact fun _ => Safe.bind (hC.updateRow_safe _ fun _ => rfl) fun _ => ih _ _ _
    · exact fun _ => ih _ _ _

theorem fillList_safe (k : Nat) (b : Ptr) : Safe I E (fillList k b) :=
  Safe.bind Safe.get fun _ => Safe.bind (hC.takeFreeRows_safe _ _ _ _ _) fun _ =>
    Safe.ite (fun _ => hC.replaceRows_safe _ _ _) fun _ => Safe.pure _

theorem touchPage_safe (as : Ptr) (v : Vaddr) (dirty : Bool) : Safe I E (touchPage as v dirty) :=
  Safe.bind (hC.pteAt_safe _ _) fun _ => Safe.bind (hC.updatePteAt_safe _ _ _) fun _ =>
    Safe.bind Safe.get fun _ => hC.updateRow_safe _ fun _ => rfl

theorem touchFor_safe (as : Ptr) (v : Vaddr) (faulttype : FaultType) :
    Safe I E (touchFor as v faulttype) := by
  cases faulttype with
  | readonly => exact Safe.throw hC.readonlyFault
  | read => exact hC.touchPage_safe _ _ _
  | write => exact hC.touchPage_safe _ _ _
  | other => exact Safe.pure _

end Quiet

namespace Closed

variable (hC : Closed I E U H B)
include hC

variable {p : Ptr}

theorem countFault (n : Nat) (hs : I s) : I { s with numVmFaults := n } :=
  hC.counters s n s.swapInsertions s.cntPageRepl s.epHand s.rpHand hs

theorem kmalloc_triple : Triple I kmalloc (fun r s => I s ∧ ∀ b ∈ r, B b) fun e s => I s ∧ E e := by
  intro s hs
  cases hpick : s.heap.pick s.heap.live with
  | none =>
    rw [kmalloc_none hpick]
    exact ⟨hs, fun b hb => absurd hb (by simp)⟩
  | some b =>
    rw [kmalloc_some hpick]
    obtain ⟨hb, hI⟩ := hC.alloc s b hs hpick
    exact ⟨hI, fun c hc => by cases hc; exact hb⟩

theorem kmalloc_safe : Safe I E kmalloc :=
  hC.kmalloc_triple.conseq (fun _ h => h) (fun _ _ h => h.1) fun _ _ h => h

theorem kfree_safe {p : Option Ptr} (hp : ∀ b ∈ p, B b) : Safe I E (kfree p) := by
  cases p with
  | none => exact Safe.pure _
  | some p => exact Safe.modify fun t ht => hC.free t p ht (hp p rfl)

theorem updateSpace_safe (p : Option Ptr) {f : AddrSpace → Option AddrSpace}
    (hf : ∀ as as', f as = some as' → SameRegions as as') : Safe I E (updateSpace p f) := by
  intro s hs
  rcases updateSpace_cases (s := s) p f with h | ⟨q, as, as', rfl, has, hfas, h⟩
  · rw [h]
    exact ⟨hs, hC.badPointer⟩
  · rw [h]
    exact hC.tables s q as as' hs has (hf as as' hfas)

theorem ensureLevel2_safe (tbl : Ptr) (vadr : Vaddr) : Safe I E (ensureLevel2 tbl vadr) := by
  refine Safe.bind (hC.quiet.derefSpace_safe _) fun as => Safe.ite (fun _ => Safe.pure _) fun _ =>
    Safe.bind hC.kmalloc_safe fun block => ?_
  split
  · exact Safe.throw hC.badPointer
  · refine hC.updateSpace_safe _ fun as as' h => ?_
    cases h
    exact ⟨rfl, rfl, rfl, rfl, rfl⟩

theorem addPageEntry_safe (tbl : Ptr) (vadr : Vaddr) {paddr : Paddr} (hp : H paddr) :
    Safe I E (addPageEntry tbl vadr paddr) := by
  refine Safe.bind (hC.ensureLevel2_safe tbl vadr) fun _ =>
    Safe.bind (hC.quiet.updatePteAt_safe _ _ _) fun _ => Safe.get_bind fun s hs => ?_
  unfold updateRow
  split
  · refine Triple.modify fun t ht => ?_
    subst ht
    exact hC.enter t _ _ hs rfl hp
  · exact Triple.throw fun t ht => ⟨ht ▸ hs, hC.outOfBounds⟩

theorem virtualAllocKpages_safe (hout : ∀ s ps, I s → I { s with handedOut := ps }) (k : Nat) :
    Triple I (virtualAllocKpages k) (fun r s => I s ∧ ∀ b ∈ r.1, B b) fun e s => I s ∧ E e := by
  refine Triple.bind hC.kmalloc_triple fun block s ⟨hs, hb⟩ => ?_
  cases block with
  | none =>
    refine Triple.ite (fun _ => Triple.pure fun t ht => ⟨ht, hb⟩) (fun _ => ?_) s hs
    exact Triple.throw fun t ht => ⟨ht, hC.badPointer⟩
  | some b =>
    refine Triple.bind (hC.quiet.fillList_safe _ _) (fun pList => ?_) s hs
    refine Triple.bind (Safe.modify fun t ht => hout t _ ht) fun _ => ?_
    exact Triple.pure fun t ht => ⟨ht, hb⟩

/-- What the frame allocator has to guarantee for the fault handler: the frame it hands out may be
entered in the tables. -/
def AllocOk (I : VmState → Prop) (E : Fault → Prop) (H : Paddr → Prop) : Prop :=
  Triple I (virtualAllocKpages 1) (fun r s => I s ∧ H (r.2 0)) fun e s => I s ∧ E e

theorem bringIn_safe (halloc : AllocOk I E H) (as : Ptr) (hv : U v) :
    Safe I E (bringIn as v) := by
  refine Triple.bind halloc fun r s hs => ?_
  exact (Safe.bind (hC.addPageEntry_safe as v hs.2) fun _ =>
    Safe.bind (hC.insertTlb v _ hv) fun _ => hC.quiet.swapIn_safe v _) s hs.1

theorem getPhysicalAddress_safe (halloc : AllocOk I E H) (as : Ptr) (hv : U v)
    (faulttype : FaultType) : Safe I E (getPhysicalAddress as v faulttype) := by
  have hres : Safe I E (ensureResident as v) :=
    Safe.bind (hC.quiet.derefSpace_safe _) fun space =>
      Safe.ite (fun _ => Safe.pure _) fun _ => hC.bringIn_safe halloc as hv
  exact Safe.bind hres fun _ => Safe.bind (hC.quiet.touchFor_safe as v faulttype) fun _ =>
    Safe.bind (hC.quiet.pteAt_safe _ _) fun _ => Safe.pure _

theorem resolveFault_safe (halloc : AllocOk I E H) (p : Ptr) (faulttype : FaultType)
    (hv : U v) :
    Triple (fun s => I s ∧ s.curAddrspace = some p) (resolveFault p faulttype v) (fun _ => I)
      fun e s => I s ∧ E e := by
  rintro s ⟨hs, hcur⟩
  unfold resolveFault
  cases has : s.spaces p with
  | none =>
    rw [bind_error (derefSpace_error has)]
    exact ⟨hs, hC.badPointer⟩
  | some as =>
    rw [bind_ok (derefSpace_ok has)]
    rcases checkSpace_cases as s with ⟨-, hok⟩ | ⟨hunchecked, x, hx, herr⟩
    · rw [bind_ok hok]
      refine Safe.ite (fun _ => Safe.bind (hC.getPhysicalAddress_safe halloc p hv faulttype)
        fun _ => ?_) (fun _ => Safe.pure _) s hs
      exact Safe.bind (kassert_safe (hC.assertion .paddrAligned id nofun) _) fun _ =>
        hC.insertTlb _ _ hv
    · rw [bind_error herr]
      refine ⟨hs, hC.regions.elim (fun h => h x hx) fun h => ?_⟩
      exact absurd (h s p as hs hcur has) hunchecked

theorem faultIn_safe (halloc : AllocOk I E H) (faulttype : FaultType) (hv : U v) :
    Safe I E (faultIn faulttype v) := by
  refine Safe.get_bind fun s hs t ht => ?_
  subst ht
  cases hcur : t.curAddrspace with
  | none => exact hs
  | some p => exact hC.resolveFault_safe halloc p faulttype hv t ⟨hs, hcur⟩

theorem vmFault_safe (halloc : AllocOk I E H) (faulttype : FaultType) {va : Vaddr}
    (hv : U (va &&& pageFrame)) : Safe I E (vmFault faulttype va) := by
  refine Safe.bind (Safe.modify fun t ht => hC.countFault _ ht) fun _ => ?_
  cases faulttype with
  | readonly => exact Safe.throw hC.readonlyFault
  | read => exact hC.faultIn_safe halloc _ hv
  | write => exact hC.faultIn_safe halloc _ hv
  | other => exact Safe.pure _

theorem userLoad_safe (halloc : AllocOk I E H) (va : Vaddr)
    (hv : va < userspaceTop → U (va &&& pageFrame)) : Safe I E (userLoad va) := by
  refine Safe.bind Safe.get fun s => Safe.ite (fun _ => Safe.pure _) fun h => ?_
  split
  · exact Safe.pure _
  · exact Safe.bind (hC.vmFault_safe halloc _ (hv (BitVec.not_le.mp h))) fun _ => Safe.pure _

theorem storeThrough_safe (i : Fin numTlb) (va : Vaddr) (b : UInt8) :
    Safe I E (storeThrough i va b) := by
  refine Safe.bind Safe.get fun s => Safe.ite (fun _ => ?_) fun _ =>
    Safe.modify fun t ht => hC.memory t _ t.swapFile ht
  -- a read-only fault does nothing but panic
  exact Safe.bind (Safe.bind (Safe.modify fun t ht => hC.countFault _ ht) fun _ =>
    Safe.throw hC.readonlyFault) fun _ => Safe.pure _

theorem userStore_safe (halloc : AllocOk I E H) (va : Vaddr) (b : UInt8)
    (hv : va < userspaceTop → U (va &&& pageFrame)) : Safe I E (userStore va b) := by
  refine Safe.bind Safe.get fun s => Safe.ite (fun _ => Safe.pure _) fun h => ?_
  split
  · exact hC.storeThrough_safe _ va b
  · exact Safe.bind (hC.vmFault_safe halloc _ (hv (BitVec.not_le.mp h))) fun _ => Safe.pure _

theorem enterPages_safe (p : Ptr) (pages : List (Vaddr × Paddr)) (hp : ∀ e ∈ pages, H e.2) :
    Safe I E (enterPages p pages) :=
  Safe.forM pages fun e he => Safe.bind (hC.addPageEntry_safe p e.1 (hp e he)) fun _ =>
    Safe.modify fun t ht => hC.memory t _ t.swapFile ht

theorem enterAll_safe (p : Ptr) {pages₁ pages₂ pages₃ : List (Vaddr × Paddr)}
    (h₁ : ∀ e ∈ pages₁, H e.2) (h₂ : ∀ e ∈ pages₂, H e.2) (h₃ : ∀ e ∈ pages₃, H e.2)
    (n : BitVec 32) {b₁ b₂ b₃ : Option Ptr} (hb₁ : ∀ b ∈ b₁, B b) (hb₂ : ∀ b ∈ b₂, B b)
    (hb₃ : ∀ b ∈ b₃, B b) :
    Safe I E (do
      enterPages p pages₁
      enterPages p pages₂
      updateSpace (some p) fun as => some { as with stacknpages := n }
      enterPages p pages₃
      kfree b₁
      kfree b₂
      kfree b₃
      pure (none : Option Errno)) := by
  refine Safe.bind (hC.enterPages_safe p _ h₁) fun _ =>
    Safe.bind (hC.enterPages_safe p _ h₂) fun _ => Safe.bind (hC.updateSpace_safe _ ?_) fun _ =>
      Safe.bind (hC.enterPages_safe p _ h₃) fun _ => Safe.bind (hC.kfree_safe hb₁) fun _ =>
        Safe.bind (hC.kfree_safe hb₂) fun _ => Safe.bind (hC.kfree_safe hb₃) fun _ => Safe.pure _
  intro as as' h
  cases h
  exact ⟨rfl, rfl, rfl, rfl, rfl⟩

theorem asPrepareLoad_safe (hout : ∀ s ps, I s → I { s with handedOut := ps }) (hH : ∀ a, H a)
    (p : Ptr) : Safe I E (asPrepareLoad p) := by
  have hkpages := hC.virtualAllocKpages_safe hout
  refine Safe.bind (hC.quiet.derefSpace_safe _) fun as => ?_
  refine Triple.bind (hkpages _) fun r₁ s₁ ⟨h₁, hb₁⟩ => ?_
  refine Triple.bind (hkpages _) (fun r₂ s₂ ⟨h₂, hb₂⟩ => ?_) s₁ h₁
  refine Triple.bind (hkpages _) (fun r₃ s₃ ⟨h₃, hb₃⟩ => ?_) s₂ h₂
  exact hC.enterAll_safe p (fun _ _ => hH _) (fun _ _ => hH _) (fun _ _ => hH _) _ hb₁ hb₂ hb₃ s₃ h₃

theorem allocOk (hout : ∀ s ps, I s → I { s with handedOut := ps }) (hH : ∀ a, H a) :
    AllocOk I E H :=
  (hC.virtualAllocKpages_safe hout 1).conseq (fun _ h => h) (fun _ _ h => ⟨h.1, hH _⟩)
    fun _ _ h => h

/-! ### Operations that make, change or drop a whole address space -/

theorem asCreate_safe (hsp : ∀ s f, I s → I { s with spaces := f }) : Safe I E asCreate := by
  refine Safe.bind (Safe.modify fun t ht => hC.countFault _ ht) fun _ =>
    Safe.bind hC.kmalloc_safe fun block => ?_
  split
  · exact Safe.pure _
  · exact Safe.bind Safe.get fun s => Safe.bind (Safe.modify fun t ht => hsp t _ ht) fun _ =>
      Safe.pure _

theorem asDefineRegion_safe (hsp : ∀ s as, I s → I { s with spaces := Function.update s.spaces p (some as) })
    (vaddr sz : BitVec 32) : Safe I E (asDefineRegion p vaddr sz) := by
  refine Safe.bind (hC.quiet.derefSpace_safe _) fun as => ?_
  split
  · exact Safe.bind (Safe.modify fun t ht => hsp t _ ht) fun _ => Safe.pure _
  · exact Safe.pure _

theorem releaseTable_safe (hB : ∀ b, B b) (l2 : PageTableLevel2) : Safe I E (releaseTable l2) :=
  Safe.bind (Safe.forM _ fun _ _ => Safe.ite
    (fun _ => Safe.bind Safe.get fun _ => hC.quiet.updateRow_safe _ fun _ => rfl) fun _ => Safe.pure _)
    fun _ => hC.kfree_safe fun b _ => hB b

theorem asDestroy_safe (hsp : ∀ s, I s → I { s with spaces := Function.update s.spaces p none }) (hB : ∀ b, B b) :
    Safe I E (asDestroy p) := by
  refine Safe.bind (hC.quiet.derefSpace_safe _) fun as => ?_
  generalize as.level2Tables = tables
  exact Safe.bind (Safe.forM tables fun l2 _ => hC.releaseTable_safe hB l2) fun _ =>
    Safe.bind (hC.kfree_safe fun b _ => hB b) fun _ => Safe.modify fun t ht => hsp t ht

theorem swapspaceInsert_safe (hsw : ∀ s l, I s → I { s with swapspace := l })
    (hroom : E (.kassert .swapInsertRoom)) (v : Vaddr) (pid : Int) :
    Safe I E (swapspaceInsert v pid) := by
  refine Safe.bind (Safe.modify fun t ht => ?_) fun _ => Safe.bind Safe.get fun s =>
    Safe.bind (kassert_safe hroom _) fun _ => Safe.modify fun t ht => hsw t _ ht
  exact hC.counters t t.numVmFaults _ t.cntPageRepl t.epHand t.rpHand ht

theorem swapspaceLoadAs_safe (hsw : ∀ s l, I s → I { s with swapspace := l })
    (hroom : E (.kassert .swapInsertRoom)) (p : Ptr) : Safe I E (swapspaceLoadAs p) :=
  Safe.bind (hC.quiet.derefSpace_safe _) fun as =>
    Safe.forM _ fun v _ => hC.swapspaceInsert_safe hsw hroom v as.pid

end Closed

end Walk

end Os161.Vm

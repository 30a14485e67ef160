import Os161.Laws.Vm.Steps

/-!
# The page fault

What `vm_fault` leaves when it returns: nothing but its counter, or a page of the current address
space that is in memory and may be in the TLB. The page was there already, or it was brought in:
a frame was found, the page was entered in the tables for it, and its bytes were read from swap.
Properties of faults are proved by following these stages.
-/

namespace Os161.Vm

open Os161.Lib

variable {s t : VmState} {p : Ptr} {v : Page} {a : Paddr}
variable {s₁ s₂ : VmState} {j : Fin maxPmSize} {as as' bs bs' : AddrSpace} {heap : KHeap} {e : PageTableEntry}
  {A : Ptr} {ft : FaultType} {r : Option Errno} {fa va : Vaddr} {i : Fin numTlb} {b : UInt8}

/-- The second half of bringing a page in, from the state in which its frame was allocated. -/
structure Filled (s t : VmState) (p : Ptr) (v : Page) (a : Paddr) (s₁ : VmState)
    (j : Fin maxPmSize) (as as' : AddrSpace) (heap : KHeap) (e : PageTableEntry) : Prop where
  entered : Entered s s₁ p v a j as as' heap
  slot : swapSlot s.swapspace v = some e
  state : t = { s₁ with
    tlb := (insertPage s.tlb s.lastTlbEntry v a).1
    lastTlbEntry := (insertPage s.tlb s.lastTlbEntry v a).2
    ram := vopRead s.swapFile e.offset (a &&& pageFrame) s.ram }

theorem Filled.tlb (h : Filled s t p v a s₁ j as as' heap e) :
    t.tlb = (insertPage s.tlb s.lastTlbEntry v a).1 := by
  rw [h.state]

/-- How a page comes to be in memory at `a`. -/
inductive MadeResident (s : VmState) (p : Ptr) (v : Page) (a : Paddr) (t : VmState) : Prop
  | already (hmap : mapping s (p, v) = some a) (ht : t = s)
  | broughtIn (s₁ s₂ : VmState) (j : Fin maxPmSize) (as as' : AddrSpace) (heap : KHeap)
      (e : PageTableEntry) (hmap : mapping s (p, v) = none) (halloc : Allocated s a s₁)
      (hfill : Filled s₁ t p v a s₂ j as as' heap e)

/-- The clock hands and the round-robin position are inside their tables, as boot and every later
step leave them. -/
structure Positions (s : VmState) : Prop where
  ep : s.epHand < maxPmSize
  rp : s.rpHand < maxPmSize
  last : s.lastTlbEntry < numTlb

theorem Allocated.positions (h : Allocated s a t) (hs : Positions s) : Positions t := by
  cases h with
  | free i heap out hfirst ha hpick ht => rw [ht]; exact ⟨hs.ep, hs.rp, hs.last⟩
  | replaced heap out j A as as' e ref ep rp cnt hfull ha hpick hevict hep hrp ht =>
    rw [ht]
    exact ⟨hep, hrp, hs.last⟩

/-! ### What each stage does to the address spaces -/

theorem Allocated.mapping_cases (h : Allocated s a t) :
    mapping t = mapping s ∨ ∃ k, mapping t = Function.update (mapping s) k none := by
  cases h with
  | free i heap out hfirst ha hpick ht => rw [ht]; exact .inl rfl
  | replaced heap out j A as as' e ref ep rp cnt hfull ha hpick hevict hep hrp ht =>
    rw [ht]
    exact .inr ⟨_, hevict.mapping_update⟩

theorem Filled.mapping (h : Filled s t p v a s₁ j as as' heap e) :
    Os161.Vm.mapping t = Function.update (Os161.Vm.mapping s) (p, v) (some a) := by
  rw [h.state, h.entered.state]
  exact mapping_setSpace_update h.entered.live h.entered.mapped

theorem Allocated.live (h : Allocated s a t)
    (hA : s.spaces A = some as) : ∃ as', t.spaces A = some as' ∧ SameRegions as as' := by
  cases h with
  | free i heap out hfirst ha hpick ht => rw [ht]; exact ⟨as, hA, .refl as⟩
  | replaced heap out j B bs bs' e ref ep rp cnt hfull ha hpick hevict hep hrp ht =>
    rw [ht]
    exact (updatePte_sameRegions hevict.entry).live_update hevict.live hA

theorem Filled.live (h : Filled s t p v a s₁ j bs bs' heap e)
    (hA : s.spaces A = some as) : ∃ as', t.spaces A = some as' ∧ SameRegions as as' := by
  rw [h.state, h.entered.state]
  exact h.entered.regions.live_update h.entered.live hA

/-! ### The stages, read from a call that returned -/

theorem of_bringIn_ok (hs : Positions s) (h : bringIn p v s = .ok () t) :
    ∃ a s₁ s₂ j as as' heap e, Allocated s a s₁ ∧ Filled s₁ t p v a s₂ j as as' heap e := by
  unfold bringIn at h
  obtain ⟨r, s₁, hk, hrest⟩ := of_bind_ok h
  have halloc := of_virtualAllocKpages_one hs.ep hs.rp hk
  obtain ⟨_, s₂, hadd, hrest⟩ := of_bind_ok hrest
  obtain ⟨j, as, as', heap, hent⟩ := of_addPageEntry_ok hadd
  have hs₂ := hent.state
  have hlast₂ : s₂.lastTlbEntry < numTlb := by rw [hs₂]; exact (halloc.positions hs).last
  rw [bind_ok (insertTlbEntry_eq _ _ hlast₂)] at hrest
  obtain ⟨e, he, ht⟩ := of_swapIn_ok hrest
  refine ⟨r.2 0, s₁, s₂, j, as, as', heap, e, halloc, hent, ?_, ?_⟩
  · rw [hs₂] at he
    exact he
  · rw [ht, hs₂]

theorem of_ensureResident_ok (hs : Positions s) (h : ensureResident p v s = .ok () t) :
    ∃ a, MadeResident s p v a t := by
  unfold ensureResident at h
  obtain ⟨as, s₁, hderef, hrest⟩ := of_bind_ok h
  obtain ⟨has, hs₁⟩ := of_derefSpace_ok hderef
  rw [hs₁] at hrest
  cases hres : as.resident v with
  | true =>
    rw [if_pos hres] at hrest
    obtain ⟨a, ha⟩ := Option.isSome_iff_exists.mp (AddrSpace.resident_iff.mp hres)
    cases hrest
    exact ⟨a, .already ((mapping_of_space has v).trans ha) rfl⟩
  | false =>
    rw [if_neg (by simp [hres])] at hrest
    obtain ⟨a, s₁, s₂, j, as₁, as', heap, e, halloc, hfill⟩ := of_bringIn_ok hs hrest
    exact ⟨a, .broughtIn s₁ s₂ j as₁ as' heap e ((mapping_of_space has v).trans
      (AddrSpace.mapped_of_not_resident hres)) halloc hfill⟩

theorem Filled.positions (h : Filled s t p v a s₁ j as as' heap e) (hs : Positions s) :
    Positions t := by
  rw [h.state, h.entered.state]
  exact ⟨hs.ep, hs.rp, insertPage_last_lt hs.last v a⟩

theorem MadeResident.positions (h : MadeResident s p v a t) (hs : Positions s) : Positions t := by
  cases h with
  | already hmap ht => rw [ht]; exact hs
  | broughtIn s₁ s₂ j as as' heap e hmap halloc hfill => exact hfill.positions (halloc.positions hs)

theorem MadeResident.mapping_eq (h : MadeResident s p v a t) : mapping t (p, v) = some a := by
  cases h with
  | already hmap ht => rw [ht, hmap]
  | broughtIn s₁ s₂ j as as' heap e hmap halloc hfill =>
    have hlive : t.spaces p = some as' := by
      rw [hfill.state, hfill.entered.state]
      exact Function.update_self ..
    rw [mapping_of_space hlive, hfill.entered.mapped, if_pos rfl]

/-- A fault that was resolved: the page is in memory, its reference bits are set, and its
translation is offered to the TLB. -/
structure Resolved (s : VmState) (p : Ptr) (v : Page) (t : VmState) (a : Paddr) (s₁ s₂ : VmState)
    (e : PageTableEntry) (j : Fin maxPmSize) (as as' : AddrSpace) : Prop where
  resident : MadeResident s p v a s₁
  touched : Touched s₁ s₂ p v e j as as'
  address : e.physicalAddr = a
  aligned : IsPage a
  state : t = { s₂ with
    tlb := (insertPage s₁.tlb s₁.lastTlbEntry v a).1
    lastTlbEntry := (insertPage s₁.tlb s₁.lastTlbEntry v a).2 }

theorem Resolved.live (h : Resolved s p v t a s₁ s₂ e j bs bs')
    (hA : s.spaces A = some as) : ∃ as', t.spaces A = some as' ∧ SameRegions as as' := by
  have hresident : ∃ as₁, s₁.spaces A = some as₁ ∧ SameRegions as as₁ := by
    cases h.resident with
    | already hmap ht => rw [ht]; exact ⟨as, hA, .refl as⟩
    | broughtIn u u' k cs cs' heap e' hmap halloc hfill =>
      obtain ⟨as₁, hA₁, hreg₁⟩ := halloc.live hA
      obtain ⟨as₂, hA₂, hreg₂⟩ := hfill.live hA₁
      exact ⟨as₂, hA₂, hreg₁.trans hreg₂⟩
  obtain ⟨as₁, hA₁, hreg₁⟩ := hresident
  rw [h.state, h.touched.state]
  obtain ⟨as', hA', hreg'⟩ := h.touched.regions.live_update h.touched.live hA₁
  exact ⟨as', hA', hreg₁.trans hreg'⟩

theorem Resolved.frame (h : Resolved s p v t a s₁ s₂ e j bs bs') :
    t.swapspace = s.swapspace ∧ t.curAddrspace = s.curAddrspace := by
  have hresident : s₁.swapspace = s.swapspace ∧ s₁.curAddrspace = s.curAddrspace := by
    cases h.resident with
    | already hmap ht => rw [ht]; exact ⟨rfl, rfl⟩
    | broughtIn u u' k cs cs' heap e' hmap halloc hfill =>
      rw [hfill.state, hfill.entered.state]
      cases halloc with
      | free i heap' out hfirst ha hpick ht => rw [ht]; exact ⟨rfl, rfl⟩
      | replaced heap' out k' B ds ds' e'' ref ep rp cnt hfull ha hpick hevict hep hrp ht =>
        rw [ht]
        exact ⟨rfl, rfl⟩
  rw [h.state, h.touched.state]
  exact hresident

theorem Touched.mapping (h : Touched s t p v e j as as') : Os161.Vm.mapping t = Os161.Vm.mapping s := by
  rw [h.state]
  exact mapping_setSpace_same h.live h.kept

theorem Resolved.mapping_of_ne (h : Resolved s p v t a s₁ s₂ e j bs bs') {k : Ptr × Page} (hk : k.1 ≠ p)
    {x : Paddr} (hx : mapping t k = some x) : mapping s k = some x := by
  have hx₁ : mapping s₁ k = some x := by
    rw [h.state] at hx
    rw [← h.touched.mapping]
    exact hx
  have hne : k ≠ (p, v) := fun heq => hk (congrArg Prod.fst heq)
  cases h.resident with
  | already hmap ht => rw [← ht]; exact hx₁
  | broughtIn u u' i cs cs' heap e' hmap halloc hfill =>
    rw [hfill.mapping, Function.update_of_ne hne] at hx₁
    rcases halloc.mapping_cases with hu | ⟨k', hu⟩
    · rw [← hu]
      exact hx₁
    · rw [hu] at hx₁
      by_cases hkk : k = k'
      · rw [hkk, Function.update_self] at hx₁
        cases hx₁
      · rwa [Function.update_of_ne hkk] at hx₁

theorem Resolved.tlb (h : Resolved s p v t a s₁ s₂ e j as as') :
    t.tlb = (insertPage s₁.tlb s₁.lastTlbEntry v a).1 := by
  rw [h.state]

theorem Allocated.tlb_cases (h : Allocated s a t) (i : Fin numTlb) :
    t.tlb i = s.tlb i ∨ t.tlb i = ⟨tlbhiInvalid i, tlbloInvalid⟩ := by
  cases h with
  | free k heap out hfirst ha hpick ht => rw [ht]; exact .inl rfl
  | replaced heap out j A as as' e ref ep rp cnt hfull ha hpick hevict hep hrp ht =>
    rw [ht]
    exact dropPage_cases _ _ i

theorem Resolved.tlb_cases (h : Resolved s p v t a s₁ s₂ e j as as') (i : Fin numTlb) :
    t.tlb i = s.tlb i ∨ t.tlb i = ⟨tlbhiInvalid i, tlbloInvalid⟩ ∨ t.tlb i = pageEntry v a := by
  have hresident : s₁.tlb i = s.tlb i ∨ s₁.tlb i = ⟨tlbhiInvalid i, tlbloInvalid⟩ ∨
      s₁.tlb i = pageEntry v a := by
    cases h.resident with
    | already hmap ht => rw [ht]; exact .inl rfl
    | broughtIn u u' j as as' heap e hmap halloc hfill =>
      rw [hfill.tlb]
      rcases insertPage_cases u.tlb u.lastTlbEntry v a i with hi | hi
      · rw [hi]
        rcases halloc.tlb_cases i with hi | hi
        · exact .inl hi
        · exact .inr (.inl hi)
      · exact .inr (.inr hi)
  rw [h.tlb]
  rcases insertPage_cases s₁.tlb s₁.lastTlbEntry v a i with hi | hi
  · rw [hi]
    exact hresident
  · exact .inr (.inr hi)

/-- The faults a process can take. -/
def FaultType.IsAccess : FaultType → Prop
  | .read | .write => True
  | _ => False

theorem of_touchFor_ok (hft : ft.IsAccess) (h : touchFor p v ft s = .ok () t) :
    ∃ e j as as', Touched s t p v e j as as' := by
  cases ft with
  | read => exact of_touchPage_ok h
  | write => exact of_touchPage_ok h
  | readonly => exact hft.elim
  | other => exact hft.elim

theorem Page.offset (v : Page) : v.1 &&& offsetMask = 0#32 := by
  apply BitVec.eq_of_toNat_eq
  rw [and_offsetMask_toNat]
  exact isPage_iff.mp v.2

theorem of_getPhysicalAddress_ok (hft : ft.IsAccess) (hs : Positions s)
    {pa : Paddr} (h : getPhysicalAddress p v ft s = .ok pa t) :
    ∃ s₁ e j as as', MadeResident s p v pa s₁ ∧ Touched s₁ t p v e j as as' ∧
      e.physicalAddr = pa := by
  unfold getPhysicalAddress at h
  obtain ⟨_, s₁, hres, hrest⟩ := of_bind_ok h
  obtain ⟨a, hmade⟩ := of_ensureResident_ok hs hres
  obtain ⟨_, s₂, htouch, hrest⟩ := of_bind_ok hrest
  obtain ⟨e, j, as, as', ht⟩ := of_touchFor_ok hft htouch
  obtain ⟨e', s₃, hpte, hrest⟩ := of_bind_ok hrest
  obtain ⟨as₂, has₂, he', hs₃⟩ := of_pteAt_ok hpte
  -- the entry read back is the touched one
  obtain ⟨e₂, he₂, haddr⟩ := ht.address
  have hlive : s₂.spaces p = some as' := by rw [ht.state]; exact Function.update_self ..
  obtain rfl : as' = as₂ := Option.some.inj (hlive.symm.trans has₂)
  obtain rfl : e₂ = e' := Option.some.inj (he₂.symm.trans he')
  rw [hs₃] at hrest
  -- the entry is valid, so its address is where the page was put
  have hmap := hmade.mapping_eq
  rw [mapping_of_space ht.live, AddrSpace.mapped, ht.entry] at hmap
  have hea : e.physicalAddr = a := by
    simp only [Option.bind_some, PageTableEntry.target] at hmap
    split at hmap
    · exact Option.some.inj hmap
    · cases hmap
  have hnot : ft ≠ .other := by rintro rfl; exact hft
  rw [if_neg hnot, v.offset, BitVec.add_zero, haddr, hea] at hrest
  cases hrest
  exact ⟨s₁, e, j, as, as', hmade, ht, hea⟩

/-! ## The fault itself -/

/-- The state a fault works on: only its counter has moved. -/
def VmState.counted (s : VmState) : VmState := { s with numVmFaults := s.numVmFaults + 1 }

theorem of_resolveFault_ok (hft : ft.IsAccess) (hs : Positions s) (h : resolveFault p ft v s = .ok r t) :
    ∃ as, s.spaces p = some as ∧ as.Checked ∧
      ((as.covers v = false ∧ t = s) ∨ (as.covers v = true ∧
        ∃ a s₁ s₂ e j as₁ as', Resolved s p v t a s₁ s₂ e j as₁ as')) := by
  unfold resolveFault at h
  obtain ⟨as, s₀, hderef, hrest⟩ := of_bind_ok h
  obtain ⟨has, hs₀⟩ := of_derefSpace_ok hderef
  rw [hs₀] at hrest
  rcases checkSpace_cases as s with ⟨hc, hok⟩ | ⟨-, x, -, herr⟩
  swap
  · rw [bind_error herr] at hrest
    cases hrest
  rw [bind_ok hok] at hrest
  refine ⟨as, has, hc, ?_⟩
  cases hcov : as.covers v with
  | false =>
    rw [if_neg (by simp [hcov])] at hrest
    cases hrest
    exact .inl ⟨rfl, rfl⟩
  | true =>
    rw [if_pos hcov] at hrest
    obtain ⟨pa, s₂, hget, hrest⟩ := of_bind_ok hrest
    obtain ⟨s₁, e, j, as₁, as', hmade, htouch, haddr⟩ := of_getPhysicalAddress_ok hft hs hget
    rcases kassert_cases (s := s₂) .paddrAligned (pa &&& pageFrame == pa) with ⟨hal, e₁⟩ | ⟨-, e₁⟩
    swap
    · rw [bind_error e₁] at hrest
      cases hrest
    have hlast : s₂.lastTlbEntry < numTlb := by
      rw [htouch.state]
      exact (hmade.positions hs).last
    rw [bind_ok e₁, insertTlbEntry_eq _ _ hlast] at hrest
    cases hrest
    exact .inr ⟨rfl, pa, s₁, s₂, e, j, as₁, as', hmade, htouch, haddr, beq_iff_eq.mp hal, by
      rw [htouch.state]⟩

theorem vmFault_access (hft : ft.IsAccess) (va : Vaddr) (s : VmState) :
    vmFault ft va s = faultIn ft (pageOf va) s.counted := by
  cases ft with
  | read => rfl
  | write => rfl
  | readonly => exact hft.elim
  | other => exact hft.elim

theorem faultIn_none (h : s.curAddrspace = none) :
    faultIn ft fa s = .ok (some .EFAULT) s := by
  unfold faultIn
  rw [bind_ok (get_apply s), h]
  rfl

theorem faultIn_some (h : s.curAddrspace = some p) :
    faultIn ft fa s = resolveFault p ft fa s := by
  unfold faultIn
  rw [bind_ok (get_apply s), h]

theorem of_vmFault_ok (hs : Positions s)
    (h : vmFault ft va s = .ok r t) :
    t = s.counted ∨ ∃ q as, ft.IsAccess ∧ s.curAddrspace = some q ∧ s.spaces q = some as ∧
      as.Checked ∧ as.covers (pageOf va).1 = true ∧
      ∃ a s₁ s₂ e j as₁ as', Resolved s.counted q (pageOf va) t a s₁ s₂ e j as₁ as' := by
  by_cases hft : ft.IsAccess
  · rw [vmFault_access hft] at h
    cases hq : s.curAddrspace with
    | none =>
      rw [faultIn_none (s := s.counted) hq] at h
      cases h
      exact .inl rfl
    | some q =>
      rw [faultIn_some (s := s.counted) hq] at h
      obtain ⟨as, has, hc, ⟨-, ht⟩ | ⟨hcov, hres⟩⟩ :=
        of_resolveFault_ok hft (s := s.counted) ⟨hs.ep, hs.rp, hs.last⟩ h
      · exact .inl ht
      · exact .inr ⟨q, as, hft, rfl, has, hc, hcov, hres⟩
  · cases ft with
    | read => exact absurd trivial hft
    | write => exact absurd trivial hft
    | readonly => cases h
    | other => cases h; exact .inl rfl

/-! ## Accesses -/

/-- The steps a running process takes by itself. -/
def Op.IsAccess : Op → Prop
  | .fault _ _ | .load _ | .store _ _ => True
  | _ => False

theorem of_userLoad_ok {r : Option UInt8} (h : userLoad va s = .ok r t) :
    t = s ∨ (va < userspaceTop ∧ tlbHit s.tlb va = none ∧ ∃ r', vmFault .read va s = .ok r' t) := by
  unfold userLoad at h
  rw [bind_ok (get_apply s)] at h
  by_cases htop : userspaceTop ≤ va
  · rw [if_pos htop] at h
    cases h
    exact .inl rfl
  · rw [if_neg htop] at h
    cases hhit : tlbHit s.tlb va with
    | some i =>
      rw [hhit] at h
      cases h
      exact .inl rfl
    | none =>
      rw [hhit] at h
      obtain ⟨r', u, hfault, hret⟩ := of_bind_ok h
      cases hret
      exact .inr ⟨BitVec.not_le.mp htop, rfl, r', hfault⟩

theorem of_storeThrough_ok (h : storeThrough i va b s = .ok () t) :
    t = { s with ram := Function.update s.ram ((s.tlb i).ppage + (va &&& offsetMask)) b } := by
  unfold storeThrough at h
  rw [bind_ok (get_apply s)] at h
  by_cases hro : (s.tlb i).lo &&& tlbloDirty = 0#32
  · rw [if_pos hro] at h
    obtain ⟨r', u, hfault, -⟩ := of_bind_ok h
    cases hfault
  · rw [if_neg hro] at h
    cases h
    rfl

theorem of_userStore_ok (h : userStore va b s = .ok () t) :
    t = s ∨ (∃ i, tlbHit s.tlb va = some i ∧
      t = { s with ram := Function.update s.ram ((s.tlb i).ppage + (va &&& offsetMask)) b }) ∨
    (va < userspaceTop ∧ tlbHit s.tlb va = none ∧ ∃ r', vmFault .write va s = .ok r' t) := by
  unfold userStore at h
  rw [bind_ok (get_apply s)] at h
  by_cases htop : userspaceTop ≤ va
  · rw [if_pos htop] at h
    cases h
    exact .inl rfl
  · rw [if_neg htop] at h
    cases hhit : tlbHit s.tlb va with
    | some i =>
      rw [hhit] at h
      exact .inr (.inl ⟨i, rfl, of_storeThrough_ok h⟩)
    | none =>
      rw [hhit] at h
      obtain ⟨r', u, hfault, hret⟩ := of_bind_ok h
      cases hret
      exact .inr (.inr ⟨BitVec.not_le.mp htop, rfl, r', hfault⟩)

theorem tlbHit_some {tlb : Fin numTlb → TlbEntry}
    (h : tlbHit tlb va = some i) : tlbMatch tlb va = some i ∧ (tlb i).valid = true :=
  Option.filter_eq_some_iff.mp h

end Os161.Vm

import Os161.Laws.Vm.Paged
import Os161.Laws.Vm.TlbUnique

/-!
# TLB coherence

A user page in the TLB should be translated as the current page table translates it. Faults enter
what they have just put in the page table, and a context switch empties the TLB. The one place where
a page leaves the page table of a running process is eviction, and `tlb_invalidate` is called there;
but its test `index > 0` takes a match in slot 0 for a failed probe. An evicted page of the running
process that sits in slot 0 stays there, unless the same fault enters its own page in slot 0.
-/

namespace Os161.Vm

open Os161.Lib

/-! ## The TLB against a page table -/

/-- Every user page in the TLB is translated as the current page table translates it. -/
def TlbAgrees (tlb : Fin numTlb → TlbEntry) (cur : Option Ptr) (map : Ptr × Page → Option Paddr)
    (i : Fin numTlb) : Prop :=
  (tlb i).vpage < userspaceTop →
    ∃ p, cur = some p ∧ map (p, pageOf (tlb i).vpage) = some (tlb i).ppage

/-- No user page is in two slots. -/
def UserDistinct (tlb : Fin numTlb → TlbEntry) : Prop :=
  ∀ i j, (tlb i).vpage < userspaceTop → (tlb i).vpage = (tlb j).vpage → i = j

section Tlb

variable {tlb : Fin numTlb → TlbEntry} {cur : Option Ptr} {map : Ptr × Page → Option Paddr}
  {p : Ptr} {v : Page} {a : Paddr} {last : Nat}
variable {i : Fin numTlb} {w : Vaddr}

theorem reserved_not_user (i : Fin numTlb) (lo : BitVec 32) :
    ¬ TlbEntry.vpage ⟨tlbhiInvalid i, lo⟩ < userspaceTop := by
  intro h
  have hpage : TlbEntry.vpage ⟨tlbhiInvalid i, lo⟩ = tlbhiInvalid i := tlbhiInvalid_page i
  rw [hpage] at h
  exact user_ne_tlbhiInvalid h i.isLt rfl

theorem dropPage_userDistinct (h : UserDistinct tlb) (w : Vaddr) : UserDistinct (dropPage tlb w) := by
  intro i j hi hij
  rcases dropPage_cases tlb w i with hi' | hi'
  · rcases dropPage_cases tlb w j with hj' | hj'
    · rw [hi', hj'] at hij
      rw [hi'] at hi
      exact h i j hi hij
    · rw [hij, hj'] at hi
      exact absurd hi (reserved_not_user j _)
  · rw [hi'] at hi
    exact absurd hi (reserved_not_user i _)

theorem insertPage_userDistinct (h : UserDistinct tlb) :
    UserDistinct (insertPage tlb last v a).1 := by
  unfold insertPage
  cases hm : tlbMatch tlb v with
  | some k => exact h
  | none =>
    -- the page that is entered is in no slot
    have hnew (k : Fin numTlb) : (tlb k).vpage ≠ (pageEntry v a).vpage := tlbMatch_none hm k
    intro i j hi hij
    simp only [Option.isSome_none, Bool.false_eq_true, if_false] at hi hij
    by_cases hil : i.val = last
    · by_cases hjl : j.val = last
      · exact Fin.ext (hil.trans hjl.symm)
      · rw [if_pos hil, if_neg hjl] at hij
        exact absurd hij.symm (hnew j)
    · rw [if_neg hil] at hi hij
      by_cases hjl : j.val = last
      · rw [if_pos hjl] at hij
        exact absurd hij (hnew i)
      · rw [if_neg hjl] at hij
        exact h i j hi hij

theorem insertPage_agrees (h : TlbAgrees tlb cur map i) (hcur : cur = some p)
    (hmap : map (p, v) = some a) (ha : IsPage a) :
    TlbAgrees (insertPage tlb last v a).1 cur map i := by
  intro hi
  rcases insertPage_cases tlb last v a i with hsame | hnew
  · rw [hsame] at hi ⊢
    exact h hi
  · rw [hnew, pageEntry_vpage, pageEntry_ppage ha, pageOf_page]
    exact ⟨p, hcur, hmap⟩

theorem TlbAgrees.install (h : TlbAgrees tlb cur map i) (hout : map (p, v) = none) :
    TlbAgrees tlb cur (Function.update map (p, v) (some a)) i := by
  intro hi
  obtain ⟨q, hq, hmap⟩ := h hi
  refine ⟨q, hq, ?_⟩
  rw [Function.update_of_ne, hmap]
  intro heq
  rw [heq, hout] at hmap
  cases hmap

theorem TlbAgrees.evict (hd : UserDistinct tlb) (h : TlbAgrees tlb cur map i)
    {A : Ptr} (hi0 : i = 0 → cur = some A → (tlb 0).vpage ≠ (pageOf w).1) :
    TlbAgrees (dropPage tlb w) cur (Function.update map (A, pageOf w) none) i := by
  intro hi
  rcases dropPage_cases tlb w i with hsame | hdropped
  swap
  · rw [hdropped] at hi
    exact absurd hi (reserved_not_user i _)
  rw [hsame] at hi ⊢
  obtain ⟨q, hq, hmap⟩ := h hi
  refine ⟨q, hq, ?_⟩
  rw [Function.update_of_ne, hmap]
  intro heq
  obtain ⟨rfl, hpage⟩ := Prod.mk.inj heq
  -- the slot holds the page, so it is the one the probe finds
  have hvpage : (tlb i).vpage = (pageOf w).1 := by
    rw [← hpage]
    exact (isPage_and_pageFrame (tlb i).hi).symm
  cases hm : tlbMatch tlb w with
  | none => exact tlbMatch_none hm i hvpage
  | some k =>
    have hik : i = k := hd i k hi (hvpage.trans (tlbMatch_some hm).symm)
    by_cases hk : 0 < k.val
    · -- not slot 0: it was overwritten
      have hover : dropPage tlb w i = ⟨tlbhiInvalid k, tlbloInvalid⟩ := by
        unfold dropPage
        rw [hm, hik]
        simp only [if_pos hk, Function.update_self]
      rw [hsame] at hover
      rw [hover] at hi
      exact reserved_not_user k _ hi
    · have hi0' : i = 0 := hik.trans (Fin.ext (Nat.eq_zero_of_not_pos hk))
      rw [hi0'] at hvpage
      exact hi0 hi0' hq hvpage

theorem dropPage_zero (hd : UserDistinct tlb) (hu : (tlb 0).vpage < userspaceTop)
    (h : (tlb 0).vpage = (pageOf w).1) : dropPage tlb w = tlb := by
  unfold dropPage
  cases hm : tlbMatch tlb w with
  | none => rfl
  | some k =>
    obtain rfl : 0 = k := hd 0 k hu (h.trans (tlbMatch_some hm).symm)
    rfl

theorem insertPage_at_last (hm : tlbMatch tlb v = none) (hi : i.val = last) :
    (insertPage tlb last v a).1 i = pageEntry v a := by
  unfold insertPage
  rw [hm]
  exact if_pos hi

end Tlb

/-! ## Faults -/

/-- The TLB of a running system: the positions are in range, and its user pages are distinct and
translated as the current page table translates them. -/
structure TlbCoherent (s : VmState) : Prop where
  positions : Positions s
  distinct : UserDistinct s.tlb
  agrees : ∀ i, TlbAgrees s.tlb s.curAddrspace (mapping s) i

/-- The fault on `va` leaves a stale slot 0: it has to bring a page in, no row is free, the victim's
row records a page of the current address space, slot 0 holds that page, and the page brought in
does not go to slot 0. -/
def LeavesStale (s : VmState) (va : Vaddr) : Prop :=
  ∃ q as, ∃ j : Fin maxPmSize, s.curAddrspace = some q ∧ s.spaces q = some as ∧
    as.covers (pageOf va).1 = true ∧ mapping s (q, pageOf va) = none ∧ s.freeRows = [] ∧
    frameIndex s.physicalBaseAddr (s.pft s.victim).physicalAddr = j ∧ (s.pft j).pSpace = some q ∧
    (s.tlb 0).vpage = (pageOf (s.pft j).virtualAddr).1 ∧ (s.tlb 0).vpage < userspaceTop ∧
    ¬ (s.lastTlbEntry = 0 ∧ tlbMatch s.tlb (pageOf va).1 = none)

section Fault

variable {s t u s₁ s₂ : VmState} {q : Ptr} {v : Page} {a : Paddr}

theorem Allocated.tlbAgrees (h : Allocated s a u) (hs : TlbCoherent s) (hq : s.curAddrspace = some q)
    (i : Fin numTlb) :
    TlbAgrees u.tlb u.curAddrspace (mapping u) i ∨
      (i = 0 ∧ u.tlb = s.tlb ∧ s.freeRows = [] ∧ (s.tlb 0).vpage < userspaceTop ∧
        ∃ j : Fin maxPmSize, frameIndex s.physicalBaseAddr (s.pft s.victim).physicalAddr = j ∧
          (s.pft j).pSpace = some q ∧ (s.tlb 0).vpage = (pageOf (s.pft j).virtualAddr).1) := by
  cases h with
  | free k heap out hfirst ha hpick ht =>
    rw [ht]
    exact .inl (hs.agrees i)
  | replaced heap out j A as as' e ref ep rp cnt hfull ha hpick hevict hep hrp ht =>
    have hindex := hevict.index
    rw [ha] at hindex
    have hmap : mapping u = Function.update (mapping s) (A, pageOf (s.pft j).virtualAddr) none := by
      rw [ht]
      exact hevict.mapping_update
    have htlb : u.tlb = dropPage s.tlb (s.pft j).virtualAddr := by rw [ht]
    have hcur : u.curAddrspace = s.curAddrspace := by rw [ht]
    rw [hmap, htlb, hcur]
    by_cases hstale : i = 0 ∧ s.curAddrspace = some A ∧
        (s.tlb 0).vpage = (pageOf (s.pft j).virtualAddr).1 ∧ (s.tlb 0).vpage < userspaceTop
    · obtain ⟨hi, hA, hpage, huser⟩ := hstale
      obtain rfl : q = A := Option.some.inj (hq.symm.trans hA)
      exact .inr ⟨hi, dropPage_zero hs.distinct huser hpage, hfull, huser, j, hindex, hevict.owner,
        hpage⟩
    · by_cases huser : i = 0 ∧ ¬ (s.tlb 0).vpage < userspaceTop
      · -- slot 0 holds no user page, before and after
        refine .inl fun hi => ?_
        rcases dropPage_cases s.tlb (s.pft j).virtualAddr i with hsame | hdropped
        · rw [hsame, huser.1] at hi
          exact absurd hi huser.2
        · rw [hdropped] at hi
          exact absurd hi (reserved_not_user i _)
      · refine .inl ((hs.agrees i).evict hs.distinct fun hi hA hpage => ?_)
        refine hstale ⟨hi, hA, hpage, ?_⟩
        by_contra hnot
        exact huser ⟨hi, hnot⟩

theorem Allocated.userDistinct (h : Allocated s a u) (hs : UserDistinct s.tlb) :
    UserDistinct u.tlb := by
  cases h with
  | free k heap out hfirst ha hpick ht => rw [ht]; exact hs
  | replaced heap out j A as as' e ref ep rp cnt hfull ha hpick hevict hep hrp ht =>
    rw [ht]
    exact dropPage_userDistinct hs _

theorem Allocated.frame (h : Allocated s a u) :
    u.lastTlbEntry = s.lastTlbEntry ∧ u.curAddrspace = s.curAddrspace := by
  cases h with
  | free k heap out hfirst ha hpick ht => rw [ht]; exact ⟨rfl, rfl⟩
  | replaced heap out j A as as' e ref ep rp cnt hfull ha hpick hevict hep hrp ht =>
    rw [ht]
    exact ⟨rfl, rfl⟩

theorem Allocated.mapping_none (h : Allocated s a u) {k : Ptr × Page} (hk : mapping s k = none) :
    mapping u k = none := by
  rcases h.mapping_cases with hu | ⟨k', hu⟩
  · rw [hu, hk]
  · rw [hu]
    by_cases hkk : k = k'
    · rw [hkk, Function.update_self]
    · rw [Function.update_of_ne hkk, hk]

theorem MadeResident.tlbCoherent (h : MadeResident s q v a s₁) (hs : TlbCoherent s)
    (hq : s.curAddrspace = some q) (ha : IsPage a)
    (hstale : ∀ j : Fin maxPmSize, mapping s (q, v) = none → s.freeRows = [] →
      frameIndex s.physicalBaseAddr (s.pft s.victim).physicalAddr = j → (s.pft j).pSpace = some q →
      (s.tlb 0).vpage = (pageOf (s.pft j).virtualAddr).1 → (s.tlb 0).vpage < userspaceTop →
      s.lastTlbEntry = 0 ∧ tlbMatch s.tlb v = none) : TlbCoherent s₁ := by
  have hpos := h.positions hs.positions
  have hin := h.mapping_eq
  cases h with
  | already hmap ht => rw [ht]; exact hs
  | broughtIn u u' k cs cs' heap e hmap halloc hfill =>
    obtain ⟨hlast, hcur⟩ := halloc.frame
    have hcur₁ : s₁.curAddrspace = u.curAddrspace := by rw [hfill.state, hfill.entered.state]
    refine ⟨hpos, ?_, fun i => ?_⟩
    · rw [hfill.tlb]
      exact insertPage_userDistinct (halloc.userDistinct hs.distinct)
    · rw [hfill.tlb, hcur₁]
      rw [hfill.mapping] at hin ⊢
      rcases halloc.tlbAgrees hs hq i with hagrees | ⟨hi, htlb, hfull, huser, j, hj, hspace, hpage⟩
      · exact insertPage_agrees (hagrees.install (halloc.mapping_none hmap)) (hcur.trans hq) hin ha
      · -- slot 0 is stale, and it is where the page that is brought in goes
        obtain ⟨hzero, hmiss⟩ := hstale j hmap hfull hj hspace hpage huser
        have hnew : (insertPage u.tlb u.lastTlbEntry v a).1 i = pageEntry v a := by
          apply insertPage_at_last
          · rw [htlb, hmiss]
          · rw [hi, hlast, hzero]
            rfl
        intro _
        rw [hnew, pageEntry_vpage, pageEntry_ppage ha, pageOf_page]
        exact ⟨q, hcur.trans hq, hin⟩

theorem vmFault_tlbCoherent {ft : FaultType} {va : Vaddr} {r : Option Errno} (hs : TlbCoherent s)
    (h : vmFault ft va s = .ok r t) (hstale : ¬ LeavesStale s va) : TlbCoherent t := by
  rcases of_vmFault_ok hs.positions h with ht | ⟨q, as, -, hq, has, -, hcov, hres⟩
  · rw [ht]
    exact ⟨⟨hs.positions.ep, hs.positions.rp, hs.positions.last⟩, hs.distinct, hs.agrees⟩
  · obtain ⟨a, s₁, s₂, e, j, as₁, as', hres⟩ := hres
    have hs' : TlbCoherent s.counted :=
      ⟨⟨hs.positions.ep, hs.positions.rp, hs.positions.last⟩, hs.distinct, hs.agrees⟩
    have hs₁ : TlbCoherent s₁ := by
      apply hres.resident.tlbCoherent hs' hq hres.aligned
      intro j hout hfull hj hspace hpage huser
      by_contra hnot
      exact hstale ⟨q, as, j, hq, has, hcov, hout, hfull, hj, hspace, hpage, huser, hnot⟩
    have hmap : mapping t = mapping s₁ := hres.same.mapping
    have hcur : t.curAddrspace = s₁.curAddrspace := by rw [hres.state, hres.touched.state]
    have hq₁ : s₁.curAddrspace = some q := by rw [← hcur, hres.frame.2]; exact hq
    refine ⟨?_, ?_, fun i => ?_⟩
    · have hpos := hs₁.positions
      rw [hres.state, hres.touched.state]
      exact ⟨hpos.ep, hpos.rp, insertPage_last_lt hpos.last _ a⟩
    · rw [hres.tlb]
      exact insertPage_userDistinct hs₁.distinct
    · rw [hres.tlb, hcur, hmap]
      exact insertPage_agrees (hs₁.agrees i) hq₁ hres.resident.mapping_eq hres.aligned

end Fault

/-! ## Runs -/

/-- The steps of a running system that leave no stale slot: context switches, faults, and loads and
stores, which fault where the TLB has no translation. -/
def Op.LeavesNoStale (t : VmState) : Op → Prop
  | .activate _ => True
  | .fault _ va => ¬ LeavesStale t va
  | .load va | .store va _ => tlbHit t.tlb va = none → ¬ LeavesStale t va
  | _ => False

theorem TlbCoherent.step {s t : VmState} {op : Op} (hs : TlbCoherent s) (hop : op.LeavesNoStale s)
    (h : op.exec s = .ok () t) : TlbCoherent t := by
  have hpos := hs.positions
  cases op with
  | activate q =>
    rw [activate_eq] at h
    cases h
    exact ⟨⟨hpos.ep, hpos.rp, hpos.last⟩, fun i j hi => absurd hi (reserved_not_user i _),
      fun i hi => absurd hi (reserved_not_user i _)⟩
  | fault ft va =>
    obtain ⟨r, u, hfault, hret⟩ := of_bind_ok h
    cases hret
    exact vmFault_tlbCoherent hs hfault hop
  | load va =>
    obtain ⟨r, u, hload, hret⟩ := of_bind_ok h
    cases hret
    rcases of_userLoad_ok hload with rfl | ⟨-, hmiss, r', hfault⟩
    · exact hs
    · exact vmFault_tlbCoherent hs hfault (hop hmiss)
  | store va b =>
    rcases of_userStore_ok h with rfl | ⟨i, hhit, rfl⟩ | ⟨-, hmiss, r', hfault⟩
    · exact hs
    · exact ⟨⟨hpos.ep, hpos.rp, hpos.last⟩, hs.distinct, hs.agrees⟩
    · exact vmFault_tlbCoherent hs hfault (hop hmiss)
  | _ => exact hop.elim

/-- From a TLB without user pages, in every run whose steps leave no stale slot, every valid slot
that maps a user page maps it to the frame the current page table has for it. -/
theorem tlb_coherent_in_every_run {s u : VmState} (hpos : Positions s)
    (hempty : ∀ i, userspaceTop ≤ (s.tlb i).vpage)
    (hu : Reach Op.exec (fun t op => op.LeavesNoStale t) s u) :
    ∀ i, (u.tlb i).valid = true → (u.tlb i).vpage < userspaceTop →
      ∃ p as, u.curAddrspace = some p ∧ u.spaces p = some as ∧
        as.mapped (u.tlb i).vpage = some (u.tlb i).ppage := by
  have hnot (i : Fin numTlb) : ¬ (s.tlb i).vpage < userspaceTop :=
    BitVec.not_lt.mpr (hempty i)
  have hinit : TlbCoherent s :=
    ⟨hpos, fun i j hi => absurd hi (hnot i), fun i hi => absurd hi (hnot i)⟩
  have hrun := hu.invariant_ok hinit fun t op t' ht hop hexec => ht.step hop hexec
  intro i _ huser
  obtain ⟨p, hp, hmap⟩ := hrun.agrees i huser
  obtain ⟨as, has, hmapped⟩ := Option.bind_eq_some_iff.mp hmap
  rw [AddrSpace.mapped_pageOf] at hmapped
  exact ⟨p, as, hp, has, hmapped⟩

/-- The first fault of a process, from an empty TLB. -/
theorem tlb_coherent_after_first_fault :
    ∃ u : VmState, ((u.tlb 0).valid = true ∧ (u.tlb 0).vpage = 0x10000000#32) ∧
      ∃ p as, u.curAddrspace = some p ∧ u.spaces p = some as ∧
        as.mapped (u.tlb 0).vpage = some (u.tlb 0).ppage := by
  have hstale : ¬ LeavesStale (processes [2]) 0x10000000#32 := by
    rintro ⟨q, as, j, -, -, -, -, hfull, -⟩
    exact absurd hfull (by decide +kernel)
  have hstart : Reach Op.exec (fun t op => op.LeavesNoStale t) (processes [2]) _ := .refl
  have hnext := hstart.next (.fault .read 0x10000000#32) hstale (by decide +kernel)
  exact ⟨_, by decide +kernel, tlb_coherent_in_every_run (processes_paged [2]).positions
    (by decide +kernel) hnext 0 (by decide +kernel) (by decide +kernel)⟩

/-- One process touches all its pages and then the ninth again, which was evicted. By then the page
it touched first is evicted, and it is in slot 0. -/
def touchAllPages : List Op :=
  (sampleSpace.swapPages.drop 1 ++ [0x400000#32, 0x10008000#32]).map fun v => .fault .read v

/-- Whether slot 0 maps a user page the current page table does not have. -/
def staleSlot (s : VmState) : Bool :=
  (s.tlb 0).valid && decide ((s.tlb 0).vpage < userspaceTop) &&
    s.curAddrspace.all fun p => (s.spaces p).all fun as => (as.mapped (s.tlb 0).vpage).isNone

/-- Without the condition on the steps, the TLB maps a page that was evicted. -/
theorem evicted_page_stays_in_tlb : ∃ s u, Paged s ∧ (∀ i, userspaceTop ≤ (s.tlb i).vpage) ∧
      Reach Op.exec (fun _ op => op.IsAccess) s u ∧ ∃ i, (u.tlb i).valid = true ∧
        (u.tlb i).vpage < userspaceTop ∧
        ¬ ∃ p as, u.curAddrspace = some p ∧ u.spaces p = some as ∧
          as.mapped (u.tlb i).vpage = some (u.tlb i).ppage := by
  have heval : (returns (touchAllPages.forM Op.exec (processes [2])) &&
      staleSlot (leaves (touchAllPages.forM Op.exec (processes [2])))) = true := by decide +kernel
  obtain ⟨hret, hslot⟩ := Bool.and_eq_true_iff.mp heval
  have haccess (op : Op) (hop : op ∈ touchAllPages) (_ : VmState) : op.IsAccess := by
    obtain ⟨v, -, rfl⟩ := List.mem_map.mp hop
    trivial
  have hreach : Reach Op.exec (fun _ op => op.IsAccess) (processes [2])
      (leaves (touchAllPages.forM Op.exec (processes [2]))) :=
    reach_forM touchAllPages haccess .refl hret
  generalize leaves (touchAllPages.forM Op.exec (processes [2])) = u at hslot hreach
  simp only [staleSlot, Bool.and_eq_true, decide_eq_true_eq] at hslot
  obtain ⟨⟨hvalid, huser⟩, hgone⟩ := hslot
  refine ⟨processes [2], u, processes_paged [2], by decide +kernel, hreach, 0, hvalid, huser, ?_⟩
  rintro ⟨p, as, hp, has, hmap⟩
  rw [hp, Option.all_some, has, Option.all_some, hmap] at hgone
  cases hgone

end Os161.Vm

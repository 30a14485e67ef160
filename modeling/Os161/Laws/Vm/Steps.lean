import Os161.Laws.Vm.Alloc
import Os161.Laws.Vm.Pages

/-!
# The steps of a page fault, run

What each function under `vm_fault` leaves when it returns, and when it does return: the TLB
functions, the clock, the eviction of a frame, a new page-table entry, and the transfers. The clock
is described by the row it stops at; the reference bits it clears on the way matter to no other
function.
-/

namespace Os161.Vm

open Os161.Lib

variable {s t : VmState}
variable {v : Vaddr} {a : Paddr} {j : Fin maxPmSize} {A tbl p : Ptr} {as as' : AddrSpace} {e : PageTableEntry}

/-! ## TLB -/

/-- The TLB after `tlb_invalidate`: a match in slot 0 is left alone. -/
def dropPage (tlb : Fin numTlb → TlbEntry) (v : Vaddr) : Fin numTlb → TlbEntry :=
  match tlbMatch tlb v with
  | some i => if 0 < i.val then Function.update tlb i ⟨tlbhiInvalid i, tlbloInvalid⟩ else tlb
  | none => tlb

theorem tlbInvalidate_eq (v : Vaddr) :
    tlbInvalidate v s = .ok () { s with tlb := dropPage s.tlb v } := by
  unfold tlbInvalidate tlbProbe dropPage
  rw [bind_ok (get_apply s)]
  cases tlbMatch s.tlb v with
  | none => rfl
  | some i =>
    by_cases hi : 0 < i.val
    · simp only [gt_iff_lt, Int.natCast_pos, hi, if_true, Int.toNat_natCast, tlbWrite,
        dif_pos i.isLt]
      rfl
    · simp only [gt_iff_lt, Int.natCast_pos, hi, if_false]
      rfl

/-- The entry `insert_tlb_entry` writes. -/
def pageEntry (v : Vaddr) (p : Paddr) : TlbEntry := ⟨v, p ||| tlbloDirty ||| tlbloValid⟩

/-- The TLB and the round-robin position after `insert_tlb_entry`: nothing happens to a page the
probe finds. -/
def insertPage (tlb : Fin numTlb → TlbEntry) (last : Nat) (v : Vaddr) (p : Paddr) :
    (Fin numTlb → TlbEntry) × Nat :=
  if (tlbMatch tlb v).isSome then (tlb, last)
  else (fun i => if i.val = last then pageEntry v p else tlb i, (last + 1) % numTlb)

theorem pageEntry_ppage {p : Paddr} (hp : IsPage p) : (pageEntry v p).ppage = p := by
  show (p ||| tlbloDirty ||| tlbloValid) &&& tlbloPpage = p
  rw [BitVec.and_or_distrib_right, BitVec.and_or_distrib_right,
    show tlbloDirty &&& tlbloPpage = 0#32 from rfl, show tlbloValid &&& tlbloPpage = 0#32 from rfl,
    BitVec.or_zero, BitVec.or_zero]
  exact hp

theorem pageEntry_vpage (v : Page) (p : Paddr) : (pageEntry v p).vpage = v.1 := v.2

theorem valid_tlbloInvalid (hi : BitVec 32) : TlbEntry.valid ⟨hi, tlbloInvalid⟩ = false := by
  simp [TlbEntry.valid]

theorem dropPage_cases (tlb : Fin numTlb → TlbEntry) (v : Vaddr) (i : Fin numTlb) :
    dropPage tlb v i = tlb i ∨ dropPage tlb v i = ⟨tlbhiInvalid i, tlbloInvalid⟩ := by
  unfold dropPage
  cases tlbMatch tlb v with
  | none => exact .inl rfl
  | some k =>
    by_cases hk : 0 < k.val
    · simp only [if_pos hk]
      by_cases hik : i = k
      · rw [hik, Function.update_self]
        exact .inr rfl
      · rw [Function.update_of_ne hik]
        exact .inl rfl
    · simp only [if_neg hk]
      exact .inl trivial

theorem insertPage_cases (tlb : Fin numTlb → TlbEntry) (last : Nat) (v : Vaddr) (p : Paddr)
    (i : Fin numTlb) :
    (insertPage tlb last v p).1 i = tlb i ∨ (insertPage tlb last v p).1 i = pageEntry v p := by
  unfold insertPage
  split
  · exact .inl rfl
  · by_cases hi : i.val = last
    · exact .inr (if_pos hi)
    · exact .inl (if_neg hi)

theorem insertPage_last_lt {tlb : Fin numTlb → TlbEntry} {last : Nat} (h : last < numTlb)
    (v : Vaddr) (p : Paddr) : (insertPage tlb last v p).2 < numTlb := by
  unfold insertPage
  split
  · exact h
  · exact Nat.mod_lt _ (by decide)

theorem insertTlbEntry_eq (v : Vaddr) (p : Paddr) (hlast : s.lastTlbEntry < numTlb) :
    insertTlbEntry v p s = .ok none { s with
      tlb := (insertPage s.tlb s.lastTlbEntry v p).1
      lastTlbEntry := (insertPage s.tlb s.lastTlbEntry v p).2 } := by
  unfold insertTlbEntry tlbProbe insertPage
  rw [bind_ok (get_apply s)]
  cases tlbMatch s.tlb v with
  | some i => simp
  | none =>
    simp only [ge_iff_le, Int.reduceNeg, Int.reduceLE, if_false, Option.isSome_none,
      Bool.false_eq_true]
    have hwrite : tlbWrite v (p ||| tlbloDirty ||| tlbloValid) s.lastTlbEntry
        { s with lastTlbEntry := (s.lastTlbEntry + 1) % numTlb } =
        .ok () { s with
          tlb := fun i => if i.val = s.lastTlbEntry then pageEntry v p else s.tlb i
          lastTlbEntry := (s.lastTlbEntry + 1) % numTlb } := by
      unfold tlbWrite
      rw [dif_pos hlast]
      simp only [modify_apply]
      congr 2
      funext i
      by_cases hi : i.val = s.lastTlbEntry
      · rw [if_pos hi, show i = ⟨s.lastTlbEntry, hlast⟩ from Fin.ext hi, Function.update_self]
        rfl
      · rw [if_neg hi, Function.update_of_ne fun h => hi (congrArg Fin.val h)]
    rw [bind_ok (modify_apply _ s), bind_ok hwrite]
    rfl

/-- The TLB after `as_activate`: every slot has its reserved address and is invalid. -/
def emptyTlb (i : Fin numTlb) : TlbEntry := ⟨tlbhiInvalid i, tlbloInvalid⟩

theorem tlbWrite_ok {hi lo : BitVec 32} {i : Nat} (h : i < numTlb) :
    tlbWrite hi lo i s = .ok () { s with tlb := Function.update s.tlb ⟨i, h⟩ ⟨hi, lo⟩ } := by
  unfold tlbWrite
  rw [dif_pos h]
  rfl

theorem asActivate_eq (s : VmState) : asActivate s = .ok () { s with tlb := emptyTlb } := by
  have hloop (l : List Nat) (hl : ∀ i ∈ l, i < numTlb) (s : VmState) :
      (l.forM fun i => tlbWrite (tlbhiInvalid i) tlbloInvalid i : Kernel Unit) s =
        .ok () { s with tlb := fun i => if i.val ∈ l then emptyTlb i else s.tlb i } := by
    induction l generalizing s with
    | nil => simp
    | cons k l ih =>
      have hk := hl k List.mem_cons_self
      refine (forM_cons_ok (g := fun i => tlbWrite (tlbhiInvalid i) tlbloInvalid i)
        (tlbWrite_ok hk)).trans ((ih (fun i hi => hl i (List.mem_cons_of_mem _ hi)) _).trans ?_)
      congr 2
      funext i
      by_cases hik : i = ⟨k, hk⟩
      · subst hik
        simp [emptyTlb]
      · have hval : i.val ≠ k := fun h => hik (Fin.ext h)
        simp [hik, hval]
  refine (hloop (List.range numTlb) (fun i hi => List.mem_range.mp hi) s).trans ?_
  congr 2
  funext i
  exact if_pos (List.mem_range.mpr i.isLt)

theorem activate_eq (q : Option Ptr) :
    (Op.activate q).exec s = .ok () { s with curAddrspace := q, tlb := emptyTlb } :=
  (bind_ok (modify_apply _ s)).trans (asActivate_eq _)

/-! ## The clock -/

/-- The row the eviction hand stops at, after at most `fuel` looks. -/
def clockStop : Nat → (Fin maxPmSize → Bool) → Fin maxPmSize → Fin maxPmSize → Fin maxPmSize
  | 0, _, ep, _ => ep
  | fuel + 1, ref, ep, rp =>
    if ref ep = false then ep
    else clockStop fuel (Function.update ref rp false) (ep + 1) (rp + 1)

/-- The row whose frame `replace_page` gives up. -/
def VmState.victim (s : VmState) : Fin maxPmSize :=
  clockStop (clockAngle + 2) (fun i => (s.pft i).refBit) (Fin.ofNat _ s.epHand)
    (Fin.ofNat _ s.rpHand)

/-- The frame table with other reference bits. -/
def withRefs (pft : Fin maxPmSize → PageTableEntry) (ref : Fin maxPmSize → Bool) :
    Fin maxPmSize → PageTableEntry :=
  fun i => { pft i with refBit := ref i }

theorem secondChanceScan_eq (fuel : Nat) (s : VmState) (ep rp : Fin maxPmSize)
    (hep : s.epHand = ep) (hrp : s.rpHand = rp) :
    ∃ ref, ∃ rp' : Fin maxPmSize, secondChanceScan fuel s = .ok ()
      { s with
        pft := withRefs s.pft ref
        epHand := clockStop fuel (fun i => (s.pft i).refBit) ep rp
        rpHand := rp' } := by
  induction fuel generalizing s ep rp with
  | zero => exact ⟨fun i => (s.pft i).refBit, rp, by rw [clockStop, ← hep, ← hrp]; rfl⟩
  | succ fuel ih =>
    have hrow : rowAt s.epHand s = .ok (s.pft ep) s := by
      rw [hep]
      exact rowAt_ok ep.isLt
    have hscan : secondChanceScan (fuel + 1) s =
        (if (s.pft ep).refBit = false then pure () else do
          updateRow s.rpHand fun r => { r with refBit := false }
          modify fun s =>
            { s with epHand := (s.epHand + 1) % maxPmSize, rpHand := (s.rpHand + 1) % maxPmSize }
          secondChanceScan fuel : Kernel Unit) s :=
      (bind_ok (get_apply s)).trans (bind_ok hrow)
    rw [hscan]
    by_cases hclear : (s.pft ep).refBit = false
    · refine ⟨fun i => (s.pft i).refBit, rp, ?_⟩
      rw [if_pos hclear, clockStop, if_pos hclear, ← hep, ← hrp]
      rfl
    · rw [if_neg hclear, clockStop, if_neg hclear]
      have hup : updateRow s.rpHand (fun r => { r with refBit := false }) s = .ok ()
          { s with pft := Function.update s.pft rp { s.pft rp with refBit := false } } :=
        (congrArg (fun i => updateRow i _ s) hrp).trans (updateRow_ok rp.isLt _)
      rw [bind_ok hup, bind_ok (modify_apply _ _)]
      obtain ⟨ref, rp', heq⟩ := ih
        { s with
          pft := Function.update s.pft rp { s.pft rp with refBit := false }
          epHand := (s.epHand + 1) % maxPmSize
          rpHand := (s.rpHand + 1) % maxPmSize } (ep + 1) (rp + 1)
        (by simp [hep, Fin.val_add]) (by simp [hrp, Fin.val_add])
      have href : (fun i => (Function.update s.pft rp
          { s.pft rp with refBit := false } i).refBit) =
          Function.update (fun i => (s.pft i).refBit) rp false := by
        funext i
        by_cases hi : i = rp
        · rw [hi, Function.update_self, Function.update_self]
        · rw [Function.update_of_ne hi, Function.update_of_ne hi]
      have hpft : withRefs (Function.update s.pft rp { s.pft rp with refBit := false }) ref =
          withRefs s.pft ref := by
        funext i
        by_cases hi : i = rp
        · rw [hi, withRefs, Function.update_self]
          rfl
        · rw [withRefs, Function.update_of_ne hi]
          rfl
      refine ⟨ref, rp', heq.trans ?_⟩
      simp only [href, hpft]

theorem replacePage_eq (hep : s.epHand < maxPmSize) (hrp : s.rpHand < maxPmSize) :
    ∃ ref ep rp cnt, ep < maxPmSize ∧ rp < maxPmSize ∧
      replacePage s = .ok (s.pft s.victim).physicalAddr
        { s with pft := withRefs s.pft ref, epHand := ep, rpHand := rp, cntPageRepl := cnt } := by
  obtain ⟨ref, rp', heq⟩ := secondChanceScan_eq (clockAngle + 2)
    { s with cntPageRepl := s.cntPageRepl + 1 } ⟨s.epHand, hep⟩ ⟨s.rpHand, hrp⟩ rfl rfl
  have hvictim : clockStop (clockAngle + 2) (fun i => (s.pft i).refBit) ⟨s.epHand, hep⟩
      ⟨s.rpHand, hrp⟩ = s.victim := by
    unfold VmState.victim
    congr 1
    · exact Fin.ext (Nat.mod_eq_of_lt hep).symm
    · exact Fin.ext (Nat.mod_eq_of_lt hrp).symm
  simp only [hvictim] at heq
  refine ⟨ref, (s.victim + 1) % maxPmSize, (rp' + 1) % maxPmSize, s.cntPageRepl + 1,
    Nat.mod_lt _ (by decide), Nat.mod_lt _ (by decide), ?_⟩
  have hmod : s.victim.val % maxPmSize = s.victim := Nat.mod_eq_of_lt s.victim.isLt
  refine (bind_ok (modify_apply _ s)).trans ((bind_ok heq).trans ?_)
  refine (bind_ok (get_apply _)).trans ?_
  simp only [hmod]
  exact (bind_ok (rowAt_ok s.victim.isLt)).trans rfl

/-! ## Eviction -/

/-- What the eviction of the frame at `a` reads: the row its index names, the owner found there,
the owner's page table after the entry is invalidated, and the slot the page is written to. -/
structure Evictable (s : VmState) (a : Paddr) (j : Fin maxPmSize) (A : Ptr) (as as' : AddrSpace)
    (e : PageTableEntry) : Prop where
  index : frameIndex s.physicalBaseAddr a = j
  owner : (s.pft j).pSpace = some A
  live : s.spaces A = some as
  entry : as.updatePte? (s.pft j).virtualAddr (fun e => { e with validBit := false }) = some as'
  slot : swapSlot s.swapspace (s.pft j).virtualAddr = some e

theorem Evictable.mapping_update (h : Evictable s a j A as as' e) :
    mapping { s with spaces := Function.update s.spaces A (some as') } =
      Function.update (mapping s) (A, pageOf (s.pft j).virtualAddr) none := by
  have hentry := h.entry
  rw [← AddrSpace.updatePte?_pageOf] at hentry
  refine mapping_setSpace_update h.live fun u => ?_
  rw [AddrSpace.mapped_updatePte? hentry]
  cases as.pte? (pageOf (s.pft j).virtualAddr) <;> rfl

theorem evictFrame_eq (hep : s.epHand < maxPmSize) (hrp : s.rpHand < maxPmSize)
    (h : Evictable s (s.pft s.victim).physicalAddr j A as as' e) :
    ∃ ref ep rp cnt, ep < maxPmSize ∧ rp < maxPmSize ∧
      evictFrame s = .ok (s.pft s.victim).physicalAddr
        { s with
          pft := withRefs s.pft ref, epHand := ep, rpHand := rp, cntPageRepl := cnt
          spaces := Function.update s.spaces A (some as')
          swapFile := vopWrite s.ram ((s.pft s.victim).physicalAddr &&& pageFrame) e.offset s.swapFile
          tlb := dropPage s.tlb (s.pft j).virtualAddr } := by
  obtain ⟨ref, ep, rp, cnt, hep', hrp', heq⟩ := replacePage_eq hep hrp
  let s₁ : VmState :=
    { s with pft := withRefs s.pft ref, epHand := ep, rpHand := rp, cntPageRepl := cnt }
  let s₂ : VmState := { s₁ with spaces := Function.update s.spaces A (some as') }
  have hrow : rowAt (frameIndex s.physicalBaseAddr (s.pft s.victim).physicalAddr) s₁ =
      .ok (s₁.pft j) s₁ := by
    rw [h.index]
    exact rowAt_ok j.isLt
  have hpte : updatePteAt (s₁.pft j).pSpace (s₁.pft j).virtualAddr
      (fun e => { e with validBit := false }) s₁ = .ok () s₂ := by
    rw [show (s₁.pft j).pSpace = some A from h.owner]
    exact updateSpace_ok h.live h.entry
  have hout := swapOut_ok (s := s₂) h.slot (s.pft s.victim).physicalAddr
  exact ⟨ref, ep, rp, cnt, hep', hrp', (bind_ok heq).trans <| (bind_ok (get_apply s₁)).trans <|
    (bind_ok hrow).trans <| (bind_ok hpte).trans <| (bind_ok hout).trans <|
      bind_ok (tlbInvalidate_eq _)⟩

theorem of_evictFrame_ok (hep : s.epHand < maxPmSize) (hrp : s.rpHand < maxPmSize)
    (h : evictFrame s = .ok a t) :
    a = (s.pft s.victim).physicalAddr ∧ ∃ j A as as' e, Evictable s a j A as as' e := by
  obtain ⟨ref, ep, rp, cnt, -, -, heq⟩ := replacePage_eq hep hrp
  unfold evictFrame at h
  rw [bind_ok heq, bind_ok (get_apply _)] at h
  obtain ⟨row, s₁, hrow, h⟩ := of_bind_ok h
  obtain ⟨hj, rfl, rfl⟩ := of_rowAt_ok hrow
  obtain ⟨_, s₂, hpte, h⟩ := of_bind_ok h
  obtain ⟨A, as, as', hA, has, hupd, rfl⟩ := of_updateSpace_ok hpte
  obtain ⟨_, s₃, hout, h⟩ := of_bind_ok h
  obtain ⟨e, he, rfl⟩ := of_swapOut_ok hout
  rw [bind_ok (tlbInvalidate_eq _)] at h
  cases h
  exact ⟨rfl, ⟨_, hj⟩, A, as, as', e, rfl, hA, has, hupd, he⟩

/-! ## One frame -/

/-- How a request for one frame is answered: with the first free row's, or with a victim's. -/
inductive Allocated (s : VmState) (a : Paddr) (t : VmState) : Prop
  | free (i : Fin maxPmSize) (heap : KHeap) (out : List Paddr) (hfirst : s.freeRows.head? = some i)
      (ha : a = (s.pft i).physicalAddr) (hpick : heap.pick = s.heap.pick)
      (ht : t = { s with heap := heap, pft := takeRows s.pft [i], handedOut := out })
  | replaced (heap : KHeap) (out : List Paddr) (j : Fin maxPmSize) (A : Ptr) (as as' : AddrSpace)
      (e : PageTableEntry) (ref : Fin maxPmSize → Bool) (ep rp cnt : Nat)
      (hfull : s.freeRows = []) (ha : a = (s.pft s.victim).physicalAddr)
      (hpick : heap.pick = s.heap.pick) (hevict : Evictable s a j A as as' e)
      (hep : ep < maxPmSize) (hrp : rp < maxPmSize)
      (ht : t = { s with
        heap := heap, pft := withRefs s.pft ref, epHand := ep, rpHand := rp, cntPageRepl := cnt
        spaces := Function.update s.spaces A (some as')
        swapFile := vopWrite s.ram (a &&& pageFrame) e.offset s.swapFile
        tlb := dropPage s.tlb (s.pft j).virtualAddr, handedOut := out })

theorem fillList_one_full (b : Ptr) (hfull : s.freeRows = []) :
    fillList 1 b s = (evictFrame >>= fun frame =>
      pure (Function.update (s.heap.junk b) 0 frame) : Kernel _) s := by
  have hfill := fillList_of_full (s := s) (k := 1) b (by rw [hfull]; decide)
  rw [hfull] at hfill
  simp only [takeRows_nil, List.map_nil, placeAt, List.length_nil, Nat.sub_zero] at hfill
  exact hfill

theorem virtualAllocKpages_some {b : Ptr} (k : Nat) (hpick : s.heap.pick s.heap.live = some b) :
    virtualAllocKpages k s = (fillList k b >>= fun pList => do
      modify fun s => { s with handedOut := (List.range k).map pList ++ s.handedOut }
      pure (some b, pList) : Kernel _) { s with heap := { s.heap with live := b :: s.heap.live } } :=
  bind_ok (kmalloc_some hpick)

theorem of_virtualAllocKpages_one (hep : s.epHand < maxPmSize) (hrp : s.rpHand < maxPmSize)
    {r : Option Ptr × (Nat → Paddr)} (h : virtualAllocKpages 1 s = .ok r t) :
    Allocated s (r.2 0) t := by
  cases hpick : s.heap.pick s.heap.live with
  | none =>
    unfold virtualAllocKpages at h
    rw [bind_ok (kmalloc_none hpick)] at h
    cases h
  | some b =>
    cases hrows : s.freeRows with
    | nil =>
      rw [virtualAllocKpages_some 1 hpick] at h
      obtain ⟨pList, t₁, hfill, h⟩ := of_bind_ok h
      cases h
      let heap : KHeap := { s.heap with live := b :: s.heap.live }
      obtain ⟨frame, t₂, hevict, hfill⟩ := of_bind_ok <|
        (fillList_one_full (s := { s with heap := heap }) b hrows).symm.trans hfill
      cases hfill
      obtain ⟨rfl, j, A, as, as', e, hev⟩ :=
        of_evictFrame_ok (s := { s with heap := heap }) hep hrp hevict
      obtain ⟨ref, ep, rp, cnt, hep', hrp', heq⟩ :=
        evictFrame_eq (s := { s with heap := heap }) hep hrp hev
      cases hevict.symm.trans heq
      simp only [Function.update_self]
      exact .replaced heap _ j A as as' e ref ep rp cnt hrows rfl rfl
        ⟨hev.index, hev.owner, hev.live, hev.entry, hev.slot⟩ hep' hrp' rfl
    | cons i rest =>
      have hroom : 1 ≤ s.freeRows.length := by rw [hrows]; simp
      rw [virtualAllocKpages_of_room hpick hroom] at h
      cases h
      refine .free i { s.heap with live := b :: s.heap.live } _ (by rw [hrows]; rfl) ?_ rfl
        (by rw [hrows]; rfl)
      rw [hrows]
      simp [placeAt]

theorem virtualAllocKpages_one_returns (hkmalloc : ∀ l, (s.heap.pick l).isSome)
    (hevict : s.freeRows = [] → ∀ heap, ∃ a t, evictFrame { s with heap := heap } = .ok a t) :
    ∃ r t, virtualAllocKpages 1 s = .ok r t := by
  obtain ⟨b, hpick⟩ := Option.isSome_iff_exists.mp (hkmalloc s.heap.live)
  cases hrows : s.freeRows with
  | nil =>
    let heap : KHeap := { s.heap with live := b :: s.heap.live }
    obtain ⟨a, t, ht⟩ := hevict hrows heap
    have hfill := (fillList_one_full (s := { s with heap := heap }) b hrows).trans (bind_ok ht)
    exact ⟨_, _, (virtualAllocKpages_some 1 hpick).trans (bind_ok hfill)⟩
  | cons i rest =>
    exact ⟨_, _, virtualAllocKpages_of_room hpick (by rw [hrows]; simp)⟩

/-! ## A new entry -/

/-- The row `add_page_entry` leaves for a page of `tbl`. -/
def PageTableEntry.entered (r : PageTableEntry) (tbl : Ptr) (v : Vaddr) (a : Paddr) :
    PageTableEntry :=
  { r with physicalAddr := a, virtualAddr := v, validBit := true, dirtyBit := false,
           refBit := false, pSpace := some tbl }

theorem of_ensureLevel2_ok (h : ensureLevel2 tbl v s = .ok () t) :
    ∃ as as' heap, s.spaces tbl = some as ∧ (as'.table (level1index v)).isSome ∧
      (∀ w : Page, as'.mapped w = as.mapped w) ∧ SameRegions as as' ∧ heap.pick = s.heap.pick ∧
      t = { s with heap := heap, spaces := Function.update s.spaces tbl (some as') } := by
  unfold ensureLevel2 at h
  obtain ⟨as, s₁, hderef, hrest⟩ := of_bind_ok h
  obtain ⟨has, hs₁⟩ := of_derefSpace_ok hderef
  rw [hs₁] at hrest
  by_cases hl2 : (as.table (level1index v)).isSome
  · rw [if_pos hl2] at hrest
    cases hrest
    refine ⟨as, as, s.heap, has, hl2, fun _ => rfl, .refl as, rfl, ?_⟩
    rw [← has, Function.update_eq_self]
  · rw [if_neg hl2] at hrest
    unfold newLevel2 at hrest
    obtain ⟨block, s₂, hk, hnew⟩ := of_bind_ok hrest
    obtain ⟨-, heap, hpick, rfl⟩ := of_kmalloc_ok hk
    cases block with
    | none => cases hnew
    | some b =>
      obtain ⟨q, as₁, as', hq, has₁, hset, rfl⟩ := of_updateSpace_ok hnew
      cases hq
      obtain rfl : as = as₁ := Option.some.inj (has.symm.trans has₁)
      cases hset
      exact ⟨as, _, heap, has, by simp, fun w =>
        AddrSpace.mapped_freshLevel2 (Option.not_isSome_iff_eq_none.mp hl2),
        ⟨rfl, rfl, rfl, rfl, rfl⟩, hpick, rfl⟩

/-- What `add_page_entry` leaves: the page is mapped to the frame, and the row of the frame's index
records the page. -/
structure Entered (s t : VmState) (tbl : Ptr) (v : Page) (a : Paddr) (j : Fin maxPmSize)
    (as as' : AddrSpace) (heap : KHeap) : Prop where
  index : frameIndex s.physicalBaseAddr a = j
  live : s.spaces tbl = some as
  mapped : ∀ w : Page, as'.mapped w = if w = v then some a else as.mapped w
  regions : SameRegions as as'
  pick : heap.pick = s.heap.pick
  state : t = { s with
    heap := heap
    spaces := Function.update s.spaces tbl (some as')
    pft := Function.update s.pft j ((s.pft j).entered tbl v a) }

theorem of_addPageEntry_ok {v : Page}
    (h : addPageEntry tbl v a s = .ok () t) : ∃ j as as' heap, Entered s t tbl v a j as as' heap := by
  unfold addPageEntry at h
  obtain ⟨_, s₁, hl2, h⟩ := of_bind_ok h
  obtain ⟨as, as₁, heap, has, hsome, hmap₁, hreg₁, hpick, rfl⟩ := of_ensureLevel2_ok hl2
  obtain ⟨_, s₂, hpte, h⟩ := of_bind_ok h
  obtain ⟨q, as₁', as', hq, has₁, hset, rfl⟩ := of_updateSpace_ok hpte
  cases hq
  obtain rfl : as₁ = as₁' := by simpa using has₁
  rw [bind_ok (get_apply _)] at h
  obtain ⟨hj, rfl⟩ := of_updateRow_ok h
  have hreg₂ := updatePte_sameRegions hset
  refine ⟨⟨_, hj⟩, as, as', heap, rfl, has, fun w => ?_, ?_, hpick, ?_⟩
  · rw [AddrSpace.mapped_updatePte? hset, hmap₁]
    obtain ⟨l2, hl2⟩ := Option.isSome_iff_exists.mp hsome
    simp [AddrSpace.pte?, hl2, PageTableEntry.target]
  · exact hreg₁.trans hreg₂
  · simp only [Function.update_idem]
    rfl

theorem ensureLevel2_returns (has : s.spaces tbl = some as)
    (hkmalloc : ∀ l, (s.heap.pick l).isSome) (v : Vaddr) : ∃ t, ensureLevel2 tbl v s = .ok () t := by
  unfold ensureLevel2
  rw [bind_ok (derefSpace_ok has)]
  by_cases hl2 : (as.table (level1index v)).isSome
  · exact ⟨s, by rw [if_pos hl2]; rfl⟩
  · obtain ⟨b, hb⟩ := Option.isSome_iff_exists.mp (hkmalloc s.heap.live)
    rw [if_neg hl2]
    exact ⟨_, (bind_ok (kmalloc_some hb)).trans (updateSpace_ok has rfl)⟩

theorem addPageEntry_returns (has : s.spaces tbl = some as)
    (hkmalloc : ∀ l, (s.heap.pick l).isSome) (v : Page)
    (ha : frameIndex s.physicalBaseAddr a < maxPmSize) : ∃ t, addPageEntry tbl v a s = .ok () t := by
  obtain ⟨s₁, hl2⟩ := ensureLevel2_returns has hkmalloc v
  obtain ⟨as₀, as₁, heap, -, hsome, -, -, -, rfl⟩ := of_ensureLevel2_ok hl2
  obtain ⟨l2, hl2'⟩ := Option.isSome_iff_exists.mp hsome
  have hlive : Function.update s.spaces tbl (some as₁) tbl = some as₁ := Function.update_self ..
  have hpte := updateSpace_ok
    (s := { s with heap := heap, spaces := Function.update s.spaces tbl (some as₁) })
    (f := fun as => as.updatePte? v fun e =>
      { e with physicalAddr := a, virtualAddr := v, validBit := true, dirtyBit := false,
               refBit := false }) hlive
    (by simp only [AddrSpace.updatePte?, hl2']; rfl)
  exact ⟨_, (bind_ok hl2).trans ((bind_ok hpte).trans ((bind_ok (get_apply _)).trans
    (updateRow_ok ha _)))⟩

/-! ## The reference bits -/

/-- What the bookkeeping of a fault leaves: bits of the entry and of one row. -/
structure Touched (s t : VmState) (p : Ptr) (v : Page) (e : PageTableEntry) (j : Fin maxPmSize)
    (as as' : AddrSpace) : Prop where
  live : s.spaces p = some as
  entry : as.pte? v = some e
  index : frameIndex s.physicalBaseAddr e.physicalAddr = j
  kept : ∀ w : Page, as'.mapped w = as.mapped w
  address : ∃ e', as'.pte? v = some e' ∧ e'.physicalAddr = e.physicalAddr
  regions : SameRegions as as'
  state : t = { s with
    spaces := Function.update s.spaces p (some as')
    pft := Function.update s.pft j { s.pft j with refBit := true } }

theorem of_pteAt_ok (h : pteAt (some p) v s = .ok e t) :
    ∃ as, s.spaces p = some as ∧ as.pte? v = some e ∧ t = s := by
  unfold pteAt at h
  obtain ⟨as, s₁, hderef, hrest⟩ := of_bind_ok h
  obtain ⟨has, hs₁⟩ := of_derefSpace_ok hderef
  rw [hs₁] at hrest
  cases he : as.pte? v with
  | none => rw [he] at hrest; cases hrest
  | some e' => rw [he] at hrest; cases hrest; exact ⟨as, has, he, rfl⟩

theorem pteAt_ok (has : s.spaces p = some as) (he : as.pte? v = some e) : pteAt (some p) v s = .ok e s := by
  unfold pteAt
  rw [bind_ok (derefSpace_ok has), he]
  rfl

theorem of_touchPage_ok {v : Page} {dirty : Bool}
    (h : touchPage p v dirty s = .ok () t) : ∃ e j as as', Touched s t p v e j as as' := by
  unfold touchPage at h
  obtain ⟨e, s₁, hpte, hrest⟩ := of_bind_ok h
  obtain ⟨as, has, he, hs₁⟩ := of_pteAt_ok hpte
  rw [hs₁] at hrest
  obtain ⟨_, s₂, hupd, hrest⟩ := of_bind_ok hrest
  obtain ⟨q, as₁, as', hq, has₁, hset, rfl⟩ := of_updateSpace_ok hupd
  cases hq
  obtain rfl : as = as₁ := Option.some.inj (has.symm.trans has₁)
  rw [bind_ok (get_apply _)] at hrest
  obtain ⟨hj, rfl⟩ := of_updateRow_ok hrest
  refine ⟨e, ⟨_, hj⟩, as, as', has, he, rfl, fun w => ?_, ?_, updatePte_sameRegions hset, rfl⟩
  · rw [AddrSpace.mapped_updatePte? hset]
    by_cases hw : w = v
    · rw [if_pos hw, hw, he, AddrSpace.mapped, he]
      rfl
    · rw [if_neg hw]
  · rw [AddrSpace.pte?_updatePte? hset, if_pos rfl, he]
    exact ⟨_, rfl, rfl⟩

theorem touchPage_returns {v : Page}
    (has : s.spaces p = some as) (he : as.pte? v = some e)
    (hj : frameIndex s.physicalBaseAddr e.physicalAddr < maxPmSize) (dirty : Bool) :
    ∃ t, touchPage p v dirty s = .ok () t := by
  obtain ⟨l2, hl2, -⟩ := Option.map_eq_some_iff.mp he
  have hupd := updateSpace_ok (f := fun as => as.updatePte? v fun e =>
    { e with dirtyBit := e.dirtyBit || dirty, refBit := true }) has
    (by simp only [AddrSpace.updatePte?, hl2]; rfl)
  exact ⟨_, (bind_ok (pteAt_ok has he)).trans ((bind_ok hupd).trans ((bind_ok (get_apply _)).trans
    (updateRow_ok hj _)))⟩

end Os161.Vm

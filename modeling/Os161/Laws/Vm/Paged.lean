import Os161.Vm.Boot
import Os161.Laws.Vm.ReverseMap

/-!
# Paging keeps its tables in agreement

`Paged` is the state of a memory system in order: positions inside their tables, the frame table as
boot means it, page tables and frame table in agreement, and a heap with room. Every fault, whether
it finds its page in memory, takes a free frame or evicts a page of any address space, leads from
such a state to such a state, and it returns unless an assertion on the regions of the current
address space fails; so does the destruction of an address space.
-/

namespace Os161.Vm

open Os161.Lib

variable {e : PageTableEntry}

/-- A memory system in order. -/
structure Paged (s : VmState) : Prop where
  positions : Positions s
  frames : FrameTable s
  agree : TablesAgree s
  kmalloc : ∀ l, (s.heap.pick l).isSome

section Fault

variable {s t s₁ s₂ : VmState} {p : Ptr} {v : Page} {a : Paddr}
variable {j : Fin maxPmSize} {as' : AddrSpace} {heap : KHeap} {ft : FaultType} {va : Vaddr}

theorem Allocated.pick (h : Allocated s a t) : t.heap.pick = s.heap.pick := by
  cases h with
  | free i heap out hfirst ha hpick ht => rw [ht]; exact hpick
  | replaced heap out j A as as' e ref ep rp cnt hfull ha hpick hevict hep hrp ht =>
    rw [ht]
    exact hpick

theorem Filled.pick {as : AddrSpace}
    (h : Filled s t p v a s₁ j as as' heap e) : t.heap.pick = s.heap.pick := by
  rw [h.state, h.entered.state]
  exact h.entered.pick

theorem broughtIn_views {as : AddrSpace} (hs : Paged s) (halloc : Allocated s a s₁)
    (hfill : Filled s₁ t p v a s₂ j as as' heap e) :
    ∃ i, a = rowAddr s i ∧ AllocView s s₁ i ∧ FillView s₁ t p v i e := by
  obtain ⟨i, ha, hview⟩ := halloc.view hs.frames hs.agree
  have ha₁ : a = rowAddr s₁ i := by rw [hview.addr, ha]
  subst ha₁
  exact ⟨i, ha, hview, hfill.view (hview.frameTable hs.frames)⟩

theorem MadeResident.paged (h : MadeResident s p v a t) (hs : Paged s) : Paged t := by
  cases h with
  | already hmap ht => rw [ht]; exact hs
  | broughtIn s₁ s₂ j as as' heap e hmap halloc hfill =>
    obtain ⟨i, -, hview, hfview⟩ := broughtIn_views hs halloc hfill
    obtain ⟨hft, hagree⟩ := hfview.tablesAgree (hview.frameTable hs.frames)
      (hview.agreeBut hs.frames hs.agree) (hview.mapping_none hmap)
    exact ⟨hfill.positions (halloc.positions hs.positions), hft, hagree, by
      rw [hfill.pick, halloc.pick]; exact hs.kmalloc⟩

theorem proj_setRef {α : Type} {g : PageTableEntry → α} (hg : ∀ r b, g { r with refBit := b } = g r)
    (pft : Fin maxPmSize → PageTableEntry) (j k : Fin maxPmSize) :
    g (Function.update pft j { pft j with refBit := true } k) = g (pft k) := by
  by_cases hk : k = j
  · rw [hk, Function.update_self, hg]
  · rw [Function.update_of_ne hk]

theorem Touched.same {as : AddrSpace}
    (h : Touched s t p v e j as as') : SameTables s t := by
  have hmap := h.mapping
  rw [h.state] at hmap ⊢
  exact ⟨hmap,
    funext fun k => proj_setRef (g := PageTableEntry.owner) (fun _ _ => rfl) s.pft j k,
    funext fun k => proj_setRef (g := PageTableEntry.physicalAddr) (fun _ _ => rfl) s.pft j k, rfl,
    fun k => proj_setRef (g := PageTableEntry.validBit) (fun _ _ => rfl) s.pft j k⟩

theorem SameTables.paged (h : SameTables s t) (hs : Paged s) (hpos : Positions t)
    (hpick : t.heap.pick = s.heap.pick) : Paged t :=
  ⟨hpos, h.frameTable hs.frames, h.tablesAgree hs.frames hs.agree, by rw [hpick]; exact hs.kmalloc⟩

theorem Resolved.same {as : AddrSpace}
    (h : Resolved s p v t a s₁ s₂ e j as as') : SameTables s₁ t := by
  have hsame := h.touched.same
  rw [h.state]
  exact ⟨hsame.mapping, hsame.owner, hsame.addr, hsame.base, hsame.valid⟩

theorem Resolved.paged {as : AddrSpace}
    (h : Resolved s p v t a s₁ s₂ e j as as') (hs : Paged s) : Paged t := by
  have hpaged := h.resident.paged hs
  have hpos := hpaged.positions
  refine h.same.paged hpaged ?_ ?_
  · rw [h.state, h.touched.state]
    exact ⟨hpos.ep, hpos.rp, insertPage_last_lt hpos.last v a⟩
  · rw [h.state, h.touched.state]

theorem Paged.counted (hs : Paged s) : Paged s.counted :=
  ⟨⟨hs.positions.ep, hs.positions.rp, hs.positions.last⟩, ⟨hs.frames.rows, hs.frames.aligned⟩,
    ⟨hs.agree.forward, hs.agree.backward⟩, hs.kmalloc⟩

theorem vmFault_paged {r : Option Errno} (hs : Paged s)
    (h : vmFault ft va s = .ok r t) : Paged t := by
  rcases of_vmFault_ok hs.positions h with ht | ⟨q, as, -, -, -, -, -, hres⟩
  · rw [ht]
    exact hs.counted
  · obtain ⟨a, s₁, s₂, e, j, as₁, as', hres⟩ := hres
    exact hres.paged hs.counted

/-! ## A fault returns -/

/-- The pages a fault may have to move have a swap slot: the page faulted on, and the page evicted
where there is no free row. -/
structure SwapEntries (s : VmState) (v : Page) : Prop where
  page : (swapSlot s.swapspace v).isSome
  victim : s.freeRows = [] → (swapSlot s.swapspace (s.pft s.victim).virtualAddr).isSome

theorem Paged.evictable (hs : Paged s) {i : Fin maxPmSize} (hvalid : (s.pft i).validBit = true)
    (hslot : (swapSlot s.swapspace (s.pft i).virtualAddr).isSome) :
    ∃ A as as' e, Evictable s (s.pft i).physicalAddr i A as as' e := by
  obtain ⟨A, as, hA, has, hmap⟩ := hs.agree.backward i hvalid
  obtain ⟨e, he⟩ := Option.isSome_iff_exists.mp hslot
  obtain ⟨pte, hpte, -⟩ := Option.bind_eq_some_iff.mp hmap
  obtain ⟨l2, hl2, -⟩ := Option.map_eq_some_iff.mp hpte
  exact ⟨A, as, _, e, hs.frames.frameIndex_rowAddr i, hA, has,
    by simp only [AddrSpace.updatePte?, hl2]; rfl, he⟩

theorem bringIn_returns (hs : Paged s) {as : AddrSpace} (has : s.spaces p = some as)
    (hswap : SwapEntries s v) : ∃ t, bringIn p v s = .ok () t := by
  obtain ⟨r, s₁, hk⟩ := virtualAllocKpages_one_returns hs.kmalloc fun hfull heap => by
    have hvalid := validBit_of_full hfull s.victim
    obtain ⟨A, bs, bs', e, hev⟩ := hs.evictable hvalid (hswap.victim hfull)
    obtain ⟨ref, ep, rp, cnt, -, -, heq⟩ := evictFrame_eq (s := { s with heap := heap })
      hs.positions.ep hs.positions.rp ⟨hev.index, hev.owner, hev.live, hev.entry, hev.slot⟩
    exact ⟨_, _, heq⟩
  have halloc := of_virtualAllocKpages_one hs.positions.ep hs.positions.rp hk
  obtain ⟨i, ha, hview⟩ := halloc.view hs.frames hs.agree
  obtain ⟨as₁, has₁, -⟩ := halloc.live has
  have hindex : frameIndex s₁.physicalBaseAddr (r.2 0) < maxPmSize := by
    rw [hview.base, ha, hs.frames.frameIndex_rowAddr]
    exact i.isLt
  obtain ⟨s₂, hadd⟩ := addPageEntry_returns has₁ (by rw [halloc.pick]; exact hs.kmalloc) v hindex
  obtain ⟨j, as₂, as', heap, hent⟩ := of_addPageEntry_ok hadd
  have hlast : s₂.lastTlbEntry < numTlb := by
    rw [hent.state]
    exact (halloc.positions hs.positions).last
  obtain ⟨e, he⟩ := Option.isSome_iff_exists.mp hswap.page
  have hin := swapIn_ok (v := v) (s := { s₂ with
    tlb := (insertPage s₂.tlb s₂.lastTlbEntry v (r.2 0)).1
    lastTlbEntry := (insertPage s₂.tlb s₂.lastTlbEntry v (r.2 0)).2 }) (e := e)
    (by rw [hent.state]; show swapSlot s₁.swapspace v = _; rw [hview.swapspace, he]) (r.2 0)
  exact ⟨_, (bind_ok hk).trans ((bind_ok hadd).trans
    ((bind_ok (insertTlbEntry_eq _ _ hlast)).trans hin))⟩

theorem ensureResident_returns (hs : Paged s) {as : AddrSpace} (has : s.spaces p = some as)
    (hswap : mapping s (p, v) = none → SwapEntries s v) :
    ∃ t, ensureResident p v s = .ok () t := by
  unfold ensureResident
  rw [bind_ok (derefSpace_ok has)]
  cases hres : as.resident v with
  | true => exact ⟨s, by rw [if_pos rfl]; rfl⟩
  | false =>
    rw [if_neg (by simp)]
    apply bringIn_returns hs has
    apply hswap
    rw [mapping_of_space has, AddrSpace.mapped_of_not_resident hres]

theorem touchFor_returns {as : AddrSpace}
    (hft : ft.IsAccess) (has : s.spaces p = some as) (he : as.pte? v = some e)
    (hj : frameIndex s.physicalBaseAddr e.physicalAddr < maxPmSize) :
    ∃ t, touchFor p v ft s = .ok () t := by
  cases ft with
  | read => exact touchPage_returns has he hj false
  | write => exact touchPage_returns has he hj true
  | readonly => exact hft.elim
  | other => exact hft.elim

theorem getPhysicalAddress_returns (hft : ft.IsAccess) (hs : Paged s)
    {as : AddrSpace} (has : s.spaces p = some as)
    (hswap : mapping s (p, v) = none → SwapEntries s v) :
    ∃ pa t, getPhysicalAddress p v ft s = .ok pa t ∧ IsPage pa ∧ t.lastTlbEntry < numTlb := by
  obtain ⟨s₁, hens⟩ := ensureResident_returns hs has hswap
  obtain ⟨a, hmade⟩ := of_ensureResident_ok hs.positions hens
  have hs₁ := hmade.paged hs
  -- the entry made valid holds the address of a row
  have hmap := hmade.mapping_eq
  obtain ⟨i, hi, -⟩ := hs₁.agree.forward p v a hmap
  obtain ⟨as₁, has₁, hmapped⟩ := Option.bind_eq_some_iff.mp hmap
  obtain ⟨e, he, htarget⟩ := Option.bind_eq_some_iff.mp hmapped
  have hea : e.physicalAddr = a := by
    unfold PageTableEntry.target at htarget
    split at htarget
    · exact Option.some.inj htarget
    · cases htarget
  have hindex : frameIndex s₁.physicalBaseAddr e.physicalAddr < maxPmSize := by
    rw [hea, ← hi]
    exact hs₁.frames.frameIndex_rowAddr i ▸ i.isLt
  obtain ⟨s₂, htouch⟩ := touchFor_returns hft has₁ he hindex
  obtain ⟨e₁, j, as₂, as', ht⟩ := of_touchFor_ok hft htouch
  obtain ⟨e', he', -⟩ := ht.address
  have hlive : s₂.spaces p = some as' := by rw [ht.state]; exact Function.update_self ..
  have hok : getPhysicalAddress p v ft s = .ok (if ft = .other then
      BitVec.ofNat 32 Errno.EINVAL.code else e'.physicalAddr + (v.1 &&& offsetMask)) s₂ :=
    (bind_ok hens).trans ((bind_ok htouch).trans (bind_ok (pteAt_ok hlive he')))
  refine ⟨_, s₂, hok, ?_, ?_⟩
  · obtain ⟨s₁', e₂, j₂, as₃, as₄, hmade', -, -⟩ := of_getPhysicalAddress_ok hft hs.positions hok
    obtain ⟨i', hi', -⟩ := (hmade'.paged hs).agree.forward p v _ hmade'.mapping_eq
    rw [← hi']
    exact (hmade'.paged hs).frames.isPage_rowAddr i'
  · rw [ht.state]
    exact hs₁.positions.last

theorem resolveFault_returns (hft : ft.IsAccess) (hs : Paged s)
    {as : AddrSpace} (has : s.spaces p = some as) (hc : as.Checked)
    (hswap : as.covers v = true → mapping s (p, v) = none → SwapEntries s v) :
    ∃ r t, resolveFault p ft v s = .ok r t := by
  rcases checkSpace_cases as s with ⟨-, hok⟩ | ⟨hnot, -⟩
  swap
  · exact absurd hc hnot
  unfold resolveFault
  rw [bind_ok (derefSpace_ok has), bind_ok hok]
  cases hcov : as.covers v with
  | false => exact ⟨_, _, by rw [if_neg (by simp)]; rfl⟩
  | true =>
    obtain ⟨pa, t, hget, hpage, hlast⟩ := getPhysicalAddress_returns hft hs has (hswap hcov)
    rw [if_pos rfl, bind_ok hget, beq_iff_eq.mpr hpage, bind_ok (kassert_true _)]
    exact ⟨_, _, insertTlbEntry_eq _ _ hlast⟩

/-- How a fault on a memory system in order can stop: a read-only fault, no address space behind the
current pointer, or an assertion on its regions. -/
def FaultStop (e : Fault) : Prop :=
  e = .readonlyFault ∨ e = .badPointer ∨ ∃ x : Assertion, x.OnRegions ∧ e = .kassert x

/-- The fault on `va` finds the swap slots it needs: a page of the current address space that is not
in memory has its entries. -/
def FaultSwaps (s : VmState) (va : Vaddr) : Prop :=
  ∀ q as, s.curAddrspace = some q → s.spaces q = some as → as.Checked →
    as.covers (pageOf va).1 = true → mapping s (q, pageOf va) = none → SwapEntries s (pageOf va)

theorem vmFault_cases (ft : FaultType) (hs : Paged s) (hswap : FaultSwaps s va) :
    (∃ r t, vmFault ft va s = .ok r t) ∨ ∃ e, FaultStop e ∧ vmFault ft va s = .error e s.counted := by
  by_cases hft : ft.IsAccess
  · rw [vmFault_access hft]
    cases hq : s.curAddrspace with
    | none => exact .inl ⟨_, _, faultIn_none (s := s.counted) hq⟩
    | some q =>
      rw [faultIn_some (s := s.counted) hq]
      cases has : s.spaces q with
      | none =>
        exact .inr ⟨.badPointer, .inr (.inl rfl), bind_error (derefSpace_error (s := s.counted) has)⟩
      | some as =>
        rcases checkSpace_cases as s.counted with ⟨hc, -⟩ | ⟨-, x, hx, herr⟩
        · exact .inl <| resolveFault_returns hft hs.counted has hc fun hcov hout =>
            have he := hswap q as hq has hc hcov hout
            ⟨he.page, he.victim⟩
        · exact .inr ⟨.kassert x, .inr (.inr ⟨x, hx, rfl⟩),
            (bind_ok (derefSpace_ok (s := s.counted) has)).trans (bind_error herr)⟩
  · cases ft with
    | read => exact absurd trivial hft
    | write => exact absurd trivial hft
    | readonly => exact .inr ⟨.readonlyFault, .inl rfl, rfl⟩
    | other => exact .inl ⟨_, _, rfl⟩

end Fault

/-! ## Destruction -/

section Destroy

variable {s : VmState} {p : Ptr} {as : AddrSpace}
variable {n : Nat}

/-- The frame table with the rows of some indices freed. -/
def freeRowsAt (pft : Fin maxPmSize → PageTableEntry) (l : List Nat) :
    Fin maxPmSize → PageTableEntry :=
  fun i => if i.val ∈ l then { pft i with validBit := false } else pft i

/-- The row indices `as_destroy` computes from one level-2 table. -/
def PageTableLevel2.frames (l2 : PageTableLevel2) (base : Paddr) : List Nat :=
  (List.finRange maxLevel2Pt).filterMap fun j =>
    if (l2.table j).validBit then some (frameIndex base (l2.table j).physicalAddr) else none

theorem freeRowsAt_cons (pft : Fin maxPmSize → PageTableEntry) (hn : n < maxPmSize)
    (l : List Nat) :
    freeRowsAt (Function.update pft ⟨n, hn⟩ { pft ⟨n, hn⟩ with validBit := false }) l =
      freeRowsAt pft (n :: l) := by
  funext i
  by_cases hi : i = ⟨n, hn⟩
  · subst hi
    by_cases hl : n ∈ l <;> simp [freeRowsAt, hl]
  · have hne : i.val ≠ n := fun h => hi (Fin.ext h)
    simp [freeRowsAt, hi, hne]

theorem freeRowsAt_append (pft : Fin maxPmSize → PageTableEntry) (l l' : List Nat) :
    freeRowsAt (freeRowsAt pft l) l' = freeRowsAt pft (l ++ l') := by
  funext i
  by_cases h : i.val ∈ l <;> by_cases h' : i.val ∈ l' <;> simp [freeRowsAt, h, h']

@[simp] theorem freeRowsAt_nil (pft : Fin maxPmSize → PageTableEntry) : freeRowsAt pft [] = pft := by
  funext i
  simp [freeRowsAt]

theorem releaseEntry_valid (he : e.validBit = true)
    (h : frameIndex s.physicalBaseAddr e.physicalAddr < maxPmSize) :
    releaseEntry e s = .ok () { s with
      pft := Function.update s.pft ⟨_, h⟩ { s.pft ⟨_, h⟩ with validBit := false } } := by
  unfold releaseEntry
  rw [if_pos he, bind_ok (get_apply s)]
  exact updateRow_ok h _

theorem releaseEntry_invalid (he : ¬ e.validBit = true) :
    releaseEntry e s = .ok () s := by
  unfold releaseEntry
  rw [if_neg he]
  rfl

theorem releaseTable_eq {l2 : PageTableLevel2}
    (h : ∀ n ∈ l2.frames s.physicalBaseAddr, n < maxPmSize) :
    releaseTable l2 s = .ok () { s with
      heap := { s.heap with live := s.heap.live.erase l2.block }
      pft := freeRowsAt s.pft (l2.frames s.physicalBaseAddr) } := by
  have hloop : ((List.finRange maxLevel2Pt).forM fun j => releaseEntry (l2.table j) : Kernel Unit) s =
      .ok () { s with pft := freeRowsAt s.pft (l2.frames s.physicalBaseAddr) } := by
    unfold PageTableLevel2.frames at h ⊢
    -- the loop over the entries still to come, from any table
    generalize List.finRange maxLevel2Pt = js at h ⊢
    induction js generalizing s with
    | nil => simp only [List.filterMap_nil, freeRowsAt_nil]; rfl
    | cons j js ih =>
      by_cases hj : (l2.table j).validBit = true
      · simp only [List.filterMap_cons, if_pos hj, List.mem_cons, forall_eq_or_imp] at h ⊢
        rw [← freeRowsAt_cons s.pft h.1]
        exact (forM_cons_ok (g := fun j => releaseEntry (l2.table j)) (releaseEntry_valid hj h.1)).trans
          (ih (s := { s with
            pft := Function.update s.pft ⟨_, h.1⟩ { s.pft ⟨_, h.1⟩ with validBit := false } }) h.2)
      · simp only [List.filterMap_cons, if_neg hj] at h ⊢
        exact (forM_cons_ok (g := fun j => releaseEntry (l2.table j)) (releaseEntry_invalid hj)).trans
          (ih h)
  exact (bind_ok hloop).trans rfl

/-- The row indices `as_destroy` computes. -/
@[irreducible] def AddrSpace.frames (as : AddrSpace) (base : Paddr) : List Nat :=
  as.level2Tables.flatMap fun l2 => l2.frames base

theorem AddrSpace.mem_frames {base : Paddr} :
    n ∈ as.frames base ↔ ∃ (v : Page) (a : Paddr), as.mapped v = some a ∧ frameIndex base a = n := by
  unfold AddrSpace.frames AddrSpace.level2Tables PageTableLevel2.frames
  rw [List.mem_flatMap]
  constructor
  · rintro ⟨l2, hl2, hn⟩
    obtain ⟨i, -, hi⟩ := List.mem_filterMap.mp hl2
    obtain ⟨j, -, hj⟩ := List.mem_filterMap.mp hn
    obtain ⟨v, rfl, rfl⟩ := exists_page i j
    split at hj
    · rename_i hvalid
      refine ⟨v, _, ?_, Option.some.inj hj⟩
      simp [AddrSpace.mapped, AddrSpace.pte?, hi, PageTableEntry.target, hvalid]
    · cases hj
  · rintro ⟨v, a, hmap, rfl⟩
    obtain ⟨e, he, htarget⟩ := Option.bind_eq_some_iff.mp hmap
    obtain ⟨l2, hl2, rfl⟩ := Option.map_eq_some_iff.mp he
    refine ⟨l2, List.mem_filterMap.mpr ⟨_, List.mem_finRange _, hl2⟩,
      List.mem_filterMap.mpr ⟨level2index v, List.mem_finRange _, ?_⟩⟩
    unfold PageTableEntry.target at htarget
    split at htarget
    · rename_i hvalid
      rw [if_pos hvalid, Option.some.inj htarget]
    · cases htarget

theorem asDestroy_eq (has : s.spaces p = some as)
    (h : ∀ n ∈ as.frames s.physicalBaseAddr, n < maxPmSize) :
    ∃ heap, heap.pick = s.heap.pick ∧ asDestroy p s = .ok () { s with
      heap := heap
      pft := freeRowsAt s.pft (as.frames s.physicalBaseAddr)
      spaces := Function.update s.spaces p none } := by
  have hloop : ∃ heap : KHeap, heap.pick = s.heap.pick ∧
      (as.level2Tables.forM releaseTable : Kernel Unit) s = .ok () { s with
        heap := heap, pft := freeRowsAt s.pft (as.frames s.physicalBaseAddr) } := by
    unfold AddrSpace.frames at h ⊢
    generalize as.level2Tables = tables at h ⊢
    clear has
    induction tables generalizing s with
    | nil => exact ⟨s.heap, rfl, by simp only [List.flatMap_nil, freeRowsAt_nil]; rfl⟩
    | cons l2 tables ih =>
      simp only [List.flatMap_cons, List.mem_append] at h ⊢
      have hone := releaseTable_eq (s := s) fun n hn => h n (.inl hn)
      obtain ⟨heap, hpick, heq⟩ := ih (s := { s with
        heap := { s.heap with live := s.heap.live.erase l2.block }
        pft := freeRowsAt s.pft (l2.frames s.physicalBaseAddr) }) fun n hn => h n (.inr hn)
      refine ⟨heap, hpick, (forM_cons_ok hone).trans (heq.trans ?_)⟩
      rw [freeRowsAt_append]
  obtain ⟨heap, hpick, heq⟩ := hloop
  refine ⟨{ heap with live := heap.live.erase p }, hpick, ?_⟩
  generalize as.frames s.physicalBaseAddr = rows at heq ⊢
  unfold asDestroy
  rw [bind_ok (derefSpace_ok has), bind_ok heq]
  rfl

theorem Paged.frames_lt (hs : Paged s) (has : s.spaces p = some as) :
    ∀ n ∈ as.frames s.physicalBaseAddr, n < maxPmSize := by
  intro n hn
  obtain ⟨v, a, hmap, rfl⟩ := AddrSpace.mem_frames.mp hn
  rw [← mapping_of_space has] at hmap
  obtain ⟨i, rfl, -⟩ := hs.agree.forward p v a hmap
  exact hs.frames.frameIndex_rowAddr i ▸ i.isLt

theorem Paged.mem_frames_iff (hs : Paged s) (has : s.spaces p = some as) (i : Fin maxPmSize) :
    i.val ∈ as.frames s.physicalBaseAddr ↔ ∃ v, rowOwner s i = some (p, v) := by
  obtain ⟨hrev, -⟩ := (tablesAgree_iff hs.frames).mp hs.agree
  rw [AddrSpace.mem_frames]
  constructor
  · rintro ⟨v, a, hmap, hindex⟩
    rw [← mapping_of_space has] at hmap
    obtain ⟨j, rfl, hj⟩ := hrev.forward _ a hmap
    obtain rfl : j = i := Fin.ext ((hs.frames.frameIndex_rowAddr j).symm.trans hindex)
    exact ⟨v, hj⟩
  · rintro ⟨v, hi⟩
    have hmap := hrev.backward i _ hi
    rw [mapping_of_space has] at hmap
    exact ⟨v, _, hmap, hs.frames.frameIndex_rowAddr i⟩

/-- The state `as_destroy` leaves, but for the heap. -/
def VmState.destroyed (s : VmState) (p : Ptr) (as : AddrSpace) : VmState :=
  { s with
    pft := freeRowsAt s.pft (as.frames s.physicalBaseAddr)
    spaces := Function.update s.spaces p none }

theorem destroyed_rowAddr (s : VmState) (p : Ptr) (as : AddrSpace) :
    rowAddr (s.destroyed p as) = rowAddr s := by
  funext i
  show (freeRowsAt s.pft (as.frames s.physicalBaseAddr) i).physicalAddr = _
  unfold freeRowsAt
  split <;> rfl

theorem destroyed_mapping (s : VmState) (p : Ptr) (as : AddrSpace) :
    mapping (s.destroyed p as) = fun k => if k.1 = p then none else mapping s k := by
  funext k
  show ((Function.update s.spaces p none) k.1).bind _ = _
  by_cases hk : k.1 = p
  · rw [if_pos hk, hk, Function.update_self]
    rfl
  · rw [if_neg hk, Function.update_of_ne hk]
    rfl

theorem Paged.destroyed_rowOwner (hs : Paged s) (has : s.spaces p = some as) :
    rowOwner (s.destroyed p as) = fun i => (rowOwner s i).filter fun k => !decide (k.1 = p) := by
  funext i
  show (freeRowsAt s.pft (as.frames s.physicalBaseAddr) i).owner = _
  unfold freeRowsAt
  have hiff := hs.mem_frames_iff has i
  by_cases hi : i.val ∈ as.frames s.physicalBaseAddr
  · obtain ⟨v, hv⟩ := hiff.mp hi
    rw [if_pos hi, PageTableEntry.owner_of_invalid rfl, hv]
    exact (Option.filter_some_neg (by simp)).symm
  · rw [if_neg hi]
    show rowOwner s i = _
    cases howner : rowOwner s i with
    | none => rfl
    | some k =>
      have hk : k.1 ≠ p := by
        rintro rfl
        exact hi (hiff.mpr ⟨k.2, howner⟩)
      exact (Option.filter_some_pos (by simpa using hk)).symm

theorem Paged.destroyed (hs : Paged s) (has : s.spaces p = some as) : Paged (s.destroyed p as) := by
  obtain ⟨hrev, howned⟩ := (tablesAgree_iff hs.frames).mp hs.agree
  have hft : FrameTable (s.destroyed p as) :=
    ⟨fun i => (congrFun (destroyed_rowAddr s p as) i).trans (hs.frames.rows i), hs.frames.aligned⟩
  refine ⟨⟨hs.positions.ep, hs.positions.rp, hs.positions.last⟩, hft,
    (tablesAgree_iff hft).mpr ⟨?_, fun i hvalid => ?_⟩, hs.kmalloc⟩
  · rw [destroyed_mapping, destroyed_rowAddr, hs.destroyed_rowOwner has]
    exact hrev.drop fun k => k.1 = p
  · -- a row that is still valid was not freed
    have hnot : i.val ∉ as.frames s.physicalBaseAddr := by
      intro hi
      have : (freeRowsAt s.pft (as.frames s.physicalBaseAddr) i).validBit = true := hvalid
      rw [freeRowsAt, if_pos hi] at this
      cases this
    have hrow : (s.destroyed p as).pft i = s.pft i := by
      show freeRowsAt s.pft (as.frames s.physicalBaseAddr) i = _
      rw [freeRowsAt, if_neg hnot]
    rw [rowOwner, hrow]
    exact howned i (hrow ▸ hvalid)

theorem asDestroy_paged (hs : Paged s) (has : s.spaces p = some as) :
    ∃ t, asDestroy p s = .ok () t ∧ Paged t := by
  obtain ⟨heap, hpick, heq⟩ := asDestroy_eq has (hs.frames_lt has)
  have hd := hs.destroyed has
  exact ⟨_, heq, ⟨hd.positions.ep, hd.positions.rp, hd.positions.last⟩,
    ⟨hd.frames.rows, hd.frames.aligned⟩, ⟨hd.agree.forward, hd.agree.backward⟩, by
      rw [show _ = s.heap.pick from hpick]; exact hs.kmalloc⟩

end Destroy

/-! ## Runs -/

section Runs

variable {s t : VmState}

/-- The steps of demand paging: faults of any type on any address whose pages have swap slots,
context switches, and the destruction of any address space. -/
def Op.PagingStep (t : VmState) : Op → Prop
  | .fault _ va => FaultSwaps t va
  | .activate _ | .destroy _ => True
  | _ => False

theorem Paged.switch (hs : Paged s) (q : Option Ptr) (tlb : Fin numTlb → TlbEntry) :
    Paged { s with curAddrspace := q, tlb := tlb } :=
  ⟨⟨hs.positions.ep, hs.positions.rp, hs.positions.last⟩, ⟨hs.frames.rows, hs.frames.aligned⟩,
    ⟨hs.agree.forward, hs.agree.backward⟩, hs.kmalloc⟩

theorem pagingStep {op : Op} (hs : Paged s) (hop : op.PagingStep s) :
    Paged (leaves (op.exec s)) ∧ ∀ e u, op.exec s = .error e u → FaultStop e := by
  cases op with
  | fault ft va =>
    rcases vmFault_cases ft hs hop with ⟨r, t, ht⟩ | ⟨e, he, ht⟩
    · have hexec : (Op.fault ft va).exec s = .ok () t := bind_ok ht
      exact ⟨by rw [hexec]; exact vmFault_paged hs ht, fun e u h => by rw [hexec] at h; cases h⟩
    · have hexec : (Op.fault ft va).exec s = .error e s.counted := bind_error ht
      exact ⟨by rw [hexec]; exact hs.counted, fun e u h => by rw [hexec] at h; cases h; exact he⟩
  | activate q =>
    have hexec := activate_eq (s := s) q
    exact ⟨by rw [hexec]; exact hs.switch q _, fun e u h => by rw [hexec] at h; cases h⟩
  | destroy p =>
    cases has : s.spaces p with
    | none =>
      have hexec : (Op.destroy p).exec s = .error .badPointer s :=
        bind_error (derefSpace_error has)
      exact ⟨by rw [hexec]; exact hs, fun e u h => by rw [hexec] at h; cases h; exact .inr (.inl rfl)⟩
    | some as =>
      obtain ⟨t, ht, hpaged⟩ := asDestroy_paged hs has
      have hexec : (Op.destroy p).exec s = .ok () t := ht
      exact ⟨by rw [hexec]; exact hpaged, fun e u h => by rw [hexec] at h; cases h⟩
  | _ => exact hop.elim

/-- From a memory system in order, every run of faults, context switches and destructions keeps page
tables and frame table in agreement, so that no two valid entries ever hold one frame; and nothing
stops it but a read-only fault, a dangling current pointer, or an assertion on the regions. -/
theorem tables_agree_in_every_run (hs : Paged s) :
    (∀ u, Visits Op.exec (fun t op => op.PagingStep t) s u → TablesAgree u ∧
      ∀ k k' a, mapping u k = some a → mapping u k' = some a → k = k') ∧
    ∀ t (op : Op) e u, Reach Op.exec (fun t op => op.PagingStep t) s t → op.PagingStep t →
      op.exec t = .error e u → FaultStop e := by
  have hstep (t : VmState) (op : Op) (ht : Paged t) (hop : op.PagingStep t) :
      Paged (leaves (op.exec t)) := (pagingStep ht hop).1
  refine ⟨fun u hu => ?_, fun t op e u ht hop hexec => ?_⟩
  · have hp := hu.invariant hs hstep
    exact ⟨hp.agree, fun k k' a hk hk' => hp.agree.no_sharing hp.frames hk hk'⟩
  · exact (pagingStep (ht.invariant hs hstep) hop).2 e u hexec

theorem Paged.of_empty (hpos : Positions s) (hft : FrameTable s)
    (hfree : ∀ i, (s.pft i).validBit = false) (hmap : ∀ k, mapping s k = none)
    (hkmalloc : ∀ l, (s.heap.pick l).isSome) : Paged s where
  positions := hpos
  frames := hft
  agree.forward A v a h := by rw [hmap] at h; cases h
  agree.backward i h := by rw [hfree] at h; cases h
  kmalloc := hkmalloc

theorem processes_paged (live : List Ptr) : Paged (processes live) := by
  have hpos : Positions (processes live) :=
    ⟨show 0 < maxPmSize by decide, show clockAngle < maxPmSize by decide, show 0 < numTlb by decide⟩
  have hft : FrameTable (processes live) := ⟨fun _ => rfl, show IsPage 0x100000#32 by decide⟩
  refine .of_empty hpos hft (fun _ => rfl) ?_ fun _ => rfl
  rintro ⟨A, v⟩
  show (if A ∈ live then some sampleSpace else none).bind _ = none
  split <;> rfl

/-- The first page the second of two processes faults on. -/
theorem tables_agree_after_first_fault :
    ∃ u, mapping u (2, pageOf 0x10000000#32) = some 0x100000#32 ∧ TablesAgree u ∧
      ∀ k k' a, mapping u k = some a → mapping u k' = some a → k = k' := by
  have hswap : FaultSwaps (processes [1, 2]) 0x10000000#32 := by
    rintro q as hq - - - -
    exact ⟨by decide +kernel, by decide +kernel⟩
  have hstart : Reach Op.exec (fun t op => op.PagingStep t) (processes [1, 2]) _ := .refl
  have hvisit := hstart.visits_next (.fault .read 0x10000000#32) hswap
  have hrun := (tables_agree_in_every_run (processes_paged [1, 2])).1 _ hvisit
  exact ⟨_, by decide +kernel, hrun⟩

end Runs

end Os161.Vm

import Os161.Lib.Paging
import Os161.Lib.Trace
import Os161.Laws.Vm.Fault

/-!
# The page tables and the frame table

Which frame holds which page is recorded twice: in the page table of the page's address space, and
in the frame's row of the frame table. `TablesAgree` says that the two records are of one relation.
It is the reverse map of `Os161.Lib.Paging` between the pages of all address spaces and the rows,
and every stage of a fault is one of the moves of that theory: a victim loses its frame, the frame
is given to the page that faulted. `as_destroy` drops every page of an address space at once.
-/

namespace Os161.Vm

open Os161.Lib

variable {r : PageTableEntry} {k : Ptr × Page}

/-- The frame table as boot means it to be: the rows are consecutive pages, and the global used to
find a row is the address of row 0. -/
structure FrameTable (s : VmState) : Prop where
  rows : ∀ i, (s.pft i).physicalAddr = frameAddr s.physicalBaseAddr i
  aligned : IsPage s.physicalBaseAddr

/-- Every valid entry is recorded by a valid row, and every valid row records a valid entry. -/
structure TablesAgree (s : VmState) : Prop where
  forward : ∀ A (v : Page) a, mapping s (A, v) = some a → ∃ i, (s.pft i).physicalAddr = a ∧
    (s.pft i).validBit = true ∧ (s.pft i).pSpace = some A ∧ (s.pft i).virtualAddr = v
  backward : ∀ i, (s.pft i).validBit = true → ∃ A as, (s.pft i).pSpace = some A ∧
    s.spaces A = some as ∧ as.mapped (s.pft i).virtualAddr = some (s.pft i).physicalAddr

/-- The page a row records, if it is valid. -/
def PageTableEntry.owner (r : PageTableEntry) : Option (Ptr × Page) :=
  if h : r.validBit = true ∧ IsPage r.virtualAddr then r.pSpace.map fun A => (A, ⟨_, h.2⟩) else none

/-- The address of a row. -/
def rowAddr (s : VmState) (i : Fin maxPmSize) : Paddr := (s.pft i).physicalAddr

/-- The page recorded for a row. -/
def rowOwner (s : VmState) (i : Fin maxPmSize) : Option (Ptr × Page) := (s.pft i).owner

theorem PageTableEntry.owner_eq_some {A : Ptr} {v : Page} :
    r.owner = some (A, v) ↔ r.validBit = true ∧ r.pSpace = some A ∧ r.virtualAddr = v := by
  unfold owner
  constructor
  · intro h
    split at h
    · rename_i hr
      obtain ⟨B, hB, heq⟩ := Option.map_eq_some_iff.mp h
      cases heq
      exact ⟨hr.1, hB, rfl⟩
    · cases h
  · rintro ⟨hvalid, hspace, hv⟩
    rw [dif_pos ⟨hvalid, hv ▸ v.2⟩, hspace]
    exact congrArg (fun w => some (A, w)) (Subtype.ext hv)

theorem PageTableEntry.owner_of_invalid (h : r.validBit = false) :
    r.owner = none := by
  unfold owner
  rw [dif_neg (by simp [h])]

section Tables

variable {s : VmState}

theorem FrameTable.rowAddr_injective (h : FrameTable s) : Function.Injective (rowAddr s) := by
  intro i j hij
  unfold rowAddr at hij
  rw [h.rows i, h.rows j] at hij
  apply Fin.ext
  rw [← frameIndex_frameAddr s.physicalBaseAddr i.isLt, hij, frameIndex_frameAddr _ j.isLt]

theorem FrameTable.frameIndex_rowAddr (h : FrameTable s) (i : Fin maxPmSize) :
    frameIndex s.physicalBaseAddr (rowAddr s i) = i := by
  unfold rowAddr
  rw [h.rows i, frameIndex_frameAddr _ i.isLt]

theorem FrameTable.isPage_rowAddr (h : FrameTable s) (i : Fin maxPmSize) : IsPage (rowAddr s i) := by
  have hb := isPage_iff.mp h.aligned
  have hi : i.val < 30 := i.isLt
  unfold rowAddr
  rw [h.rows i, isPage_iff, frameAddr]
  simp only [BitVec.toNat_add, BitVec.toNat_mul, BitVec.toNat_ofNat, pageSize]
  omega

theorem tablesAgree_iff (hft : FrameTable s) :
    TablesAgree s ↔ ReverseMap (mapping s) (rowAddr s) (rowOwner s) ∧
      ∀ i, (s.pft i).validBit = true → (rowOwner s i).isSome := by
  constructor
  · intro h
    have hback (i : Fin maxPmSize) (A : Ptr) (v : Page) (hi : rowOwner s i = some (A, v)) :
        mapping s (A, v) = some (rowAddr s i) := by
      obtain ⟨hvalid, hspace, hv⟩ := PageTableEntry.owner_eq_some.mp hi
      obtain ⟨B, as, hB, has, hmap⟩ := h.backward i hvalid
      obtain rfl : A = B := Option.some.inj (hspace.symm.trans hB)
      rw [mapping_of_space has, ← hv, hmap]
      rfl
    refine ⟨⟨fun k a hk => ?_, fun i k hi => hback i k.1 k.2 hi⟩, fun i hvalid => ?_⟩
    · obtain ⟨i, ha, hvalid, hspace, hv⟩ := h.forward k.1 k.2 a hk
      exact ⟨i, ha, PageTableEntry.owner_eq_some.mpr ⟨hvalid, hspace, hv⟩⟩
    · -- the row found from the entry is this row, so its address field is a page
      obtain ⟨A, as, hA, has, hmap⟩ := h.backward i hvalid
      rw [← AddrSpace.mapped_pageOf, ← mapping_of_space has] at hmap
      obtain ⟨j, ha, -, -, hv⟩ := h.forward A _ _ hmap
      obtain rfl := hft.rowAddr_injective ha
      rw [rowOwner, PageTableEntry.owner_eq_some.mpr ⟨hvalid, hA, hv⟩]
      rfl
  · rintro ⟨h, howned⟩
    refine ⟨fun A v a hmap => ?_, fun i hvalid => ?_⟩
    · obtain ⟨i, ha, hi⟩ := h.forward _ a hmap
      obtain ⟨hvalid, hspace, hv⟩ := PageTableEntry.owner_eq_some.mp hi
      exact ⟨i, ha, hvalid, hspace, hv⟩
    · obtain ⟨⟨A, v⟩, hi⟩ := Option.isSome_iff_exists.mp (howned i hvalid)
      obtain ⟨-, hspace, hv⟩ := PageTableEntry.owner_eq_some.mp hi
      have hmap := h.backward i _ hi
      cases has : s.spaces A with
      | none => simp [mapping, has] at hmap
      | some as =>
        rw [mapping_of_space has] at hmap
        exact ⟨A, as, hspace, has, by rw [hv]; exact hmap⟩

theorem TablesAgree.no_sharing (h : TablesAgree s) (hft : FrameTable s) {k' : Ptr × Page}
    {a : Paddr} (hk : mapping s k = some a) (hk' : mapping s k' = some a) : k = k' :=
  ((tablesAgree_iff hft).mp h).1.injective hft.rowAddr_injective hk hk'

end Tables

/-! ## The stages of a fault -/

section Stages

variable {s t s₁ s₂ : VmState} {p : Ptr} {v : Page} {a : Paddr}
variable {i j : Fin maxPmSize} {e : PageTableEntry}

/-- What stays as it is when only bookkeeping changes. -/
structure SameTables (s t : VmState) : Prop where
  mapping : mapping t = mapping s
  owner : rowOwner t = rowOwner s
  addr : rowAddr t = rowAddr s
  base : t.physicalBaseAddr = s.physicalBaseAddr
  valid : ∀ i, (t.pft i).validBit = (s.pft i).validBit

theorem SameTables.frameTable (h : SameTables s t) (hs : FrameTable s) : FrameTable t where
  rows i := (congrFun h.addr i).trans ((hs.rows i).trans (by rw [h.base]))
  aligned := h.base ▸ hs.aligned

theorem SameTables.tablesAgree (h : SameTables s t) (hft : FrameTable s) (hs : TablesAgree s) :
    TablesAgree t := by
  rw [tablesAgree_iff hft] at hs
  rw [tablesAgree_iff (h.frameTable hft), h.mapping, h.addr, h.owner]
  exact ⟨hs.1, fun i hi => hs.2 i ((h.valid i).symm.trans hi)⟩

/-- The tables agree but for one row, whose frame belongs to no page. -/
structure AgreeBut (s : VmState) (i : Fin maxPmSize) : Prop where
  reverse : ReverseMap (mapping s) (rowAddr s) (Function.update (rowOwner s) i none)
  owned : ∀ j, j ≠ i → (s.pft j).validBit = true → (rowOwner s j).isSome

theorem takeRows_of_ne {pft : Fin maxPmSize → PageTableEntry}
    (h : j ≠ i) : takeRows pft [i] j = pft j := by
  simp [takeRows, h]

theorem validBit_of_head (h : s.freeRows.head? = some i) :
    (s.pft i).validBit = false := by
  have := (List.mem_filter.mp (List.mem_of_head? h)).2
  simpa using this

theorem validBit_of_full (h : s.freeRows = []) (i : Fin maxPmSize) : (s.pft i).validBit = true := by
  have := List.filter_eq_nil_iff.mp h i (List.mem_finRange i)
  simpa using this

/-- Where an allocated frame came from: it was free, or the page in it was written to its swap slot
and dropped. -/
inductive FrameFrom (s t : VmState) (i : Fin maxPmSize) : Prop
  | free (howner : rowOwner s i = none) (hmap : mapping t = mapping s)
      (hfile : t.swapFile = s.swapFile) (htlb : t.tlb = s.tlb)
  | victim (A : Ptr) (w : Page) (e : PageTableEntry) (hfull : s.freeRows = []) (hi : i = s.victim)
      (howner : rowOwner s i = some (A, w))
      (hmap : mapping t = Function.update (mapping s) (A, w) none)
      (hslot : swapSlot s.swapspace w = some e)
      (hfile : t.swapFile = vopWrite s.ram (rowAddr s i) e.offset s.swapFile)
      (htlb : t.tlb = dropPage s.tlb w)

/-- An allocation read at the tables: the frame is that of row `i`, and the other rows and the
memory are as they were. -/
structure AllocView (s t : VmState) (i : Fin maxPmSize) : Prop where
  origin : FrameFrom s t i
  addr : rowAddr t = rowAddr s
  base : t.physicalBaseAddr = s.physicalBaseAddr
  owner : ∀ j, j ≠ i → rowOwner t j = rowOwner s j
  valid : ∀ j, j ≠ i → (t.pft j).validBit = (s.pft j).validBit
  ram : t.ram = s.ram
  swapspace : t.swapspace = s.swapspace
  last : t.lastTlbEntry = s.lastTlbEntry
  cur : t.curAddrspace = s.curAddrspace

theorem Allocated.view (h : Allocated s a t) (hft : FrameTable s) (hs : TablesAgree s) :
    ∃ i, a = rowAddr s i ∧ AllocView s t i := by
  cases h with
  | free i heap out hfirst ha hpick ht =>
    subst ht
    refine ⟨i, ha, .free (PageTableEntry.owner_of_invalid (validBit_of_head hfirst)) rfl rfl rfl,
      ?_, rfl, fun j hj => ?_, fun j hj => ?_, rfl, rfl, rfl, rfl⟩
    · exact funext fun j => takeRows_physicalAddr ..
    · exact congrArg PageTableEntry.owner (takeRows_of_ne hj)
    · exact congrArg PageTableEntry.validBit (takeRows_of_ne hj)
  | replaced heap out j A as as' e ref ep rp cnt hfull ha hpick hevict hep hrp ht =>
    subst ht
    -- the row the index names is the victim's
    obtain rfl : s.victim = j := Fin.ext <| by
      rw [← hft.frameIndex_rowAddr, ← hevict.index, ha]
      rfl
    obtain ⟨-, howned⟩ := (tablesAgree_iff hft).mp hs
    obtain ⟨⟨B, w⟩, howner⟩ := Option.isSome_iff_exists.mp
      (howned s.victim (validBit_of_full hfull s.victim))
    obtain ⟨-, hB, hw⟩ := PageTableEntry.owner_eq_some.mp howner
    obtain rfl : A = B := Option.some.inj (hevict.owner.symm.trans hB)
    have hslot := hevict.slot
    rw [hw] at hslot
    have hmap := hevict.mapping_update
    rw [hw, pageOf_page] at hmap
    have hpage : a &&& pageFrame = rowAddr s s.victim := by
      rw [ha]
      exact hft.isPage_rowAddr s.victim
    exact ⟨s.victim, ha, .victim A w e hfull rfl howner hmap hslot (by rw [hpage]) (by rw [hw]), rfl,
      rfl, fun _ _ => rfl, fun _ _ => rfl, rfl, rfl, rfl, rfl⟩

theorem AllocView.agreeBut (h : AllocView s t i) (hft : FrameTable s)
    (hs : TablesAgree s) : AgreeBut t i := by
  obtain ⟨hrev, howned⟩ := (tablesAgree_iff hft).mp hs
  have howner : Function.update (rowOwner t) i none = Function.update (rowOwner s) i none := by
    funext j
    by_cases hj : j = i
    · rw [hj, Function.update_self, Function.update_self]
    · rw [Function.update_of_ne hj, Function.update_of_ne hj, h.owner j hj]
  refine ⟨?_, fun j hj hvalid => ?_⟩
  · rw [howner, h.addr]
    cases h.origin with
    | free hnone hmap hfile htlb =>
      rw [hmap, ← hnone, Function.update_eq_self]
      exact hrev
    | victim A w e hfull hi hsome hmap hslot hfile htlb =>
      rw [hmap]
      exact hrev.evict hft.rowAddr_injective hsome
  · rw [h.owner j hj]
    exact howned j ((h.valid j hj).symm.trans hvalid)

theorem AllocView.frameTable (h : AllocView s t i) (hs : FrameTable s) :
    FrameTable t where
  rows j := (congrFun h.addr j).trans ((hs.rows j).trans (by rw [h.base]))
  aligned := h.base ▸ hs.aligned

theorem AllocView.mapping_none (h : AllocView s t i)
    (hk : mapping s k = none) : mapping t k = none := by
  cases h.origin with
  | free hnone hmap hfile htlb => rw [hmap, hk]
  | victim A w e hfull hi hsome hmap hslot hfile htlb =>
    rw [hmap]
    by_cases hkw : k = (A, w)
    · rw [hkw, Function.update_self]
    · rw [Function.update_of_ne hkw, hk]

/-- Filling a frame read at the tables: the page has the frame, the row has the page, and the memory
of the frame has the bytes of the page's slot. -/
structure FillView (s t : VmState) (p : Ptr) (v : Page) (i : Fin maxPmSize) (e : PageTableEntry) :
    Prop where
  mapping : mapping t = Function.update (mapping s) (p, v) (some (rowAddr s i))
  addr : rowAddr t = rowAddr s
  base : t.physicalBaseAddr = s.physicalBaseAddr
  owner : rowOwner t = Function.update (rowOwner s) i (some (p, v))
  valid : ∀ j, j ≠ i → (t.pft j).validBit = (s.pft j).validBit
  slot : swapSlot s.swapspace v = some e
  ram : t.ram = vopRead s.swapFile e.offset (rowAddr s i) s.ram
  file : t.swapFile = s.swapFile
  swapspace : t.swapspace = s.swapspace
  tlb : t.tlb = (insertPage s.tlb s.lastTlbEntry v (rowAddr s i)).1
  last : t.lastTlbEntry = (insertPage s.tlb s.lastTlbEntry v (rowAddr s i)).2
  cur : t.curAddrspace = s.curAddrspace

theorem Filled.view {as as' : AddrSpace} {heap : KHeap}
    (h : Filled s t p v (rowAddr s i) s₁ j as as' heap e) (hft : FrameTable s) :
    FillView s t p v i e := by
  -- the index of the row's address is the row
  obtain rfl : i = j := Fin.ext <| by
    rw [← hft.frameIndex_rowAddr, h.entered.index]
  have hpage : rowAddr s i &&& pageFrame = rowAddr s i := hft.isPage_rowAddr i
  have hmap := h.mapping
  rw [h.state, h.entered.state] at hmap ⊢
  refine ⟨hmap, ?_, rfl, ?_, ?_, h.slot, by rw [hpage], rfl, rfl, rfl, rfl, rfl⟩
  · funext j
    show (Function.update s.pft i _ j).physicalAddr = _
    by_cases hj : j = i
    · rw [hj, Function.update_self]
      rfl
    · rw [Function.update_of_ne hj]
      rfl
  · funext j
    show (Function.update s.pft i _ j).owner = _
    by_cases hj : j = i
    · rw [hj, Function.update_self, Function.update_self]
      exact PageTableEntry.owner_eq_some.mpr ⟨rfl, rfl, rfl⟩
    · rw [Function.update_of_ne hj, Function.update_of_ne hj]
      rfl
  · intro j hj
    show (Function.update s.pft i _ j).validBit = _
    rw [Function.update_of_ne hj]

theorem FillView.tablesAgree (h : FillView s t p v i e) (hft : FrameTable s) (hs : AgreeBut s i)
    (hout : Os161.Vm.mapping s (p, v) = none) : FrameTable t ∧ TablesAgree t := by
  have hft' : FrameTable t :=
    ⟨fun j => (congrFun h.addr j).trans ((hft.rows j).trans (by rw [h.base])), h.base ▸ hft.aligned⟩
  refine ⟨hft', (tablesAgree_iff hft').mpr ⟨?_, fun j hvalid => ?_⟩⟩
  · have := hs.reverse.install (f := i) (k := (p, v)) (Function.update_self ..) hout
    rw [Function.update_idem] at this
    rw [h.mapping, h.addr, h.owner]
    exact this
  · rw [h.owner]
    by_cases hj : j = i
    · rw [hj, Function.update_self]
      rfl
    · rw [Function.update_of_ne hj]
      exact hs.owned j hj ((h.valid j hj).symm.trans hvalid)

end Stages

end Os161.Vm

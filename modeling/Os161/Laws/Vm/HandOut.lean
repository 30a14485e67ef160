import Os161.Laws.Vm.Steps
import Os161.Laws.Vm.Contents
import Os161.Vm.Boot

/-!
# What a request for frames is answered with

`virtual_alloc_kpages` takes free rows first and replaces pages for the rest, but every victim's frame goes
to the same position of the list, and a row that was taken a moment ago may be the next victim. So a request
is answered in full when the free rows suffice, or when one victim is enough, it is a row in use, and its
page has a slot in swap.
-/

namespace Os161.Vm

open Os161.Lib

variable {i : Fin maxPmSize} {j x n : Nat} {rows : List (Fin maxPmSize)} {junk : Nat → Paddr} {b : Ptr}

/-- The frame table as the allocator expects it: the rows are consecutive frames from the base on, the hands
of the clock are on it, and every row in use belongs to a live address space whose entry for the page is
valid and holds the frame. -/
structure AllocTable (s : VmState) : Prop where
  base : s.physicalBaseAddr = (s.pft 0).physicalAddr
  rows : ∀ i, (s.pft i).physicalAddr = frameAddr (s.pft 0).physicalAddr i
  ep : s.epHand < maxPmSize
  rp : s.rpHand < maxPmSize
  owned : ∀ i, (s.pft i).validBit = true → ∃ A as e, (s.pft i).pSpace = some A ∧ s.spaces A = some as ∧
    as.pte? (s.pft i).virtualAddr = some e ∧ e.validBit = true ∧ e.physicalAddr = (s.pft i).physicalAddr

/-- The page in row `i` has been put out: its former owner's entry is not valid any more, and the bytes of
the frame are in the page's slot of the swap file. -/
structure PutOut (s t : VmState) (i : Fin maxPmSize) : Prop where
  entry : ∃ A as e, (s.pft i).pSpace = some A ∧ t.spaces A = some as ∧
    as.pte? (s.pft i).virtualAddr = some e ∧ e.validBit = false
  slot : ∃ e, swapSlot s.swapspace (s.pft i).virtualAddr = some e ∧
    filePage t.swapFile e.offset = ramPage s.ram ((s.pft i).physicalAddr &&& pageFrame)

/-- A list of `k` usable frames: distinct, each of a row that was free or whose page has been put out, and
the other rows are unchanged apart from their reference bits. -/
structure Usable (s : VmState) (k : Nat) (pList : Nat → Paddr) (t : VmState) : Prop where
  distinct : ∀ m < k, ∀ n < k, pList m = pList n → m = n
  frames : ∀ n < k, ∃ i, pList n = (s.pft i).physicalAddr ∧
    ((s.pft i).validBit = false ∨ PutOut s t i)
  rest : ∀ i, (∀ n < k, pList n ≠ (s.pft i).physicalAddr) →
    ∃ ref, t.pft i = { s.pft i with refBit := ref }

/-- The state with other contents of fresh heap blocks. -/
def VmState.withJunk (s : VmState) (junk : Ptr → Nat → BitVec 32) : VmState :=
  { s with heap := { s.heap with junk := junk } }

/-- A request for `k` frames is answered in full, whatever the block of the list held before. -/
def HandsOut (s : VmState) (k : Nat) : Prop :=
  ∀ junk, ∃ r t, virtualAllocKpages k (s.withJunk junk) = .ok r t ∧ Usable s k r.2 t

/-- The row the clock gives up once every free row is taken. -/
def VmState.nextVictim (s : VmState) : Fin maxPmSize :=
  { s with pft := takeRows s.pft s.freeRows }.victim

/-- One victim is enough, it was in use, and its page has a slot. -/
structure OneVictim (s : VmState) (k : Nat) : Prop where
  one : k = s.freeRows.length + 1
  inUse : (s.pft s.nextVictim).validBit = true
  slot : (swapSlot s.swapspace (s.pft s.nextVictim).virtualAddr).isSome

variable {s t : VmState} {k : Nat}

theorem mem_freeRows : i ∈ s.freeRows ↔ (s.pft i).validBit = false := by
  simp [VmState.freeRows]

theorem AllocTable.addr_inj (h : AllocTable s) {j : Fin maxPmSize}
    (heq : (s.pft i).physicalAddr = (s.pft j).physicalAddr) : i = j := by
  rw [h.rows i, h.rows j] at heq
  have := congrArg (frameIndex (s.pft 0).physicalAddr) heq
  rw [frameIndex_frameAddr _ i.isLt, frameIndex_frameAddr _ j.isLt] at this
  exact Fin.ext this

theorem AllocTable.index (h : AllocTable s) (i : Fin maxPmSize) :
    frameIndex s.physicalBaseAddr (s.pft i).physicalAddr = i := by
  rw [h.base, h.rows i]
  exact frameIndex_frameAddr _ i.isLt

/-! ## The list -/

theorem placeAt_after (ps : List Paddr) (pList : Nat → Paddr) (h : j + ps.length ≤ x) :
    placeAt pList j ps x = pList x := by
  induction ps generalizing pList j with
  | nil => rfl
  | cons p ps ih =>
    rw [List.length_cons] at h
    rw [placeAt, ih _ (by omega), Function.update_of_ne (by omega)]

theorem placeAt_rows (hn : n < rows.length) :
    placeAt junk 0 (rows.map fun x => (s.pft x).physicalAddr) n = (s.pft rows[n]).physicalAddr := by
  have := placeAt_get (rows.map fun x => (s.pft x).physicalAddr) junk 0 (n := n) (by simpa using hn)
  rw [Nat.zero_add] at this
  simpa using this

theorem of_replaceRows_ok {pList pList' : Nat → Paddr}
    (h : replaceRows j n pList s = .ok pList' t) (hx : x ≠ j) : pList' x = pList x := by
  induction n generalizing s pList with
  | zero =>
    cases h
    rfl
  | succ n ih =>
    obtain ⟨frame, s₁, -, h⟩ := of_bind_ok h
    rw [ih h, Function.update_of_ne hx]

/-! ## Enough free rows -/

theorem freeRows_nodup (s : VmState) : s.freeRows.Nodup := (List.nodup_finRange _).filter _

theorem exists_row_of_lt (junk : Nat → Paddr)
    (hn : n < rows.length) :
    ∃ i ∈ rows, placeAt junk 0 (rows.map fun x => (s.pft x).physicalAddr) n = (s.pft i).physicalAddr :=
  ⟨rows[n], List.getElem_mem hn, placeAt_rows hn⟩

theorem placeAt_rows_inj (h : AllocTable s) (hnodup : rows.Nodup) {m : Nat} (hm : m < rows.length) (hn : n < rows.length)
    (heq : placeAt junk 0 (rows.map fun x => (s.pft x).physicalAddr) m =
      placeAt junk 0 (rows.map fun x => (s.pft x).physicalAddr) n) : m = n := by
  rw [placeAt_rows hm, placeAt_rows hn] at heq
  exact hnodup.getElem_inj_iff.mp (h.addr_inj heq)

theorem notMem_of_ne (junk : Nat → Paddr)
    (hne : ∀ n < rows.length,
      placeAt junk 0 (rows.map fun x => (s.pft x).physicalAddr) n ≠ (s.pft i).physicalAddr) :
    i ∉ rows := by
  intro hi
  obtain ⟨n, hn, rfl⟩ := List.getElem_of_mem hi
  exact hne n hn (placeAt_rows hn)

theorem handsOut_of_room (h : AllocTable s) (hpick : s.heap.pick s.heap.live = some b)
    (hroom : k ≤ s.freeRows.length) : HandsOut s k := by
  intro junk
  have hlen : (s.freeRows.take k).length = k := List.length_take_of_le hroom
  have hnodup : (s.freeRows.take k).Nodup := (freeRows_nodup s).sublist (List.take_sublist ..)
  refine ⟨_, _, virtualAllocKpages_of_room (s := s.withJunk junk) hpick hroom, ?_, ?_, ?_⟩
  · intro m hm n hn heq
    exact placeAt_rows_inj h hnodup (by rwa [hlen]) (by rwa [hlen]) heq
  · intro n hn
    obtain ⟨i, hi, hlist⟩ := exists_row_of_lt (s := s) (junk b)
      (show n < (s.freeRows.take k).length by rwa [hlen])
    exact ⟨i, hlist, .inl (mem_freeRows.mp (List.mem_of_mem_take hi))⟩
  · intro i hne
    have hi : i ∉ s.freeRows.take k := notMem_of_ne (junk b) (by rwa [hlen])
    exact ⟨(s.pft i).refBit, if_neg hi⟩

/-! ## One victim -/

theorem AddrSpace.exists_invalidated {as : AddrSpace} {v : Vaddr} {e : PageTableEntry}
    (h : as.pte? v = some e) :
    ∃ as', as.updatePte? v (fun e => { e with validBit := false }) = some as' ∧
      as'.pte? v = some { e with validBit := false } := by
  obtain ⟨l2, hl2, rfl⟩ := Option.map_eq_some_iff.mp h
  refine ⟨_, by rw [AddrSpace.updatePte?, hl2]; rfl, ?_⟩
  simp [AddrSpace.pte?]

/-- The state in which the replacement loop starts: a block for the list, and every free row taken. -/
def VmState.scanned (s : VmState) (b : Ptr) (junk : Ptr → Nat → BitVec 32) : VmState :=
  { s with
    heap := { s.heap with live := b :: s.heap.live, junk := junk }
    pft := takeRows s.pft s.freeRows }

theorem AllocTable.scanned_row (h : (s.pft s.nextVictim).validBit = true) :
    takeRows s.pft s.freeRows s.nextVictim = s.pft s.nextVictim := by
  refine if_neg ?_
  rw [mem_freeRows, h]
  simp

theorem evictFrame_scanned (h : AllocTable s) (b : Ptr) (junk : Ptr → Nat → BitVec 32)
    (hv : OneVictim s k) :
    ∃ t ref, evictFrame (s.scanned b junk) = .ok (s.pft s.nextVictim).physicalAddr t ∧
      t.pft = withRefs (takeRows s.pft s.freeRows) ref ∧ PutOut s t s.nextVictim := by
  obtain ⟨A, as, e, hA, has, hpte, -, -⟩ := h.owned _ hv.inUse
  obtain ⟨slot, hslot⟩ := Option.isSome_iff_exists.mp hv.slot
  obtain ⟨as', hinv, hpte'⟩ := AddrSpace.exists_invalidated hpte
  have hrow := AllocTable.scanned_row hv.inUse
  have haddr : ((s.scanned b junk).pft (s.scanned b junk).victim).physicalAddr =
      (s.pft s.nextVictim).physicalAddr := congrArg PageTableEntry.physicalAddr hrow
  have hev : Evictable (s.scanned b junk) ((s.scanned b junk).pft (s.scanned b junk).victim).physicalAddr
      s.nextVictim A as as' slot := by
    rw [haddr]
    refine ⟨h.index _, ?_, has, ?_, ?_⟩
    · rw [← hA]
      exact congrArg PageTableEntry.pSpace hrow
    · rw [← hinv]
      exact congrArg (fun r : PageTableEntry => as.updatePte? r.virtualAddr _) hrow
    · rw [← hslot]
      exact congrArg (fun r : PageTableEntry => swapSlot s.swapspace r.virtualAddr) hrow
  obtain ⟨ref, ep, rp, cnt, -, -, hevict⟩ := evictFrame_eq (s := s.scanned b junk) h.ep h.rp hev
  rw [haddr] at hevict
  refine ⟨_, ref, hevict, rfl, ⟨A, as', _, hA, Function.update_self .., hpte', rfl⟩, slot, hslot, ?_⟩
  exact filePage_vopWrite_self

theorem handsOut_of_oneVictim (h : AllocTable s) (hpick : s.heap.pick s.heap.live = some b)
    (hv : OneVictim s k) : HandsOut s k := by
  intro junk
  obtain ⟨t, ref, hevict, hpft, hout⟩ := evictFrame_scanned h b junk hv
  let list := placeAt (junk b) 0 (s.freeRows.map fun x => (s.pft x).physicalAddr)
  -- The scan takes the free rows, and the one frame that is missing is the victim's.
  have hfill : fillList k b { s with heap := { s.heap with live := b :: s.heap.live, junk := junk } } =
      .ok (Function.update list s.freeRows.length (s.pft s.nextVictim).physicalAddr) t := by
    refine (fillList_of_full b (by show s.freeRows.length < k; rw [hv.one]; omega)).trans ?_
    show replaceRows s.freeRows.length (k - s.freeRows.length) list (s.scanned b junk) = _
    rw [show k - s.freeRows.length = 1 by rw [hv.one]; omega]
    exact bind_ok hevict
  have hk := hv.one
  have hnot : s.nextVictim ∉ s.freeRows := by
    rw [mem_freeRows, hv.inUse]
    simp
  have hbefore : ∀ n < k, n ≠ s.freeRows.length → n < s.freeRows.length := by
    intro n hn hne
    omega
  have hne : ∀ n < s.freeRows.length, list n ≠ (s.pft s.nextVictim).physicalAddr := by
    intro n hn heq
    obtain ⟨i, hi, hlist⟩ := exists_row_of_lt (s := s) (junk b) hn
    exact hnot (h.addr_inj (hlist.symm.trans heq) ▸ hi)
  refine ⟨_, _, (virtualAllocKpages_some (s := s.withJunk junk) k hpick).trans (bind_ok hfill),
    ?_, ?_, ?_⟩
  · intro m hm n hn heq
    by_cases hml : m = s.freeRows.length <;> by_cases hnl : n = s.freeRows.length
    · rw [hml, hnl]
    · subst hml
      simp only [Function.update_self, Function.update_of_ne hnl] at heq
      exact absurd heq.symm (hne n (hbefore n hn hnl))
    · subst hnl
      simp only [Function.update_self, Function.update_of_ne hml] at heq
      exact absurd heq (hne m (hbefore m hm hml))
    · simp only [Function.update_of_ne hml, Function.update_of_ne hnl] at heq
      exact placeAt_rows_inj h (freeRows_nodup s) (hbefore m hm hml) (hbefore n hn hnl) heq
  · intro n hn
    by_cases hnl : n = s.freeRows.length
    · subst hnl
      exact ⟨s.nextVictim, Function.update_self .., .inr ⟨hout.entry, hout.slot⟩⟩
    · obtain ⟨i, hi, hlist⟩ := exists_row_of_lt (s := s) (junk b) (hbefore n hn hnl)
      exact ⟨i, (Function.update_of_ne hnl ..).trans hlist, .inl (mem_freeRows.mp hi)⟩
  · intro i hrest
    have hi : i ∉ s.freeRows := by
      refine notMem_of_ne (s := s) (junk b) fun n hn heq => hrest n (by omega) ?_
      exact (Function.update_of_ne (Nat.ne_of_lt hn) ..).trans heq
    refine ⟨ref i, ?_⟩
    show t.pft i = _
    rw [hpft, withRefs, takeRows, if_neg hi]

/-! ## What a request that is answered in full needs -/

theorem AllocTable.exists_no_frame (h : AllocTable s) : ∃ a, ∀ i, (s.pft i).physicalAddr ≠ a := by
  refine ⟨(s.pft 0).physicalAddr + 1#32, fun i heq => ?_⟩
  rw [h.rows i] at heq
  have hone := congrArg BitVec.toNat ((BitVec.add_right_inj _).mp heq)
  have hi : i.val < 30 := i.isLt
  simp only [pageSize, BitVec.toNat_mul, BitVec.toNat_ofNat] at hone
  omega

@[simp] theorem takeRows_virtualAddr (pft : Fin maxPmSize → PageTableEntry)
    (rows : List (Fin maxPmSize)) (i : Fin maxPmSize) :
    (takeRows pft rows i).virtualAddr = (pft i).virtualAddr := by
  unfold takeRows
  split <;> rfl

theorem HandsOut.needs (h : AllocTable s) (hout : HandsOut s k) (hk : k ≠ 0) :
    (s.heap.pick s.heap.live).isSome ∧ (k ≤ s.freeRows.length ∨ OneVictim s k) := by
  obtain ⟨a, ha⟩ := h.exists_no_frame
  obtain ⟨r, t, hcall, husable⟩ := hout fun _ _ => a
  cases hpick : s.heap.pick s.heap.live with
  | none =>
    have hnull : virtualAllocKpages k (s.withJunk fun _ _ => a) = _ :=
      bind_ok (kmalloc_none (s := s.withJunk fun _ _ => a) hpick)
    simp only [hk, if_false] at hnull
    cases hnull.symm.trans hcall
  | some b =>
    refine ⟨rfl, ?_⟩
    by_cases hroom : k ≤ s.freeRows.length
    · exact .inl hroom
    right
    rw [virtualAllocKpages_some (s := s.withJunk fun _ _ => a) k hpick] at hcall
    obtain ⟨list, t₁, hfill, hcall⟩ := of_bind_ok hcall
    cases hcall
    have hfill : replaceRows s.freeRows.length (k - s.freeRows.length)
        (placeAt (fun _ => a) 0 (s.freeRows.map fun x => (s.pft x).physicalAddr))
        (s.scanned b fun _ _ => a) = .ok list t₁ := (fillList_of_full b (by show s.freeRows.length < k; omega)).symm.trans hfill
    have hone : k = s.freeRows.length + 1 := by
      by_contra hmore
      obtain ⟨i, hi, -⟩ := husable.frames (s.freeRows.length + 1) (by omega)
      -- The second victim's frame is not in the list, and what is there is no frame.
      have hjunk : list (s.freeRows.length + 1) = a := by
        rw [of_replaceRows_ok hfill (by omega), placeAt_after _ _ (by simp)]
      exact ha i (hi.symm.trans hjunk)
    rw [hone, Nat.add_sub_cancel_left] at hfill
    obtain ⟨frame, t₂, hevict, hfill⟩ := of_bind_ok hfill
    cases hfill
    obtain ⟨hframe, j, A, as, as', e, hev⟩ :=
      of_evictFrame_ok (s := s.scanned b fun _ _ => a) h.ep h.rp hevict
    have haddr : frame = (s.pft s.nextVictim).physicalAddr :=
      hframe.trans (takeRows_physicalAddr s.pft s.freeRows s.nextVictim)
    have hj : j = s.nextVictim := by
      have hindex := hev.index
      rw [haddr] at hindex
      exact Fin.ext (hindex.symm.trans (h.index _))
    refine ⟨hone, ?_, ?_⟩
    · by_contra hfree
      obtain ⟨m, hm, hmem⟩ := List.getElem_of_mem
        (mem_freeRows.mpr (Bool.eq_false_iff.mpr hfree) : s.nextVictim ∈ s.freeRows)
      have hsame := husable.distinct m (by omega) s.freeRows.length (by omega) <| by
        simp only [Function.update_self, Function.update_of_ne (Nat.ne_of_lt hm)]
        rw [haddr, ← hmem]
        exact placeAt_rows (s := s) hm
      omega
    · have hslot := hev.slot
      rw [hj] at hslot
      have : swapSlot s.swapspace (s.pft s.nextVictim).virtualAddr = some e := by
        rw [← takeRows_virtualAddr s.pft s.freeRows]
        exact hslot
      rw [this]
      rfl

/-- `virtual_alloc_kpages` answers a request for `k` frames in full exactly when there is nothing to do, or
it gets a block for the list and the free rows suffice or one victim that was in use is enough. -/
theorem frames_handed_out_iff (h : AllocTable s) (k : Nat) :
    HandsOut s k ↔ k = 0 ∨ (s.heap.pick s.heap.live).isSome ∧
      (k ≤ s.freeRows.length ∨ OneVictim s k) := by
  constructor
  · intro hout
    by_cases hk : k = 0
    · exact .inl hk
    · exact .inr (hout.needs h hk)
  · rintro (rfl | ⟨hpick, hcase⟩)
    · cases hpick : s.heap.pick s.heap.live with
      | none =>
        intro junk
        exact ⟨_, _, bind_ok (kmalloc_none (s := s.withJunk junk) hpick), nofun, nofun,
          fun i _ => ⟨_, rfl⟩⟩
      | some b => exact handsOut_of_room h hpick (Nat.zero_le _)
    · obtain ⟨b, hb⟩ := Option.isSome_iff_exists.mp hpick
      rcases hcase with hroom | hv
      · exact handsOut_of_room h hb hroom
      · exact handsOut_of_oneVictim h hb hv

/-! ## A table without a free row -/

/-- An address space that has a page in each frame: page `j` in the frame of row `j`. -/
def fullSpace : AddrSpace :=
  { sampleSpace with
    table := fun _ => some ⟨0, fun j =>
      { virtualAddr := BitVec.ofNat 32 (j * 4096), physicalAddr := frameAddr 0x100000#32 j, validBit := true
        dirtyBit := false, refBit := false, pid := 0, counter := 0, pSpace := none }⟩ }

/-- Every row is in use by that address space, and every page of it has a slot in swap. -/
def fullTable : VmState :=
  { coldStart with
    spaces := fun p => if p = 1 then some fullSpace else none
    pft := fun i =>
      { bootRow 0x100000#32 (coldStart.pft i) i with
        validBit := true, virtualAddr := BitVec.ofNat 32 (i * 4096), pSpace := some 1 }
    physicalBaseAddr := 0x100000#32
    rpHand := clockAngle
    swapspace := enteredSlots ((List.range maxPmSize).map fun i => BitVec.ofNat 32 (i * 4096)) }

theorem fullTable_ok : AllocTable fullTable where
  base := by decide
  rows i := rfl
  ep := by decide
  rp := by decide
  owned i _ := by
    have hindex : (level2index (BitVec.ofNat 32 (i * 4096))).val = i := by
      revert i
      decide
    refine ⟨1, fullSpace, _, rfl, rfl, rfl, rfl, ?_⟩
    show frameAddr 0x100000#32 (level2index (BitVec.ofNat 32 (i * 4096))).val = frameAddr 0x100000#32 i
    rw [hindex]

theorem freeRows_fullTable : fullTable.freeRows = [] := by decide

/-- One frame of the full table. -/
theorem one_frame_of_full_table : AllocTable fullTable ∧ HandsOut fullTable 1 := by
  refine ⟨fullTable_ok, (frames_handed_out_iff fullTable_ok 1).mpr (.inr ⟨by decide, .inr ?_⟩)⟩
  exact ⟨by rw [freeRows_fullTable]; rfl, rfl, by decide +kernel⟩

/-- Two frames of the full table are not handed out: the list has room for both, and the second position is
never written. -/
theorem two_frames_of_full_table_fail : AllocTable fullTable ∧ ¬ HandsOut fullTable 2 := by
  refine ⟨fullTable_ok, fun hout => ?_⟩
  rcases (hout.needs fullTable_ok (by decide)).2 with hroom | hv
  · rw [freeRows_fullTable] at hroom
    exact absurd hroom (by decide)
  · have := hv.one
    rw [freeRows_fullTable] at this
    exact absurd this (by decide)

end Os161.Vm

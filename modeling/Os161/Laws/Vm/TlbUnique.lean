import Os161.Lib.Trace
import Os161.Vm.Boot
import Os161.Laws.Vm.Closed

/-!
# The TLB never holds a virtual page twice

`tlb.h` forbids two slots with the same virtual page field, valid or not. `insert_tlb_entry` keeps
to that by probing first; an invalidated slot keeps to it because slot `i` is given an address of
its own, outside user space. What ties the two together is that the address reserved for slot `i`
is never found in another slot.
-/

namespace Os161.Vm

open Os161.Lib

variable {i k : Nat} {v : Vaddr}

/-! ## Pages -/

theorem tlbhiInvalid_toNat (h : i < numTlb) :
    (tlbhiInvalid i).toNat = 0x80000000 + i * 4096 := by
  have : i < 64 := h
  simp only [tlbhiInvalid, BitVec.toNat_shiftLeft, BitVec.toNat_ofNat, Nat.shiftLeft_eq]
  omega

theorem tlbhiInvalid_inj (hi : i < numTlb) (hk : k < numTlb)
    (h : tlbhiInvalid i = tlbhiInvalid k) : i = k := by
  have := congrArg BitVec.toNat h
  rw [tlbhiInvalid_toNat hi, tlbhiInvalid_toNat hk] at this
  omega

theorem tlbhiInvalid_page : ∀ i : Fin numTlb, tlbhiInvalid i &&& tlbhiVpage = tlbhiInvalid i := by
  decide

theorem user_ne_tlbhiInvalid (hv : v < userspaceTop) (hk : k < numTlb) :
    v ≠ tlbhiInvalid k := by
  intro h
  have hlt := BitVec.lt_def.mp hv
  rw [h, tlbhiInvalid_toNat hk] at hlt
  simp only [userspaceTop, BitVec.toNat_ofNat] at hlt
  omega

/-! ## Probing -/

variable {tlb : Fin numTlb → TlbEntry} {hi : BitVec 32}

theorem tlbMatch_some {i : Fin numTlb} (h : tlbMatch tlb hi = some i) :
    (tlb i).vpage = hi &&& tlbhiVpage := by
  simpa using List.find?_some h

theorem tlbMatch_none (h : tlbMatch tlb hi = none) (i : Fin numTlb) :
    (tlb i).vpage ≠ hi &&& tlbhiVpage := by
  simpa using List.find?_eq_none.mp h i (List.mem_finRange i)

/-! ## The invariant -/

/-- The round-robin position is a slot, no page is held twice, and the address reserved for a slot
is in no other slot. -/
structure TlbUnique (s : VmState) : Prop where
  last : s.lastTlbEntry < numTlb
  distinct : ∀ i j, (s.tlb i).vpage = (s.tlb j).vpage → i = j
  reserved : ∀ i k : Fin numTlb, (s.tlb i).vpage = tlbhiInvalid k → i = k

namespace TlbUnique

variable {s : VmState} {E : Fault → Prop}

theorem write (h : TlbUnique s) {i : Fin numTlb} {e : TlbEntry}
    (hother : ∀ j, j ≠ i → (s.tlb j).vpage ≠ e.vpage)
    (hres : ∀ k : Fin numTlb, e.vpage = tlbhiInvalid k → i = k) :
    TlbUnique { s with tlb := Function.update s.tlb i e } where
  last := h.last
  distinct a b hab := by
    by_cases ha : a = i <;> by_cases hb : b = i
    · rw [ha, hb]
    · simp only [ha, Function.update_self, Function.update_of_ne hb] at hab
      exact absurd hab.symm (hother b hb)
    · simp only [hb, Function.update_self, Function.update_of_ne ha] at hab
      exact absurd hab (hother a ha)
    · simp only [Function.update_of_ne ha, Function.update_of_ne hb] at hab
      exact h.distinct a b hab
  reserved a k hak := by
    by_cases ha : a = i
    · simp only [ha, Function.update_self] at hak
      exact ha.trans (hres k hak)
    · simp only [Function.update_of_ne ha] at hak
      exact h.reserved a k hak

theorem tlbWrite_invalid_safe (hi : i < numTlb) :
    Safe TlbUnique E (tlbWrite (tlbhiInvalid i) tlbloInvalid i) := by
  unfold tlbWrite
  rw [dif_pos hi]
  have hpage : TlbEntry.vpage ⟨tlbhiInvalid i, tlbloInvalid⟩ = tlbhiInvalid i :=
    tlbhiInvalid_page ⟨i, hi⟩
  refine Safe.modify fun t ht => ht.write ?_ ?_
  · intro j hj heq
    exact hj (ht.reserved j ⟨i, hi⟩ (heq.trans hpage))
  · intro k hk
    exact Fin.ext (tlbhiInvalid_inj hi k.isLt (hpage.symm.trans hk))

theorem tlbInvalidate_safe (v : Vaddr) : Safe TlbUnique E (tlbInvalidate v) := by
  refine Safe.bind Safe.get fun s => ?_
  unfold tlbProbe
  cases tlbMatch s.tlb v with
  | none => exact Safe.pure _
  | some i => exact Safe.ite (fun _ => tlbWrite_invalid_safe i.isLt) fun _ => Safe.pure _

theorem asActivate_safe : Safe TlbUnique E asActivate :=
  Safe.forM _ fun _ hi => tlbWrite_invalid_safe (List.mem_range.mp hi)

theorem insertTlbEntry_safe (p : Paddr) (hv : v &&& tlbhiVpage < userspaceTop) :
    Safe TlbUnique E (insertTlbEntry v p) := by
  refine Safe.get_bind fun s hs => ?_
  unfold tlbProbe
  cases hm : tlbMatch s.tlb v with
  | some i =>
    rw [if_pos (by simp)]
    exact Triple.pure fun t ht => ht ▸ hs
  | none =>
    rw [if_neg (by simp)]
    unfold tlbWrite
    rw [dif_pos hs.last]
    intro t ht
    subst ht
    have hnext : TlbUnique { t with lastTlbEntry := (t.lastTlbEntry + 1) % numTlb } :=
      ⟨Nat.mod_lt _ (by decide), hs.distinct, hs.reserved⟩
    exact hnext.write (fun j _ => tlbMatch_none hm j) fun k hk =>
      absurd hk (user_ne_tlbhiInvalid hv k.isLt)

end TlbUnique

/-! ## Every operation -/

/-- The faults that are not a write past the last slot. -/
def InsideTlb (e : Fault) : Prop := e ≠ .tlbIndex

theorem tlbUnique_closed : Closed TlbUnique InsideTlb (fun v => v &&& tlbhiVpage < userspaceTop) (fun _ => True)
      fun _ => True where
  counters _ _ _ _ _ _ h := ⟨h.last, h.distinct, h.reserved⟩
  alloc _ _ h _ := ⟨trivial, h.last, h.distinct, h.reserved⟩
  free _ _ h _ := ⟨h.last, h.distinct, h.reserved⟩
  tables _ _ _ _ h _ _ := ⟨h.last, h.distinct, h.reserved⟩
  row _ _ _ h _ := ⟨h.last, h.distinct, h.reserved⟩
  enter _ _ _ h _ _ := ⟨h.last, h.distinct, h.reserved⟩
  memory _ _ _ h := ⟨h.last, h.distinct, h.reserved⟩
  insertTlb _ p hv := TlbUnique.insertTlbEntry_safe p hv
  invalidateTlb v := TlbUnique.tlbInvalidate_safe v
  badPointer := by simp [InsideTlb]
  outOfBounds := by simp [InsideTlb]
  readonlyFault := by simp [InsideTlb]
  livelock := by simp [InsideTlb]
  assertion _ _ _ := by simp [InsideTlb]
  regions := .inl fun _ _ => by simp [InsideTlb]

/-- The faults of a run are taken on user addresses. A user access checks that itself. -/
def Op.FaultsBelowTop : Op → Prop
  | .fault _ va => va < userspaceTop
  | _ => True

theorem page_lt_top {va : Vaddr} (h : va < userspaceTop) :
    (va &&& pageFrame) &&& tlbhiVpage < userspaceTop := by
  rw [BitVec.lt_def] at h ⊢
  simp only [BitVec.toNat_and]
  exact Nat.lt_of_le_of_lt (Nat.and_le_left.trans Nat.and_le_left) h

theorem exec_tlbUnique {op : Op} (hop : op.FaultsBelowTop) :
    Safe TlbUnique InsideTlb op.exec := by
  have hC := tlbUnique_closed
  have hsp (s : VmState) (f : Ptr → Option AddrSpace) (h : TlbUnique s) :
      TlbUnique { s with spaces := f } := ⟨h.last, h.distinct, h.reserved⟩
  have hsw (s : VmState) (l : List PageTableEntry) (h : TlbUnique s) :
      TlbUnique { s with swapspace := l } := ⟨h.last, h.distinct, h.reserved⟩
  have hout (s : VmState) (ps : List Paddr) (h : TlbUnique s) :
      TlbUnique { s with handedOut := ps } := ⟨h.last, h.distinct, h.reserved⟩
  have halloc := hC.allocOk hout fun _ => trivial
  cases op with
  | create => exact Safe.bind (hC.asCreate_safe hsp) fun _ => Safe.pure _
  | defineRegion p v sz => exact Safe.bind (hC.asDefineRegion_safe (fun s _ => hsp s _) v sz) fun _ => Safe.pure _
  | prepareLoad p =>
    exact Safe.bind (hC.asPrepareLoad_safe hout (fun _ => trivial) p) fun _ => Safe.pure _
  | swapLoad p => exact hC.swapspaceLoadAs_safe hsw (by simp [InsideTlb]) p
  | activate p =>
    exact Safe.bind (Safe.modify fun _ h => ⟨h.last, h.distinct, h.reserved⟩) fun _ =>
      TlbUnique.asActivate_safe
  | fault ft va => exact Safe.bind (hC.vmFault_safe halloc ft (page_lt_top hop)) fun _ => Safe.pure _
  | load va => exact Safe.bind (hC.userLoad_safe halloc va page_lt_top) fun _ => Safe.pure _
  | store va b => exact hC.userStore_safe halloc va b page_lt_top
  | destroy p => exact hC.asDestroy_safe (fun s => hsp s _) fun _ => trivial

/-- From a TLB of distinct pages, none of them a reserved one, every run on user addresses keeps
the pages distinct, in the states it stops in too, and no write is past the last slot. -/
theorem tlb_pages_distinct_in_every_run {s : VmState} (hlast : s.lastTlbEntry < numTlb)
    (hdistinct : ∀ i j, (s.tlb i).vpage = (s.tlb j).vpage → i = j)
    (hreset : ∀ i k : Fin numTlb, (s.tlb i).vpage ≠ tlbhiInvalid k) :
    (∀ u, Visits Op.exec (fun _ op => op.FaultsBelowTop) s u →
      ∀ i j, (u.tlb i).vpage = (u.tlb j).vpage → i = j) ∧
    ∀ t (op : Op) e u, Reach Op.exec (fun _ op => op.FaultsBelowTop) s t → op.FaultsBelowTop →
      op.exec t = .error e u → e ≠ .tlbIndex := by
  have hinit : TlbUnique s := ⟨hlast, hdistinct, fun i k h => absurd h (hreset i k)⟩
  have hstep (t : VmState) (op : Op) (ht : TlbUnique t) (hop : op.FaultsBelowTop) :
      TlbUnique (leaves (op.exec t)) := (exec_tlbUnique hop).leaves ht
  refine ⟨fun u hu => (hu.invariant hinit hstep).distinct, ?_⟩
  intro t op e u ht hop hexec
  exact (exec_tlbUnique hop).fault (ht.invariant hinit hstep) hexec

theorem resetTlb_vpage_toNat (i : Fin numTlb) :
    (resetTlb i).vpage.toNat = 0x81000000 + i.val * 4096 := by
  revert i
  decide

/-- The TLB `tlb_reset` leaves is such a start. -/
theorem tlb_pages_distinct_from_coldStart : (∀ u, Visits Op.exec (fun _ op => op.FaultsBelowTop) coldStart u →
      ∀ i j, (u.tlb i).vpage = (u.tlb j).vpage → i = j) ∧
    ∀ t (op : Op) e u, Reach Op.exec (fun _ op => op.FaultsBelowTop) coldStart t →
      op.FaultsBelowTop → op.exec t = .error e u → e ≠ .tlbIndex := by
  refine tlb_pages_distinct_in_every_run (by decide) ?_ ?_
  · intro i j h
    have := congrArg BitVec.toNat h
    rw [show (coldStart.tlb i).vpage.toNat = _ from resetTlb_vpage_toNat i,
      show (coldStart.tlb j).vpage.toNat = _ from resetTlb_vpage_toNat j] at this
    exact Fin.ext (by omega)
  · intro i k h
    have := congrArg BitVec.toNat h
    rw [show (coldStart.tlb i).vpage.toNat = _ from resetTlb_vpage_toNat i,
      tlbhiInvalid_toNat k.isLt] at this
    have : k.val < 64 := k.isLt
    omega

end Os161.Vm

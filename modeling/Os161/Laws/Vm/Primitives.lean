import Os161.Vm.Addrspace

/-!
# The primitive steps, run

One equation for each way a primitive of the model can go, so that later proofs run a function step
by step and never unfold a primitive.
-/

namespace Os161.Vm

open Os161.Lib

variable {s : VmState}
variable {p : Ptr} {as : AddrSpace} {i : Nat} {t : VmState} {f : AddrSpace → Option AddrSpace} {v : Vaddr}
  {e : PageTableEntry}

theorem kmalloc_none (h : s.heap.pick s.heap.live = none) : kmalloc s = .ok none s := by
  unfold kmalloc
  rw [bind_ok (get_apply s), h]
  rfl

theorem kmalloc_some {b : Ptr} (h : s.heap.pick s.heap.live = some b) :
    kmalloc s = .ok (some b) { s with heap := { s.heap with live := b :: s.heap.live } } := by
  unfold kmalloc
  rw [bind_ok (get_apply s), h]
  rfl

theorem derefSpace_ok (h : s.spaces p = some as) :
    derefSpace (some p) s = .ok as s := by
  unfold derefSpace
  rw [bind_ok (get_apply s), Option.bind_some, h]
  rfl

theorem derefSpace_error (h : s.spaces p = none) :
    derefSpace (some p) s = .error .badPointer s := by
  unfold derefSpace
  rw [bind_ok (get_apply s), Option.bind_some, h]
  rfl

theorem rowAt_ok (h : i < maxPmSize) : rowAt i s = .ok (s.pft ⟨i, h⟩) s := by
  unfold rowAt
  rw [bind_ok (get_apply s), dif_pos h]
  rfl

theorem rowAt_error (h : ¬ i < maxPmSize) : rowAt i s = .error .outOfBounds s := by
  unfold rowAt
  rw [bind_ok (get_apply s), dif_neg h]
  rfl

theorem of_rowAt_ok {r : PageTableEntry} (h : rowAt i s = .ok r t) :
    ∃ hi : i < maxPmSize, r = s.pft ⟨i, hi⟩ ∧ t = s := by
  by_cases hi : i < maxPmSize
  · rw [rowAt_ok hi] at h
    cases h
    exact ⟨hi, rfl, rfl⟩
  · rw [rowAt_error hi] at h
    cases h

theorem updateRow_ok (h : i < maxPmSize) (f : PageTableEntry → PageTableEntry) :
    updateRow i f s =
      .ok () { s with pft := Function.update s.pft ⟨i, h⟩ (f (s.pft ⟨i, h⟩)) } := by
  unfold updateRow
  rw [dif_pos h]
  rfl

theorem updateRow_error (h : ¬ i < maxPmSize) (f : PageTableEntry → PageTableEntry) :
    updateRow i f s = .error .outOfBounds s := by
  unfold updateRow
  rw [dif_neg h]
  rfl

theorem updateSpace_ok {as' : AddrSpace}
    (h : s.spaces p = some as) (hf : f as = some as') :
    updateSpace (some p) f s =
      .ok () { s with spaces := Function.update s.spaces p (some as') } := by
  unfold updateSpace
  rw [bind_ok (get_apply s)]
  simp only [h, Option.bind_some, hf]
  rfl

theorem of_updateRow_ok {f : PageTableEntry → PageTableEntry}
    (h : updateRow i f s = .ok () t) :
    ∃ hi : i < maxPmSize, t = { s with pft := Function.update s.pft ⟨i, hi⟩ (f (s.pft ⟨i, hi⟩)) } := by
  by_cases hi : i < maxPmSize
  · rw [updateRow_ok hi] at h
    cases h
    exact ⟨hi, rfl⟩
  · rw [updateRow_error hi] at h
    cases h

theorem of_derefSpace_ok (h : derefSpace (some p) s = .ok as t) : s.spaces p = some as ∧ t = s := by
  cases has : s.spaces p with
  | none => rw [derefSpace_error has] at h; cases h
  | some as' => rw [derefSpace_ok has] at h; cases h; exact ⟨rfl, rfl⟩

theorem of_kmalloc_ok {b : Option Ptr} (h : kmalloc s = .ok b t) :
    b = s.heap.pick s.heap.live ∧ ∃ heap, heap.pick = s.heap.pick ∧ t = { s with heap := heap } := by
  cases hb : s.heap.pick s.heap.live with
  | none => rw [kmalloc_none hb] at h; cases h; exact ⟨rfl, s.heap, rfl, rfl⟩
  | some b =>
    rw [kmalloc_some hb] at h
    cases h
    exact ⟨rfl, { s.heap with live := b :: s.heap.live }, rfl, rfl⟩

/-- An address space with no regions and no pages, as `as_create` leaves it. -/
structure AddrSpace.IsNew (as : AddrSpace) : Prop where
  vbase1 : as.vbase1 = 0#32
  npages1 : as.npages1 = 0#32
  vbase2 : as.vbase2 = 0#32
  npages2 : as.npages2 = 0#32
  table : ∀ i, as.table i = none

theorem asCreate_cases (s : VmState) :
    (s.heap.pick s.heap.live = none ∧ asCreate s = .ok none { s with numVmFaults := 0 }) ∨
    ∃ q as, s.heap.pick s.heap.live = some q ∧ as.IsNew ∧ asCreate s = .ok (some q) { s with
      numVmFaults := 0
      heap := { s.heap with live := q :: s.heap.live }
      spaces := Function.update s.spaces q (some as) } := by
  unfold asCreate
  rw [bind_ok (modify_apply _ s)]
  cases hpick : s.heap.pick s.heap.live with
  | none => exact .inl ⟨rfl, bind_ok (kmalloc_none (s := { s with numVmFaults := 0 }) hpick)⟩
  | some q =>
    refine .inr ⟨q, _, rfl, ?_, bind_ok (kmalloc_some (s := { s with numVmFaults := 0 }) hpick)⟩
    exact ⟨rfl, rfl, rfl, rfl, fun _ => rfl⟩

theorem swapOut_ok (h : swapSlot s.swapspace v = some e)
    (p : Paddr) :
    swapOut v p s =
      .ok () { s with swapFile := vopWrite s.ram (p &&& pageFrame) e.offset s.swapFile } := by
  unfold swapOut
  rw [bind_ok (get_apply s), h]
  rfl

theorem of_swapOut_ok {p : Paddr} (h : swapOut v p s = .ok () t) :
    ∃ e, swapSlot s.swapspace v = some e ∧
      t = { s with swapFile := vopWrite s.ram (p &&& pageFrame) e.offset s.swapFile } := by
  cases he : swapSlot s.swapspace v with
  | none =>
    unfold swapOut at h
    rw [bind_ok (get_apply s), he] at h
    cases h
  | some e => rw [swapOut_ok he] at h; cases h; exact ⟨e, rfl, rfl⟩

theorem swapIn_ok (h : swapSlot s.swapspace v = some e)
    (p : Paddr) :
    swapIn v p s =
      .ok () { s with ram := vopRead s.swapFile e.offset (p &&& pageFrame) s.ram } := by
  unfold swapIn
  rw [bind_ok (get_apply s), h]
  rfl

theorem of_swapIn_ok {p : Paddr} (h : swapIn v p s = .ok () t) :
    ∃ e, swapSlot s.swapspace v = some e ∧
      t = { s with ram := vopRead s.swapFile e.offset (p &&& pageFrame) s.ram } := by
  cases he : swapSlot s.swapspace v with
  | none =>
    unfold swapIn at h
    rw [bind_ok (get_apply s), he] at h
    cases h
  | some e => rw [swapIn_ok he] at h; cases h; exact ⟨e, rfl, rfl⟩

theorem updateSpace_cases (p : Option Ptr) (f : AddrSpace → Option AddrSpace) :
    updateSpace p f s = .error .badPointer s ∨ ∃ q as as', p = some q ∧ s.spaces q = some as ∧
      f as = some as' ∧
      updateSpace p f s = .ok () { s with spaces := Function.update s.spaces q (some as') } := by
  cases p with
  | none => exact .inl rfl
  | some q =>
    cases has : s.spaces q with
    | none =>
      refine .inl ?_
      unfold updateSpace
      rw [bind_ok (get_apply s)]
      simp only [has, Option.bind_none]
      rfl
    | some as =>
      cases hfas : f as with
      | none =>
        refine .inl ?_
        unfold updateSpace
        rw [bind_ok (get_apply s)]
        simp only [has, Option.bind_some, hfas]
        rfl
      | some as' => exact .inr ⟨q, as, as', rfl, has, hfas, updateSpace_ok has hfas⟩

theorem of_updateSpace_ok {p : Option Ptr}
    (h : updateSpace p f s = .ok () t) :
    ∃ q as as', p = some q ∧ s.spaces q = some as ∧ f as = some as' ∧
      t = { s with spaces := Function.update s.spaces q (some as') } := by
  rcases updateSpace_cases (s := s) p f with herr | ⟨q, as, as', hp, has, hf, hok⟩
  · rw [herr] at h
    cases h
  · rw [hok] at h
    cases h
    exact ⟨q, as, as', hp, has, hf, rfl⟩

end Os161.Vm

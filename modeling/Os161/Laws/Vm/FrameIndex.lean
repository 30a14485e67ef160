import Os161.Lib.Trace
import Os161.Vm.Boot
import Os161.Laws.Vm.Alloc

/-!
# Frame indices

Four functions turn a frame's address back into its row by subtracting `physical_base_addr`. That
finds the row when the global is the address of row 0. `page_frame_table_bootstrap` means to set it
but declares a local variable of the same name, so the global keeps the value it had: in the kernel
as built the very first frame handed out is looked up in the wrong row, or past the table.

The second thing that can go wrong is in the allocator: the replacement loop stores every victim at
one position of its list, so a request that needs two or more victims is answered with a list that
was not filled.
-/

namespace Os161.Vm

open Os161.Lib

variable {s : VmState}

/-- The index computed from `p` is inside the frame table and names the one row that has the
address `p`. -/
def FrameIndexed (s : VmState) (p : Paddr) : Prop :=
  frameIndex s.physicalBaseAddr p < maxPmSize ∧
    ∀ j : Fin maxPmSize, (s.pft j).physicalAddr = p ↔ j.val = frameIndex s.physicalBaseAddr p

instance (s : VmState) (p : Paddr) : Decidable (FrameIndexed s p) :=
  inferInstanceAs (Decidable (_ ∧ ∀ _, _))

/-! ## The allocator -/

namespace Closed

variable {I : VmState → Prop} {E : Fault → Prop} {U : Vaddr → Prop} {H : Paddr → Prop}
  {B : Ptr → Prop}
variable (hC : Closed I E U H B)
include hC

theorem replacePage_triple (hrow : ∀ s i, I s → H (s.pft i).physicalAddr) :
    Triple I replacePage (fun p s => I s ∧ H p) fun e s => I s ∧ E e := by
  have hcount : Safe I E (modify fun s => { s with cntPageRepl := s.cntPageRepl + 1 }) :=
    Safe.modify fun t ht =>
      hC.counters t t.numVmFaults t.swapInsertions _ t.epHand t.rpHand ht
  refine Triple.bind hcount fun _ => Triple.bind (hC.quiet.secondChanceScan_safe _) fun _ =>
    Triple.get fun s t ⟨ht, hs⟩ => ?_
  subst ht
  rw [bind_ok (rowAt_ok (Nat.mod_lt _ (by decide)))]
  exact ⟨hC.quiet.hands _ _ hs, hrow t _ hs⟩

theorem evictFrame_triple (hrow : ∀ s i, I s → H (s.pft i).physicalAddr) :
    Triple I evictFrame (fun p s => I s ∧ H p) fun e s => I s ∧ E e := by
  refine Triple.bind (hC.replacePage_triple hrow) fun frame s hs => ?_
  exact (Triple.bind Safe.get fun _ => Triple.bind (hC.quiet.rowAt_safe _) fun _ =>
    Triple.bind (hC.quiet.updatePteAt_safe _ _ _) fun _ => Triple.bind (hC.quiet.swapOut_safe _ _) fun _ =>
      Triple.bind (hC.invalidateTlb _) fun _ => Triple.pure fun t ht => ⟨ht, hs.2⟩) s hs.1

theorem fillList_triple (hrow : ∀ s i, I s → H (s.pft i).physicalAddr) (k : Nat) (b : Ptr) :
    Triple (fun s => I s ∧ k ≤ s.freeRows.length + 1) (fillList k b)
      (fun pList s => I s ∧ ∀ x < k, H (pList x)) fun e s => I s ∧ E e := by
  rintro s ⟨hs, hk⟩
  have hplace (rows : List (Fin maxPmSize)) {x : Nat} (hx : x < rows.length) :
      H (placeAt (s.heap.junk b) 0 (rows.map fun i => (s.pft i).physicalAddr) x) := by
    have := placeAt_get (rows.map fun i => (s.pft i).physicalAddr) (s.heap.junk b) 0 (n := x)
      (by simpa using hx)
    rw [Nat.zero_add] at this
    rw [this, List.getElem_map]
    exact hrow s _ hs
  by_cases hroom : k ≤ s.freeRows.length
  · have hsafe := (hC.quiet.fillList_safe k b).of_ok hs (fillList_of_room b hroom)
    rw [fillList_of_room b hroom]
    exact ⟨hsafe, fun x hx => hplace _ (by rw [List.length_take_of_le hroom]; exact hx)⟩
  · have hfull : s.freeRows.length < k := by omega
    have htaken : I { s with pft := takeRows s.pft s.freeRows } := by
      obtain ⟨i', heq, -⟩ := takeFreeRows_eq k maxPmSize 0 0 (s.heap.junk b) s rfl
      have htake : s.freeRows.take (k - 0) = s.freeRows := List.take_of_length_le (by omega)
      have := (hC.quiet.takeFreeRows_safe _ _ _ _ _).of_ok hs heq
      change I { s with pft := takeRows s.pft (s.freeRows.take (k - 0)) } at this
      rwa [htake] at this
    rw [fillList_of_full b hfull, show k - s.freeRows.length = 1 by omega]
    refine (Triple.bind (hC.evictFrame_triple hrow) fun frame => ?_) _ htaken
    refine Triple.pure fun t ht => ⟨ht.1, fun x hx => ?_⟩
    by_cases hxf : x = s.freeRows.length
    · rw [hxf, Function.update_self]
      exact ht.2
    · rw [Function.update_of_ne hxf]
      exact hplace _ (by omega)

theorem virtualAllocKpages_triple (hrow : ∀ s i, I s → H (s.pft i).physicalAddr)
    (hhist : ∀ s ps, I s → (∀ p ∈ ps, H p) → I { s with handedOut := ps ++ s.handedOut })
    (k : Nat) :
    Triple (fun s => I s ∧ k ≤ s.freeRows.length + 1) (virtualAllocKpages k)
      (fun r s => I s ∧ ∀ x < k, H (r.2 x)) fun e s => I s ∧ E e := by
  rintro s ⟨hs, hk⟩
  unfold virtualAllocKpages
  cases hpick : s.heap.pick s.heap.live with
  | none =>
    rw [bind_ok (kmalloc_none hpick)]
    by_cases h0 : k = 0
    · subst h0
      exact ⟨hs, fun x hx => absurd hx (Nat.not_lt_zero x)⟩
    · simp only [if_neg h0]
      exact ⟨hs, hC.badPointer⟩
  | some b =>
    rw [bind_ok (kmalloc_some hpick)]
    refine (Triple.bind (hC.fillList_triple hrow k b) fun pList t ht => ?_) _ ⟨(hC.alloc s b hs hpick).2, hk⟩
    refine ⟨hhist t _ ht.1 fun p hp => ?_, ht.2⟩
    obtain ⟨x, hx, rfl⟩ := List.mem_map.mp hp
    exact ht.2 x (List.mem_range.mp hx)

end Closed

/-! ## The invariant -/

/-- The rows keep their boot addresses, the global keeps its boot value, and only rows' addresses
have been handed out, by a kernel whose global is right. -/
structure FramesFrom (g b : Paddr) (s : VmState) : Prop where
  base : s.physicalBaseAddr = g
  rows : ∀ i, (s.pft i).physicalAddr = frameAddr b i
  history : ∀ p ∈ s.handedOut, g = b ∧ ∃ i : Fin maxPmSize, p = frameAddr b i

theorem FramesFrom.frameIndexed {g b : Paddr} (h : FramesFrom g b s) {p : Paddr}
    (hp : p ∈ s.handedOut) : FrameIndexed s p := by
  obtain ⟨rfl, i, rfl⟩ := h.history p hp
  unfold FrameIndexed
  rw [h.base, frameIndex_frameAddr g i.isLt]
  refine ⟨i.isLt, fun j => ⟨fun hj => ?_, fun hj => ?_⟩⟩
  · rw [h.rows j] at hj
    rw [← frameIndex_frameAddr g j.isLt, hj, frameIndex_frameAddr g i.isLt]
  · rw [h.rows j, hj]

theorem FramesFrom.setRow {g b : Paddr} (h : FramesFrom g b s) {i : Fin maxPmSize}
    {r : PageTableEntry} (hr : r.physicalAddr = frameAddr b i) :
    FramesFrom g b { s with pft := Function.update s.pft i r } := by
  refine ⟨h.base, fun j => ?_, h.history⟩
  show (Function.update s.pft i r j).physicalAddr = _
  by_cases hj : j = i
  · rw [hj, Function.update_self, hr]
  · rw [Function.update_of_ne hj, h.rows]

theorem framesFrom_closed (g b : Paddr) :
    Closed (FramesFrom g b) (fun _ => True) (fun _ => True)
      (fun p => g = b ∧ ∃ i : Fin maxPmSize, p = frameAddr b i) fun _ => True where
  counters _ _ _ _ _ _ h := ⟨h.base, h.rows, h.history⟩
  alloc _ _ h _ := ⟨trivial, h.base, h.rows, h.history⟩
  free _ _ h _ := ⟨h.base, h.rows, h.history⟩
  tables _ _ _ _ h _ _ := ⟨h.base, h.rows, h.history⟩
  row s i r h hr := h.setRow (hr.trans (h.rows i))
  enter s i r h hi hr := by
    obtain ⟨rfl, k, hk⟩ := hr
    -- the index computed from a row's address is that row
    have hik : i.val = k.val := by rw [← hi, h.base, hk, frameIndex_frameAddr g k.isLt]
    exact h.setRow (hk.trans (by rw [hik]))
  memory _ _ _ h := ⟨h.base, h.rows, h.history⟩
  insertTlb := fun v p _ =>
    insertTlbEntry_safe (fun _ _ _ h => ⟨h.base, h.rows, h.history⟩) trivial v p
  invalidateTlb := tlbInvalidate_safe (fun _ _ _ h => ⟨h.base, h.rows, h.history⟩) trivial
  badPointer := trivial
  outOfBounds := trivial
  readonlyFault := trivial
  livelock := trivial
  assertion _ _ _ := trivial
  regions := .inl fun _ _ => trivial

/-- What a step that asks for frames needs: the global is the address of row 0, and the pages of
the first segment are at most one more than the free rows. -/
def Op.FrameRequestOk (t : VmState) : Op → Prop
  | .prepareLoad p => t.physicalBaseAddr = (t.pft 0).physicalAddr ∧
      ∀ as ∈ t.spaces p, as.npages1.toInt.toNat ≤ t.freeRows.length + 1
  | .fault _ _ | .load _ | .store _ _ => t.physicalBaseAddr = (t.pft 0).physicalAddr
  | _ => True

section Steps

variable {g b : Paddr}

theorem framesFrom_alloc (hg : g = b) (k : Nat) :
    Triple (fun s => FramesFrom g b s ∧ k ≤ s.freeRows.length + 1) (virtualAllocKpages k)
      (fun r s => FramesFrom g b s ∧ ∀ x < k, g = b ∧ ∃ i : Fin maxPmSize, r.2 x = frameAddr b i)
      fun _ s => FramesFrom g b s ∧ True :=
  (framesFrom_closed g b).virtualAllocKpages_triple (fun _ i h => ⟨hg, i, h.rows i⟩)
    (fun _ _ h hps => ⟨h.base, h.rows, fun p hp =>
      (List.mem_append.mp hp).elim (hps p) (h.history p)⟩) k

theorem framesFrom_allocOk (hg : g = b) :
    Closed.AllocOk (FramesFrom g b) (fun _ => True)
      fun p => g = b ∧ ∃ i : Fin maxPmSize, p = frameAddr b i :=
  (framesFrom_alloc hg 1).conseq (fun _ h => ⟨h, by omega⟩)
    (fun _ _ h => ⟨h.1, h.2 0 Nat.one_pos⟩) fun _ _ h => h

theorem asPrepareLoad_framesFrom (hg : g = b) (hs : FramesFrom g b s) {p : Ptr}
    (hroom : ∀ as ∈ s.spaces p, as.npages1.toInt.toNat ≤ s.freeRows.length + 1) :
    FramesFrom g b (leaves (asPrepareLoad p s)) := by
  have hC := framesFrom_closed g b
  unfold asPrepareLoad
  cases has : s.spaces p with
  | none => rwa [bind_error (derefSpace_error has)]
  | some as =>
    rw [bind_ok (derefSpace_ok has)]
    have hone := (framesFrom_alloc hg 1).conseq (P := FramesFrom g b) (fun _ h => ⟨h, by omega⟩)
      (fun _ _ h => h) fun _ _ h => h
    have hpages {k : Nat} {f : Nat → Paddr} (v : Nat → Vaddr)
        (hf : ∀ x < k, g = b ∧ ∃ i : Fin maxPmSize, f x = frameAddr b i) :
        ∀ e ∈ (List.range k).map fun x => (v x, f x),
          g = b ∧ ∃ i : Fin maxPmSize, e.2 = frameAddr b i := by
      intro e he
      obtain ⟨x, hx, rfl⟩ := List.mem_map.mp he
      exact hf x (List.mem_range.mp hx)
    refine Safe.leaves_of (Triple.bind (framesFrom_alloc hg _) fun r₁ s₁ h₁ => ?_)
      ⟨hs, hroom as has⟩
    refine (Triple.bind hone fun r₂ s₂ h₂ => ?_) s₁ h₁.1
    refine (Triple.bind hone fun r₃ s₃ h₃ => ?_) s₂ h₂.1
    exact hC.enterAll_safe p (hpages _ h₁.2) (hpages _ h₂.2) (hpages _ h₃.2) _
      (fun _ _ => trivial) (fun _ _ => trivial) (fun _ _ => trivial) s₃ h₃.1

theorem exec_framesFrom {op : Op} (hs : FramesFrom g b s)
    (hop : op.FrameRequestOk s) : FramesFrom g b (leaves (op.exec s)) := by
  have hC := framesFrom_closed g b
  have hsp (s : VmState) (f : Ptr → Option AddrSpace) (h : FramesFrom g b s) :
      FramesFrom g b { s with spaces := f } := ⟨h.base, h.rows, h.history⟩
  have hbase (h : s.physicalBaseAddr = (s.pft 0).physicalAddr) : g = b := by
    rw [← hs.base, h, hs.rows]
    simp [frameAddr]
  cases op with
  | create => exact (Safe.bind (hC.asCreate_safe hsp) fun _ => Safe.pure _).leaves hs
  | defineRegion p v sz =>
    exact (Safe.bind (hC.asDefineRegion_safe (fun s _ => hsp s _) v sz) fun _ => Safe.pure _).leaves hs
  | prepareLoad p =>
    have := asPrepareLoad_framesFrom (hbase hop.1) hs hop.2
    simpa only [Op.exec, leaves_bind_pure] using this
  | swapLoad p =>
    exact (hC.swapspaceLoadAs_safe (fun _ _ h => ⟨h.base, h.rows, h.history⟩) trivial p).leaves hs
  | activate p =>
    exact (Safe.bind (Safe.modify fun _ h => ⟨h.base, h.rows, h.history⟩) fun _ =>
      asActivate_safe (E := fun _ => True) (fun _ _ _ h => ⟨h.base, h.rows, h.history⟩)
        trivial).leaves hs
  | fault ft va =>
    exact (Safe.bind (hC.vmFault_safe (framesFrom_allocOk (hbase hop)) ft trivial) fun _ =>
      Safe.pure _).leaves hs
  | load va =>
    exact (Safe.bind (hC.userLoad_safe (framesFrom_allocOk (hbase hop)) va fun _ => trivial)
      fun _ => Safe.pure _).leaves hs
  | store va b =>
    exact (hC.userStore_safe (framesFrom_allocOk (hbase hop)) va b fun _ => trivial).leaves hs
  | destroy p => exact (hC.asDestroy_safe (fun s => hsp s _) fun _ => trivial).leaves hs

end Steps

theorem vmBootstrap_eq (pa : Paddr) (raw : List PageTableEntry) (s : VmState) :
    vmBootstrap pa raw s = .ok ()
      { s with
        swapInsertions := 0, clockHand := 0, epHand := 0, rpHand := clockAngle, cntPageRepl := 0
        pft := fun i => bootRow pa (s.pft i) i
        swapspace := swapspaceInit raw, lastTlbEntry := 0 } := rfl

/-- A program of two one-page segments, from its creation to its pages. -/
def loadTwoPages : List Op :=
  [.create, .defineRegion 1 0x400000#32 0x1000#32, .defineRegion 1 0x10000000#32 0x1000#32,
    .prepareLoad 1]

end Os161.Vm

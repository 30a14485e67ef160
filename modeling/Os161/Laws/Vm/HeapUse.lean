import Os161.Laws.Vm.Fault
import Os161.Lib.Trace
import Os161.Vm.Boot

/-!
# The kernel heap under page faults

`get_physical_address` gets the frame of a page that is not in memory from `virtual_alloc_kpages`, which answers with
a list in a block of the kernel heap. The block is never freed: every fault that brings a page in leaves one block
more than the level-2 tables account for. All other faults leave the heap as it is.
-/

namespace Os161.Vm

open Os161.Lib

variable {α : Type} {as as' : AddrSpace} {v : Vaddr} {s t : VmState} {k : Nat}

/-! ## The level-2 tables of an address space -/

/-- How many level-2 tables an address space has. -/
def AddrSpace.tableCount (as : AddrSpace) : Nat := as.level2Tables.length

theorem AddrSpace.tableCount_eq (as : AddrSpace) :
    as.tableCount = (List.finRange maxLevel1Pt).countP fun i => (as.table i).isSome :=
  List.length_filterMap_eq_countP

theorem countP_update_some {β : Type} [DecidableEq α] {l : List α} (hnodup : l.Nodup) {f : α → Option β} {i : α}
    (hi : i ∈ l) (hf : f i = none) (b : β) :
    (l.countP fun x => (Function.update f i (some b) x).isSome) = (l.countP fun x => (f x).isSome) + 1 := by
  induction l with
  | nil => cases hi
  | cons x l ih =>
    obtain ⟨hx, hl⟩ := List.nodup_cons.mp hnodup
    rw [List.countP_cons, List.countP_cons]
    by_cases hxi : x = i
    · subst hxi
      -- no later position is `x`, so the rest of the list counts the same
      have hrest : (l.countP fun y => (Function.update f x (some b) y).isSome) = l.countP fun y => (f y).isSome := by
        refine List.countP_congr fun y hy => ?_
        rw [Function.update_of_ne (ne_of_mem_of_not_mem hy hx)]
      simp [hrest, hf]
    · rw [ih hl ((List.mem_cons.mp hi).resolve_left (Ne.symm hxi)), Function.update_of_ne hxi]
      omega

theorem AddrSpace.tableCount_new {i : Fin maxLevel1Pt} (h : as.table i = none)
    (l2 : PageTableLevel2) :
    ({ as with table := Function.update as.table i (some l2) } : AddrSpace).tableCount = as.tableCount + 1 := by
  rw [tableCount_eq, tableCount_eq]
  exact countP_update_some (List.nodup_finRange _) (List.mem_finRange i) h l2

theorem AddrSpace.tableCount_updatePte {f : PageTableEntry → PageTableEntry}
    (h : as.updatePte? v f = some as') : as'.tableCount = as.tableCount := by
  obtain ⟨l2, hl2, rfl⟩ := Option.map_eq_some_iff.mp h
  rw [tableCount_eq, tableCount_eq]
  refine List.countP_congr fun i _ => ?_
  by_cases hi : i = level1index v
  · subst hi
    simp [hl2]
  · simp [hi]

/-! ## What a fault holds -/

/-- The current address space is `p` and has `n` level-2 tables, and the live blocks are `live`. -/
structure Holds (p : Ptr) (live : List Ptr) (n : Nat) (s : VmState) : Prop where
  blocks : s.heap.live = live
  current : s.curAddrspace = some p
  tables : ∃ as, s.spaces p = some as ∧ as.tableCount = n

section Walk

variable {p : Ptr} {live : List Ptr} {n : Nat}

theorem holds_tlb (s : VmState) (tlb : Fin numTlb → TlbEntry) (last : Nat) (hs : Holds p live n s) :
    Holds p live n { s with tlb := tlb, lastTlbEntry := last } :=
  ⟨hs.blocks, hs.current, hs.tables⟩

theorem Holds.set_space (hs : Holds p live n s) {q : Ptr}
    (has : s.spaces q = some as) (hcount : as'.tableCount = as.tableCount) :
    Holds p live n { s with spaces := Function.update s.spaces q (some as') } := by
  refine ⟨hs.blocks, hs.current, ?_⟩
  obtain ⟨bs, hbs, hn⟩ := hs.tables
  by_cases hq : q = p
  · subst hq
    obtain rfl : as = bs := Option.some.inj (has.symm.trans hbs)
    exact ⟨as', Function.update_self .., hcount.trans hn⟩
  · exact ⟨bs, (Function.update_of_ne (Ne.symm hq) ..).trans hbs, hn⟩

theorem holds_quiet (p : Ptr) (live : List Ptr) (n : Nat) :
    Quiet (Holds p live n) (fun _ => True) fun _ => True where
  counters _ _ _ _ _ _ hs := ⟨hs.blocks, hs.current, hs.tables⟩
  entry _ _ _ _ _ _ hs has h := hs.set_space has (AddrSpace.tableCount_updatePte h)
  row _ _ _ hs _ := ⟨hs.blocks, hs.current, hs.tables⟩
  memory _ _ _ hs := ⟨hs.blocks, hs.current, hs.tables⟩
  insertTlb v a _ := insertTlbEntry_safe holds_tlb trivial v a
  invalidateTlb v := tlbInvalidate_safe holds_tlb trivial v
  badPointer := trivial
  outOfBounds := trivial
  readonlyFault := trivial
  assertion _ _ _ := trivial

/-- The heap has grown by one block per new table of `p`, and by `k` more. -/
def Grown (p : Ptr) (live : List Ptr) (n k : Nat) (s : VmState) : Prop :=
  ∃ extra m, Holds p (extra ++ live) (n + m) s ∧ extra.length = m + k

theorem Holds.grown (hs : Holds p live n s) : Grown p live n 0 s := ⟨[], 0, hs, rfl⟩

theorem Grown.trans {live' : List Ptr} {n' k' : Nat} (hs : Holds p live' n' s)
    (h : Grown p live n k s) (ht : Grown p live' n' k' t) : Grown p live n (k + k') t := by
  obtain ⟨extra, m, hs', hlen⟩ := h
  obtain ⟨extra', m', ht', hlen'⟩ := ht
  obtain ⟨as, has, hn'⟩ := hs.tables
  obtain ⟨bs, hbs, hn⟩ := hs'.tables
  obtain rfl : as = bs := Option.some.inj (has.symm.trans hbs)
  have hlive : live' = extra ++ live := hs.blocks.symm.trans hs'.blocks
  refine ⟨extra' ++ extra, m + m', ?_, ?_⟩
  · rw [List.append_assoc, ← hlive, ← Nat.add_assoc, ← hn, hn']
    exact ht'
  · rw [List.length_append]
    omega

theorem Grown.safe {x : Kernel α}
    (h : ∀ live n, Safe (Holds p live n) (fun _ => True) x) : Safe (Grown p live n k) (fun _ => True) x := by
  rintro s ⟨extra, m, hs, hlen⟩
  refine (h _ _).conseq (fun _ h => h) ?_ ?_ s hs
  · exact fun _ t ht => ⟨extra, m, ht, hlen⟩
  · exact fun _ t ht => ⟨⟨extra, m, ht.1, hlen⟩, trivial⟩

abbrev AnyFault : Fault → VmState → Prop := fun _ _ => True

theorem virtualAllocKpages_grown :
    Triple (Holds p live n) (virtualAllocKpages 1) (fun _ => Grown p live n 1) AnyFault := by
  intro s hs
  cases hpick : s.heap.pick s.heap.live with
  | none =>
    unfold virtualAllocKpages
    rw [bind_ok (kmalloc_none hpick)]
    trivial
  | some b =>
    unfold virtualAllocKpages
    rw [bind_ok (kmalloc_some hpick)]
    have hb : Holds p (b :: live) n { s with heap := { s.heap with live := b :: s.heap.live } } :=
      ⟨by rw [hs.blocks], hs.current, hs.tables⟩
    have hfill := (holds_quiet p (b :: live) n).fillList_safe 1 b
    refine (Safe.bind hfill fun pList => Safe.bind (Safe.modify fun t ht => ?_) fun _ => Safe.pure _).conseq
      (fun _ h => h) (fun _ t ht => ⟨[b], 0, ht, rfl⟩) (fun _ _ _ => trivial) _ hb
    exact ⟨ht.blocks, ht.current, ht.tables⟩

theorem ensureLevel2_grown (v : Vaddr) :
    Triple (Holds p live n) (ensureLevel2 p v) (fun _ => Grown p live n 0) AnyFault := by
  intro s hs
  obtain ⟨as, has, hn⟩ := hs.tables
  unfold ensureLevel2
  rw [bind_ok (derefSpace_ok has)]
  cases htable : as.table (level1index v) with
  | some l2 => exact hs.grown
  | none =>
    rw [if_neg (by simp)]
    cases hpick : s.heap.pick s.heap.live with
    | none =>
      rw [show newLevel2 p v s = _ from bind_ok (kmalloc_none hpick)]
      trivial
    | some b =>
      rw [show newLevel2 p v s = _ from (bind_ok (kmalloc_some hpick)).trans (updateSpace_ok has rfl)]
      refine ⟨[b], 1, ⟨by rw [hs.blocks]; rfl, hs.current, ?_⟩, rfl⟩
      exact ⟨_, Function.update_self .., by rw [AddrSpace.tableCount_new htable, hn]⟩

theorem addPageEntry_grown (v : Vaddr) (a : Paddr) :
    Triple (Holds p live n) (addPageEntry p v a) (fun _ => Grown p live n 0) AnyFault := by
  refine Triple.bind (ensureLevel2_grown v) fun _ => ?_
  refine Triple.conseq (Grown.safe fun live n => ?_) (fun _ h => h) (fun _ _ h => h) fun _ _ _ => trivial
  have hq := holds_quiet p live n
  refine Safe.bind (hq.updatePteAt_safe _ _ _) fun _ => Safe.bind Safe.get fun s => ?_
  unfold updateRow
  split
  · exact Safe.modify fun t ht => ⟨ht.blocks, ht.current, ht.tables⟩
  · exact Safe.throw trivial

theorem bringIn_grown (v : Vaddr) :
    Triple (Holds p live n) (bringIn p v) (fun _ => Grown p live n 1) AnyFault := by
  refine Triple.bind virtualAllocKpages_grown fun r s hs => ?_
  obtain ⟨extra, m, hs', hlen⟩ := id hs
  have hadd : Triple (Holds p (extra ++ live) (n + m)) (addPageEntry p v (r.2 0)) (fun _ => Grown p live n 1)
      AnyFault :=
    (addPageEntry_grown v _).conseq (fun _ h => h) (fun _ _ h => hs.trans hs' h) fun _ _ h => h
  refine Triple.bind hadd (fun _ => ?_) s hs'
  refine Triple.conseq (Grown.safe fun live n => ?_) (fun _ h => h) (fun _ _ h => h) fun _ _ _ => trivial
  have hq := holds_quiet p live n
  exact Safe.bind (hq.insertTlb v _ trivial) fun _ => hq.swapIn_safe v _

end Walk

/-! ## A fault -/

/-- The fault is for a page of the current address space that is not in memory. -/
def VmState.bringsIn (s : VmState) : FaultType → Vaddr → Bool
  | .read, va | .write, va =>
    match s.curAddrspace.bind s.spaces with
    | none => false
    | some as => as.covers (va &&& pageFrame) && !as.resident (va &&& pageFrame)
  | .readonly, _ | .other, _ => false

/-- The blocks a fault costs besides those of new tables. -/
def VmState.lostBlocks (s : VmState) (faulttype : FaultType) (va : Vaddr) : Nat :=
  if s.bringsIn faulttype va then 1 else 0

section Fault

variable {p : Ptr} {live : List Ptr} {n : Nat}
variable {faulttype : FaultType} {r : Option Errno}

theorem getPhysicalAddress_grown (hs : Holds p live n s) (has : s.spaces p = some as) {a : Paddr}
    (h : getPhysicalAddress p v faulttype s = .ok a t) :
    Grown p live n (if as.resident v then 0 else 1) t := by
  have hresident : Triple (fun u => u = s) (ensureResident p v)
      (fun _ => Grown p live n (if as.resident v then 0 else 1)) AnyFault := by
    rintro u rfl
    unfold ensureResident
    rw [bind_ok (derefSpace_ok has)]
    cases hres : as.resident v with
    | true => exact hs.grown
    | false => exact bringIn_grown v u hs
  have hget := Triple.bind hresident fun _ => Triple.conseq (Grown.safe fun live n =>
    Safe.bind ((holds_quiet p live n).touchFor_safe p v faulttype) fun _ =>
      Safe.bind ((holds_quiet p live n).pteAt_safe (some p) v) fun e => Safe.pure
        (if faulttype = .other then BitVec.ofNat 32 Errno.EINVAL.code
          else e.physicalAddr + (v &&& offsetMask)))
    (fun _ h => h) (fun _ _ h => h) fun _ _ _ => trivial
  exact hget.of_ok rfl h

theorem resolveFault_grown (hs : Holds p live n s) (has : s.spaces p = some as)
    (h : resolveFault p faulttype v s = .ok r t) :
    Grown p live n (if as.covers v && !as.resident v then 1 else 0) t := by
  unfold resolveFault at h
  rw [bind_ok (derefSpace_ok has)] at h
  rcases checkSpace_cases as s with ⟨-, hok⟩ | ⟨-, x, -, herr⟩
  swap
  · rw [bind_error herr] at h
    cases h
  rw [bind_ok hok] at h
  cases hcov : as.covers v with
  | false =>
    rw [if_neg (by simp [hcov])] at h
    cases h
    exact hs.grown
  | true =>
    rw [if_pos hcov] at h
    obtain ⟨a, s₁, hget, h⟩ := of_bind_ok h
    have hgrown : Grown p live n (if true && !as.resident v then 1 else 0) s₁ := by
      have := getPhysicalAddress_grown hs has hget
      cases hres : as.resident v with
      | true => simpa [hres] using this
      | false => simpa [hres] using this
    refine Triple.of_ok (Grown.safe fun live n => ?_) hgrown h
    exact Safe.bind (kassert_safe trivial _) fun _ => (holds_quiet p live n).insertTlb _ _ trivial

theorem vmFault_grown (hs : Holds p live n s) {va : Vaddr} (h : vmFault faulttype va s = .ok r t) :
    Grown p live n (s.lostBlocks faulttype va) t := by
  obtain ⟨as, has, hn⟩ := hs.tables
  have hs' : Holds p live n s.counted := ⟨hs.blocks, hs.current, hs.tables⟩
  have hresolve : ∀ ft, faultIn ft (va &&& pageFrame) s.counted = .ok r t →
      Grown p live n (if as.covers (va &&& pageFrame) && !as.resident (va &&& pageFrame) then 1 else 0) t := by
    intro ft h
    rw [faultIn_some (s := s.counted) hs.current] at h
    exact resolveFault_grown hs' has h
  have hspace : s.curAddrspace.bind s.spaces = some as := by rw [hs.current]; exact has
  unfold vmFault at h
  rw [bind_ok (modify_apply _ _)] at h
  unfold VmState.lostBlocks VmState.bringsIn
  cases faulttype with
  | readonly => cases h
  | read =>
    simp only [hspace]
    exact hresolve .read h
  | write =>
    simp only [hspace]
    exact hresolve .write h
  | other =>
    cases h
    exact hs'.grown

end Fault

/-! ## A sequence of faults -/

/-- Faults taken one after the other. -/
def vmFaults (faults : List (FaultType × Vaddr)) : Kernel Unit :=
  faults.forM fun f => do
    let _ ← vmFault f.1 f.2
    pure ()

/-- The blocks lost in a sequence of faults. -/
def lostIn : List (FaultType × Vaddr) → VmState → Nat
  | [], _ => 0
  | f :: faults, s => s.lostBlocks f.1 f.2 + lostIn faults (leaves (vmFault f.1 f.2 s))

/-- No fault of the sequence is for a page that is not in memory when the fault is taken. -/
def AllInMemory : List (FaultType × Vaddr) → VmState → Prop
  | [], _ => True
  | f :: faults, s => s.bringsIn f.1 f.2 = false ∧ AllInMemory faults (leaves (vmFault f.1 f.2 s))

theorem lostIn_eq_zero_iff (faults : List (FaultType × Vaddr)) (s : VmState) :
    lostIn faults s = 0 ↔ AllInMemory faults s := by
  induction faults generalizing s with
  | nil => exact ⟨fun _ => trivial, fun _ => rfl⟩
  | cons f faults ih =>
    unfold lostIn AllInMemory
    rw [Nat.add_eq_zero_iff, ih]
    unfold VmState.lostBlocks
    cases s.bringsIn f.1 f.2 <;> simp

theorem vmFaults_grown {p : Ptr} {live : List Ptr} {n : Nat} {faults : List (FaultType × Vaddr)}
    (hs : Holds p live n s) (h : vmFaults faults s = .ok () t) : Grown p live n (lostIn faults s) t := by
  induction faults generalizing s live n with
  | nil =>
    cases h
    exact hs.grown
  | cons f faults ih =>
    obtain ⟨_, s₁, hfault, hrest⟩ := of_bind_ok h
    obtain ⟨r, s₁', hcall, hret⟩ := of_bind_ok hfault
    cases hret
    have hgrown := vmFault_grown hs hcall
    obtain ⟨extra, m, hs₁, -⟩ := id hgrown
    rw [lostIn, hcall]
    exact hgrown.trans hs₁ (ih hs₁ hrest)

/-- From `s` to `t` the live blocks have grown by at most one for each new level-2 table of `p`, and none has gone. -/
def HeapKept (p : Ptr) (s t : VmState) : Prop :=
  ∃ as as' extra, s.spaces p = some as ∧ t.spaces p = some as' ∧ t.heap.live.Perm (extra ++ s.heap.live) ∧
    as.tableCount + extra.length ≤ as'.tableCount

theorem Grown.heapKept_iff {p : Ptr} (has : s.spaces p = some as)
    (h : Grown p s.heap.live as.tableCount k t) : HeapKept p s t ↔ k = 0 := by
  obtain ⟨extra, m, ht, hlen⟩ := h
  obtain ⟨as', has', hcount⟩ := ht.tables
  constructor
  · rintro ⟨bs, bs', extra', hbs, hbs', hperm, hle⟩
    obtain rfl : as = bs := Option.some.inj (has.symm.trans hbs)
    obtain rfl : as' = bs' := Option.some.inj (has'.symm.trans hbs')
    have := hperm.length_eq
    rw [ht.blocks, List.length_append, List.length_append] at this
    omega
  · rintro rfl
    exact ⟨as, as', extra, has, has', by rw [ht.blocks], by omega⟩

/-- Faults on an address space cost nothing but its level-2 tables exactly when none of them brings a page in. -/
theorem faults_keep_heap_iff {p : Ptr} {s t : VmState} {as : AddrSpace} (hcur : s.curAddrspace = some p)
    (has : s.spaces p = some as) (faults : List (FaultType × Vaddr)) (hrun : vmFaults faults s = .ok () t) :
    HeapKept p s t ↔ AllInMemory faults s := by
  have hs : Holds p s.heap.live as.tableCount s := ⟨rfl, hcur, as, has, rfl⟩
  rw [(vmFaults_grown hs hrun).heapKept_iff has, lostIn_eq_zero_iff]

/-- The first process after a fault on its first page. -/
@[irreducible] def afterFirstFault : VmState := leaves (vmFaults [(.read, 0x400000#32)] (processes [2]))

/-- A second fault on the page costs nothing. -/
theorem faults_keep_heap_resident : ∃ t, vmFaults [(.write, 0x400010#32)] afterFirstFault = .ok () t ∧
    HeapKept 2 afterFirstFault t := by
  have hrun := eq_ok_of_value (show value? (vmFaults [(.write, 0x400010#32)] afterFirstFault) = some () by
    unfold afterFirstFault; decide +kernel)
  obtain ⟨as, has⟩ := Option.isSome_iff_exists.mp (show (afterFirstFault.spaces 2).isSome by
    unfold afterFirstFault; decide +kernel)
  have hmem : afterFirstFault.bringsIn .write 0x400010#32 = false := by
    unfold afterFirstFault
    decide +kernel
  exact ⟨_, hrun, (faults_keep_heap_iff (by unfold afterFirstFault; decide +kernel) has _ hrun).mpr ⟨hmem, trivial⟩⟩

/-- The first fault on a page leaves the block of the list behind. -/
theorem first_fault_loses_block : ∃ t, vmFaults [(.read, 0x400000#32)] (processes [2]) = .ok () t ∧
    ¬ HeapKept 2 (processes [2]) t := by
  have hrun := eq_ok_of_value (show value? (vmFaults [(.read, 0x400000#32)] (processes [2])) = some () by
    decide +kernel)
  refine ⟨_, hrun, fun h => ?_⟩
  have hs : Holds 2 (processes [2]).heap.live sampleSpace.tableCount (processes [2]) :=
    ⟨rfl, rfl, sampleSpace, rfl, rfl⟩
  have hlost : lostIn [(.read, 0x400000#32)] (processes [2]) = 0 := ((vmFaults_grown hs hrun).heapKept_iff rfl).mp h
  exact absurd hlost (by decide +kernel)

end Os161.Vm

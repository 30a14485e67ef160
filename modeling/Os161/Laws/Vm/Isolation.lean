import Os161.Laws.Vm.Contents

/-!
# Isolation under swapping

What one process does must not show in the pages of another. The frames are kept apart by the frame
table, and a store goes through a TLB slot, which never holds a frame of a process that does not run.
The swap slots are not kept apart: `swap_in` and `swap_out` look for the virtual address and have
the comparison of process ids commented out. So isolation holds along a run exactly as long as no
step evicts a page of another process at an address the process has out.
-/

namespace Os161.Vm

open Os161.Lib

/-! ## Stores -/

theorem ramPage_update_of_ne {ram : Paddr → UInt8} {p q : Paddr} (hp : IsPage p) (hq : IsPage q)
    (hpq : p ≠ q) (va : Vaddr) (b : UInt8) :
    ramPage (Function.update ram (p + (va &&& offsetMask)) b) q = ramPage ram q := by
  funext k
  unfold ramPage
  rw [Function.update_of_ne]
  intro heq
  rw [isPage_iff] at hp hq
  have hk := k.isLt
  have hp' := p.isLt
  have hq' := q.isLt
  have hnat := congrArg BitVec.toNat heq
  rw [BitVec.toNat_add, BitVec.toNat_add, BitVec.toNat_ofNat, and_offsetMask_toNat] at hnat
  exact hpq (BitVec.eq_of_toNat_eq (by omega))

theorem TlbEntry.isPage_ppage (e : TlbEntry) : IsPage e.ppage := isPage_and_pageFrame e.lo

/-! ## The invariant -/

/-- The fault on `va`, taken by the running process, leaves the slots of the pages of `A` alone. -/
def FaultSpares (A : Ptr) (t : VmState) (va : Vaddr) : Prop :=
  ∀ B as, t.curAddrspace = some B → t.spaces A = some as → ∀ v : Page, v.1 ∈ as.swapPages →
    ¬ Overwrites t B (pageOf va) (A, v)

/-- The steps of the running process that leave the slots of the pages of `A` alone: its faults,
and its loads and stores, which fault where the TLB has no translation. -/
def Op.Spares (A : Ptr) (t : VmState) : Op → Prop
  | .fault _ va => FaultSpares A t va
  | .load va | .store va _ => tlbHit t.tlb va = none → FaultSpares A t va
  | _ => False

/-- The memory system while `B` runs, seen from `A`: its regions and contents are those of the start,
and the TLB has none of its frames. -/
structure Isolated (s₀ : VmState) (A B : Ptr) (pages : List Vaddr) (s : VmState) : Prop where
  paged : Paged s
  slots : s.swapspace = s₀.swapspace
  current : s.curAddrspace = some B
  regions : ∃ as, s.spaces A = some as ∧ as.swapPages = pages
  tlb : ∀ i (v : Page), (s.tlb i).valid = true → mapping s (A, v) ≠ some (s.tlb i).ppage
  contents : ∀ v : Page, v.1 ∈ pages → pageBytes s (A, v) = pageBytes s₀ (A, v)

namespace Isolated

variable {s₀ s t : VmState} {A B : Ptr} {pages : List Vaddr}

theorem fault (hs : Isolated s₀ A B pages s) (hsw : SwapTable s₀.swapspace) (hAB : A ≠ B)
    {ft : FaultType} {va : Vaddr} {r : Option Errno} (h : vmFault ft va s = .ok r t)
    (hspare : FaultSpares A s va) : Isolated s₀ A B pages t := by
  have hpaged := vmFault_paged hs.paged h
  obtain ⟨as, hA, hpages⟩ := hs.regions
  have hcontents (v : Page) (hv : v.1 ∈ pages) : pageBytes t (A, v) = pageBytes s₀ (A, v) := by
    rw [← hs.contents v hv]
    apply vmFault_pageBytes_eq hs.paged (hs.slots ▸ hsw) h
    intro q hq
    exact hspare q as hq hA v (hpages ▸ hv)
  rcases of_vmFault_ok hs.paged.positions h with ht | ⟨q, bs, -, hq, -, -, -, hres⟩
  · rw [ht] at hpaged hcontents ⊢
    exact ⟨hpaged, hs.slots, hs.current, hs.regions, hs.tlb, hcontents⟩
  · obtain ⟨a, s₁, s₂, e, j, as₁, as', hres⟩ := hres
    obtain rfl : B = q := Option.some.inj (hs.current.symm.trans hq)
    obtain ⟨hslots, hcur⟩ := hres.frame
    obtain ⟨as₂, hA₂, hreg⟩ := hres.live hA
    refine ⟨hpaged, hslots.trans hs.slots, hcur.trans hs.current,
      ⟨as₂, hA₂, hreg.swapPages.trans hpages⟩, fun i v hvalid hmap => ?_, hcontents⟩
    rcases hres.tlb_cases i with hi | hi | hi
    · -- a slot that was there before: the page had the frame before, too
      rw [hi] at hvalid hmap
      exact hs.tlb i v hvalid (hres.mapping_of_ne hAB hmap)
    · rw [hi, valid_tlbloInvalid] at hvalid
      cases hvalid
    · -- the new slot holds the frame of the page that faulted
      rw [hi, pageEntry_ppage hres.aligned] at hmap
      have hfaulted : mapping t (B, pageOf va) = some a := by
        rw [hres.same.mapping]
        exact hres.resident.mapping_eq
      have hkey := hpaged.agree.no_sharing hpaged.frames hmap hfaulted
      exact hAB (congrArg Prod.fst hkey)

theorem write (hs : Isolated s₀ A B pages s) {i : Fin numTlb} (hvalid : (s.tlb i).valid = true)
    (va : Vaddr) (b : UInt8) :
    Isolated s₀ A B pages
      { s with ram := Function.update s.ram ((s.tlb i).ppage + (va &&& offsetMask)) b } := by
  have hp := hs.paged
  refine ⟨⟨⟨hp.positions.ep, hp.positions.rp, hp.positions.last⟩, ⟨hp.frames.rows, hp.frames.aligned⟩,
    ⟨hp.agree.forward, hp.agree.backward⟩, hp.kmalloc⟩, hs.slots, hs.current, hs.regions, hs.tlb,
    fun v hv => ?_⟩
  rw [← hs.contents v hv]
  refine contents_mem fun a hmap => congrArg some ?_
  change mapping s (A, v) = some a at hmap
  have hne : (s.tlb i).ppage ≠ a := fun h => hs.tlb i v hvalid (h ▸ hmap)
  obtain ⟨j, rfl, -⟩ := hp.agree.forward A v a hmap
  exact ramPage_update_of_ne (TlbEntry.isPage_ppage _) (hp.frames.isPage_rowAddr j) hne va b

theorem step (hs : Isolated s₀ A B pages s) (hsw : SwapTable s₀.swapspace) (hAB : A ≠ B) {op : Op}
    (hop : op.Spares A s) (h : op.exec s = .ok () t) : Isolated s₀ A B pages t := by
  cases op with
  | fault ft va =>
    obtain ⟨r, u, hfault, hret⟩ := of_bind_ok h
    cases hret
    exact hs.fault hsw hAB hfault hop
  | load va =>
    obtain ⟨r, u, hload, hret⟩ := of_bind_ok h
    cases hret
    rcases of_userLoad_ok hload with rfl | ⟨-, hmiss, r', hfault⟩
    · exact hs
    · exact hs.fault hsw hAB hfault (hop hmiss)
  | store va b =>
    rcases of_userStore_ok h with rfl | ⟨i, hhit, rfl⟩ | ⟨-, hmiss, r', hfault⟩
    · exact hs
    · exact hs.write (tlbHit_some hhit).2 va b
    · exact hs.fault hsw hAB hfault (hop hmiss)
  | _ => exact hop.elim

end Isolated

/-- While `B` runs, with nothing of `A` in the TLB at first, any sequence of its faults, loads and
stores that spares the slots of `A` leaves the contents of every page of `A` as they were. -/
theorem contents_isolated_in_every_run {s u : VmState} {A B : Ptr} {as : AddrSpace} (hs : Paged s)
    (hsw : SwapTable s.swapspace) (hAB : A ≠ B) (hA : s.spaces A = some as)
    (hcur : s.curAddrspace = some B)
    (htlb : ∀ i (v : Page), (s.tlb i).valid = true → mapping s (A, v) ≠ some (s.tlb i).ppage)
    (hu : Reach Op.exec (fun t op => op.Spares A t) s u) :
    ∀ v : Page, v.1 ∈ as.swapPages → pageBytes u (A, v) = pageBytes s (A, v) := by
  have hinit : Isolated s A B as.swapPages s :=
    ⟨hs, rfl, hcur, ⟨as, hA, rfl⟩, htlb, fun _ _ => rfl⟩
  have hrun := hu.invariant_ok hinit fun t op t' ht hop hexec => ht.step hsw hAB hop hexec
  exact hrun.contents

/-- Two processes that run the same program: the second one's first store is not seen by the
first. -/
theorem contents_isolated_after_store :
    ∃ u, (∀ v : Page, v.1 ∈ sampleSpace.swapPages →
      pageBytes u (1, v) = pageBytes (processes [1, 2]) (1, v)) ∧
      (pageBytes u (2, pageOf 0x10008000#32)).map (· 0) = some 9 := by
  have hspare : FaultSpares 1 (processes [1, 2]) 0x10008000#32 := by
    rintro B as - - v - ⟨-, hfull, -⟩
    exact absurd hfull (by decide +kernel)
  have h₀ : Reach Op.exec (fun t op => op.Spares 1 t) (processes [1, 2]) _ := .refl
  have h₁ := h₀.next (.fault .write 0x10008000#32) hspare (by decide +kernel)
  have h₂ := h₁.next (.store 0x10008000#32 9) (fun h => absurd h (by decide +kernel))
    (by decide +kernel)
  refine ⟨_, contents_isolated_in_every_run (processes_paged [1, 2])
    (.of_mapIdx (fun _ _ => rfl) (by decide +kernel)) (by decide) rfl rfl ?_ h₂, by decide +kernel⟩
  intro i v hvalid
  rw [show (processes [1, 2]).tlb i = ⟨tlbhiInvalid i, tlbloInvalid⟩ from rfl,
    valid_tlbloInvalid] at hvalid
  cases hvalid

/-- The second process touches 30 pages, writes 9 to the ninth and touches one more. The ninth is
evicted to the slot of its address, which is the first process's. -/
def evictSharedAddress : List Op :=
  ((List.range 30).map fun i => .fault .write (0x10000000#32 + BitVec.ofNat 32 i * pageSize)) ++
    [.store 0x10008000#32 9, .fault .read 0x1001e000#32]

/-- Without the condition on the steps, a process writes into another's page. -/
theorem swapped_page_overwritten :
    ∃ s A B as u, ∃ v : Page, Paged s ∧ SwapTable s.swapspace ∧ A ≠ B ∧ s.spaces A = some as ∧
      s.spaces B = some as ∧ s.curAddrspace = some B ∧ (∀ i, (s.tlb i).valid = false) ∧
      Reach Op.exec (fun _ op => op.IsAccess) s u ∧ v.1 ∈ as.swapPages ∧
      pageBytes u (A, v) ≠ pageBytes s (A, v) := by
  refine ⟨processes [1, 2], 1, 2, sampleSpace, _, pageOf 0x10008000#32, processes_paged [1, 2],
    .of_mapIdx (fun _ _ => rfl) (by decide +kernel), by decide, rfl, rfl, rfl,
    fun i => valid_tlbloInvalid _, reach_forM evictSharedAddress ?_ .refl (by decide +kernel),
    by decide +kernel, fun heq => ?_⟩
  · intro op hop t
    simp only [evictSharedAddress, List.mem_append, List.mem_map, List.mem_cons, List.not_mem_nil,
      or_false] at hop
    rcases hop with ⟨i, -, rfl⟩ | rfl | rfl <;> trivial
  · have hbyte := congrArg (Option.map fun bytes => bytes 0) heq
    exact absurd hbyte (by decide +kernel)

end Os161.Vm

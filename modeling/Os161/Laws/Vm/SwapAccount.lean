import Mathlib.Algebra.BigOperators.Finprod
import Os161.Vm.Boot
import Os161.Laws.Vm.Fault
import Os161.Laws.Vm.Loader

/-!
# Who owns the swap slots

Loading a program enters every page of its address space in the swap table. The account is balanced
when the entered slots are as many as the pages of the live address spaces. Loading keeps it
balanced, and nothing a running process does touches it. `as_destroy` does not: `swapspace_remove`
exists but is never called, so the slots of a process stay entered after its exit, and programs run
one after the other fill the table.
-/

namespace Os161.Vm

open Os161.Lib

variable {s t : VmState} {p : Ptr} {f : Executable} {eh : ElfEhdr}
variable {as : AddrSpace} {slots : List PageTableEntry}

/-! ## Entering pages -/

/-- The pages `swapspace_load_as` enters for an address space. -/
def AddrSpace.swapEntries (as : AddrSpace) : Nat :=
  as.npages1.toNat + as.npages2.toNat + initStackpages

theorem AddrSpace.length_swapPages (as : AddrSpace) : as.swapPages.length = as.swapEntries := by
  simp [AddrSpace.swapPages, AddrSpace.swapEntries, Nat.add_assoc]

theorem SameRegions.swapEntries {as' : AddrSpace} (h : SameRegions as as') :
    as'.swapEntries = as.swapEntries := by
  rw [← as'.length_swapPages, h.swapPages, as.length_swapPages]

/-- The slots that are entered. -/
def usedSlots (slots : List PageTableEntry) : Nat := slots.countP (·.validBit)

theorem usedSlots_of_full (h : ¬ freeSlot slots < slots.length) :
    usedSlots slots = slots.length := by
  refine List.countP_eq_length.mpr fun e he => ?_
  have hnone := fun x hx => List.findIdx_eq_length.mp
    (Nat.le_antisymm List.findIdx_le_length (Nat.not_lt.mp h)) x hx
  simpa using hnone e he

theorem usedSlots_insert {g : PageTableEntry → PageTableEntry}
    (hg : ∀ e, (g e).validBit = true) (h : freeSlot slots < slots.length) :
    usedSlots (slots.modify (freeSlot slots) g) = usedSlots slots + 1 := by
  induction slots with
  | nil => cases h
  | cons e slots ih =>
    unfold freeSlot usedSlots at *
    cases he : e.validBit with
    | false => simp [List.findIdx_cons, he, hg]
    | true =>
      simp only [List.findIdx_cons, he, Bool.not_true, cond_false, List.length_cons,
        Nat.add_lt_add_iff_right] at h
      simp [List.findIdx_cons, he, ih h]

theorem swapspaceInsert_ok (h : freeSlot s.swapspace < s.swapspace.length) (v : Vaddr) (pid : Int) :
    ∃ n w, swapspaceInsert v pid s = .ok () { s with swapInsertions := n, swapspace := w } ∧
      usedSlots w = usedSlots s.swapspace + 1 ∧ w.length = s.swapspace.length := by
  refine ⟨s.swapInsertions + 1, s.swapspace.modify (freeSlot s.swapspace) fun e =>
    { e with virtualAddr := v, counter := 0, pid := pid, validBit := true }, ?_, ?_, ?_⟩
  · unfold swapspaceInsert
    rw [bind_ok (modify_apply _ s), bind_ok (get_apply _)]
    simp only [decide_eq_true h]
    rfl
  · exact usedSlots_insert (fun _ => rfl) h
  · exact List.length_modify ..

theorem swapspaceInsert_error (h : ¬ freeSlot s.swapspace < s.swapspace.length) (v : Vaddr)
    (pid : Int) :
    ∃ t, swapspaceInsert v pid s = .error (.kassert .swapInsertRoom) t := by
  unfold swapspaceInsert
  rw [bind_ok (modify_apply _ s), bind_ok (get_apply _)]
  simp only [decide_eq_false h]
  exact ⟨_, rfl⟩

theorem swapInserts_cases (pages : List Vaddr) (pid : Int) (s : VmState) :
    (∃ n w, (pages.forM fun v => swapspaceInsert v pid : Kernel Unit) s =
        .ok () { s with swapInsertions := n, swapspace := w } ∧
      usedSlots w = usedSlots s.swapspace + pages.length ∧ w.length = s.swapspace.length) ∨
    (∃ t, (pages.forM fun v => swapspaceInsert v pid : Kernel Unit) s =
        .error (.kassert .swapInsertRoom) t ∧
      s.swapspace.length < usedSlots s.swapspace + pages.length) := by
  induction pages generalizing s with
  | nil => exact .inl ⟨s.swapInsertions, s.swapspace, rfl, rfl, rfl⟩
  | cons v pages ih =>
    by_cases hfree : freeSlot s.swapspace < s.swapspace.length
    · obtain ⟨n, w, hins, hused, hlen⟩ := swapspaceInsert_ok hfree v pid
      have hcons := forM_cons_ok (g := fun v => swapspaceInsert v pid) (l := pages) hins
      rcases ih { s with swapInsertions := n, swapspace := w } with
        ⟨n', w', heq, hused', hlen'⟩ | ⟨t, heq, hsmall⟩
      · refine .inl ⟨n', w', hcons.trans heq, ?_, hlen'.trans hlen⟩
        simp only [hused, List.length_cons] at hused' ⊢
        omega
      · refine .inr ⟨t, hcons.trans heq, ?_⟩
        simp only [hused, hlen, List.length_cons] at hsmall ⊢
        omega
    · obtain ⟨t, hins⟩ := swapspaceInsert_error hfree v pid
      refine .inr ⟨t, bind_error hins, ?_⟩
      rw [usedSlots_of_full hfree, List.length_cons]
      omega

/-! ## The books -/

/-- The books of a state: `R` is how many pages each live address space has, `w` the swap table. The
block of a live address space is in use. -/
structure Books (R : Ptr → Option Nat) (w : List PageTableEntry) (s : VmState) : Prop where
  entries : ∀ q, (s.spaces q).map AddrSpace.swapEntries = R q
  slots : s.swapspace = w
  blocks : ∀ q, R q ≠ none → q ∈ s.heap.live

/-- What no operation but entering pages stops with. -/
def NotRoom (e : Fault) : Prop := e ≠ .kassert .swapInsertRoom

section

variable {R : Ptr → Option Nat} {w : List PageTableEntry}
variable {n : Nat}

theorem Books.set_space (h : Books R w s) (as : AddrSpace) (hn : as.swapEntries = n)
    (hp : p ∈ s.heap.live) :
    Books (Function.update R p (some n)) w
      { s with spaces := Function.update s.spaces p (some as) } := by
  refine ⟨fun q => ?_, h.slots, fun q hq => ?_⟩
  · show (Function.update s.spaces p (some as) q).map _ = _
    by_cases hqp : q = p
    · rw [hqp, Function.update_self, Function.update_self, Option.map_some, hn]
    · rw [Function.update_of_ne hqp, Function.update_of_ne hqp, h.entries]
  · by_cases hqp : q = p
    · rw [hqp]
      exact hp
    · rw [Function.update_of_ne hqp] at hq
      exact h.blocks q hq

theorem books_closed (R : Ptr → Option Nat) (w : List PageTableEntry) :
    Closed (Books R w) NotRoom (fun _ => True) (fun _ => True) fun b => R b = none where
  counters _ _ _ _ _ _ h := ⟨h.entries, h.slots, h.blocks⟩
  alloc s b h hpick := by
    refine ⟨?_, h.entries, h.slots, fun q hq => List.mem_cons_of_mem _ (h.blocks q hq)⟩
    -- a block in use is not answered with, and the blocks of the live address spaces are in use
    by_contra hb
    exact s.heap.fresh _ b hpick (h.blocks b hb)
  free s b h hb := by
    refine ⟨h.entries, h.slots, fun q hq => ?_⟩
    have hqb : q ≠ b := by
      rintro rfl
      exact hq hb
    exact (List.mem_erase_of_ne hqb).mpr (h.blocks q hq)
  tables s q as as' h hq hsame := by
    have hR : R q = some as'.swapEntries := by
      rw [← h.entries q, hq, hsame.swapEntries]
      rfl
    have := h.set_space (p := q) as' rfl (h.blocks q (by rw [hR]; exact nofun))
    rwa [← hR, Function.update_eq_self] at this
  row _ _ _ h _ := ⟨h.entries, h.slots, h.blocks⟩
  enter _ _ _ h _ _ := ⟨h.entries, h.slots, h.blocks⟩
  memory _ _ _ h := ⟨h.entries, h.slots, h.blocks⟩
  insertTlb v a _ := insertTlbEntry_safe (fun _ _ _ h => ⟨h.entries, h.slots, h.blocks⟩) nofun v a
  invalidateTlb := tlbInvalidate_safe (fun _ _ _ h => ⟨h.entries, h.slots, h.blocks⟩) nofun
  badPointer := nofun
  outOfBounds := nofun
  readonlyFault := nofun
  livelock := nofun
  assertion a _ ha heq := ha (Fault.kassert.inj heq)
  regions := .inl fun a ha heq => by
    cases Fault.kassert.inj heq
    exact ha

/-! ## Loading a program -/

theorem copySegments_books :
    Safe (Books R w) NotRoom (eachSegment f eh (loadSegment f) (List.range eh.ePhnum.toNat)) := by
  have hC := books_closed R w
  have hstore (va : Vaddr) (b : UInt8) : Safe (Books R w) NotRoom (Op.store va b).exec :=
    hC.userStore_safe (hC.allocOk (fun _ _ h => ⟨h.entries, h.slots, h.blocks⟩) fun _ => trivial)
      va b fun _ => trivial
  let ok (_ : VmState) (op : Op) : Prop := ∃ va b, op = .store va b
  have hmade : MadeOf Op.exec ok (· = .livelock)
      (eachSegment f eh (loadSegment f) (List.range eh.ePhnum.toNat)) :=
    copySegments_madeOf (S := Set.univ) (fun _ va b _ _ => ⟨va, b, rfl⟩)
      fun _ _ => Set.subset_univ _
  have hrun {s u : VmState} (hs : Books R w s) (hu : Reach Op.exec ok s u) : Books R w u := by
    refine hu.invariant hs ?_
    rintro u op hu ⟨va, b, rfl⟩
    exact (hstore va b).leaves hu
  intro s hs
  have hout := hmade s s .refl
  split at hout
  · exact hrun hs hout
  · rcases hout with ⟨rfl, hu⟩ | ⟨u, op, hu, ⟨va, b, rfl⟩, hexec⟩
    · exact ⟨hrun hs hu, nofun⟩
    · exact (hstore va b).of_error (hrun hs hu) hexec

theorem loadSegments_books (f : Executable) (eh : ElfEhdr) (hp : R p = some n) :
    Triple (Books R w) (loadSegments p f eh)
      (fun _ t => ∃ w', Books R w' t ∧ usedSlots w' = usedSlots w + n)
      fun e _ => e = .kassert .swapInsertRoom → w.length < usedSlots w + n := by
  intro s hs
  unfold loadSegments
  have hprep : Safe (Books R w) NotRoom (asPrepareLoad p) :=
    (books_closed R w).asPrepareLoad_safe (fun _ _ h => ⟨h.entries, h.slots, h.blocks⟩)
      (fun _ => trivial) p
  cases hx : asPrepareLoad p s with
  | error e u =>
    rw [bind_error hx]
    exact fun heq => absurd heq (hprep.fault hs hx)
  | ok r u =>
    rw [bind_ok hx, asPrepareLoad_none hx]
    have hu : Books R w u := Triple.of_ok hprep hs hx
    obtain ⟨as, has, hentries⟩ := Option.map_eq_some_iff.mp ((hu.entries p).trans hp)
    have hload : swapspaceLoadAs p u =
        (as.swapPages.forM fun v => swapspaceInsert v as.pid : Kernel Unit) u :=
      bind_ok (derefSpace_ok has)
    rcases swapInserts_cases as.swapPages as.pid u with
      ⟨m, w', heq, hused, -⟩ | ⟨u', heq, hsmall⟩
    · rw [as.length_swapPages, hentries, hu.slots] at hused
      have hu' : Books R w' { u with swapInsertions := m, swapspace := w' } :=
        ⟨hu.entries, rfl, hu.blocks⟩
      have hcopy : Triple (Books R w') (eachSegment f eh (loadSegment f) (List.range eh.ePhnum.toNat))
          (fun _ => Books R w') fun e _ => e = .kassert .swapInsertRoom →
            w.length < usedSlots w + n :=
        Triple.conseq copySegments_books (fun _ h => h) (fun _ _ h => h)
          fun _ _ h heq => absurd heq h.2
      simp only [bind_ok (hload.trans heq)]
      refine Triple.bind hcopy (fun r => ?_) _ hu'
      cases r with
      | some e => exact Triple.pure fun t ht => ⟨w', ht, hused⟩
      | none => exact Triple.pure fun t ht => ⟨w', ht, hused⟩
    · rw [as.length_swapPages, hentries, hu.slots] at hsmall
      simp only [bind_error (hload.trans heq)]
      exact fun _ => hsmall

theorem runprogram_books (hf : f.Accepted eh) :
    Triple (Books R w) (runprogram f)
      (fun _ t => Books R w t ∨ ∃ q n w', R q = none ∧
        Books (Function.update R q (some n)) w' t ∧ usedSlots w' = usedSlots w + n)
      fun e _ => e = .kassert .swapInsertRoom → ∃ as as' : AddrSpace, as.IsNew ∧
        as.defineRegions (f.segments eh) = .ok as' ∧ w.length < usedSlots w + as'.swapEntries := by
  intro s hs
  rcases asCreate_cases s with ⟨-, heq⟩ | ⟨q, as, hpick, hnew, heq⟩
  · have hrun : runprogram f s = .ok (.error .ENOMEM) { s with numVmFaults := 0 } := bind_ok heq
    rw [hrun]
    exact .inl ⟨hs.entries, hs.slots, hs.blocks⟩
  · obtain ⟨as', hdef⟩ := hf.regions as hnew
    obtain ⟨hq, halloc⟩ := (books_closed R w).alloc s q hs hpick
    let s₁ : VmState :=
      { s with
        numVmFaults := 0, heap := { s.heap with live := q :: s.heap.live }
        curAddrspace := some q, tlb := emptyTlb
        spaces := Function.update s.spaces q (some as) }
    let s₂ : VmState := { s₁ with spaces := Function.update s.spaces q (some as') }
    -- the first pass leaves the regions of the headers in the new address space
    have hpass : defineSegments q f eh s₁ = .ok none s₂ := by
      refine (defineSegments_ok hf.known (Function.update_self ..) hdef).trans ?_
      simp only [s₁, s₂, Function.update_idem]
    have hbooks : Books (Function.update R q (some as'.swapEntries)) w s₂ :=
      Books.set_space (s := { s₁ with spaces := s.spaces })
        ⟨halloc.entries, halloc.slots, halloc.blocks⟩ _ rfl List.mem_cons_self
    have hrun : runprogram f s = loadSegments q f eh s₂ :=
      (bind_ok heq).trans ((bind_ok (modify_apply _ _)).trans ((bind_ok (asActivate_eq _)).trans
        (loadElf_eq hf.ehdr hpass)))
    rw [hrun]
    have hload := loadSegments_books f eh (Function.update_self q (some _) R) s₂ hbooks
    split at hload
    · obtain ⟨w', hw', hused⟩ := hload
      exact .inr ⟨q, _, w', hq, hw', hused⟩
    · exact fun he => ⟨as, as', hnew, hdef, hload he⟩

end

/-! ## Balance -/

/-- The pages of the live address spaces. -/
noncomputable def VmState.swapOwed (s : VmState) : Nat :=
  ∑ᶠ q, ((s.spaces q).map AddrSpace.swapEntries).getD 0

/-- The books of a balanced state. -/
def SwapBalanced (s : VmState) : Prop :=
  ∃ R w, Books R w s ∧ usedSlots w = ∑ᶠ q, (R q).getD 0

theorem Books.swapOwed {R : Ptr → Option Nat} {w : List PageTableEntry} (h : Books R w s) :
    s.swapOwed = ∑ᶠ q, (R q).getD 0 :=
  finsum_congr fun q => by rw [h.entries]

theorem Books.sum_open {R : Ptr → Option Nat} {w : List PageTableEntry} (h : Books R w s) {q : Ptr}
    (hq : R q = none) (n : Nat) :
    ∑ᶠ x, (Function.update R q (some n) x).getD 0 = (∑ᶠ x, (R x).getD 0) + n := by
  have hlive : (Function.support fun x => (R x).getD 0).Finite := by
    refine (List.finite_toSet s.heap.live).subset fun x hx => h.blocks x ?_
    rintro hx'
    exact hx (by simp [hx'])
  have hone : ∑ᶠ x, (if x = q then n else 0) = n := by
    rw [finsum_eq_single _ q fun x hx => if_neg hx, if_pos rfl]
  have hsplit : ∀ x, (Function.update R q (some n) x).getD 0 =
      (R x).getD 0 + if x = q then n else 0 := by
    intro x
    by_cases hx : x = q
    · rw [hx, Function.update_self, hq, if_pos rfl]
      simp
    · rw [Function.update_of_ne hx, if_neg hx, Nat.add_zero]
  rw [finsum_congr hsplit, finsum_add_distrib hlive, hone]
  exact (Set.finite_singleton q).subset fun x hx => by
    by_contra hne
    exact hx (if_neg hne)

/-- What happens to the processes: one is started or exits, or the one that runs uses its memory or
is switched. -/
inductive Event where
  | launch (f : Executable)
  | exit (p : Ptr)
  | use (op : Op)

def Event.exec : Event → Kernel Unit
  | .launch f => do let _ ← runprogram f; pure ()
  | .exit p => exitSpace p
  | .use op => op.exec

/-- A program started has headers that `load_elf` accepts, and no process exits. -/
def Event.KeepsSlots (_ : VmState) : Event → Prop
  | .launch f => ∃ eh, f.Accepted eh
  | .exit _ => False
  | .use op => op.IsAccess ∨ ∃ q, op = .activate q

theorem SwapBalanced.step (h : SwapBalanced s) {e : Event} (he : e.KeepsSlots s)
    (hexec : e.exec s = .ok () t) : SwapBalanced t := by
  obtain ⟨R, w, hs, hsum⟩ := h
  have hC := books_closed R w
  have halloc := hC.allocOk (fun _ _ h => ⟨h.entries, h.slots, h.blocks⟩) fun _ => trivial
  have hkeep (hx : Safe (Books R w) NotRoom e.exec) : SwapBalanced t :=
    ⟨R, w, Triple.of_ok hx hs hexec, hsum⟩
  cases e with
  | exit p => exact he.elim
  | launch f =>
    obtain ⟨eh, hf⟩ := he
    obtain ⟨r, u, hrun, hrest⟩ := of_bind_ok hexec
    cases hrest
    rcases (runprogram_books hf).of_ok hs hrun with hsame | ⟨q, n, w', hq, hbooks, hused⟩
    · exact ⟨R, w, hsame, hsum⟩
    · exact ⟨_, w', hbooks, by rw [hused, hsum, hs.sum_open hq]⟩
  | use op =>
    rcases he with haccess | ⟨q, rfl⟩
    · cases op with
      | fault ft va =>
        exact hkeep (Safe.bind (hC.vmFault_safe halloc ft trivial) fun _ => Safe.pure _)
      | load va =>
        exact hkeep (Safe.bind (hC.userLoad_safe halloc va fun _ => trivial) fun _ => Safe.pure _)
      | store va b => exact hkeep (hC.userStore_safe halloc va b fun _ => trivial)
      | _ => exact haccess.elim
    · exact hkeep (Safe.bind (Safe.modify fun _ h => ⟨h.entries, h.slots, h.blocks⟩) fun _ =>
        asActivate_safe (fun _ _ _ h => ⟨h.entries, h.slots, h.blocks⟩) nofun)

/-- From a machine with no process and all slots free, in every run without an exit: the entered
slots are as many as the pages of the live address spaces, and `swapspace_insert` runs out of slots
only where the pages of the new program do not fit beside those. -/
theorem swap_slots_balanced_in_every_run (hfree : usedSlots s.swapspace = 0)
    (hnone : ∀ p, s.spaces p = none) {u : VmState}
    (hu : Reach Event.exec Event.KeepsSlots s u) :
    usedSlots u.swapspace = u.swapOwed ∧
      ∀ (f : Executable) (eh : ElfEhdr) (t : VmState), f.Accepted eh →
        runprogram f u = .error (.kassert .swapInsertRoom) t →
        ∃ as as' : AddrSpace, as.IsNew ∧ as.defineRegions (f.segments eh) = .ok as' ∧
          u.swapspace.length < u.swapOwed + as'.swapEntries := by
  have hinit : SwapBalanced s := by
    refine ⟨fun _ => none, s.swapspace, ⟨fun q => by rw [hnone q]; rfl, rfl, fun q hq => ?_⟩, ?_⟩
    · exact absurd rfl hq
    · rw [hfree]
      simp
  obtain ⟨R, w, hbooks, hsum⟩ := hu.invariant_ok hinit fun t e u ht he hexec => ht.step he hexec
  rw [hbooks.swapOwed, hbooks.slots]
  refine ⟨hsum, fun f eh t hf hrun => ?_⟩
  rw [← hsum]
  exact (runprogram_books hf).of_error hbooks hrun rfl

theorem twoSegments_accepted : twoSegments.Accepted (.decode (twoSegments.read 0 52)) where
  ehdr := rfl
  known i hi := by
    have hnum : (ElfEhdr.decode (twoSegments.read 0 52)).ePhnum.toNat = 2 := by decide +kernel
    rw [hnum] at hi
    match i with
    | 0 => exact ⟨_, rfl, by decide +kernel⟩
    | 1 => exact ⟨_, rfl, by decide +kernel⟩
  regions as hnew := by
    have hsegs : twoSegments.segments (.decode (twoSegments.read 0 52)) =
        [⟨1#32, 0#32, 0x400000#32, 4#32, 4096#32⟩, ⟨1#32, 0#32, 0x10000000#32, 0#32, 8192#32⟩] := by
      decide +kernel
    have hbase : (regionPages 0x400000#32 4096#32).1 ≠ 0#32 := by decide
    rw [hsegs]
    simp only [AddrSpace.defineRegions, AddrSpace.defineRegion, if_pos hnew.vbase1,
      if_neg hbase, if_pos hnew.vbase2]
    exact ⟨_, rfl⟩

/-- The machine of 15 slots after one program of 15 pages was loaded. -/
@[irreducible] def oneLoaded : VmState :=
  leaves ((Event.launch twoSegments).exec (readyToLoad 15))

theorem reach_oneLoaded : Reach Event.exec Event.KeepsSlots (readyToLoad 15) oneLoaded := by
  have hstart : Reach Event.exec Event.KeepsSlots (readyToLoad 15) (readyToLoad 15) := .refl
  unfold oneLoaded
  exact hstart.next (.launch twoSegments) ⟨_, twoSegments_accepted⟩ (by decide +kernel)

theorem swap_slots_balanced_after_load : usedSlots oneLoaded.swapspace = 15 ∧ oneLoaded.swapOwed = 15 := by
  have hused : usedSlots oneLoaded.swapspace = 15 := by decide +kernel
  have hrun := swap_slots_balanced_in_every_run (by decide +kernel) (fun _ => rfl) reach_oneLoaded
  exact ⟨hused, hrun.1.symm.trans hused⟩

/-! ## An exit -/

theorem of_asDestroy_ok (h : asDestroy p s = .ok () t) :
    t.swapspace = s.swapspace ∧ t.spaces = Function.update s.spaces p none := by
  unfold asDestroy at h
  obtain ⟨as, u, hderef, hrest⟩ := of_bind_ok h
  obtain ⟨-, rfl⟩ := of_derefSpace_ok hderef
  generalize as.level2Tables = tables at hrest
  let Same (v : VmState) : Prop := v.swapspace = u.swapspace ∧ v.spaces = u.spaces
  have hrow (i : Nat) (g : PageTableEntry → PageTableEntry) :
      Safe Same (fun _ => True) (updateRow i g) := by
    unfold updateRow
    split
    · exact Safe.modify fun _ h => h
    · exact Safe.throw trivial
  have htables : Safe Same (fun _ => True) (tables.forM releaseTable : Kernel Unit) :=
    Safe.forM _ fun l2 _ => Safe.bind (Safe.forM _ fun j _ => Safe.ite
      (fun _ => Safe.bind Safe.get fun _ => hrow _ _) fun _ => Safe.pure _) fun _ =>
        Safe.modify fun _ h => h
  obtain ⟨_, v, hloop, hrest⟩ := of_bind_ok hrest
  obtain ⟨hslots, hspaces⟩ := Triple.of_ok htables ⟨rfl, rfl⟩ hloop
  cases hrest
  exact ⟨hslots, by rw [← hspaces]⟩

theorem of_exitSpace_ok (h : exitSpace p s = .ok () t) :
    t.swapspace = s.swapspace ∧ t.spaces = Function.update s.spaces p none := by
  have hexit : exitSpace p s =
      asDestroy p { s with curAddrspace := none, tlb := emptyTlb } :=
    (bind_ok (modify_apply _ s)).trans (bind_ok (asActivate_eq _))
  have hdestroy := of_asDestroy_ok (hexit.symm.trans h)
  exact hdestroy

theorem SwapBalanced.exit (h : SwapBalanced s) (has : s.spaces p = some as)
    (hexit : exitSpace p s = .ok () t) :
    usedSlots t.swapspace = t.swapOwed + as.swapEntries := by
  obtain ⟨R, w, hs, hsum⟩ := h
  obtain ⟨hslots, hspaces⟩ := of_exitSpace_ok hexit
  have hR : R p = some as.swapEntries := by
    rw [← hs.entries p, has]
    rfl
  -- the books of the other processes, in the state before the exit
  have hothers : Books (Function.update R p none) w
      { s with spaces := Function.update s.spaces p none } := by
    refine ⟨fun q => ?_, hs.slots, fun q hq => hs.blocks q fun hnone => hq ?_⟩
    · show (Function.update s.spaces p none q).map _ = _
      by_cases hqp : q = p
      · rw [hqp, Function.update_self, Function.update_self]
        rfl
      · rw [Function.update_of_ne hqp, Function.update_of_ne hqp, hs.entries]
    · by_cases hqp : q = p
      · rw [hqp, Function.update_self]
      · rw [Function.update_of_ne hqp, hnone]
  have howed : t.swapOwed = ∑ᶠ q, (Function.update R p none q).getD 0 := by
    rw [← hothers.swapOwed]
    unfold VmState.swapOwed
    rw [hspaces]
  have hopen := hothers.sum_open (Function.update_self p none R) as.swapEntries
  rw [Function.update_idem, ← hR, Function.update_eq_self] at hopen
  rw [hslots, hs.slots, hsum, howed, hopen]

/-- The same machine after its exit. -/
@[irreducible] def oneExited : VmState := leaves (exitSpace 1 oneLoaded)

/-- One program of 15 pages on a machine of 15 slots: after its exit there is no process, every slot
is still entered, and the same program cannot be loaded again. -/
theorem exited_program_keeps_its_slots : Reach Event.exec (fun _ _ => True) (readyToLoad 15) oneExited ∧
      usedSlots oneExited.swapspace = 15 ∧ oneExited.swapOwed = 0 ∧
      fault? ((Event.launch twoSegments).exec oneExited) = some (.kassert .swapInsertRoom) := by
  have hexit : exitSpace 1 oneLoaded = .ok () oneExited := by
    unfold oneExited
    exact eq_ok_of_value (by decide +kernel)
  have hused : usedSlots oneExited.swapspace = 15 := by
    rw [(of_exitSpace_ok hexit).1]
    decide +kernel
  have hbalanced : SwapBalanced oneLoaded := by
    refine reach_oneLoaded.invariant_ok ?_ fun t e u ht he hexec => ht.step he hexec
    refine ⟨fun _ => none, (readyToLoad 15).swapspace, ⟨fun _ => rfl, rfl, fun _ h => absurd rfl h⟩, ?_⟩
    rw [show usedSlots (readyToLoad 15).swapspace = 0 by decide +kernel]
    simp
  obtain ⟨as, has, hentries⟩ : ∃ as, oneLoaded.spaces 1 = some as ∧ as.swapEntries = 15 :=
    Option.map_eq_some_iff.mp (by decide +kernel)
  have hleak := hbalanced.exit has hexit
  rw [hused, hentries] at hleak
  refine ⟨?_, hused, by omega, by decide +kernel⟩
  have hstart : Reach Event.exec (fun _ _ => True) (readyToLoad 15) (readyToLoad 15) := .refl
  have hloaded : Reach Event.exec (fun _ _ => True) (readyToLoad 15) oneLoaded := by
    unfold oneLoaded
    exact hstart.next (.launch twoSegments) trivial (by decide +kernel)
  exact .step (i := .exit 1) hloaded trivial hexit

end Os161.Vm

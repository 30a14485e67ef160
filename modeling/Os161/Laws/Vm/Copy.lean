import Os161.Laws.Vm.Primitives
import Os161.Vm.Boot

/-!
# `as_copy`

The new address space has no level-2 table, and `as_copy` makes none: the first valid entry it comes to is written
through `NULL`. It returns after the first level-2 table of the old address space, and without a value when there is
none. So it makes a copy exactly when there is a table and nothing to copy.
-/

namespace Os161.Vm

open Os161.Lib

variable {s t : VmState}
variable {p : Ptr} {e : PageTableEntry}

/-- Whether an address space has a valid entry in the slot `j` of the level-2 table `i`. -/
def AddrSpace.validAt (as : AddrSpace) (i : Fin maxLevel1Pt) (j : Fin maxLevel2Pt) (e : PageTableEntry) : Prop :=
  ∃ l2, as.table i = some l2 ∧ l2.table j = e ∧ e.validBit = true

/-- What `as_copy` should leave: `new` has the regions of `old`, and a valid entry exactly where `old` has one, on a
frame that was not in use, with the same bytes; `old` is what it was, and so are its frames. -/
structure ExactCopy (s t : VmState) (p q : Ptr) (old new : AddrSpace) : Prop where
  made : t.spaces q = some new
  vbase1 : new.vbase1 = old.vbase1
  npages1 : new.npages1 = old.npages1
  vbase2 : new.vbase2 = old.vbase2
  npages2 : new.npages2 = old.npages2
  valid : ∀ i j, (∃ e, new.validAt i j e) ↔ ∃ e, old.validAt i j e
  fresh : ∀ i j e r, new.validAt i j e → (s.pft r).validBit = true → e.physicalAddr ≠ (s.pft r).physicalAddr
  bytes : ∀ i j e e', old.validAt i j e → new.validAt i j e' →
    ramPage t.ram e'.physicalAddr = ramPage s.ram e.physicalAddr
  kept : t.spaces p = some old
  frames : ∀ i j e, old.validAt i j e → ramPage t.ram e.physicalAddr = ramPage s.ram e.physicalAddr

theorem updateSlot_error {as : AddrSpace} {i : Fin maxLevel1Pt} (h : s.spaces p = some as)
    (hi : as.table i = none) (j : Fin maxLevel2Pt) (f : PageTableEntry → PageTableEntry) :
    updateSlot p i j f s = .error .badPointer s := by
  simp only [updateSlot, updateSpace, bind_apply, get_apply, h, Option.bind_some, hi, Option.map_none]
  rfl

theorem copyEntry_invalid (h : e.validBit = false) (newas : Ptr) (i : Fin maxLevel1Pt)
    (j : Fin maxLevel2Pt) : copyEntry newas i j e s = .ok () s := by
  unfold copyEntry
  rw [if_neg (by rw [h]; exact nofun)]
  rfl

theorem copyEntry_valid (h : e.validBit = true) {newas : Ptr} {new : AddrSpace}
    (hnew : s.spaces newas = some new) {i : Fin maxLevel1Pt} (hi : new.table i = none) (j : Fin maxLevel2Pt) :
    copyEntry newas i j e s = .error .badPointer s := by
  unfold copyEntry
  rw [if_pos h]
  exact bind_error (updateSlot_error hnew hi j _)

section Loop

variable {newas : Ptr} {new : AddrSpace} {i : Fin maxLevel1Pt} {l2 : PageTableLevel2}

theorem copyLoop_invalid (l : List (Fin maxLevel2Pt)) (h : ∀ j ∈ l, (l2.table j).validBit = false) :
    (l.forM fun j => copyEntry newas i j (l2.table j)) s = .ok () s := by
  induction l with
  | nil => rfl
  | cons j l ih =>
    refine (bind_ok (copyEntry_invalid (h j List.mem_cons_self) newas i j)).trans ?_
    exact ih fun k hk => h k (List.mem_cons_of_mem _ hk)

theorem of_copyLoop_ok (hnew : s.spaces newas = some new) (hi : new.table i = none) (l : List (Fin maxLevel2Pt))
    (h : (l.forM fun j => copyEntry newas i j (l2.table j)) s = .ok () t) :
    ∀ j ∈ l, (l2.table j).validBit = false := by
  induction l with
  | nil => exact nofun
  | cons j l ih =>
    obtain ⟨_, u, hj, hrest⟩ := of_bind_ok h
    cases hvalid : (l2.table j).validBit with
    | true => cases (copyEntry_valid hvalid hnew hi j).symm.trans hj
    | false =>
      cases (copyEntry_invalid hvalid newas i j).symm.trans hj
      intro k hk
      rcases List.mem_cons.mp hk with rfl | hk
      · exact hvalid
      · exact ih hrest k hk

end Loop

/-! ## The tables -/

section Tables

variable {old new : AddrSpace} {newas : Ptr}

theorem copyTables_empty (hvalid : ∀ i j e, ¬ old.validAt i j e) (l : List (Fin maxLevel1Pt))
    (hsome : ∃ i ∈ l, (old.table i).isSome) : copyTables old newas l s = .ok (some (.ok newas)) s := by
  induction l with
  | nil =>
    obtain ⟨i, hi, -⟩ := hsome
    cases hi
  | cons i l ih =>
    cases hi : old.table i with
    | none =>
      obtain ⟨k, hk, hsome⟩ := hsome
      have hne : k ∈ l := by
        rcases List.mem_cons.mp hk with rfl | hk
        · rw [hi] at hsome
          cases hsome
        · exact hk
      simp only [copyTables, hi]
      exact ih ⟨k, hne, hsome⟩
    | some l2 =>
      have hno (j : Fin maxLevel2Pt) : (l2.table j).validBit = false := by
        have := hvalid i j (l2.table j)
        rw [← Bool.not_eq_true]
        exact fun hv => this ⟨l2, hi, rfl, hv⟩
      simp only [copyTables, hi]
      exact bind_ok (copyLoop_invalid _ fun j _ => hno j)

theorem of_copyTables_ok (hnew : s.spaces newas = some new) (htable : ∀ i, new.table i = none)
    (l : List (Fin maxLevel1Pt)) {r : Except Errno Ptr} (h : copyTables old newas l s = .ok (some r) t) :
    (∃ i, (old.table i).isSome) ∧ r = .ok newas ∧ t = s := by
  induction l with
  | nil => cases h
  | cons i l ih =>
    cases hi : old.table i with
    | none =>
      simp only [copyTables, hi] at h
      exact ih h
    | some l2 =>
      simp only [copyTables, hi] at h
      obtain ⟨_, u, hloop, hpure⟩ := of_bind_ok h
      have hinvalid := of_copyLoop_ok hnew (htable i) _ hloop
      rw [copyLoop_invalid _ hinvalid] at hloop
      cases hloop
      cases hpure
      exact ⟨⟨i, by rw [hi]; rfl⟩, rfl, rfl⟩

end Tables

/-! ## The copy -/

theorem asCopy_eq {q : Ptr} {old : AddrSpace} (hp : s.spaces p = some old) (hlive : p ∈ s.heap.live)
    (hq : s.heap.pick s.heap.live = some q) :
    ∃ u new, asCopy p s = copyTables old q (List.finRange maxLevel1Pt) u ∧ u.spaces q = some new ∧
      u.spaces p = some old ∧ u.ram = s.ram ∧ (∀ i, new.table i = none) ∧ new.vbase1 = old.vbase1 ∧
      new.npages1 = old.npages1 ∧ new.vbase2 = old.vbase2 ∧ new.npages2 = old.npages2 := by
  have hne : p ≠ q := by
    rintro rfl
    exact s.heap.fresh _ _ hq hlive
  rcases asCreate_cases s with ⟨hnone, -⟩ | ⟨q', as, hq', hnew, hcreate⟩
  · rw [hq] at hnone
    cases hnone
  · cases hq.symm.trans hq'
    let u₁ : VmState :=
      { s with
        numVmFaults := 0
        heap := { s.heap with live := q :: s.heap.live }
        spaces := Function.update s.spaces q (some as) }
    have hold : u₁.spaces p = some old := (Function.update_of_ne hne ..).trans hp
    refine ⟨_, _, (bind_ok hcreate).trans ((bind_ok (derefSpace_ok hold)).trans
      (bind_ok (updateSpace_ok (Function.update_self ..) rfl))), Function.update_self .., ?_, rfl, hnew.table,
      rfl, rfl, rfl, rfl⟩
    exact (Function.update_of_ne hne ..).trans hold

theorem asCopy_null (hq : s.heap.pick s.heap.live = none) :
    ∃ u, asCopy p s = .ok (some (.error .ENOMEM)) u := by
  rcases asCreate_cases s with ⟨-, hcreate⟩ | ⟨q, as, hq', -⟩
  · exact ⟨_, bind_ok hcreate⟩
  · rw [hq] at hq'
    cases hq'

/-- `as_copy` makes an exact copy exactly when `kmalloc` has a block, the old address space has a level-2 table, and
none of its entries is valid. -/
theorem asCopy_exact_iff (s : VmState) (p : Ptr) (old : AddrSpace) (hp : s.spaces p = some old)
    (hlive : p ∈ s.heap.live) :
    (∃ q t new, asCopy p s = .ok (some (.ok q)) t ∧ ExactCopy s t p q old new) ↔
      (s.heap.pick s.heap.live).isSome ∧ (∃ i, (old.table i).isSome) ∧ ∀ i j e, ¬ old.validAt i j e := by
  cases hq : s.heap.pick s.heap.live with
  | none =>
    obtain ⟨u, hnull⟩ := asCopy_null (p := p) hq
    constructor
    · rintro ⟨q, t, new, hrun, -⟩
      rw [hnull] at hrun
      cases hrun
    · rintro ⟨hsome, -⟩
      cases hsome
  | some q =>
    obtain ⟨u, new, heq, hnew, hold, hram, htable, h₁, h₂, h₃, h₄⟩ := asCopy_eq hp hlive hq
    have hnone (i : Fin maxLevel1Pt) (j : Fin maxLevel2Pt) (e : PageTableEntry) : ¬ new.validAt i j e := by
      rintro ⟨l2, hl2, -⟩
      rw [htable i] at hl2
      cases hl2
    rw [heq]
    constructor
    · rintro ⟨q', t, new', hrun, hcopy⟩
      obtain ⟨hsome, hq', rfl⟩ := of_copyTables_ok hnew htable _ hrun
      cases hq'
      have hsame : new' = new := Option.some.inj (hcopy.made.symm.trans hnew)
      refine ⟨rfl, hsome, fun i j e he => ?_⟩
      obtain ⟨e', he'⟩ := (hcopy.valid i j).mpr ⟨e, he⟩
      exact hnone i j e' (hsame ▸ he')
    · rintro ⟨-, ⟨i, hi⟩, hvalid⟩
      refine ⟨q, u, new, copyTables_empty hvalid _ ⟨i, List.mem_finRange i, hi⟩, ?_⟩
      refine ⟨hnew, h₁, h₂, h₃, h₄, fun i j => ?_, fun i j e _ he => absurd he (hnone i j e),
        fun i j e _ he => absurd he (hvalid i j e), hold, fun i j e he => absurd he (hvalid i j e)⟩
      exact ⟨fun ⟨e, he⟩ => absurd he (hnone i j e), fun ⟨e, he⟩ => absurd he (hvalid i j e)⟩

/-- An address space with one level-2 table, with the entries given. -/
def tableSpace (table : Fin maxLevel2Pt → PageTableEntry) : AddrSpace :=
  { sampleSpace with table := fun i => if i = 0 then some ⟨2, table⟩ else none }

/-- A process with that address space. -/
def oneTable (table : Fin maxLevel2Pt → PageTableEntry) : VmState :=
  { readyToLoad 0 with
    spaces := fun p => if p = 1 then some (tableSpace table) else none
    heap := { KHeap.roomy with live := [1] } }

theorem asCopy_exact_empty_table : ∃ q t new, asCopy 1 (oneTable (freshLevel2 2).table) = .ok (some (.ok q)) t ∧
    ExactCopy (oneTable (freshLevel2 2).table) t 1 q (tableSpace (freshLevel2 2).table) new := by
  refine (asCopy_exact_iff _ 1 _ rfl List.mem_cons_self).mpr ⟨rfl, ⟨0, rfl⟩, ?_⟩
  rintro i j e ⟨l2, hl2, rfl, hvalid⟩
  unfold tableSpace at hl2
  dsimp only at hl2
  split at hl2
  · cases hl2
    cases hvalid
  · cases hl2

/-- The frame of a page is never copied: the store of its valid bit goes through `NULL`. -/
theorem asCopy_page_faults :
    ∃ t, asCopy 1 (oneTable fun _ => { (default : PageTableEntry) with validBit := true }) = .error .badPointer t := by
  obtain ⟨u, new, heq, hnew, -, -, htable, -⟩ :=
    asCopy_eq (s := oneTable fun _ => { (default : PageTableEntry) with validBit := true }) (p := 1) (q := 2) rfl
      List.mem_cons_self rfl
  refine ⟨u, heq.trans ?_⟩
  rw [List.finRange_succ, copyTables, List.finRange_succ]
  exact bind_error (bind_error (copyEntry_valid rfl hnew (htable 0) 0))

end Os161.Vm

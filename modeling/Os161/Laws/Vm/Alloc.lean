import Os161.Laws.Vm.Closed

/-!
# The frame allocator, run

`virtual_alloc_kpages` in closed form: it takes the first free rows in table order, and only where
they do not suffice does it go on to replacement. The scan is described by the list of rows it
takes, so that a caller reads off which frames it was given and what happened to the table.
-/

namespace Os161.Vm

open Os161.Lib

variable {s : VmState}
variable {i k : Nat}

/-- The address boot gives to row `i`. -/
def frameAddr (b : Paddr) (i : Nat) : Paddr := b + BitVec.ofNat 32 i * pageSize

theorem frameIndex_frameAddr (b : Paddr) (hi : i < maxPmSize) :
    frameIndex b (frameAddr b i) = i := by
  have : i < 30 := hi
  have hsub : frameAddr b i - b = BitVec.ofNat 32 (i * 4096) := by
    unfold frameAddr
    rw [BitVec.add_comm, BitVec.add_sub_cancel]
    apply BitVec.eq_of_toNat_eq
    simp only [BitVec.toNat_mul, BitVec.toNat_ofNat, pageSize]
    omega
  unfold frameIndex
  rw [hsub, BitVec.toNat_ushiftRight, BitVec.toNat_ofNat, Nat.shiftRight_eq_div_pow]
  omega

/-- The free rows, in table order. -/
def VmState.freeRows (s : VmState) : List (Fin maxPmSize) :=
  (List.finRange maxPmSize).filter fun i => !(s.pft i).validBit

/-- What the scan does to a row it takes. -/
def PageTableEntry.taken (r : PageTableEntry) : PageTableEntry :=
  { r with validBit := true, dirtyBit := false, refBit := false }

/-- The table with some rows taken. -/
def takeRows (pft : Fin maxPmSize → PageTableEntry) (rows : List (Fin maxPmSize)) :
    Fin maxPmSize → PageTableEntry :=
  fun i => if i ∈ rows then (pft i).taken else pft i

@[simp] theorem takeRows_nil (pft : Fin maxPmSize → PageTableEntry) : takeRows pft [] = pft := by
  funext i
  simp [takeRows]

@[simp] theorem takeRows_physicalAddr (pft : Fin maxPmSize → PageTableEntry)
    (rows : List (Fin maxPmSize)) (i : Fin maxPmSize) :
    (takeRows pft rows i).physicalAddr = (pft i).physicalAddr := by
  unfold takeRows
  split <;> rfl

theorem takeRows_cons (pft : Fin maxPmSize → PageTableEntry) {i : Fin maxPmSize}
    {rows : List (Fin maxPmSize)} (hi : i ∉ rows) :
    takeRows (Function.update pft i (pft i).taken) rows = takeRows pft (i :: rows) := by
  funext x
  by_cases hx : x = i
  · subst hx
    simp [takeRows, hi]
  · simp [takeRows, hx]

/-- Addresses stored at consecutive positions of a list, from `j` on. -/
def placeAt (pList : Nat → Paddr) (j : Nat) : List Paddr → Nat → Paddr
  | [] => pList
  | p :: ps => placeAt (Function.update pList j p) (j + 1) ps

theorem placeAt_before (ps : List Paddr) (pList : Nat → Paddr) {j x : Nat} (h : x < j) :
    placeAt pList j ps x = pList x := by
  induction ps generalizing pList j with
  | nil => rfl
  | cons p ps ih =>
    rw [placeAt, ih _ (by omega), Function.update_of_ne (by omega)]

theorem placeAt_get (ps : List Paddr) (pList : Nat → Paddr) (j : Nat) {n : Nat}
    (h : n < ps.length) : placeAt pList j ps (j + n) = ps[n] := by
  induction ps generalizing pList j n with
  | nil => cases h
  | cons p ps ih =>
    cases n with
    | zero => rw [placeAt, placeAt_before _ _ (by omega)]; simp
    | succ n =>
      rw [placeAt, show j + (n + 1) = j + 1 + n by omega, ih _ _ (by simpa using h)]
      rfl

theorem finRange_drop (h : i < maxPmSize) :
    (List.finRange maxPmSize).drop i = ⟨i, h⟩ :: (List.finRange maxPmSize).drop (i + 1) := by
  rw [List.drop_eq_getElem_cons (by simpa using h)]
  simp

theorem notMem_drop_succ (h : i < maxPmSize) :
    (⟨i, h⟩ : Fin maxPmSize) ∉ (List.finRange maxPmSize).drop (i + 1) := by
  have hnodup := (List.nodup_finRange maxPmSize).sublist (List.drop_sublist i _)
  rw [finRange_drop h] at hnodup
  exact (List.nodup_cons.mp hnodup).1

theorem takeFreeRows_eq (k fuel i j : Nat) (pList : Nat → Paddr) (s : VmState)
    (hfuel : i + fuel = maxPmSize) :
    let rows := (((List.finRange maxPmSize).drop i).filter fun x => !(s.pft x).validBit).take (k - j)
    ∃ i', takeFreeRows k fuel i j pList s =
        .ok (i', j + rows.length, placeAt pList j (rows.map fun x => (s.pft x).physicalAddr))
          { s with pft := takeRows s.pft rows } ∧
      (i' = maxPmSize ∨ k ≤ j + rows.length) := by
  induction fuel generalizing i j pList s with
  | zero =>
    obtain rfl : i = maxPmSize := hfuel
    rw [List.drop_of_length_le (by simp)]
    exact ⟨maxPmSize, by simp [takeFreeRows, placeAt], .inl rfl⟩
  | succ fuel ih =>
    have hi : i < maxPmSize := by omega
    unfold takeFreeRows
    by_cases hjk : j < k
    · rw [if_pos hjk, bind_ok (rowAt_ok hi), finRange_drop hi]
      by_cases hfree : (s.pft ⟨i, hi⟩).validBit = false
      · -- the row is free: the rest of the scan runs on the table with it taken
        rw [if_pos hfree, bind_ok (updateRow_ok hi _)]
        obtain ⟨i', heq, hend⟩ := ih (i + 1) (j + 1)
          (Function.update pList j (s.pft ⟨i, hi⟩).physicalAddr)
          { s with pft := Function.update s.pft ⟨i, hi⟩ (s.pft ⟨i, hi⟩).taken } (by omega)
        have hne : ∀ x ∈ (List.finRange maxPmSize).drop (i + 1), x ≠ ⟨i, hi⟩ := by
          rintro x hx rfl
          exact notMem_drop_succ hi hx
        have hfilter :
            (((List.finRange maxPmSize).drop (i + 1)).filter fun x =>
              !(Function.update s.pft ⟨i, hi⟩ (s.pft ⟨i, hi⟩).taken x).validBit) =
            ((List.finRange maxPmSize).drop (i + 1)).filter fun x => !(s.pft x).validBit :=
          List.filter_congr fun x hx => by rw [Function.update_of_ne (hne x hx)]
        have hrows : ∀ n, ∀ x ∈ (((List.finRange maxPmSize).drop (i + 1)).filter fun x =>
            !(s.pft x).validBit).take n, x ≠ ⟨i, hi⟩ := fun n x hx =>
          hne x (List.mem_of_mem_filter (List.mem_of_mem_take hx))
        rw [hfilter] at heq hend
        rw [List.filter_cons_of_pos (by simpa using hfree), show k - j = (k - (j + 1)) + 1 by omega,
          List.take_succ_cons]
        refine ⟨i', heq.trans ?_, hend.imp_right fun h => by simp only [List.length_cons]; omega⟩
        rw [takeRows_cons s.pft fun h => hrows _ _ h rfl]
        congr 3
        · simp only [List.length_cons]
          omega
        · simp only [List.map_cons, placeAt]
          congr 1
          exact List.map_congr_left fun x hx => by rw [Function.update_of_ne (hrows _ x hx)]
      · rw [if_neg hfree, List.filter_cons_of_neg (by simpa using hfree)]
        exact ih (i + 1) j pList s (by omega)
    · rw [if_neg hjk, show k - j = 0 by omega]
      exact ⟨i, by simp [placeAt], .inr (by simp; omega)⟩

theorem fillList_of_room (b : Ptr) (h : k ≤ s.freeRows.length) :
    fillList k b s =
      .ok (placeAt (s.heap.junk b) 0 ((s.freeRows.take k).map fun x => (s.pft x).physicalAddr))
        { s with pft := takeRows s.pft (s.freeRows.take k) } := by
  obtain ⟨i', heq, -⟩ := takeFreeRows_eq k maxPmSize 0 0 (s.heap.junk b) s rfl
  have hlen : (s.freeRows.take k).length = k := List.length_take_of_le h
  unfold fillList
  rw [bind_ok (get_apply s), bind_ok heq]
  simp only [List.drop_zero, Nat.sub_zero, Nat.zero_add]
  change (if i' = maxPmSize then replaceRows (s.freeRows.take k).length
    (k - (s.freeRows.take k).length) _ else _) _ = _
  rw [hlen, Nat.sub_self]
  split <;> rfl

theorem fillList_of_full (b : Ptr) (h : s.freeRows.length < k) :
    fillList k b s =
      replaceRows s.freeRows.length (k - s.freeRows.length)
        (placeAt (s.heap.junk b) 0 (s.freeRows.map fun x => (s.pft x).physicalAddr))
        { s with pft := takeRows s.pft s.freeRows } := by
  obtain ⟨i', heq, hend⟩ := takeFreeRows_eq k maxPmSize 0 0 (s.heap.junk b) s rfl
  have htake : s.freeRows.take k = s.freeRows := List.take_of_length_le (by omega)
  simp only [List.drop_zero, Nat.sub_zero, Nat.zero_add] at heq hend
  change takeFreeRows k maxPmSize 0 0 (s.heap.junk b) s = .ok (i', (s.freeRows.take k).length,
    placeAt _ 0 ((s.freeRows.take k).map _)) { s with pft := takeRows s.pft (s.freeRows.take k) }
    at heq
  change i' = maxPmSize ∨ k ≤ (s.freeRows.take k).length at hend
  rw [htake] at heq hend
  unfold fillList
  rw [bind_ok (get_apply s), bind_ok heq]
  simp only [if_pos (hend.resolve_right (by omega))]

theorem virtualAllocKpages_of_room {b : Ptr} (hpick : s.heap.pick s.heap.live = some b)
    (h : k ≤ s.freeRows.length) :
    let pList := placeAt (s.heap.junk b) 0
      ((s.freeRows.take k).map fun x => (s.pft x).physicalAddr)
    virtualAllocKpages k s = .ok (some b, pList)
      { s with
        heap := { s.heap with live := b :: s.heap.live }
        pft := takeRows s.pft (s.freeRows.take k)
        handedOut := (List.range k).map pList ++ s.handedOut } := by
  have hfill := fillList_of_room
    (s := { s with heap := { s.heap with live := b :: s.heap.live } }) b h
  exact (bind_ok (kmalloc_some hpick)).trans (bind_ok hfill)

end Os161.Vm

import Os161.Laws.Vm.Primitives

/-!
# Pages and what is mapped

The masks and shifts of the page tables in arithmetic, the page addresses as a type, and the
translation a page table describes: `mapping` is the frame address of a page whose entry is valid.
The updates the code makes to a page table are read here as updates of the mapping.
-/

namespace Os161.Vm

open Os161.Lib

variable {v : Vaddr}

/-! ## Words -/

theorem and_pageFrame_toNat (x : BitVec 32) : (x &&& pageFrame).toNat = x.toNat / 4096 * 4096 := by
  have hlt := x.isLt
  have hdiv : (x.toNat &&& 0xfffff000) / 2 ^ 12 = x.toNat / 2 ^ 12 := by
    rw [← Nat.shiftRight_eq_div_pow, ← Nat.shiftRight_eq_div_pow, Nat.shiftRight_and_distrib,
      show 0xfffff000 >>> 12 = 2 ^ 20 - 1 from rfl, Nat.and_two_pow_sub_one_eq_mod,
      Nat.shiftRight_eq_div_pow]
    omega
  have hmod : (x.toNat &&& 0xfffff000) % 2 ^ 12 = 0 := by
    rw [Nat.and_mod_two_pow]
    simp
  rw [BitVec.toNat_and, show (pageFrame : BitVec 32).toNat = 0xfffff000 from rfl]
  omega

theorem and_offsetMask_toNat (x : BitVec 32) : (x &&& offsetMask).toNat = x.toNat % 4096 := by
  rw [BitVec.toNat_and, show (offsetMask : BitVec 32).toNat = 2 ^ 12 - 1 from rfl,
    Nat.and_two_pow_sub_one_eq_mod]

theorem level1index_val (x : Vaddr) : (level1index x).val = x.toNat / 2 ^ 20 := by
  have hlt := x.isLt
  show ((x &&& 0xfff00000#32) >>> 20).toNat = _
  rw [BitVec.toNat_ushiftRight, BitVec.toNat_and, Nat.shiftRight_and_distrib,
    show (0xfff00000#32 : BitVec 32).toNat >>> 20 = 2 ^ 12 - 1 from rfl,
    Nat.and_two_pow_sub_one_eq_mod, Nat.shiftRight_eq_div_pow]
  omega

theorem level2index_val (x : Vaddr) : (level2index x).val = x.toNat / 2 ^ 12 % 256 := by
  show ((x &&& 0x000ff000#32) >>> 12).toNat = _
  rw [BitVec.toNat_ushiftRight, BitVec.toNat_and, Nat.shiftRight_and_distrib,
    show (0x000ff000#32 : BitVec 32).toNat >>> 12 = 2 ^ 8 - 1 from rfl,
    Nat.and_two_pow_sub_one_eq_mod, Nat.shiftRight_eq_div_pow]

/-! ## Pages -/

/-- The address of the start of a page. -/
def IsPage (v : Vaddr) : Prop := v &&& pageFrame = v

instance (v : Vaddr) : Decidable (IsPage v) := inferInstanceAs (Decidable (_ = _))

theorem isPage_iff : IsPage v ↔ v.toNat % 4096 = 0 := by
  unfold IsPage
  rw [← BitVec.toNat_inj, and_pageFrame_toNat]
  omega

/-- Page addresses. -/
abbrev Page := { v : Vaddr // IsPage v }

theorem isPage_and_pageFrame (v : Vaddr) : IsPage (v &&& pageFrame) := by
  rw [isPage_iff, and_pageFrame_toNat]
  omega

/-- The page an address lies in. -/
def pageOf (v : Vaddr) : Page := ⟨v &&& pageFrame, isPage_and_pageFrame v⟩

@[simp] theorem pageOf_page (v : Page) : pageOf v.1 = v := Subtype.ext v.2

variable {w : Page}

theorem Page.eq_of_index {v : Page} (h₁ : level1index v = level1index w)
    (h₂ : level2index v = level2index w) : v = w := by
  have hv := isPage_iff.mp v.2
  have hw := isPage_iff.mp w.2
  have h₁ := congrArg Fin.val h₁
  have h₂ := congrArg Fin.val h₂
  rw [level1index_val, level1index_val] at h₁
  rw [level2index_val, level2index_val] at h₂
  exact Subtype.ext (BitVec.eq_of_toNat_eq (by omega))

theorem exists_page (i : Fin maxLevel1Pt) (j : Fin maxLevel2Pt) :
    ∃ v : Page, level1index v = i ∧ level2index v = j := by
  have hi : i.val < 4096 := i.isLt
  have hj : j.val < 256 := j.isLt
  have hnat : (BitVec.ofNat 32 (i * 2 ^ 20 + j * 2 ^ 12)).toNat = i * 2 ^ 20 + j * 2 ^ 12 := by
    rw [BitVec.toNat_ofNat]
    omega
  refine ⟨⟨BitVec.ofNat 32 (i * 2 ^ 20 + j * 2 ^ 12), isPage_iff.mpr (by omega)⟩,
    Fin.ext ?_, Fin.ext ?_⟩
  · rw [level1index_val, hnat]
    omega
  · rw [level2index_val, hnat]
    omega

theorem level1index_pageOf (v : Vaddr) : level1index (pageOf v).1 = level1index v := by
  apply Fin.ext
  rw [level1index_val, level1index_val]
  show (v &&& pageFrame).toNat / _ = _
  rw [and_pageFrame_toNat]
  omega

theorem level2index_pageOf (v : Vaddr) : level2index (pageOf v).1 = level2index v := by
  apply Fin.ext
  rw [level2index_val, level2index_val]
  show (v &&& pageFrame).toNat / _ % _ = _
  rw [and_pageFrame_toNat]
  omega

/-! ## The mapping of an address space -/

/-- The frame address an entry maps to, if it is valid. -/
def PageTableEntry.target (e : PageTableEntry) : Option Paddr :=
  if e.validBit then some e.physicalAddr else none

namespace AddrSpace

variable {as as' : AddrSpace}
variable {f : PageTableEntry → PageTableEntry}

/-- The frame address the entry for `v` holds, if it is valid. -/
def mapped (as : AddrSpace) (v : Vaddr) : Option Paddr := (as.pte? v).bind PageTableEntry.target

theorem mapped_pageOf (as : AddrSpace) (v : Vaddr) : as.mapped (pageOf v).1 = as.mapped v := by
  unfold mapped pte?
  rw [level1index_pageOf, level2index_pageOf]

theorem updatePte?_pageOf (as : AddrSpace) (v : Vaddr) (f : PageTableEntry → PageTableEntry) :
    as.updatePte? (pageOf v).1 f = as.updatePte? v f := by
  unfold updatePte?
  rw [level1index_pageOf, level2index_pageOf]

theorem resident_iff : as.resident v = true ↔ (as.mapped v).isSome := by
  unfold resident mapped
  cases as.pte? v with
  | none => simp
  | some e => cases hv : e.validBit <;> simp [PageTableEntry.target, hv]

theorem mapped_of_not_resident (h : as.resident v = false) : as.mapped v = none := by
  cases hm : as.mapped v with
  | none => rfl
  | some p => rw [resident_iff.mpr (by rw [hm]; rfl)] at h; cases h

theorem pte?_updatePte? (h : as.updatePte? w f = some as') (v : Page) :
    as'.pte? v = if v = w then (as.pte? w).map f else as.pte? v := by
  obtain ⟨l2, hl2, rfl⟩ := Option.map_eq_some_iff.mp h
  unfold pte?
  by_cases h₁ : level1index v = level1index w
  · by_cases h₂ : level2index v = level2index w
    · obtain rfl := Page.eq_of_index h₁ h₂
      simp [hl2]
    · have hne : v ≠ w := fun heq => h₂ (by rw [heq])
      simp [hne, h₁, hl2, Function.update_of_ne h₂]
  · have hne : v ≠ w := fun heq => h₁ (by rw [heq])
    simp [hne, Function.update_of_ne h₁]

theorem mapped_updatePte? (h : as.updatePte? w f = some as') (v : Page) :
    as'.mapped v =
      if v = w then (as.pte? w).bind fun e => (f e).target else as.mapped v := by
  unfold mapped
  rw [pte?_updatePte? h]
  split
  · cases as.pte? w <;> rfl
  · rfl

theorem mapped_freshLevel2 {w : Vaddr} {b : Ptr} (h : as.table (level1index w) = none) :
    AddrSpace.mapped { as with
      table := Function.update as.table (level1index w) (some (freshLevel2 b)) } v =
      as.mapped v := by
  unfold mapped pte?
  by_cases h₁ : level1index v = level1index w
  · simp [h₁, h, freshLevel2, PageTableEntry.target]
  · simp [Function.update_of_ne h₁]

end AddrSpace

/-! ## The mapping of the system -/

/-- The frame address a page of an address space is mapped to. -/
def mapping (s : VmState) (k : Ptr × Page) : Option Paddr :=
  (s.spaces k.1).bind fun as => as.mapped k.2

variable {s : VmState} {q : Ptr} {as as' : AddrSpace}

theorem mapping_of_space (h : s.spaces q = some as) (v : Page) :
    mapping s (q, v) = as.mapped v := by
  simp [mapping, h]

theorem mapping_setSpace (A : Ptr) (v : Page) :
    mapping { s with spaces := Function.update s.spaces q (some as') } (A, v) =
      if A = q then as'.mapped v else mapping s (A, v) := by
  by_cases h : A = q
  · subst h
    simp [mapping]
  · simp [mapping, h]

theorem mapping_setSpace_same (h : s.spaces q = some as) (hm : ∀ v : Page, as'.mapped v = as.mapped v) :
    mapping { s with spaces := Function.update s.spaces q (some as') } = mapping s := by
  funext ⟨A, v⟩
  rw [mapping_setSpace]
  split
  · rename_i hA
    rw [hA, mapping_of_space h, hm]
  · rfl

theorem mapping_setSpace_update (h : s.spaces q = some as) {x : Option Paddr}
    (hm : ∀ v : Page, as'.mapped v = if v = w then x else as.mapped v) :
    mapping { s with spaces := Function.update s.spaces q (some as') } =
      Function.update (mapping s) (q, w) x := by
  funext ⟨A, v⟩
  rw [mapping_setSpace]
  by_cases hA : A = q
  · subst hA
    rw [if_pos rfl, hm]
    by_cases hv : v = w
    · rw [if_pos hv, hv, Function.update_self]
    · rw [if_neg hv, Function.update_of_ne (by simp [hv]), mapping_of_space h]
  · rw [if_neg hA, Function.update_of_ne (by simp [hA])]

end Os161.Vm

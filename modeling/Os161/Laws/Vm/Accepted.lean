import Mathlib.Data.List.Induction
import Os161.Laws.Vm.Loader
import Os161.Vm.Boot

/-!
# The regions an address space keeps

`as_define_region` takes any 32-bit address and size. Its rounding and the products of `vm_fault` wrap around, so
that a region that reaches into the last page of the address range is not covered; and a base of 0 marks a free
slot, so that a region in page 0 is overwritten by the next one. Otherwise a region whose call returned 0 is covered
and stays recorded, whatever is called afterwards.
-/

namespace Os161.Vm

open Os161.Lib

variable {s : VmState} {p : Ptr} {as : AddrSpace} {a : Vaddr} {slot : Vaddr × BitVec 32}

/-! ## Calls -/

/-- The region of a call of `as_define_region`. -/
structure Region where
  vaddr : BitVec 32
  sz : BitVec 32
deriving DecidableEq

/-- What `as_define_region` records for it. -/
def Region.recorded (r : Region) : Vaddr × BitVec 32 := regionPages r.vaddr r.sz

/-- The addresses of a region. -/
def Region.Has (r : Region) (a : Vaddr) : Prop :=
  r.vaddr.toNat ≤ a.toNat ∧ a.toNat < r.vaddr.toNat + r.sz.toNat

/-- A call; the regions whose call returned 0 are collected. -/
def defineCall (p : Ptr) (accepted : List Region) (r : Region) : Kernel (List Region) := do
  match ← asDefineRegion p r.vaddr r.sz with
  | none => pure (accepted ++ [r])
  | some _ => pure accepted

/-- Calls one after the other. -/
def defineCalls (p : Ptr) (calls : List Region) : Kernel (List Region) := calls.foldlM (defineCall p) []

/-- A call on the address space itself. -/
def AddrSpace.defineStep (x : AddrSpace × List Region) (r : Region) : AddrSpace × List Region :=
  match x.1.defineRegion r.vaddr r.sz with
  | .ok as => (as, x.2 ++ [r])
  | .error _ => x

/-- The address space after the calls, and the regions whose call returned 0. -/
def AddrSpace.defined (as : AddrSpace) (calls : List Region) : AddrSpace × List Region :=
  calls.foldl defineStep (as, [])

theorem AddrSpace.defined_append (as : AddrSpace) (calls : List Region) (r : Region) :
    as.defined (calls ++ [r]) = defineStep (as.defined calls) r := List.foldl_append ..

theorem defineCalls_eq (h : s.spaces p = some as) (calls : List Region) :
    defineCalls p calls s = .ok (as.defined calls).2
      { s with spaces := Function.update s.spaces p (some (as.defined calls).1) } := by
  induction calls using List.reverseRecOn with
  | nil =>
    show EStateM.Result.ok [] s = .ok [] { s with spaces := Function.update s.spaces p (some as) }
    rw [Function.update_eq_self_iff.mpr h.symm]
  | append_singleton calls r ih =>
    rw [defineCalls, List.foldlM_append]
    refine (bind_ok ih).trans ((bind_ok ?_).trans rfl)
    unfold defineCall
    rw [as.defined_append, bind_apply, asDefineRegion_eq (Function.update_self ..)]
    unfold AddrSpace.defineStep
    cases (as.defined calls).1.defineRegion r.vaddr r.sz with
    | error e => rfl
    | ok as' =>
      dsimp only
      rw [Function.update_idem]
      rfl

theorem exists_defineCalls (h : s.spaces p = some as) (calls : List Region) :
    ∃ t, defineCalls p calls s = .ok (as.defined calls).2 t ∧ t.spaces p = some (as.defined calls).1 :=
  ⟨_, defineCalls_eq h calls, Function.update_self ..⟩

/-! ## What a region becomes -/

/-- An address is in one of the two regions, as `vm_fault` computes their tops. -/
def AddrSpace.inRegions (as : AddrSpace) (a : Vaddr) : Prop :=
  (as.vbase1 ≤ a ∧ a < as.vbase1 + as.npages1 * pageSize) ∨ (as.vbase2 ≤ a ∧ a < as.vbase2 + as.npages2 * pageSize)

/-- The region is empty, or it ends before the last page of the address range. -/
def Region.Fits (r : Region) : Prop := r.sz = 0#32 ∨ r.vaddr.toNat + r.sz.toNat ≤ 0xfffff000

theorem Region.recorded_base (r : Region) : r.recorded.1.toNat = r.vaddr.toNat / 4096 * 4096 :=
  and_pageFrame_toNat _

theorem Region.recorded_pages (r : Region) :
    r.recorded.2.toNat = (r.sz.toNat + r.vaddr.toNat % 4096 + 4095) % 0x100000000 / 4096 := by
  have hoff : (r.vaddr &&& ~~~pageFrame).toNat = r.vaddr.toNat % 4096 := and_offsetMask_toNat _
  show (((r.sz + (r.vaddr &&& ~~~pageFrame) + pageSize - 1#32) &&& pageFrame) / pageSize).toNat = _
  rw [BitVec.toNat_udiv, and_pageFrame_toNat, BitVec.toNat_sub, BitVec.toNat_add, BitVec.toNat_add, hoff]
  simp only [pageSize, BitVec.toNat_ofNat, Nat.reducePow, Nat.reduceMod]
  omega

theorem Region.top_toNat (r : Region) :
    (r.recorded.1 + r.recorded.2 * pageSize).toNat =
      (r.vaddr.toNat + r.sz.toNat + 4095) / 4096 * 4096 % 0x100000000 := by
  have hv := r.vaddr.isLt
  rw [BitVec.toNat_add, BitVec.toNat_mul, r.recorded_base, r.recorded_pages]
  simp only [pageSize, BitVec.toNat_ofNat, Nat.reducePow, Nat.reduceMod]
  omega

variable {r : Region} {l accepted : List Region}

theorem Region.covered (h : r.Fits) (ha : r.Has a) :
    r.recorded.1 ≤ a ∧ a < r.recorded.1 + r.recorded.2 * pageSize := by
  obtain ⟨hlow, hhigh⟩ := ha
  have hfits : r.vaddr.toNat + r.sz.toNat ≤ 0xfffff000 := by
    rcases h with hzero | hle
    · rw [hzero] at hhigh
      simp only [BitVec.toNat_ofNat, Nat.zero_mod] at hhigh
      omega
    · exact hle
  rw [BitVec.le_def, BitVec.lt_def, r.recorded_base, r.top_toNat]
  omega

theorem lt_of_lt_top {base npages : BitVec 32} (hbase : IsPage base)
    (h : a < base + npages * pageSize) : a.toNat < 0xfffff000 := by
  have hpage := isPage_iff.mp hbase
  rw [BitVec.lt_def, BitVec.toNat_add, BitVec.toNat_mul] at h
  simp only [pageSize, BitVec.toNat_ofNat, Nat.reducePow, Nat.reduceMod] at h
  omega

theorem Region.exists_last (h : ¬ r.Fits) : ∃ a, r.Has a ∧ 0xfffff000 ≤ a.toNat := by
  obtain ⟨hsz, hlt⟩ := not_or.mp h
  have hpos : 0 < r.sz.toNat := Nat.pos_of_ne_zero fun h0 => hsz (BitVec.eq_of_toNat_eq h0)
  have hv := r.vaddr.isLt
  refine ⟨BitVec.ofNat 32 (min (r.vaddr.toNat + r.sz.toNat - 1) 0xffffffff), ?_⟩
  have hval : (BitVec.ofNat 32 (min (r.vaddr.toNat + r.sz.toNat - 1) 0xffffffff)).toNat =
      min (r.vaddr.toNat + r.sz.toNat - 1) 0xffffffff := by
    rw [BitVec.toNat_ofNat]
    omega
  rw [Region.Has, hval]
  omega

theorem Region.recorded_ne_zero (h : r.Fits) (hsz : r.sz ≠ 0#32) : r.recorded.2 ≠ 0#32 := by
  have hle := h.resolve_left hsz
  have hpos : 0 < r.sz.toNat := Nat.pos_of_ne_zero fun h0 => hsz (BitVec.eq_of_toNat_eq h0)
  rw [← BitVec.toNat_ne_iff_ne, r.recorded_pages]
  simp only [BitVec.toNat_ofNat, Nat.zero_mod]
  omega

/-! ## What is kept -/

/-- The two slots of an address space. -/
def AddrSpace.slot1 (as : AddrSpace) : Vaddr × BitVec 32 := (as.vbase1, as.npages1)

@[inherit_doc AddrSpace.slot1]
def AddrSpace.slot2 (as : AddrSpace) : Vaddr × BitVec 32 := (as.vbase2, as.npages2)

/-- The accepted regions are covered, the bases are aligned, and each region that is not empty is recorded. -/
structure RegionsKept (as : AddrSpace) (accepted : List Region) : Prop where
  covered : ∀ r ∈ accepted, ∀ a, r.Has a → as.inRegions a
  aligned1 : IsPage as.vbase1
  aligned2 : IsPage as.vbase2
  recorded : ∀ r ∈ accepted, r.sz ≠ 0#32 → r.recorded = as.slot1 ∨ r.recorded = as.slot2

/-- How the slots are filled: regions in page 0 are overwritten by the next one, until one above page 0 is recorded. -/
structure SlotFilled (accepted : List Region) (slot : Vaddr × BitVec 32) : Prop where
  page : IsPage slot.1
  empty : accepted = [] → slot = (0#32, 0#32)
  last : ∀ r ∈ accepted.getLast?, r.recorded = slot
  atZero : ∀ r ∈ accepted.dropLast, r.recorded.1 = 0#32

/-- The region is not in page 0, or is empty, or the later one has the same record. -/
def Region.SurvivesNext (r later : Region) : Prop :=
  r.recorded.1 ≠ 0#32 ∨ r.sz = 0#32 ∨ later.recorded = r.recorded

theorem SlotFilled.nil : SlotFilled [] (0#32, 0#32) := ⟨by decide, fun _ => rfl, nofun, nofun⟩

theorem SlotFilled.append (h : SlotFilled l slot) (h0 : slot.1 = 0#32) (r : Region) :
    SlotFilled (l ++ [r]) r.recorded := by
  refine ⟨isPage_and_pageFrame _, by simp, by simp, fun r' hr' => ?_⟩
  rw [List.dropLast_concat] at hr'
  rcases List.eq_nil_or_concat l with rfl | ⟨l', b, rfl⟩
  · cases hr'
  · rw [List.concat_eq_append, List.mem_append, List.mem_singleton] at hr'
    rcases hr' with hr' | rfl
    · exact h.atZero r' (by simpa using hr')
    · rw [h.last r' (by simp), h0]

theorem SlotFilled.recorded (h : SlotFilled l slot)
    (hl : l.Pairwise Region.SurvivesNext) (hr : r ∈ l) (hsz : r.sz ≠ 0#32) : r.recorded = slot := by
  rcases List.eq_nil_or_concat l with rfl | ⟨l', b, rfl⟩
  · cases hr
  · rw [List.concat_eq_append] at *
    have hlast := h.last b (by simp)
    rcases List.mem_append.mp hr with hr | hr
    · have hzero := h.atZero r (by simpa using hr)
      rcases (List.pairwise_append.mp hl).2.2 r hr b List.mem_cons_self with hne | hempty | heq
      · exact absurd hzero hne
      · exact absurd hempty hsz
      · exact heq.symm.trans hlast
    · rw [List.mem_singleton.mp hr, hlast]

/-- How the accepted regions are spread over the slots: the second is used once the first has a base. -/
def Filling (as : AddrSpace) (accepted : List Region) : Prop :=
  ∃ first second, accepted = first ++ second ∧ SlotFilled first as.slot1 ∧ SlotFilled second as.slot2 ∧
    (as.vbase1 = 0#32 → second = [])

theorem AddrSpace.defineStep_cases (as : AddrSpace) (accepted : List Region) (r : Region) :
    (as.vbase1 = 0#32 ∧ ∃ as', defineStep (as, accepted) r = (as', accepted ++ [r]) ∧ as'.slot1 = r.recorded ∧
      as'.slot2 = as.slot2) ∨
    (as.vbase1 ≠ 0#32 ∧ as.vbase2 = 0#32 ∧ ∃ as', defineStep (as, accepted) r = (as', accepted ++ [r]) ∧
      as'.slot1 = as.slot1 ∧ as'.slot2 = r.recorded) ∨
    defineStep (as, accepted) r = (as, accepted) := by
  unfold defineStep AddrSpace.defineRegion
  by_cases h₁ : as.vbase1 = 0#32
  · simp only [if_pos h₁]
    exact .inl ⟨h₁, _, rfl, rfl, rfl⟩
  · by_cases h₂ : as.vbase2 = 0#32
    · simp only [if_neg h₁, if_pos h₂]
      exact .inr (.inl ⟨h₁, h₂, _, rfl, rfl, rfl⟩)
    · simp only [if_neg h₁, if_neg h₂]
      exact .inr (.inr trivial)

theorem Filling.defineStep (h : Filling as accepted) (r : Region) :
    Filling (AddrSpace.defineStep (as, accepted) r).1 (AddrSpace.defineStep (as, accepted) r).2 := by
  obtain ⟨first, second, rfl, h₁, h₂, hsecond⟩ := h
  rcases as.defineStep_cases (first ++ second) r with ⟨hz, as', heq, hs₁, hs₂⟩ | ⟨hz, hz₂, as', heq, hs₁, hs₂⟩ | heq
  · rw [heq, hsecond hz, List.append_nil]
    refine ⟨first ++ [r], [], (List.append_nil _).symm, hs₁ ▸ h₁.append hz r, ?_, fun _ => rfl⟩
    rw [hs₂, ← hsecond hz]
    exact h₂
  · rw [heq]
    refine ⟨first, second ++ [r], List.append_assoc .., hs₁ ▸ h₁, hs₂ ▸ h₂.append hz₂ r, fun hz' => ?_⟩
    exact absurd ((congrArg Prod.fst hs₁).symm.trans hz') hz
  · rw [heq]
    exact ⟨first, second, rfl, h₁, h₂, hsecond⟩

theorem AddrSpace.IsNew.filling (h : as.IsNew) (calls : List Region) :
    Filling (as.defined calls).1 (as.defined calls).2 := by
  induction calls using List.reverseRecOn with
  | nil =>
    refine ⟨[], [], rfl, ?_, ?_, fun _ => rfl⟩
    · show SlotFilled [] (as.vbase1, as.npages1)
      rw [h.vbase1, h.npages1]
      exact .nil
    · show SlotFilled [] (as.vbase2, as.npages2)
      rw [h.vbase2, h.npages2]
      exact .nil
  | append_singleton calls r ih =>
    rw [as.defined_append]
    exact ih.defineStep r

theorem Filling.kept (h : Filling as accepted)
    (hfits : ∀ r ∈ accepted, r.Fits) (hl : accepted.Pairwise Region.SurvivesNext) : RegionsKept as accepted := by
  obtain ⟨first, second, rfl, h₁, h₂, -⟩ := h
  obtain ⟨hl₁, hl₂, -⟩ := List.pairwise_append.mp hl
  have hrec (r : Region) (hr : r ∈ first ++ second) (hsz : r.sz ≠ 0#32) :
      r.recorded = as.slot1 ∨ r.recorded = as.slot2 := by
    rcases List.mem_append.mp hr with hr | hr
    · exact .inl (h₁.recorded hl₁ hr hsz)
    · exact .inr (h₂.recorded hl₂ hr hsz)
  refine ⟨fun r hr a ha => ?_, h₁.page, h₂.page, hrec⟩
  have hsz : r.sz ≠ 0#32 := by
    intro hzero
    have := ha.2
    rw [hzero] at this
    exact absurd this (Nat.not_lt.mpr ha.1)
  have hcov := r.covered (hfits r hr) ha
  rcases hrec r hr hsz with heq | heq
  · rw [heq] at hcov
    exact .inl hcov
  · rw [heq] at hcov
    exact .inr hcov

theorem RegionsKept.fits (h : RegionsKept as accepted)
    (hr : r ∈ accepted) : r.Fits := by
  by_contra hnot
  obtain ⟨a, ha, hlast⟩ := r.exists_last hnot
  rcases h.covered r hr a ha with ⟨-, htop⟩ | ⟨-, htop⟩
  · exact absurd (lt_of_lt_top h.aligned1 htop) (Nat.not_lt.mpr hlast)
  · exact absurd (lt_of_lt_top h.aligned2 htop) (Nat.not_lt.mpr hlast)

theorem Filling.survive (h : Filling as accepted)
    (hkept : RegionsKept (AddrSpace.defineStep (as, accepted) r).1 (AddrSpace.defineStep (as, accepted) r).2)
    (hl : accepted.Pairwise Region.SurvivesNext) :
    (AddrSpace.defineStep (as, accepted) r).2.Pairwise Region.SurvivesNext := by
  obtain ⟨first, second, rfl, -, h₂, hsecond⟩ := h
  have hstep {as' : AddrSpace} (heq : AddrSpace.defineStep (as, first ++ second) r = (as', first ++ second ++ [r]))
      (hnext : ∀ r' ∈ first ++ second, r'.recorded.1 = 0#32 → r'.sz ≠ 0#32 → r'.recorded = as'.slot1 ∨
        r'.recorded = as'.slot2 → r.recorded = r'.recorded) :
      (AddrSpace.defineStep (as, first ++ second) r).2.Pairwise Region.SurvivesNext := by
    rw [heq] at hkept ⊢
    refine List.pairwise_append.mpr ⟨hl, List.pairwise_singleton .., fun r' hr' b hb => ?_⟩
    rw [List.mem_singleton.mp hb]
    by_cases hzero : r'.recorded.1 = 0#32
    · by_cases hsz : r'.sz = 0#32
      · exact .inr (.inl hsz)
      · exact .inr (.inr (hnext r' hr' hzero hsz (hkept.recorded r' (List.mem_append_left _ hr') hsz)))
    · exact .inl hzero
  rcases as.defineStep_cases (first ++ second) r with ⟨hz, as', heq, hs₁, hs₂⟩ | ⟨hz, hz₂, as', heq, hs₁, hs₂⟩ | heq
  · refine hstep heq fun r' hr' _ hsz hrec => ?_
    rcases hrec with hrec | hrec
    · exact (hrec.trans hs₁).symm
    · -- The second slot is still empty, and a region that is covered has a page.
      rw [heq] at hkept
      have hfits := hkept.fits (List.mem_append_left _ hr')
      rw [hs₂, h₂.empty (hsecond hz)] at hrec
      exact absurd (congrArg Prod.snd hrec) (Region.recorded_ne_zero hfits hsz)
  · refine hstep heq fun r' _ hzero _ hrec => ?_
    rcases hrec with hrec | hrec
    · rw [hrec, hs₁] at hzero
      exact absurd hzero hz
    · exact (hrec.trans hs₂).symm
  · rw [heq]
    exact hl

theorem AddrSpace.defined_accepted (as : AddrSpace) (calls : List Region) (r : Region) :
    (as.defined calls).2 <+: (as.defined (calls ++ [r])).2 := by
  rw [as.defined_append]
  unfold defineStep
  split
  · exact List.prefix_append ..
  · exact List.prefix_rfl

theorem AddrSpace.IsNew.kept_iff (h : as.IsNew) (calls : List Region) :
    (∀ n, RegionsKept (as.defined (calls.take n)).1 (as.defined (calls.take n)).2) ↔
      (∀ r ∈ (as.defined calls).2, r.Fits) ∧ (as.defined calls).2.Pairwise Region.SurvivesNext := by
  induction calls using List.reverseRecOn with
  | nil =>
    simp only [List.take_nil]
    refine ⟨fun _ => ⟨nofun, .nil⟩, fun _ _ => (h.filling []).kept nofun .nil⟩
  | append_singleton calls r ih =>
    have hfront := (as.defined_accepted calls r)
    constructor
    · intro hkept
      have hall := hkept (calls ++ [r]).length
      rw [List.take_length] at hall
      have hbefore : ∀ n, RegionsKept (as.defined (calls.take n)).1 (as.defined (calls.take n)).2 := by
        intro n
        have := hkept (min n calls.length)
        rwa [List.take_append_of_le_length (Nat.min_le_right ..), ← List.take_take, List.take_length] at this
      refine ⟨fun r hr => hall.fits hr, ?_⟩
      rw [as.defined_append] at hall ⊢
      exact (h.filling calls).survive hall (ih.mp hbefore).2
    · rintro ⟨hfits, hsurvive⟩ n
      by_cases hn : n ≤ calls.length
      · rw [List.take_append_of_le_length hn]
        exact ih.mpr ⟨fun r hr => hfits r (hfront.subset hr), hsurvive.sublist hfront.sublist⟩ n
      · rw [List.take_of_length_le (by simp; omega)]
        exact (h.filling _).kept hfits hsurvive

/-- Calls of `as_define_region` on a new address space: after each of them the accepted regions are covered, aligned
and kept exactly when every accepted region is empty or ends before the last page of the address range, and none that
is in page 0 is followed by one with another record. -/
theorem accepted_regions_iff (s : VmState) (p : Ptr) (as : AddrSpace) (hp : s.spaces p = some as) (hnew : as.IsNew)
    (calls : List Region) :
    ∃ accepted t, defineCalls p calls s = .ok accepted t ∧
      ((∀ n, ∃ accepted' t' as', defineCalls p (calls.take n) s = .ok accepted' t' ∧ t'.spaces p = some as' ∧
          RegionsKept as' accepted') ↔
        (∀ r ∈ accepted, r.Fits) ∧ accepted.Pairwise Region.SurvivesNext) := by
  refine ⟨_, _, defineCalls_eq hp calls, ?_⟩
  rw [← hnew.kept_iff calls]
  refine forall_congr' fun n => ?_
  obtain ⟨t, hrun, has⟩ := exists_defineCalls hp (calls.take n)
  constructor
  · rintro ⟨accepted', t', as', hrun', has', hkept⟩
    cases hrun.symm.trans hrun'
    cases has.symm.trans has'
    exact hkept
  · intro hkept
    exact ⟨_, t, _, hrun, has, hkept⟩

/-- A new address space. -/
def newSpace : AddrSpace where
  vbase1 := 0#32
  npages1 := 0#32
  vbase2 := 0#32
  npages2 := 0#32
  pid := 0
  size := 0
  table _ := none
  stackpbase := 0#32
  stacknpages := 0#32

theorem newSpace_isNew : newSpace.IsNew := ⟨rfl, rfl, rfl, rfl, fun _ => rfl⟩

/-- A process with it. -/
def unloaded : VmState := { coldStart with spaces := fun p => if p = 1 then some newSpace else none }

theorem accepted_regions_two_segments : ∃ accepted t,
    defineCalls 1 [⟨0x400000#32, 4096#32⟩, ⟨0x10000000#32, 8192#32⟩] unloaded = .ok accepted t ∧
      ∃ as, t.spaces 1 = some as ∧ RegionsKept as accepted := by
  obtain ⟨accepted, t, hrun, hiff⟩ := accepted_regions_iff unloaded 1 newSpace rfl newSpace_isNew
    [⟨0x400000#32, 4096#32⟩, ⟨0x10000000#32, 8192#32⟩]
  have haccepted : accepted = [⟨0x400000#32, 4096#32⟩, ⟨0x10000000#32, 8192#32⟩] := by
    rw [defineCalls_eq (s := unloaded) (p := 1) rfl] at hrun
    cases hrun
    decide
  subst haccepted
  obtain ⟨accepted', t', as, hrun', has, hkept⟩ := hiff.mpr
    ⟨by simp [Region.Fits], List.pairwise_pair.mpr (.inl (by decide))⟩ 2
  cases hrun.symm.trans hrun'
  exact ⟨_, t, hrun, as, has, hkept⟩

/-- A region in page 0 is lost to the next one, and one that ends with the address range is not covered: its top is
0. -/
theorem regions_lost :
    (∃ accepted t as, defineCalls 1 [⟨0x100#32, 16#32⟩, ⟨0x400000#32, 4096#32⟩] unloaded = .ok accepted t ∧
      t.spaces 1 = some as ∧ ⟨0x100#32, 16#32⟩ ∈ accepted ∧ ¬ as.inRegions 0x100#32) ∧
    ∃ accepted t as, defineCalls 1 [⟨0xfffff000#32, 4096#32⟩] unloaded = .ok accepted t ∧
      t.spaces 1 = some as ∧ ⟨0xfffff000#32, 4096#32⟩ ∈ accepted ∧ ¬ as.inRegions 0xfffff000#32 := by
  have hspace : unloaded.spaces 1 = some newSpace := rfl
  constructor
  · obtain ⟨t, hrun, has⟩ := exists_defineCalls hspace [⟨0x100#32, 16#32⟩, ⟨0x400000#32, 4096#32⟩]
    refine ⟨_, t, _, hrun, has, by decide, ?_⟩
    unfold AddrSpace.inRegions
    decide
  · obtain ⟨t, hrun, has⟩ := exists_defineCalls hspace [⟨0xfffff000#32, 4096#32⟩]
    refine ⟨_, t, _, hrun, has, by decide, ?_⟩
    unfold AddrSpace.inRegions
    decide

end Os161.Vm

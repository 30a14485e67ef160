import Os161.Vm.Boot
import Os161.Laws.Vm.Fault
import Os161.Laws.Vm.Loader

/-!
# The regions of a program and the assertions of the fault handler

`vm_fault` asserts that both regions of the address space are there and not empty. Which regions are
there is decided by the program headers, and `load_elf` looks at one header at a time: it refuses a
third region, but neither a missing one nor an empty one. A header for page 0 does not help, because
a base of 0 marks a free slot and the next header overwrites it.

Nothing after the first pass changes the regions. So the headers alone decide whether the faults of
the program pass the assertions, the faults taken while its segments are copied in included.
-/

namespace Os161.Vm

open Os161.Lib

variable {s t : VmState} {p : Ptr} {as as' : AddrSpace}
variable {ph : ElfPhdr} {segs : List ElfPhdr}

/-! ## What the headers leave -/

/-- The segment ends in a later page than it begins in, or ends where one begins: in the 32-bit
arithmetic of `as_define_region` its length rounds up to at least one page. -/
def ElfPhdr.HasPages (ph : ElfPhdr) : Prop :=
  pageSize ≤ ph.pMemsz + (ph.pVaddr &&& ~~~pageFrame) + pageSize - 1#32

/-- The segment begins in page 0. -/
def ElfPhdr.atZero (ph : ElfPhdr) : Bool := ph.pVaddr &&& pageFrame == 0#32

/-- Of the segments above page 0 there are two, and both have pages. -/
def TwoRegions (segs : List ElfPhdr) : Prop :=
  ∃ a b, segs.filter (fun ph => !ph.atZero) = [a, b] ∧ a.HasPages ∧ b.HasPages

theorem regionPages_ne_zero (ph : ElfPhdr) :
    (regionPages ph.pVaddr ph.pMemsz).2 ≠ 0#32 ↔ ph.HasPages := by
  show ((ph.pMemsz + (ph.pVaddr &&& ~~~pageFrame) + pageSize - 1#32) &&& pageFrame) / pageSize ≠ 0#32 ↔
    pageSize ≤ ph.pMemsz + (ph.pVaddr &&& ~~~pageFrame) + pageSize - 1#32
  generalize ph.pMemsz + (ph.pVaddr &&& ~~~pageFrame) + pageSize - 1#32 = sz
  rw [← BitVec.toNat_ne_iff_ne, BitVec.toNat_udiv, and_pageFrame_toNat, BitVec.le_def]
  simp only [pageSize, BitVec.toNat_ofNat, Nat.reducePow, Nat.reduceMod, Nat.zero_mod]
  omega

theorem isPage_base (ph : ElfPhdr) : IsPage (regionPages ph.pVaddr ph.pMemsz).1 := by
  show (ph.pVaddr &&& pageFrame) &&& pageFrame = ph.pVaddr &&& pageFrame
  rw [BitVec.and_assoc, BitVec.and_self]

theorem base_of_atZero (h : ph.atZero = true) :
    (regionPages ph.pVaddr ph.pMemsz).1 = 0#32 := beq_iff_eq.mp h

theorem base_of_not_atZero (h : ph.atZero = false) :
    (regionPages ph.pVaddr ph.pMemsz).1 ≠ 0#32 := beq_eq_false_iff_ne.mp h

theorem defineRegions_full (h : as.defineRegions segs = .ok as')
    (h₁ : as.vbase1 ≠ 0#32) (h₂ : as.vbase2 ≠ 0#32) : segs = [] ∧ as' = as := by
  cases segs with
  | nil => cases h; exact ⟨rfl, rfl⟩
  | cons ph rest =>
    simp only [AddrSpace.defineRegions, AddrSpace.defineRegion, if_neg h₁, if_neg h₂] at h
    cases h

theorem defineRegions_second (h : as.defineRegions segs = .ok as')
    (h₁ : as.vbase1 ≠ 0#32) (h₂ : as.vbase2 = 0#32) (halign : IsPage as.vbase1) :
    as'.Checked ↔ as.npages1 ≠ 0#32 ∧
      ∃ b, segs.filter (fun ph => !ph.atZero) = [b] ∧ b.HasPages := by
  induction segs generalizing as with
  | nil =>
    cases h
    refine ⟨fun hc => absurd h₂ hc.vbase2, ?_⟩
    rintro ⟨-, b, hb, -⟩
    cases hb
  | cons ph rest ih =>
    simp only [AddrSpace.defineRegions, AddrSpace.defineRegion, if_neg h₁, if_pos h₂] at h
    cases hzero : ph.atZero with
    | true =>
      rw [List.filter_cons_of_neg (by simp [hzero])]
      have hrest := ih h h₁ (base_of_atZero hzero) halign
      exact hrest
    | false =>
      rw [List.filter_cons_of_pos (by simp [hzero])]
      obtain ⟨rfl, rfl⟩ := defineRegions_full h h₁ (base_of_not_atZero hzero)
      constructor
      · intro hc
        exact ⟨hc.npages1, ph, rfl, (regionPages_ne_zero ph).mp hc.npages2⟩
      · rintro ⟨hn, b, hb, hpages⟩
        cases hb
        exact ⟨h₁, hn, base_of_not_atZero hzero, (regionPages_ne_zero ph).mpr hpages, halign,
          isPage_base ph⟩

theorem defineRegions_checked (h : as.defineRegions segs = .ok as')
    (h₁ : as.vbase1 = 0#32) (h₂ : as.vbase2 = 0#32) : as'.Checked ↔ TwoRegions segs := by
  induction segs generalizing as with
  | nil =>
    cases h
    refine ⟨fun hc => absurd h₁ hc.vbase1, ?_⟩
    rintro ⟨a, b, hab, -⟩
    cases hab
  | cons ph rest ih =>
    simp only [AddrSpace.defineRegions, AddrSpace.defineRegion, if_pos h₁] at h
    unfold TwoRegions
    cases hzero : ph.atZero with
    | true =>
      rw [List.filter_cons_of_neg (by simp [hzero])]
      exact ih h (base_of_atZero hzero) h₂
    | false =>
      rw [List.filter_cons_of_pos (by simp [hzero]),
        defineRegions_second h (base_of_not_atZero hzero) h₂ (isPage_base ph)]
      constructor
      · rintro ⟨hn, b, hb, hpages⟩
        exact ⟨ph, b, by rw [hb], (regionPages_ne_zero ph).mp hn, hpages⟩
      · rintro ⟨a, b, hab, ha, hb⟩
        obtain ⟨rfl, hrest⟩ := List.cons.inj hab
        exact ⟨(regionPages_ne_zero ph).mpr ha, b, hrest, hb⟩

/-! ## Nothing changes the regions -/

/-- The address space at `p` has the regions of `as`. -/
def HasRegions (p : Ptr) (as : AddrSpace) (s : VmState) : Prop :=
  ∃ as', s.spaces p = some as' ∧ SameRegions as as'

theorem SameRegions.checked_iff (h : SameRegions as as') : as'.Checked ↔ as.Checked := by
  obtain ⟨h₁, h₂, h₃, h₄, -⟩ := h
  constructor
  · rintro ⟨c₁, c₂, c₃, c₄, c₅, c₆⟩
    rw [h₁] at c₁ c₅
    rw [h₂] at c₂
    rw [h₃] at c₃ c₆
    rw [h₄] at c₄
    exact ⟨c₁, c₂, c₃, c₄, c₅, c₆⟩
  · rintro ⟨c₁, c₂, c₃, c₄, c₅, c₆⟩
    rw [← h₁] at c₁ c₅
    rw [← h₂] at c₂
    rw [← h₃] at c₃ c₆
    rw [← h₄] at c₄
    exact ⟨c₁, c₂, c₃, c₄, c₅, c₆⟩

/-- The same, with the address space that is running. -/
structure RegionsAt (p : Ptr) (as : AddrSpace) (c : Option Ptr) (s : VmState) : Prop where
  has : HasRegions p as s
  cur : s.curAddrspace = c

/-- Not a failed assertion on the regions, where the address space is running and passes them. -/
def NotOnRegions (p : Ptr) (as : AddrSpace) (c : Option Ptr) (e : Fault) : Prop :=
  c = some p → as.Checked → ∀ x : Assertion, x.OnRegions → e ≠ .kassert x

theorem swapInsertRoom_notOnRegions (p : Ptr) (as : AddrSpace) (c : Option Ptr) :
    NotOnRegions p as c (.kassert .swapInsertRoom) := by
  rintro - - x hx heq
  cases heq
  exact hx

theorem regionsAt_closed (p : Ptr) (as : AddrSpace) (c : Option Ptr) :
    Closed (RegionsAt p as c) (NotOnRegions p as c) (fun _ => True) (fun _ => True)
      fun _ => True where
  counters _ _ _ _ _ _ h := ⟨h.has, h.cur⟩
  alloc _ _ h _ := ⟨trivial, h.has, h.cur⟩
  free _ _ h _ := ⟨h.has, h.cur⟩
  tables s q bs bs' h hq hsame := by
    obtain ⟨as₁, has₁, hreg⟩ := h.has
    obtain ⟨as₂, has₂, hreg'⟩ := hsame.live_update hq has₁
    exact ⟨⟨as₂, has₂, hreg.trans hreg'⟩, h.cur⟩
  row _ _ _ h _ := ⟨h.has, h.cur⟩
  enter _ _ _ h _ _ := ⟨h.has, h.cur⟩
  memory _ _ _ h := ⟨h.has, h.cur⟩
  insertTlb v a _ :=
    insertTlbEntry_safe (fun _ _ _ h => ⟨h.has, h.cur⟩) (fun _ _ _ _ => Fault.noConfusion) v a
  invalidateTlb := tlbInvalidate_safe (fun _ _ _ h => ⟨h.has, h.cur⟩) fun _ _ _ _ => Fault.noConfusion
  badPointer _ _ _ _ := Fault.noConfusion
  outOfBounds _ _ _ _ := Fault.noConfusion
  readonlyFault _ _ _ _ := Fault.noConfusion
  livelock _ _ _ _ := Fault.noConfusion
  assertion a ha _ _ _ x hx heq := by
    cases heq
    exact ha hx
  regions := by
    by_cases h : c = some p ∧ as.Checked
    · refine .inr fun s q bs hs hcur hq => ?_
      obtain ⟨as₁, has₁, hreg⟩ := hs.has
      obtain rfl : q = p := Option.some.inj (hcur.symm.trans (hs.cur.trans h.1))
      obtain rfl : as₁ = bs := Option.some.inj (has₁.symm.trans hq)
      exact hreg.checked_iff.mpr h.2
    · exact .inl fun a _ hc has => absurd ⟨hc, has⟩ h

/-- The operation does not make, redefine or destroy the address space `p`. `kmalloc` does not answer
with its block, which is in use. -/
def Op.KeepsSpace (p : Ptr) (s : VmState) : Op → Prop
  | .create => s.heap.pick s.heap.live ≠ some p
  | .defineRegion q _ _ => q ≠ p
  | .destroy q => q ≠ p
  | _ => True

theorem asCreate_hasRegions (h : HasRegions p as s) (hp : s.heap.pick s.heap.live ≠ some p) :
    HasRegions p as (leaves (asCreate s)) := by
  obtain ⟨as₁, has₁, hreg⟩ := h
  rcases asCreate_cases s with ⟨-, heq⟩ | ⟨q, bs, hpick, -, heq⟩
  · rw [heq]
    exact ⟨as₁, has₁, hreg⟩
  · rw [heq]
    have hpq : p ≠ q := by
      rintro rfl
      exact hp hpick
    exact ⟨as₁, (Function.update_of_ne hpq ..).trans has₁, hreg⟩

theorem exec_hasRegions {op : Op} (h : HasRegions p as s) (hop : op.KeepsSpace p s) :
    HasRegions p as (leaves (op.exec s)) := by
  have hC := regionsAt_closed p as s.curAddrspace
  have hs : RegionsAt p as s.curAddrspace s := ⟨h, rfl⟩
  have hout (s : VmState) (ps : List Paddr) (c : Option Ptr) (h : RegionsAt p as c s) :
      RegionsAt p as c { s with handedOut := ps } := ⟨h.has, h.cur⟩
  have halloc := hC.allocOk (fun s ps => hout s ps _) fun _ => trivial
  have hother {q : Ptr} (hq : q ≠ p) (s : VmState) (x : Option AddrSpace) (c : Option Ptr)
      (h : RegionsAt p as c s) :
      RegionsAt p as c { s with spaces := Function.update s.spaces q x } := by
    obtain ⟨⟨as₁, has₁, hreg⟩, hcur⟩ := h
    exact ⟨⟨as₁, (Function.update_of_ne hq.symm ..).trans has₁, hreg⟩, hcur⟩
  have hstep {x : Kernel Unit} (hx : Safe (RegionsAt p as s.curAddrspace)
      (NotOnRegions p as s.curAddrspace) x) : HasRegions p as (leaves (x s)) := (hx.leaves hs).has
  cases op with
  | create =>
    have := asCreate_hasRegions h hop
    simpa only [Op.exec, leaves_bind_pure] using this
  | defineRegion q v sz =>
    exact hstep (Safe.bind (hC.asDefineRegion_safe (fun t _ => hother hop t _ _) v sz)
      fun _ => Safe.pure _)
  | prepareLoad q =>
    exact hstep (Safe.bind (hC.asPrepareLoad_safe (fun t ps => hout t ps _) (fun _ => trivial) q)
      fun _ => Safe.pure _)
  | swapLoad q => exact hstep (hC.swapspaceLoadAs_safe (fun _ _ h => ⟨h.has, h.cur⟩)
      (swapInsertRoom_notOnRegions p as _) q)
  | activate q =>
    have hact : Safe (HasRegions p as) (fun _ => True) ((Op.activate q).exec) :=
      Safe.bind (Safe.modify fun _ h => h) fun _ =>
        asActivate_safe (fun _ _ _ h => h) trivial
    exact hact.leaves h
  | fault ft va => exact hstep (Safe.bind (hC.vmFault_safe halloc ft trivial) fun _ => Safe.pure _)
  | load va =>
    exact hstep (Safe.bind (hC.userLoad_safe halloc va fun _ => trivial) fun _ => Safe.pure _)
  | store va b => exact hstep (hC.userStore_safe halloc va b fun _ => trivial)
  | destroy q => exact hstep (hC.asDestroy_safe (fun t => hother hop t _ _) fun _ => trivial)

/-! ## The assertions -/

theorem vmFault_region_assertion_iff (hcur : s.curAddrspace = some p) (h : HasRegions p as s)
    {ft : FaultType} (hft : ft.IsAccess) (va : Vaddr) :
    (∃ (x : Assertion) (t : VmState), x.OnRegions ∧ vmFault ft va s = .error (.kassert x) t) ↔
      ¬ as.Checked := by
  constructor
  · rintro ⟨x, t, hx, hfault⟩ hc
    have hC := regionsAt_closed p as (some p)
    have halloc := hC.allocOk (fun _ _ h => ⟨h.has, h.cur⟩) fun _ => trivial
    exact (hC.vmFault_safe halloc ft trivial).fault ⟨h, hcur⟩ hfault rfl hc x hx rfl
  · intro hc
    obtain ⟨as₁, has₁, hreg⟩ := h
    rcases checkSpace_cases as₁ s.counted with ⟨hok, -⟩ | ⟨-, x, hx, herr⟩
    · exact absurd (hreg.checked_iff.mp hok) hc
    · refine ⟨x, s.counted, hx, ?_⟩
      rw [vmFault_access hft, faultIn_some (s := s.counted) hcur]
      unfold resolveFault
      rw [bind_ok (derefSpace_ok (s := s.counted) has₁), bind_error herr]

theorem loadSegments_keeps_assertions {f : Executable} {eh : ElfEhdr}
    (hcur : s.curAddrspace = some p) (h : HasRegions p as s) (hc : as.Checked) {x : Assertion}
    (hx : x.OnRegions) : loadSegments p f eh s ≠ .error (.kassert x) t := by
  intro hload
  -- a run of these three operations leaves the process running and its regions alone
  let ok (_ : VmState) (op : Op) : Prop :=
    op = .prepareLoad p ∨ op = .swapLoad p ∨ ∃ va b, op = .store va b
  have hC := regionsAt_closed p as (some p)
  have hout (s : VmState) (ps : List Paddr) (h : RegionsAt p as (some p) s) :
      RegionsAt p as (some p) { s with handedOut := ps } := ⟨h.has, h.cur⟩
  have hsafe (u : VmState) (op : Op) (hop : ok u op) :
      Safe (RegionsAt p as (some p)) (NotOnRegions p as (some p)) op.exec := by
    rcases hop with rfl | rfl | ⟨va, b, rfl⟩
    · exact Safe.bind (hC.asPrepareLoad_safe hout (fun _ => trivial) p) fun _ => Safe.pure _
    · exact hC.swapspaceLoadAs_safe (fun _ _ h => ⟨h.has, h.cur⟩) (swapInsertRoom_notOnRegions p as _) p
    · exact hC.userStore_safe (hC.allocOk hout fun _ => trivial) va b fun _ => trivial
  have hmade : MadeOf Op.exec ok (· = .livelock) (loadSegments p f eh) :=
    loadSegments_madeOf (fun _ => .inl rfl) (fun _ => .inr (.inl rfl))
      fun _ va b _ _ => .inr (.inr ⟨va, b, rfl⟩)
  rcases (hmade s).of_error .refl hload with ⟨hlive, -⟩ | ⟨u, op, hu, hop, hexec⟩
  · cases hlive
  · have hI : RegionsAt p as (some p) u := hu.invariant ⟨h, hcur⟩ fun u op hu hop =>
      (hsafe u op hop).leaves hu
    exact (hsafe u op hop).fault hI hexec rfl hc x hx rfl

/-- For a program whose headers `load_elf` accepts: in every state of its life, a read or write
fault of the program fails an assertion on the regions exactly when its headers are not those of two
regions; and if they are, loading it fails none either. -/
theorem region_assertion_fails_iff {f : Executable} {eh : ElfEhdr} {s₁ : VmState}
    (heh : f.ehdr = .ok eh) (has : s.spaces p = some as) (hnew₁ : as.vbase1 = 0#32)
    (hnew₂ : as.vbase2 = 0#32) (hpass : defineSegments p f eh s = .ok none s₁) :
    (∀ u, Reach Op.exec (Op.KeepsSpace p) s₁ u → u.curAddrspace = some p →
      ∀ ft : FaultType, ft.IsAccess → ∀ va,
        ((∃ (x : Assertion) (t : VmState), x.OnRegions ∧ vmFault ft va u = .error (.kassert x) t) ↔
          ¬ TwoRegions (f.segments eh))) ∧
    (s.curAddrspace = some p → TwoRegions (f.segments eh) →
      ∀ (x : Assertion) (t : VmState), x.OnRegions → loadElf p f s ≠ .error (.kassert x) t) := by
  obtain ⟨as₁, hdef, hs₁⟩ := of_defineSegments_ok has hpass
  have hiff := defineRegions_checked hdef hnew₁ hnew₂
  have hreg : HasRegions p as₁ s₁ := by
    rw [hs₁]
    exact ⟨as₁, Function.update_self .., .refl as₁⟩
  refine ⟨fun u hu hcur ft hft va => ?_, fun hcur htwo x t hx => ?_⟩
  · have := hu.invariant hreg fun _ _ h hop => exec_hasRegions h hop
    rw [vmFault_region_assertion_iff hcur this hft va, hiff]
  · rw [loadElf_eq heh hpass]
    refine loadSegments_keeps_assertions ?_ hreg (hiff.mpr htwo) hx
    rw [hs₁]
    exact hcur

/-- A process with a new address space, ready to load a program. -/
def newProcess : VmState :=
  leaves ((do let _ ← asCreate; (Op.activate (some 1)).exec : Kernel Unit) (readyToLoad 32))

/-- Loading a program of two regions into it. -/
theorem two_segments_pass_region_assertions :
    newProcess.curAddrspace = some 1 ∧ ∀ (x : Assertion) (t : VmState), x.OnRegions →
      loadElf 1 twoSegments newProcess ≠ .error (.kassert x) t := by
  have hcur : newProcess.curAddrspace = some 1 := by decide +kernel
  have hpass := eq_ok_of_value (r := defineSegments 1 twoSegments
    (.decode (twoSegments.read 0 52)) newProcess) (a := none) (by decide +kernel)
  have hboth := region_assertion_fails_iff (f := twoSegments) (p := 1) rfl rfl rfl rfl hpass
  refine ⟨hcur, hboth.2 hcur ?_⟩
  refine ⟨⟨1#32, 0#32, 0x400000#32, 4#32, 4096#32⟩, ⟨1#32, 0#32, 0x10000000#32, 0#32, 8192#32⟩, ?_⟩
  exact ⟨by decide +kernel, by unfold ElfPhdr.HasPages; decide, by unfold ElfPhdr.HasPages; decide⟩

/-- A program of one segment passes the checks of `load_elf` and panics the kernel on the first fault
taken while the segment is copied in. -/
theorem one_segment_fails_region_assertion :
    fault? (runprogram oneSegment (readyToLoad 32)) = some (.kassert .vbase2) := by
  decide +kernel

end Os161.Vm

import Os161.Lib.Trace
import Os161.Vm.LoadElf
import Os161.Laws.Vm.Closed

/-!
# What loading a program does

The first pass of `load_elf` folds `as_define_region` over the `PT_LOAD` headers. Everything after it
is made of operations of the memory system: `as_prepare_load`, `swapspace_load_as`, and the copying,
byte by byte a store to an address of the segment's file data. A property of runs is therefore a
property of loading too.
-/

namespace Os161.Vm

open Os161.Lib

variable {f : Executable} {eh : ElfEhdr} {s t : VmState} {p : Ptr}
variable {as as' : AddrSpace} {is : List Nat}

/-! ## The headers -/

/-- Header `i`, where it can be read and asks for a segment. -/
def Executable.segment? (f : Executable) (eh : ElfEhdr) (i : Nat) : Option ElfPhdr :=
  match f.phdr eh i with
  | .error _ => none
  | .ok ph => if ph.kind = .load then some ph else none

/-- The headers that ask for a segment, in order. -/
def Executable.segments (f : Executable) (eh : ElfEhdr) : List ElfPhdr :=
  (List.range eh.ePhnum.toNat).filterMap (f.segment? eh)

/-- `as_define_region` for one header after the other. -/
def AddrSpace.defineRegions (as : AddrSpace) : List ElfPhdr → Except Errno AddrSpace
  | [] => .ok as
  | ph :: rest =>
    match as.defineRegion ph.pVaddr ph.pMemsz with
    | .error e => .error e
    | .ok as' => as'.defineRegions rest

/-- The first pass of `load_elf`. -/
def defineSegments (p : Ptr) (f : Executable) (eh : ElfEhdr) : Kernel (Option Errno) :=
  eachSegment f eh (fun ph => asDefineRegion p ph.pVaddr ph.pMemsz) (List.range eh.ePhnum.toNat)

theorem asDefineRegion_eq (has : s.spaces p = some as) (vaddr sz : BitVec 32) :
    asDefineRegion p vaddr sz s =
      match as.defineRegion vaddr sz with
      | .ok as' => .ok none { s with spaces := Function.update s.spaces p (some as') }
      | .error e => .ok (some e) s := by
  unfold asDefineRegion
  rw [bind_ok (derefSpace_ok has)]
  cases as.defineRegion vaddr sz <;> rfl

theorem of_eachSegment_define (has : s.spaces p = some as)
    (h : eachSegment f eh (fun ph => asDefineRegion p ph.pVaddr ph.pMemsz) is s = .ok none t) :
    ∃ as', as.defineRegions (is.filterMap (f.segment? eh)) = .ok as' ∧
      t = { s with spaces := Function.update s.spaces p (some as') } := by
  induction is generalizing s as with
  | nil =>
    cases h
    exact ⟨as, rfl, by rw [← has, Function.update_eq_self]⟩
  | cons i is ih =>
    unfold eachSegment at h
    cases hph : f.phdr eh i with
    | error e => rw [hph] at h; cases h
    | ok ph =>
      rw [hph] at h
      cases hkind : ph.kind with
      | unknown => simp only [hkind] at h; cases h
      | skip =>
        have hseg : f.segment? eh i = none := by simp [Executable.segment?, hph, hkind]
        rw [List.filterMap_cons_none hseg]
        simp only [hkind] at h
        exact ih has h
      | load =>
        have hseg : f.segment? eh i = some ph := by simp [Executable.segment?, hph, hkind]
        rw [List.filterMap_cons_some hseg, AddrSpace.defineRegions]
        simp only [hkind] at h
        obtain ⟨r, u, hdef, hrest⟩ := of_bind_ok h
        rw [asDefineRegion_eq has] at hdef
        cases hregion : as.defineRegion ph.pVaddr ph.pMemsz with
        | error e =>
          rw [hregion] at hdef
          cases hdef
          cases hrest
        | ok as₁ =>
          rw [hregion] at hdef
          cases hdef
          obtain ⟨as', hfold, ht⟩ := ih (Function.update_self ..) hrest
          refine ⟨as', hfold, ht.trans ?_⟩
          simp only [Function.update_idem]

theorem of_defineSegments_ok (has : s.spaces p = some as)
    (h : defineSegments p f eh s = .ok none t) :
    ∃ as', as.defineRegions (f.segments eh) = .ok as' ∧
      t = { s with spaces := Function.update s.spaces p (some as') } :=
  of_eachSegment_define has h

/-- Every header can be read and is of a known kind. -/
def Executable.HeadersKnown (f : Executable) (eh : ElfEhdr) : Prop :=
  ∀ i < eh.ePhnum.toNat, ∃ ph, f.phdr eh i = .ok ph ∧ ph.kind ≠ .unknown

theorem eachSegment_define (hknown : ∀ i ∈ is, ∃ ph, f.phdr eh i = .ok ph ∧ ph.kind ≠ .unknown)
    (has : s.spaces p = some as)
    (h : as.defineRegions (is.filterMap (f.segment? eh)) = .ok as') :
    eachSegment f eh (fun ph => asDefineRegion p ph.pVaddr ph.pMemsz) is s =
      .ok none { s with spaces := Function.update s.spaces p (some as') } := by
  induction is generalizing s as with
  | nil =>
    cases h
    rw [← has, Function.update_eq_self]
    rfl
  | cons i is ih =>
    obtain ⟨ph, hph, hkind⟩ := hknown i List.mem_cons_self
    have hrest := fun j hj => hknown j (List.mem_cons_of_mem i hj)
    unfold eachSegment
    rw [hph]
    cases hk : ph.kind with
    | unknown => exact absurd hk hkind
    | skip =>
      have hseg : f.segment? eh i = none := by simp [Executable.segment?, hph, hk]
      rw [List.filterMap_cons_none hseg] at h
      simp only [hk]
      exact ih hrest has h
    | load =>
      have hseg : f.segment? eh i = some ph := by simp [Executable.segment?, hph, hk]
      rw [List.filterMap_cons_some hseg, AddrSpace.defineRegions] at h
      simp only [hk]
      have hdef := asDefineRegion_eq has ph.pVaddr ph.pMemsz
      cases hregion : as.defineRegion ph.pVaddr ph.pMemsz with
      | error e => rw [hregion] at h; cases h
      | ok as₁ =>
        rw [hregion] at h hdef
        refine (bind_ok hdef).trans ((ih hrest (Function.update_self ..) h).trans ?_)
        simp only [Function.update_idem]

/-- The headers pass the checks of `load_elf`. -/
structure Executable.Accepted (f : Executable) (eh : ElfEhdr) : Prop where
  ehdr : f.ehdr = .ok eh
  known : f.HeadersKnown eh
  regions : ∀ as : AddrSpace, as.IsNew → ∃ as', as.defineRegions (f.segments eh) = .ok as'

theorem defineSegments_ok (hknown : f.HeadersKnown eh)
    (has : s.spaces p = some as) (h : as.defineRegions (f.segments eh) = .ok as') :
    defineSegments p f eh s =
      .ok none { s with spaces := Function.update s.spaces p (some as') } :=
  eachSegment_define (fun i hi => hknown i (List.mem_range.mp hi)) has h

theorem loadElf_eq (heh : f.ehdr = .ok eh) (h : defineSegments p f eh s = .ok none t) :
    loadElf p f s = loadSegments p f eh t := by
  unfold loadElf
  rw [heh]
  exact bind_ok h

/-! ## Copying -/

section Copying

variable {ok : VmState → Op → Prop} {S : Set Vaddr}
variable {va : Vaddr}

/-- The addresses a segment's file data is copied to. -/
def ElfPhdr.fileBytes (ph : ElfPhdr) : Set Vaddr :=
  { va | ∃ i < min ph.pFilesz.toNat ph.pMemsz.toNat, va = ph.pVaddr + BitVec.ofNat 32 i }

theorem userStore_hit (hva : va < userspaceTop) {i : Fin numTlb}
    (h : tlbHit s.tlb va = some i) (b : UInt8) : userStore va b s = storeThrough i va b s := by
  unfold userStore
  rw [bind_ok (get_apply s), if_neg (BitVec.not_le.mpr hva), h]

theorem userStore_miss (hva : va < userspaceTop) (h : tlbHit s.tlb va = none)
    (b : UInt8) : userStore va b s = (vmFault .write va >>= fun _ => pure ()) s := by
  unfold userStore
  rw [bind_ok (get_apply s), if_neg (BitVec.not_le.mpr hva), h]

/-- Stores to the addresses of `S` are allowed. -/
def StoresAllowed (ok : VmState → Op → Prop) (S : Set Vaddr) : Prop :=
  ∀ u va b, va ∈ S → va < userspaceTop → ok u (.store va b)

theorem kernelStore_madeOf (hS : StoresAllowed ok S) (hmem : va ∈ S)
    (hva : va < userspaceTop) (b : UInt8) :
    MadeOf Op.exec ok (· = .livelock) (kernelStore va b) := by
  have hthrough (s₀ : VmState) (i : Fin numTlb) :
      Triple (fun s => Reach Op.exec ok s₀ s ∧ tlbHit s.tlb va = some i)
        (storeThrough i va b >>= fun _ => pure (none : Option Errno))
        (fun _ => Reach Op.exec ok s₀) (Stops Op.exec ok (· = .livelock) s₀) := by
    rintro s ⟨hs, hhit⟩
    have hstore : (Op.store va b).exec s = storeThrough i va b s := userStore_hit hva hhit b
    cases hx : storeThrough i va b s with
    | ok _ t =>
      rw [bind_ok hx]
      exact .step hs (hS s va b hmem hva) (hstore.trans hx)
    | error e t =>
      rw [bind_error hx]
      exact .inr ⟨s, .store va b, hs, hS s va b hmem hva, hstore.trans hx⟩
  intro s₀ s hs
  unfold kernelStore
  rw [bind_ok (get_apply s)]
  cases hhit : tlbHit s.tlb va with
  | some i => exact hthrough s₀ i s ⟨hs, hhit⟩
  | none =>
    have hstore : (Op.store va b).exec s = (vmFault .write va >>= fun _ => pure ()) s :=
      userStore_miss hva hhit b
    cases hx : vmFault .write va s with
    | error e t =>
      simp only [bind_error hx]
      exact .inr ⟨s, .store va b, hs, hS s va b hmem hva, hstore.trans (bind_error hx)⟩
    | ok r t =>
      simp only [bind_ok hx]
      have ht : Reach Op.exec ok s₀ t :=
        .step hs (hS s va b hmem hva) (hstore.trans (bind_ok hx))
      cases r with
      | some e => exact ht
      | none =>
        simp only [bind_ok (get_apply t)]
        cases hhit' : tlbHit t.tlb va with
        | some i => exact hthrough s₀ i t ⟨ht, hhit'⟩
        | none => exact .inl ⟨rfl, ht⟩

theorem madeOf_unless {x : Kernel (Option Errno)} {y : Kernel (Option Errno)}
    (hx : MadeOf Op.exec ok (· = .livelock) x) (hy : MadeOf Op.exec ok (· = .livelock) y) :
    MadeOf Op.exec ok (· = .livelock) (do
      let r ← x
      match r with
      | some e => pure (some e)
      | none => y) := by
  refine MadeOf.bind hx fun r => ?_
  cases r with
  | some e => exact MadeOf.pure _
  | none => exact hy

theorem copyBytes_madeOf (hS : StoresAllowed ok S) (l : List UInt8) (va : Vaddr)
    (hl : ∀ i < l.length, va + BitVec.ofNat 32 i ∈ S ∧ va + BitVec.ofNat 32 i < userspaceTop) :
    MadeOf Op.exec ok (· = .livelock) (copyBytes l va) := by
  induction l generalizing va with
  | nil => exact MadeOf.pure _
  | cons b l ih =>
    obtain ⟨hmem, hlt⟩ := hl 0 (Nat.zero_lt_succ _)
    rw [BitVec.add_zero] at hmem hlt
    refine madeOf_unless (kernelStore_madeOf hS hmem hlt b) (ih _ fun i hi => ?_)
    have := hl (i + 1) (Nat.succ_lt_succ hi)
    rwa [Nat.add_comm, BitVec.ofNat_add, ← BitVec.add_assoc] at this

theorem copycheck_range {n : Nat} (hn : n < 2 ^ 32)
    (h : copycheck va (BitVec.ofNat 32 n) = .ok (BitVec.ofNat 32 n)) {i : Nat} (hi : i < n) :
    va + BitVec.ofNat 32 i < userspaceTop := by
  have hva := va.isLt
  simp only [copycheck] at h
  generalize userspaceTop = limit at h ⊢
  have hlimit := limit.isLt
  have hlast : (va + BitVec.ofNat 32 n - 1#32).toNat = (va.toNat + n + 4294967295) % 2 ^ 32 := by
    simp only [BitVec.toNat_sub, BitVec.toNat_add, BitVec.toNat_ofNat, Nat.reducePow, Nat.reduceMod,
      Nat.reduceSub]
    omega
  split at h
  · cases h
  split at h
  · cases h
  next hwrap hlow =>
  rw [BitVec.lt_def, hlast] at hwrap
  rw [BitVec.le_def] at hlow
  rw [BitVec.lt_def, BitVec.toNat_add, BitVec.toNat_ofNat]
  split at h
  · -- the range reaches the kernel: the length cut there is not the length asked for
    next htop =>
    rw [BitVec.le_def, hlast] at htop
    have hcut := congrArg BitVec.toNat (Except.ok.inj h)
    rw [BitVec.toNat_sub, BitVec.toNat_ofNat] at hcut
    omega
  · next htop =>
    rw [BitVec.le_def, hlast] at htop
    omega

theorem copyout_madeOf (hS : StoresAllowed ok S) {l : List UInt8} (hlen : l.length < 2 ^ 32) (hl : ∀ i < l.length, va + BitVec.ofNat 32 i ∈ S) :
    MadeOf Op.exec ok (· = .livelock) (copyout l va) := by
  unfold copyout
  cases hcheck : copycheck va (BitVec.ofNat 32 l.length) with
  | error e => exact MadeOf.pure _
  | ok n =>
    by_cases hn : n = BitVec.ofNat 32 l.length
    · subst hn
      simp only [ne_eq, not_true_eq_false, if_false]
      exact copyBytes_madeOf hS l va fun i hi => ⟨hl i hi, copycheck_range hlen hcheck hi⟩
    · simp only [if_pos hn]
      exact MadeOf.pure _

theorem movePieces_madeOf (hS : StoresAllowed ok S) (pieces : List Nat) {src : List UInt8}
    (hlen : src.length < 2 ^ 32)
    (hsrc : ∀ i < src.length, va + BitVec.ofNat 32 i ∈ S) :
    MadeOf Op.exec ok (· = .livelock) (movePieces pieces src va) := by
  induction pieces generalizing src va with
  | nil => exact MadeOf.pure _
  | cons n pieces ih =>
    unfold movePieces
    by_cases hn : n = 0
    · rw [if_pos hn]
      exact ih hlen hsrc
    · rw [if_neg hn]
      refine madeOf_unless (copyout_madeOf hS ?_ ?_) (ih ?_ ?_)
      · rw [List.length_take]
        omega
      · intro i hi
        rw [List.length_take] at hi
        exact hsrc i (by omega)
      · rw [List.length_drop]
        omega
      · intro i hi
        rw [List.length_drop] at hi
        rw [BitVec.add_assoc, ← BitVec.ofNat_add]
        exact hsrc _ (by omega)

theorem loadSegment_madeOf {ph : ElfPhdr} (hS : StoresAllowed ok S) (hph : ph.fileBytes ⊆ S) :
    MadeOf Op.exec ok (· = .livelock) (loadSegment f ph) := by
  have hsize : (if ph.pMemsz < ph.pFilesz then ph.pMemsz else ph.pFilesz).toNat =
      min ph.pFilesz.toNat ph.pMemsz.toNat := by
    split
    · next h => rw [Nat.min_eq_right (Nat.le_of_lt (BitVec.lt_def.mp h))]
    · next h => rw [Nat.min_eq_left (BitVec.le_def.mp (BitVec.not_lt.mp h))]
  have hlen (o : Nat) : (f.read o (min ph.pFilesz.toNat ph.pMemsz.toNat)).length ≤
      min ph.pFilesz.toNat ph.pMemsz.toNat := List.length_take_le ..
  have hlt := ph.pMemsz.isLt
  unfold loadSegment
  simp only [hsize]
  refine MadeOf.bind (movePieces_madeOf hS _ ?_ ?_) fun r => ?_
  · have := hlen ph.pOffset.toNat
    omega
  · intro i hi
    exact hph ⟨i, Nat.lt_of_lt_of_le hi (hlen _), rfl⟩
  · cases r with
    | some e => exact MadeOf.pure _
    | none => exact MadeOf.pure _

theorem eachSegment_madeOf {body : ElfPhdr → Kernel (Option Errno)}
    (hbody : ∀ ph ∈ is.filterMap (f.segment? eh), MadeOf Op.exec ok (· = .livelock) (body ph)) :
    MadeOf Op.exec ok (· = .livelock) (eachSegment f eh body is) := by
  induction is with
  | nil => exact MadeOf.pure _
  | cons i is ih =>
    unfold eachSegment
    cases hph : f.phdr eh i with
    | error e => exact MadeOf.pure _
    | ok ph =>
      cases hkind : ph.kind with
      | unknown => simp only [hkind]; exact MadeOf.pure _
      | skip =>
        have hseg : f.segment? eh i = none := by simp [Executable.segment?, hph, hkind]
        rw [List.filterMap_cons_none hseg] at hbody
        simp only [hkind]
        exact ih hbody
      | load =>
        have hseg : f.segment? eh i = some ph := by simp [Executable.segment?, hph, hkind]
        rw [List.filterMap_cons_some hseg] at hbody
        simp only [hkind]
        exact madeOf_unless (hbody ph List.mem_cons_self)
          (ih fun q hq => hbody q (List.mem_cons_of_mem _ hq))

theorem copySegments_madeOf (hS : StoresAllowed ok S) (hseg : ∀ ph ∈ f.segments eh, ph.fileBytes ⊆ S) :
    MadeOf Op.exec ok (· = .livelock)
      (eachSegment f eh (loadSegment f) (List.range eh.ePhnum.toNat)) :=
  eachSegment_madeOf fun ph hph => loadSegment_madeOf hS (hseg ph hph)

theorem asPrepareLoad_none {r : Option Errno} (h : asPrepareLoad p s = .ok r t) : r = none := by
  have hx : Triple (fun _ => True) (asPrepareLoad p) (fun r _ => r = none) fun _ _ => True :=
    Triple.bind (.any _) fun _ => Triple.bind (.any _) fun _ => Triple.bind (.any _) fun _ =>
      Triple.bind (.any _) fun _ => Triple.bind (.any _) fun _ => Triple.bind (.any _) fun _ =>
        Triple.bind (.any _) fun _ => Triple.bind (.any _) fun _ => Triple.bind (.any _) fun _ =>
          Triple.bind (.any _) fun _ => Triple.bind (.any _) fun _ => Triple.pure fun _ _ => rfl
  exact hx.of_ok trivial h

theorem loadSegments_madeOf (hprep : ∀ u, ok u (.prepareLoad p)) (hswap : ∀ u, ok u (.swapLoad p))
    (hS : StoresAllowed ok Set.univ) :
    MadeOf Op.exec ok (· = .livelock) (loadSegments p f eh) := by
  refine MadeOf.bind (.of_exec (i := .prepareLoad p) rfl hprep) fun r => ?_
  cases r with
  | some e => exact MadeOf.pure _
  | none =>
    refine MadeOf.bind (.of_exec (i := .swapLoad p) ?_ hswap) fun _ =>
      MadeOf.bind (copySegments_madeOf hS fun _ _ => Set.subset_univ _) fun r => ?_
    · exact (bind_pure_unit).symm
    · cases r with
      | some e => exact MadeOf.pure _
      | none => exact MadeOf.pure _

end Copying

end Os161.Vm

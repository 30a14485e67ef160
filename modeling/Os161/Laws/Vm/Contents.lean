import Os161.Laws.Vm.Paged

/-!
# What a page holds

The contents of a page are the bytes of its frame while it is in memory, and the bytes of the swap
slot `swap_in` would find for it while it is not. Bringing a page in and writing a page out are then
the two moves of `Os161.Lib.Paging` that keep contents, with one proviso: slots are found by virtual
address alone, so writing out a page of one process overwrites the slot of every other process that
has the page's address out at that moment.

For a single process the proviso is empty and paging is invisible. Between two processes it is what
isolation depends on.
-/

namespace Os161.Vm

open Os161.Lib

variable {i j : Fin maxPmSize} {swapspace : List PageTableEntry} {e : PageTableEntry}

/-! ## One page of either memory -/

section Memory

variable {ram : Paddr → UInt8} {file : Int → UInt8} {p q : Paddr} {offset offset' : Int}

theorem ramPage_vopRead_self : ramPage (vopRead file offset p ram) p = filePage file offset := by
  funext k
  have hk : (BitVec.ofNat 32 k.val).toNat = k.val := by
    rw [BitVec.toNat_ofNat, Nat.mod_eq_of_lt (by omega)]
  unfold ramPage vopRead filePage
  rw [BitVec.add_comm, BitVec.add_sub_cancel, hk, if_pos k.isLt]

theorem ramPage_vopRead_of_apart (h : ∀ k : Fin 4096, 4096 ≤ (q + BitVec.ofNat 32 k - p).toNat) :
    ramPage (vopRead file offset p ram) q = ramPage ram q := by
  funext k
  unfold ramPage vopRead
  rw [if_neg (Nat.not_lt.mpr (h k))]

theorem filePage_vopWrite_self : filePage (vopWrite ram p offset file) offset = ramPage ram p := by
  funext k
  have hk : (offset + (k.val : Int) - offset).toNat = k.val := by omega
  unfold filePage vopWrite ramPage
  rw [if_pos (by omega), hk]

theorem filePage_vopWrite_of_apart (h : offset + 4096 ≤ offset' ∨ offset' + 4096 ≤ offset) :
    filePage (vopWrite ram p offset file) offset' = filePage file offset' := by
  funext k
  unfold filePage vopWrite
  rw [if_neg (by omega)]

end Memory

theorem FrameTable.apart {s : VmState} (h : FrameTable s) (hij : i ≠ j)
    (k : Fin 4096) : 4096 ≤ (rowAddr s j + BitVec.ofNat 32 k - rowAddr s i).toNat := by
  have hi : i.val < 30 := i.isLt
  have hj : j.val < 30 := j.isLt
  have hne : i.val ≠ j.val := fun h => hij (Fin.ext h)
  have hb := s.physicalBaseAddr.isLt
  unfold rowAddr
  rw [h.rows i, h.rows j]
  simp only [frameAddr, BitVec.toNat_sub, BitVec.toNat_add, BitVec.toNat_mul, BitVec.toNat_ofNat,
    pageSize]
  omega

/-! ## Swap slots -/

/-- The swap table as `swapspace_init` lays it out: slot `i` has page `i` of the swap file, and the
offsets of all slots are different 32-bit words. -/
structure SwapTable (swapspace : List PageTableEntry) : Prop where
  offsets : ∀ i e, swapspace[i]? = some e → e.physicalAddr = BitVec.ofNat 32 (i * 4096)
  fits : swapspace.length * 4096 ≤ 2 ^ 32

theorem SwapTable.of_mapIdx {α : Type} {l : List α} {f : Nat → α → PageTableEntry}
    (hf : ∀ i x, (f i x).physicalAddr = BitVec.ofNat 32 (i * 4096))
    (h : l.length * 4096 ≤ 2 ^ 32) : SwapTable (l.mapIdx f) where
  offsets i e he := by
    rw [List.getElem?_mapIdx] at he
    obtain ⟨x, -, rfl⟩ := Option.map_eq_some_iff.mp he
    exact hf i x
  fits := by
    rw [List.length_mapIdx]
    exact h

theorem swapSlot_virtualAddr {v : Vaddr}
    (h : swapSlot swapspace v = some e) : e.virtualAddr = v := by
  unfold swapSlot at h
  simpa using List.find?_some h

theorem SwapTable.apart (h : SwapTable swapspace) {v w : Vaddr}
    {e' : PageTableEntry} (hvw : v ≠ w) (he : swapSlot swapspace v = some e)
    (he' : swapSlot swapspace w = some e') :
    e.offset + 4096 ≤ e'.offset ∨ e'.offset + 4096 ≤ e.offset := by
  have hv := swapSlot_virtualAddr he
  have hw := swapSlot_virtualAddr he'
  obtain ⟨i, hi, hie⟩ := List.mem_iff_getElem.mp (List.mem_of_find?_eq_some he)
  obtain ⟨j, hj, hje⟩ := List.mem_iff_getElem.mp (List.mem_of_find?_eq_some he')
  -- different addresses are in different positions
  have hij : i ≠ j := by
    rintro rfl
    exact hvw (by rw [← hv, ← hw, ← hie, ← hje])
  have hoff := h.offsets i e (by rw [List.getElem?_eq_getElem hi, hie])
  have hoff' := h.offsets j e' (by rw [List.getElem?_eq_getElem hj, hje])
  have hfits := h.fits
  unfold PageTableEntry.offset
  simp only [hoff, hoff', BitVec.toInt_eq_toNat_cond, BitVec.toNat_ofNat]
  omega

/-! ## Contents -/

/-- The contents of a page: its frame's bytes, or those of the slot found for it. A page that has
neither has none. -/
def pageBytes (s : VmState) (k : Ptr × Page) : Option (Fin 4096 → UInt8) :=
  contents (mapping s) (fun a => some (ramPage s.ram a)) (fun k => swapSlot s.swapspace k.2)
    (fun slot => slot.map fun e => filePage s.swapFile e.offset) k

/-- Resolving a fault of `p` on `v` writes over the slot of the page `k`: the page has to be brought
in, no row is free, and the victim is a page of another address space with the same address as `k`,
which is out. -/
def Overwrites (s : VmState) (p : Ptr) (v : Page) (k : Ptr × Page) : Prop :=
  mapping s (p, v) = none ∧ s.freeRows = [] ∧ mapping s k = none ∧
    ∃ A, A ≠ k.1 ∧ rowOwner s s.victim = some (A, k.2)

section Stages

variable {s t s₁ s₂ : VmState} {p : Ptr} {v : Page} {a : Paddr} {k : Ptr × Page}

theorem pageBytes_congr (hmap : mapping t = mapping s) (hram : t.ram = s.ram)
    (hslots : t.swapspace = s.swapspace) (hfile : t.swapFile = s.swapFile) :
    pageBytes t k = pageBytes s k := by
  unfold pageBytes
  rw [hmap, hram, hslots, hfile]

theorem AllocView.pageBytes_eq (h : AllocView s t i) (hs : Paged s)
    (hsw : SwapTable s.swapspace) (hout : mapping s (p, v) = none)
    (hk : ¬ Overwrites s p v k) : pageBytes t k = pageBytes s k := by
  cases h.origin with
  | free howner hmap hfile htlb => exact pageBytes_congr hmap h.ram h.swapspace hfile
  | victim A w e hfull hi howner hmap hslot hfile htlb =>
    obtain ⟨hrev, -⟩ := (tablesAgree_iff hs.frames).mp hs.agree
    unfold pageBytes
    rw [hmap, h.ram, h.swapspace, hfile]
    apply contents_evict (hrev.backward i _ howner)
    · simp only [hslot, Option.map_some, filePage_vopWrite_self]
    · intro hne hkout
      -- the slot written is another page's, unless the two pages have the same address
      by_cases hw : k.2 = w
      · refine absurd ⟨hout, hfull, hkout, A, ?_, ?_⟩ hk
        · rintro rfl
          exact hne (Prod.ext rfl hw)
        · rw [← hi, howner, hw]
      · cases he' : swapSlot s.swapspace k.2 with
        | none => rfl
        | some e' =>
          have hww : w.1 ≠ k.2.1 := fun h => hw (Subtype.ext h.symm)
          simp only [Option.map_some, filePage_vopWrite_of_apart (hsw.apart hww hslot he')]

theorem FillView.pageBytes_eq (h : FillView s t p v i e)
    (hft : FrameTable s) (hbut : AgreeBut s i) (hout : Os161.Vm.mapping s (p, v) = none) :
    pageBytes t k = pageBytes s k := by
  unfold pageBytes
  rw [h.mapping, h.ram, h.swapspace, h.file]
  apply contents_install hout
  · simp only [h.slot, Option.map_some, ramPage_vopRead_self]
  · intro a' ha'
    -- no page has the frame of row `i`, so the page's frame is that of another row
    obtain ⟨j, rfl, hj⟩ := hbut.reverse.forward k a' ha'
    have hji : i ≠ j := by
      rintro rfl
      rw [Function.update_self] at hj
      cases hj
    rw [ramPage_vopRead_of_apart (hft.apart hji)]

theorem MadeResident.pageBytes_eq (h : MadeResident s p v a t) (hs : Paged s)
    (hsw : SwapTable s.swapspace) (hk : ¬ Overwrites s p v k) : pageBytes t k = pageBytes s k := by
  cases h with
  | already hmap ht => rw [ht]
  | broughtIn s₁ s₂ j as as' heap e hmap halloc hfill =>
    obtain ⟨i, -, hview, hfview⟩ := broughtIn_views hs halloc hfill
    rw [hfview.pageBytes_eq (hview.frameTable hs.frames) (hview.agreeBut hs.frames hs.agree)
      (hview.mapping_none hmap), hview.pageBytes_eq hs hsw hmap hk]

theorem Resolved.pageBytes_eq {as as' : AddrSpace}
    (h : Resolved s p v t a s₁ s₂ e j as as') (hs : Paged s) (hsw : SwapTable s.swapspace)
    (hk : ¬ Overwrites s p v k) : pageBytes t k = pageBytes s k := by
  have hsame : pageBytes t k = pageBytes s₁ k := by
    apply pageBytes_congr h.same.mapping <;> rw [h.state, h.touched.state]
  rw [hsame, h.resident.pageBytes_eq hs hsw hk]

theorem vmFault_pageBytes_eq {ft : FaultType} {va : Vaddr} {r : Option Errno} (hs : Paged s)
    (hsw : SwapTable s.swapspace) (h : vmFault ft va s = .ok r t)
    (hk : ∀ q, s.curAddrspace = some q → ¬ Overwrites s q (pageOf va) k) :
    pageBytes t k = pageBytes s k := by
  rcases of_vmFault_ok hs.positions h with ht | ⟨q, as, -, hq, -, -, -, hres⟩
  · rw [ht]
    rfl
  · obtain ⟨a, s₁, s₂, e, j, as₁, as', hres⟩ := hres
    exact hres.pageBytes_eq hs.counted hsw (hk q hq)

end Stages

/-! ## One process -/

section OneProcess

theorem mem_region {base n v : BitVec 32} (hbase : IsPage base) (hv : IsPage v) (hle : base ≤ v)
    (hlt : v < base + n * pageSize) :
    v ∈ (List.range n.toNat).map fun i => base + BitVec.ofNat 32 i * pageSize := by
  rw [isPage_iff] at hbase hv
  rw [BitVec.le_def] at hle
  rw [BitVec.lt_def] at hlt
  have hb := base.isLt
  have hv' := v.isLt
  simp only [BitVec.toNat_add, BitVec.toNat_mul, BitVec.toNat_ofNat, pageSize] at hlt
  refine List.mem_map.mpr ⟨(v.toNat - base.toNat) / 4096, List.mem_range.mpr (by omega), ?_⟩
  apply BitVec.eq_of_toNat_eq
  simp only [BitVec.toNat_add, BitVec.toNat_mul, BitVec.toNat_ofNat, pageSize]
  omega

theorem mem_stack {v : Vaddr} (hv : IsPage v)
    (hle : userstack - BitVec.ofNat 32 initStackpages * pageSize ≤ v) (hlt : v < userstack) :
    v ∈ (List.range initStackpages).map fun i => userstack - BitVec.ofNat 32 (i + 1) * pageSize := by
  rw [isPage_iff] at hv
  have hlow : 0x7fff4000 ≤ v.toNat := BitVec.le_def.mp hle
  have hhigh : v.toNat < 0x80000000 := BitVec.lt_def.mp hlt
  obtain ⟨i, hi, hvi⟩ : ∃ i < 12, v.toNat + (i + 1) * 4096 = 0x80000000 :=
    ⟨(0x7fffffff - v.toNat) / 4096, by omega, by omega⟩
  have hadd : v + BitVec.ofNat 32 (i + 1) * pageSize = userstack := by
    apply BitVec.eq_of_toNat_eq
    rw [BitVec.toNat_add, BitVec.toNat_mul, BitVec.toNat_ofNat,
      show (pageSize : BitVec 32).toNat = 4096 from rfl,
      show (userstack : BitVec 32).toNat = 0x80000000 from rfl]
    omega
  refine List.mem_map.mpr ⟨i, List.mem_range.mpr hi, ?_⟩
  rw [← hadd, BitVec.add_sub_cancel]

theorem AddrSpace.covers_mem_swapPages {as : AddrSpace} (hc : as.Checked) {v : Page}
    (h : as.covers v = true) : v.1 ∈ as.swapPages := by
  simp only [covers, Bool.or_eq_true, Bool.and_eq_true, decide_eq_true_eq] at h
  unfold swapPages
  rw [List.mem_append, List.mem_append]
  rcases h with (⟨hle, hlt⟩ | ⟨hle, hlt⟩) | ⟨hle, hlt⟩
  · exact .inl (.inl (mem_region hc.aligned1 v.2 hle hlt))
  · exact .inl (.inr (mem_region hc.aligned2 v.2 hle hlt))
  · exact .inr (mem_stack v.2 hle hlt)

variable {s : VmState} {A : Ptr} {as : AddrSpace}

theorem pageBytes_isSome {v : Page} (h : (swapSlot s.swapspace v).isSome) :
    (pageBytes s (A, v)).isSome := by
  obtain ⟨e, he⟩ := Option.isSome_iff_exists.mp h
  unfold pageBytes contents
  cases mapping s (A, v) with
  | some a => rfl
  | none => simp [he]

theorem Paged.owner_eq (hs : Paged s) (honly : ∀ B, s.spaces B ≠ none → B = A)
    {B : Ptr} {v : Page} (h : rowOwner s i = some (B, v)) : B = A := by
  obtain ⟨hrev, -⟩ := (tablesAgree_iff hs.frames).mp hs.agree
  have hmap := hrev.backward i _ h
  apply honly
  intro hnone
  simp [mapping, hnone] at hmap

theorem Paged.faultSwaps (hs : Paged s) (hA : s.spaces A = some as)
    (honly : ∀ B, s.spaces B ≠ none → B = A)
    (hentered : ∀ v ∈ as.swapPages, (swapSlot s.swapspace v).isSome)
    (hown : ∀ v : Page, mapping s (A, v) ≠ none → v.1 ∈ as.swapPages) (va : Vaddr) :
    FaultSwaps s va := by
  intro q as' hq has' hc hcov hout
  obtain rfl : q = A := honly q (by rw [has']; exact Option.some_ne_none _)
  obtain rfl : as = as' := Option.some.inj (hA.symm.trans has')
  refine ⟨hentered _ (AddrSpace.covers_mem_swapPages hc hcov), fun hfull => ?_⟩
  -- the victim's row records a page of the address space
  obtain ⟨hrev, howned⟩ := (tablesAgree_iff hs.frames).mp hs.agree
  obtain ⟨⟨B, w⟩, howner⟩ := Option.isSome_iff_exists.mp
    (howned s.victim (validBit_of_full hfull s.victim))
  obtain rfl := hs.owner_eq honly howner
  obtain ⟨-, -, hw⟩ := PageTableEntry.owner_eq_some.mp howner
  rw [hw]
  apply hentered
  apply hown
  rw [hrev.backward _ _ howner]
  exact Option.some_ne_none _

/-- Paging is invisible to a process that is alone: with its pages entered in swap, every fault that
returns leaves the contents of every one of them as they were; and where only its own pages are in
memory, a fault returns, or it stops at an assertion on the regions before it has done anything. -/
theorem fault_keeps_contents (hs : Paged s) (hsw : SwapTable s.swapspace)
    (hA : s.spaces A = some as) (honly : ∀ B, s.spaces B ≠ none → B = A)
    (hentered : ∀ v ∈ as.swapPages, (swapSlot s.swapspace v).isSome) (ft : FaultType) (va : Vaddr) :
    (∀ r t, vmFault ft va s = .ok r t → ∀ v : Page, v.1 ∈ as.swapPages →
      ∃ bytes, pageBytes s (A, v) = some bytes ∧ pageBytes t (A, v) = some bytes) ∧
    ((∀ v : Page, mapping s (A, v) ≠ none → v.1 ∈ as.swapPages) →
      (∃ r t, vmFault ft va s = .ok r t) ∨
        ∃ e, FaultStop e ∧ vmFault ft va s = .error e s.counted) := by
  refine ⟨fun r t h v hv => ?_, fun hown =>
    vmFault_cases ft hs (hs.faultSwaps hA honly hentered hown va)⟩
  obtain ⟨bytes, hbytes⟩ := Option.isSome_iff_exists.mp (pageBytes_isSome (A := A) (hentered v hv))
  refine ⟨bytes, hbytes, ?_⟩
  rw [vmFault_pageBytes_eq hs hsw h, hbytes]
  rintro q hq ⟨-, -, -, B, hB, howner⟩
  exact hB (hs.owner_eq honly howner)

/-- A process alone, at its first fault. -/
theorem contents_kept_by_first_fault : ∃ r t, vmFault .read 0x10000000#32 (processes [2]) = .ok r t ∧
      ∀ v : Page, v.1 ∈ sampleSpace.swapPages →
        ∃ bytes, pageBytes (processes [2]) (2, v) = some bytes ∧ pageBytes t (2, v) = some bytes := by
  have honly (B : Ptr) (hB : (processes [2]).spaces B ≠ none) : B = 2 := by
    by_contra hne
    exact hB (if_neg (by simpa using hne))
  have hentered : sampleSpace.swapPages.all fun v =>
      (swapSlot (processes [2]).swapspace v).isSome := by decide +kernel
  obtain ⟨hkept, hreturns⟩ := fault_keeps_contents (processes_paged [2])
    (.of_mapIdx (fun _ _ => rfl) (by decide +kernel)) rfl honly (List.all_eq_true.mp hentered)
    .read 0x10000000#32
  have hempty (v : Page) : mapping (processes [2]) (2, v) = none := rfl
  rcases hreturns fun v hv => absurd (hempty v) hv with ⟨r, t, ht⟩ | ⟨e, -, he⟩
  · exact ⟨r, t, ht, hkept r t ht⟩
  · have hret : returns (vmFault .read 0x10000000#32 (processes [2])) = true := by decide +kernel
    rw [he] at hret
    cases hret

end OneProcess

end Os161.Vm

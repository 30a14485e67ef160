import Os161.Laws.Vm.Primitives
import Os161.Vm.Boot

/-!
# The swap slots on the device

The size of the swap device is a 32-bit product, and the offset of a slot is kept in an unsigned word and read back
as an `int`. Both are right on devices of less than 2 GiB and a page: from there on some slot has a negative offset,
and from 4 GiB on the size is wrong.
-/

namespace Os161.Vm

open Os161.Lib

variable {i n : Nat} {s : VmState} {v : Vaddr}

/-- The swap table has `n` slots, with the offsets that `swapspace_init` sets. -/
structure SlotsSet (n : Nat) (s : VmState) : Prop where
  length : s.swapspace.length = n
  offsets : ∀ i e, s.swapspace[i]? = some e → e.physicalAddr = BitVec.ofNat 32 (i * 4096)

theorem slotOffset_eq_iff (hi : i < 0x100000) :
    (BitVec.ofNat 32 (i * 4096)).toInt = (i * 4096 : Nat) ↔ i < 0x80000 := by
  rw [BitVec.toInt_eq_toNat_cond, BitVec.toNat_ofNat]
  constructor
  · intro h
    split at h <;> omega
  · intro h
    rw [if_pos (by omega)]
    omega

/-- The slot `i` is the one found for `v`. -/
def FoundAt (s : VmState) (v : Vaddr) (i : Nat) : Prop :=
  s.swapspace.findIdx (fun e => e.virtualAddr == v) = i ∧ i < s.swapspace.length

theorem FoundAt.slot (h : FoundAt s v i) :
    swapSlot s.swapspace v = s.swapspace[i]? := by
  unfold swapSlot
  rw [← h.1, List.find?_eq_getElem?_findIdx]

/-- A transfer of the slot `i` moves the bytes from `i * 4096` on: exactly one page of the device. -/
def TransfersAt (s : VmState) (v : Vaddr) (i : Nat) : Prop :=
  ∀ p, swapOut v p s = .ok () { s with swapFile := vopWrite s.ram (p &&& pageFrame) (i * 4096 : Nat) s.swapFile } ∧
    swapIn v p s = .ok () { s with ram := vopRead s.swapFile (i * 4096 : Nat) (p &&& pageFrame) s.ram }

/-- On a device of `dBlocks` blocks of 512 bytes the swap space has as many slots as there are whole pages, and every
slot is transferred where it belongs. -/
def SlotsExact (dBlocks : BitVec 32) : Prop :=
  swapspaceSize dBlocks 512#32 = dBlocks.toNat * 512 / 4096 ∧
    ∀ s, SlotsSet (swapspaceSize dBlocks 512#32) s → ∀ i v, FoundAt s v i → TransfersAt s v i

theorem swapspaceSize_eq (dBlocks : BitVec 32) :
    swapspaceSize dBlocks 512#32 = dBlocks.toNat * 512 % 0x100000000 / 4096 := by
  have hsize : (devStatSize dBlocks 512#32).toNat = dBlocks.toNat * 512 % 0x100000000 := by
    unfold devStatSize
    split
    · rw [BitVec.toNat_mul]
      rfl
    · rename_i hzero
      rw [BitVec.lt_def] at hzero
      simp only [BitVec.toNat_ofNat, Nat.zero_mod, Nat.not_lt, Nat.le_zero] at hzero
      rw [hzero]
      rfl
  rw [swapspaceSize, hsize]

theorem transfersAt_of_lt (hs : SlotsSet n s) (hv : FoundAt s v i)
    (hi : i < 0x80000) : TransfersAt s v i := by
  obtain ⟨e, he⟩ : ∃ e, s.swapspace[i]? = some e := ⟨_, List.getElem?_eq_getElem hv.2⟩
  have hslot : swapSlot s.swapspace v = some e := hv.slot.trans he
  have hoff : e.offset = (i * 4096 : Nat) := by
    rw [PageTableEntry.offset, hs.offsets i e he]
    exact (slotOffset_eq_iff (by omega)).mpr hi
  intro p
  rw [swapOut_ok hslot, swapIn_ok hslot, hoff]
  exact ⟨rfl, rfl⟩

/-- A table in which the slot `i` is the only one for the address 1; every byte of memory is 1, and every byte of the
swap file 0. -/
def markedSlot (n i : Nat) : VmState :=
  { coldStart with
    swapspace := (List.range n).map fun k =>
      { (default : PageTableEntry) with
        physicalAddr := BitVec.ofNat 32 (k * 4096), virtualAddr := if k = i then 1#32 else 0#32 }
    ram := fun _ => 1 }

theorem markedSlot_set (n i : Nat) : SlotsSet n (markedSlot n i) := by
  refine ⟨by simp [markedSlot], fun k e he => ?_⟩
  unfold markedSlot at he
  dsimp only at he
  rw [List.getElem?_map] at he
  obtain ⟨k', hk', rfl⟩ := Option.map_eq_some_iff.mp he
  have := List.getElem?_eq_some_iff.mp hk'
  simp only [List.length_range, List.getElem_range] at this
  rw [this.2]

theorem markedSlot_found (hi : i < n) : FoundAt (markedSlot n i) 1#32 i := by
  have hlen : (markedSlot n i).swapspace.length = n := by simp [markedSlot]
  refine ⟨?_, hlen.symm ▸ hi⟩
  rw [List.findIdx_eq (hlen.symm ▸ hi)]
  simp only [markedSlot, List.getElem_map, List.getElem_range]
  refine ⟨rfl, fun j hj => ?_⟩
  rw [if_neg (Nat.ne_of_lt hj)]
  rfl

theorem not_transfersAt (hn : 0x80000 < n) : ¬ TransfersAt (markedSlot n 0x80000) 1#32 0x80000 := by
  intro h
  have hfound := markedSlot_found hn
  obtain ⟨e, he⟩ : ∃ e, (markedSlot n 0x80000).swapspace[0x80000]? = some e :=
    ⟨_, List.getElem?_eq_getElem hfound.2⟩
  have hoff : e.offset = -0x80000000 := by
    rw [PageTableEntry.offset, (markedSlot_set n _).offsets _ e he]
    decide
  have hrun := (h 0#32).1
  rw [swapOut_ok (hfound.slot.trans he), hoff] at hrun
  injection hrun with _ hstate
  have hbyte := congrFun (congrArg VmState.swapFile hstate) 0x80000000
  revert hbyte
  simp [vopWrite, markedSlot, coldStart]

/-- The swap space is right exactly on devices of less than 2 GiB and a page. -/
theorem slots_exact_iff (dBlocks : BitVec 32) : SlotsExact dBlocks ↔ dBlocks.toNat * 512 < 0x80001000 := by
  have hsize := swapspaceSize_eq dBlocks
  constructor
  · rintro ⟨heq, htransfers⟩
    by_contra hlarge
    have hn : 0x80000 < swapspaceSize dBlocks 512#32 := by omega
    exact not_transfersAt hn (htransfers _ (markedSlot_set _ _) _ _ (markedSlot_found hn))
  · intro hsmall
    refine ⟨by omega, fun s hs i v hv => transfersAt_of_lt hs hv ?_⟩
    have hi := hv.2
    rw [hs.length] at hi
    omega

/-- A device of 4 GiB makes a swap space without slots. -/
theorem four_gib_has_no_slots : swapspaceSize 0x800000#32 512#32 = 0 ∧ ¬ SlotsExact 0x800000#32 := by
  refine ⟨by decide, ?_⟩
  rintro ⟨hsize, -⟩
  revert hsize
  decide

end Os161.Vm

import Os161.Laws.Sfs.Io
import Os161.Laws.Sfs.Slots

/-!
# Directory I/O

What `sfs_readdir`, `sfs_dir_findname` and `sfs_writedir` do, in terms of the slots of the directory. A search ends
with the slot of the name, if there is one, and with an empty slot; a write puts an entry over a slot, or after the
last, and when it fails the slots are as they were. The device may fail; only that a write is lost without a trace has
to be ruled out.
-/

namespace Os161.Sfs

open Os161.Lib Prog

variable {r : State → State → Prop}

/-- The slots of the directory that a file is. -/
abbrev FileState.slots (x : FileState) : List SfsDir := slotsOf x.inode x.disk

/-- The name is in one of the first `m` slots, with the answer of a search. -/
def FoundIn (slots : List SfsDir) (name : CStr) (m : Nat) : Option (Blk × Nat) → Prop
  | some (ino, k) => k < m ∧ HasName slots name ino k
  | none => ∀ k, k < m → ∀ ino, ¬ HasName slots name ino k

theorem FoundIn.fresh {slots : List SfsDir} {name : CStr} (h : FoundIn slots name slots.length none) :
    ∀ e ∈ occupied slots, e.str ≠ name.val := by
  intro e he hstr
  obtain ⟨hmem, hne⟩ := mem_occupied.mp he
  obtain ⟨k, hk, rfl⟩ := List.mem_iff_getElem.mp hmem
  exact h k hk _ ⟨⟨_, List.getElem?_eq_getElem hk, rfl, hstr⟩, hne⟩

/-- One of the first `m` slots is empty, with the answer of a search. -/
def EmptyIn (slots : List SfsDir) (m : Nat) : Option Nat → Prop
  | some k => k < m ∧ ∃ d, slots[k]? = some d ∧ d.ino = 0
  | none => ∀ k, k < m → ∀ d, slots[k]? = some d → d.ino ≠ 0

section Search

variable {slots : List SfsDir} {name : CStr} {m : Nat} {d : SfsDir} (hd : slots[m]? = some d)
include hd

theorem FoundIn.skip {found : Option (Blk × Nat)} (h : FoundIn slots name m found)
    (hnot : d.ino = 0 ∨ d.str ≠ name.val) : FoundIn slots name (m + 1) found := by
  cases found with
  | some answer => exact ⟨Nat.lt_succ_of_lt h.1, h.2⟩
  | none =>
    intro k hk ino hname
    rcases Nat.lt_succ_iff_lt_or_eq.mp hk with hlt | rfl
    · exact h k hlt ino hname
    · obtain ⟨e, he, hino, hstr⟩ := hname.entry
      cases hd.symm.trans he
      rcases hnot with hzero | hne
      · exact hname.ino_ne (hino.symm.trans hzero)
      · exact hne hstr

theorem FoundIn.here (hino : d.ino ≠ 0) (hstr : d.str = name.val) :
    FoundIn slots name (m + 1) (some (d.ino, m)) :=
  ⟨Nat.lt_succ_self m, ⟨d, hd, rfl, hstr⟩, hino⟩

theorem EmptyIn.skip {emptyslot : Option Nat} (h : EmptyIn slots m emptyslot) (hino : d.ino ≠ 0) :
    EmptyIn slots (m + 1) emptyslot := by
  cases emptyslot with
  | some k => exact ⟨Nat.lt_succ_of_lt h.1, h.2⟩
  | none =>
    intro k hk e he
    rcases Nat.lt_succ_iff_lt_or_eq.mp hk with hlt | rfl
    · exact h k hlt e he
    · cases hd.symm.trans he
      exact hino

theorem EmptyIn.here (hino : d.ino = 0) : EmptyIn slots (m + 1) (some m) :=
  ⟨Nat.lt_succ_self m, d, hd, hino⟩

end Search

variable {R : Blk → Prop} {c : Core} {p : Ptr} {v : Vnode} {s : State} {x : FileState} {name : CStr}
  {E : Stop Errno Panic → State → Prop}

/-! ## Transfers inside one block -/

theorem wpAlong_ioTransfer {u : Uio} (hpos : 0 < u.resid) (hsmall : u.resid < blockSize)
    (hin : u.offset % blockSize + u.resid ≤ blockSize) {Q : Option Errno × Uio → State → Prop}
    (h : wpAlong r (sfsPartialio p u (u.offset % blockSize) u.resid) (fun u' t => u'.resid = 0 ∧ Q (none, u') t)
      (fun e t => match e with
        | .err e => Q (some e, u) t
        | .panic e => E (.panic e) t) s) : wpAlong r (ioTransfer p u) Q E s := by
  have hne : u.resid ≠ 0 := Nat.ne_of_gt hpos
  simp only [ioTransfer, wpAlong_ite, wpAlong_bind, wpAlong_attempt]
  split
  · rename_i h0
    rw [h0] at h
    simp only [ioAligned, wpAlong_bind, wpAlong_assert, wpAlong_pure, hne, h0, if_false, if_true, decide_true,
      Nat.div_eq_of_lt hsmall, ioBlocks, hsmall, hpos, wpAlong_attempt]
    exact h.mono (fun u' t hu' => hu'.2) fun e t he => by cases e <;> exact he
  · rw [Nat.min_eq_right (by omega)]
    refine h.mono (fun u' t hu' => ?_) fun e t he => ?_
    swap
    · cases e with
      | err e => exact (wpAlong_pure _).mpr he
      | panic e => exact he
    simp only [ioAligned, hu'.1, if_true, wpAlong_pure]
    exact hu'.2

/-! ## Searching -/

/-- The block reads of `sfs_readdir` for a slot. -/
def FileState.slotReads (x : FileState) (k : Nat) : Nat := x.blockReads (fileblockOf (k * direntSize))

/-- The block reads of `sfs_dir_findname`. -/
def FileState.searchReads (x : FileState) : Nat := ((List.range x.slots.length).map x.slotReads).sum

section Read

variable (hok : FileOk R x) (hroot : RootOk x.inode x.slots)
include hok hroot

theorem wp_readdir (hm : Mounted R c) {k : Nat} {d : SfsDir} (h : Focus c p v s x) (hd : x.slots[k]? = some d)
    {Q : SfsDir → State → Prop}
    (hQ : ∀ rest t, afterReads (x.slotReads k) c.faults = some rest → Focus (c.withFaults rest) p v t x → Q d t)
    (hE : ∀ rest t, rest <:+ c.faults → afterReads (x.slotReads k) c.faults = none →
      Focus (c.withFaults rest) p v t x → E (.err Errno.EIO) t) : wp (sfsReaddir p k) Q E s := by
  obtain ⟨hk, rfl⟩ := List.getElem?_eq_some_iff.mp hd
  rw [length_slotsOf] at hk
  have hsize : k * direntSize + direntSize ≤ x.inode.size.toNat := by
    simp only [direntSize] at *
    omega
  have hsmall := hroot.small
  have hlength : (List.replicate direntSize (0 : UInt8)).length = direntSize := List.length_replicate
  simp only [sfsReaddir, wp_bind]
  generalize List.replicate direntSize (0 : UInt8) = buf at hlength
  -- all the bytes of the entry are before the end of the directory, and in one block
  have hextra : k * direntSize + direntSize - x.inode.size.toNat = 0 := Nat.sub_eq_zero_of_le hsize
  have hin : k * direntSize % blockSize + direntSize ≤ blockSize := by
    simp only [direntSize, blockSize]
    omega
  have hpos : 0 < direntSize := by decide
  have hfew : direntSize < blockSize := by decide
  have hbefore : ¬ x.inode.size.toNat ≤ k * direntSize := by
    simp only [direntSize] at *
    omega
  have hoff : k * direntSize < 0x100000000 := by
    simp only [maxFile, ndirect, dbperidb, blockSize, direntSize] at *
    omega
  simp only [sfsIo, uioKinit, ioRead, wp_bind]
  rw [wp_vnode h]
  simp only [hlength, hbefore, if_false, wp_bind, wp_assert, hextra, decide_true, Bool.true_or, if_true, Nat.sub_zero]
  refine (wpAlong_ioTransfer hpos hfew hin (wp_partialio_look (u := ⟨.read, k * direntSize, direntSize, [], buf⟩)
    hm h hok (Nat.le_of_eq hlength.symm) hin (Nat.le_refl _) rfl hoff ?_ ?_ ?_).along).wp
  · intro rest t hreads ht
    have hbytes : [] ++ bytesFrom x.byteAt (k * direntSize) direntSize ++
        buf.drop (bytesFrom x.byteAt (k * direntSize) direntSize).length =
        bytesFrom x.byteAt (k * direntSize) direntSize := by
      rw [length_bytesFrom, List.drop_of_length_le (Nat.le_of_eq hlength), List.append_nil, List.nil_append]
    simp only [Uio.advance, length_bytesFrom, Nat.sub_self, true_and, Nat.add_zero, Nat.lt_irrefl, if_false, wp_pure]
    rw [length_bytesFrom] at hbytes
    rw [hbytes, ← getElem_slotsOf]
    exact hQ rest t hreads ht
  · intro hbig
    exact absurd hsize (by simp only [direntSize] at *; omega)
  · intro rest t hrest hreads ht
    exact hE rest t hrest hreads ht

omit hok in
theorem wp_dirNentries (h : Focus c p v s x) {Q : Nat → State → Prop} (hQ : Q x.slots.length s) :
    wp (sfsDirNentries p) Q E s := by
  simp only [sfsDirNentries, wp_bind]
  rw [wp_vnode h]
  simp only [wp_assert, hroot.type, decide_true, if_true, hroot.whole, ne_eq, not_true_eq_false, if_false, wp_pure]
  rwa [length_slotsOf] at hQ

theorem wp_findLoop (n : Nat) : ∀ {c : Core} {m : Nat} {s : State} {found : Option (Blk × Nat)}
    {emptyslot : Option Nat} {Q : Option (Blk × Nat) × Option Nat → State → Prop}, Mounted R c →
    m + n = x.slots.length → Focus c p v s x → FoundIn x.slots name m found → EmptyIn x.slots m emptyslot →
    (∀ rest t found emptyslot, afterReads ((List.range' m n).map x.slotReads).sum c.faults = some rest →
      Focus (c.withFaults rest) p v t x → FoundIn x.slots name x.slots.length found →
      EmptyIn x.slots x.slots.length emptyslot → Q (found, emptyslot) t) →
    (∀ rest t, rest <:+ c.faults → afterReads ((List.range' m n).map x.slotReads).sum c.faults = none →
      Focus (c.withFaults rest) p v t x → E (.err Errno.EIO) t) →
    wp (findLoop p name (List.range' m n) found emptyslot) Q E s := by
  induction n with
  | zero =>
    intro c m s found emptyslot Q _ hm h hfound hempty hQ _
    rw [Nat.add_zero] at hm
    subst hm
    exact hQ c.faults s found emptyslot rfl h hfound hempty
  | succ n ih =>
    intro c m s found emptyslot Q hmounted hm h hfound hempty hQ hE
    have hd : x.slots[m]? = some x.slots[m] := List.getElem?_eq_getElem (by omega)
    have hm' : m + 1 + n = x.slots.length := by omega
    simp only [List.range'_succ, List.map_cons, List.sum_cons, afterReads_add] at hQ hE
    simp only [List.range'_succ, findLoop, wp_bind]
    refine wp_readdir hok hroot hmounted h hd (fun rest t hreads ht => ?_) fun rest t hrest hreads ht => ?_
    swap
    · exact hE rest t hrest (by rw [hreads, Option.bind_none]) ht
    simp only [hreads, Option.bind_some] at hQ hE
    replace hE : ∀ rest' t, rest' <:+ rest → afterReads _ rest = none → Focus (c.withFaults rest') p v t x →
        E (.err Errno.EIO) t := fun rest' t hrest' => hE rest' t (hrest'.trans (afterReads_suffix hreads))
    simp only [wp_ite]
    split
    · rename_i hzero
      exact ih (hmounted.withFaults rest) hm' ht (hfound.skip hd (.inl hzero)) (.here hd hzero) hQ hE
    · rename_i hino
      split
      · rename_i hstr
        have hhere : FoundIn x.slots name (m + 1) (some (x.slots[m].ino, m)) := .here hd hino hstr
        -- the name was not in a slot before
        have hnone : found = none := by
          cases found with
          | none => rfl
          | some answer =>
            have := answer.eta ▸ hfound.2.unique hroot.names hhere.2
            have hlt := hfound.1
            omega
        subst hnone
        simp only [wp_bind, wp_assert, Option.isNone_none, if_true]
        exact ih (hmounted.withFaults rest) hm' ht hhere (hempty.skip hd hino) hQ hE
      · rename_i hstr
        exact ih (hmounted.withFaults rest) hm' ht (hfound.skip hd (.inr hstr)) (hempty.skip hd hino) hQ hE

theorem wp_dirFindname (hm : Mounted R c) (h : Focus c p v s x) {Q : Option (Blk × Nat) × Option Nat → State → Prop}
    (hQ : ∀ rest t found emptyslot, afterReads x.searchReads c.faults = some rest →
      Focus (c.withFaults rest) p v t x → FoundIn x.slots name x.slots.length found →
      EmptyIn x.slots x.slots.length emptyslot → Q (found, emptyslot) t)
    (hE : ∀ rest t, rest <:+ c.faults → afterReads x.searchReads c.faults = none →
      Focus (c.withFaults rest) p v t x → E (.err Errno.EIO) t) :
    wp (sfsDirFindname p name) Q E s := by
  simp only [sfsDirFindname, wp_bind]
  refine wp_dirNentries hroot h ?_
  rw [FileState.searchReads, List.range_eq_range'] at *
  refine wp_findLoop hok hroot _ hm (Nat.zero_add _) h ?_ ?_ hQ hE
  · exact fun k hk => absurd hk (Nat.not_lt_zero k)
  · exact fun k hk => absurd hk (Nat.not_lt_zero k)

end Read

/-! ## Writing -/

/-- The block of a slot is not there. -/
def NoBlock (x : FileState) (k : Nat) : Prop :=
  ∀ r, placeOf (fileblockOf (k * direntSize)) = some r → x.blockAt r = 0

theorem not_noBlock {k : Nat} {d : SfsDir} (hsmall : x.inode.size.toNat ≤ maxFile) (hd : x.slots[k]? = some d)
    (hino : d.ino ≠ 0) : ¬ NoBlock x k := by
  intro hnone
  obtain ⟨hk, rfl⟩ := List.getElem?_eq_some_iff.mp hd
  rw [getElem_slotsOf] at hino
  obtain ⟨b, hb, hne⟩ := SfsDir.exists_ne_zero hino
  obtain ⟨i, hi, rfl⟩ := List.mem_map.mp hb
  have hi := List.mem_range.mp hi
  rw [length_slotsOf] at hk
  -- the byte is in the block of the slot
  have hdiv : (k * direntSize + i) / blockSize = fileblockOf (k * direntSize) := by
    rw [fileblockOf_eq (by simp only [direntSize] at *; omega)]
    simp only [direntSize, blockSize] at *
    omega
  apply hne
  simp only [Inode.byteAt, hdiv]
  cases hr : placeOf (fileblockOf (k * direntSize)) with
  | none => rfl
  | some r => exact if_pos (hnone r hr)

theorem noBlock_of_needs {x' : FileState} {fb : Nat} {q : Place} (hkept : ∀ r, x.blockAt r ≠ 0 → x'.blockAt r = x.blockAt r)
    (hq : Needs fb q) (hzero : x'.blockAt q = 0) : ∀ r, placeOf fb = some r → x.blockAt r = 0 := by
  have hxq : x.blockAt q = 0 := by
    by_contra hne
    rw [hkept q hne] at hzero
    exact hne hzero
  intro r hr
  rcases hq with hq | ⟨rfl, hle⟩
  · cases hr.symm.trans hq
    exact hxq
  · unfold placeOf at hr
    rw [dif_neg (Nat.not_lt.mpr hle)] at hr
    split at hr
    · cases hr
      exact if_pos hxq
    · cases hr

section Write

variable (hm : Mounted R c) (h : Focus c p v s x) (hok : FileOk R x) {k : Nat} {d : SfsDir} (hd : d.Ok)
  (hk : k ≤ x.slots.length) (hwhole : x.inode.size.toNat % direntSize = 0) (hsmall : x.inode.size.toNat ≤ maxFile)
include hm h hok hd hk hwhole hsmall

theorem wpAlong_writedir (hdone : Spares r (c.faults = [])) {Q : Unit → State → Prop}
    (hQ : ∀ rest t x', rest <:+ c.faults → Focus (c.withFaults rest) p v t x' → FileStep R x x' →
      x'.slots = setSlot x.slots k d → x'.inode.size.toNat % direntSize = 0 → x'.inode.size.toNat ≤ maxFile → Q () t)
    (hE : ∀ e rest t x', rest <:+ c.faults → Focus (c.withFaults rest) p v t x' → FileStep R x x' →
      x'.slots = x.slots → x'.inode.size = x.inode.size → (c.faults = [] → NoBlock x k) → E (.err e) t) :
    wpAlong r (sfsWritedir p d k) Q E s := by
  have hlength := hd.length
  rw [length_slotsOf] at hk
  have hoff : k * direntSize ≤ x.inode.size.toNat := by
    simp only [direntSize] at *
    omega
  have hwrap : wrapOf (k * direntSize) = k * direntSize := wrapOf_eq (by
    simp only [maxFile, ndirect, dbperidb, blockSize] at hsmall
    omega)
  -- the entry is in one block
  have hin : k * direntSize % blockSize + direntSize ≤ blockSize := by
    simp only [direntSize, blockSize]
    omega
  have hpos : 0 < direntSize := by decide
  have hfew : direntSize < blockSize := by decide
  have htake : d.toBytes.take direntSize = d.toBytes := List.take_of_length_le (Nat.le_of_eq hlength)
  simp only [sfsWritedir, sfsIo, uioKinit, ioWrite, hlength, wpAlong_bind]
  refine wpAlong_ioTransfer hpos hfew hin
    (wpAlong_partialio (N := Needs (fileblockOf (k * direntSize))) (u := ⟨.write, k * direntSize, direntSize, [], d.toBytes⟩)
      hm h hok (Nat.le_of_eq hlength.symm) hin (Nat.le_refl _) hdone rfl (fun _ hq => hq) ?_ ?_)
  · intro rest t x' hrest ht hx'
    rw [htake] at hx' ⊢
    -- the block was before the end of the largest file
    obtain ⟨q, hq, -⟩ := hx'.there (k * direntSize) (Nat.le_refl _) (by rw [hlength]; simp only [direntSize]; omega)
    have hfb := placeOf_lt hq
    have hend : k * direntSize + direntSize ≤ maxFile := by
      rw [← wrapOf_div, hwrap] at hfb
      simp only [maxFile, ndirect, dbperidb, direntSize, blockSize] at *
      omega
    have hbytes := hx'.bytes (by rw [hwrap, hlength]; exact hend)
    rw [hwrap] at hbytes
    have hwritten : ∀ y : FileState, y.byteAt = x'.byteAt →
        y.inode.size.toNat = max x.inode.size.toNat ((k + 1) * direntSize) → y.slots = setSlot x.slots k d ∧
          y.inode.size.toNat % direntSize = 0 ∧ y.inode.size.toNat ≤ maxFile := by
      intro y hbytes' hsize'
      refine ⟨slotsOf_write hd (by rwa [length_slotsOf]) hwhole (hbytes'.trans hbytes) hsize', ?_, ?_⟩
      · rw [hsize']
        simp only [direntSize] at *
        omega
      · rw [hsize']
        simp only [direntSize, maxFile, ndirect, dbperidb, blockSize] at *
        omega
    refine ⟨?_, ?_⟩
    · rw [Uio.advance_resid, hlength]
      exact Nat.sub_self _
    have hresid : ¬ 0 < direntSize - direntSize := by decide
    rw [wpAlong_vnode ht]
    simp only [Uio.advance_offset, hlength, hx'.size, wpAlong_ite, wpAlong_bind, wpAlong_pure, Uio.advance_resid,
      hresid, if_false]
    split
    · rename_i hgrow
      refine (wp_setInode ht _ fun t' ht' _ => ?_).along
      have hsize : (UInt32.ofNat (k * direntSize + direntSize)).toNat = k * direntSize + direntSize :=
        UInt32.toNat_ofNat_of_lt' (by
          simp only [maxFile, ndirect, dbperidb, blockSize, UInt32.size] at *
          omega)
      obtain ⟨hslots, hwhole', hsmall'⟩ := hwritten
        { x' with inode := { x'.inode with size := UInt32.ofNat (k * direntSize + direntSize) }, dirty := true } rfl (by
          rw [hsize]
          simp only [direntSize] at *
          omega)
      refine hQ rest t' _ hrest ht' ?_ hslots hwhole' hsmall'
      exact hx'.step.trans ⟨hx'.step.ok, fun _ _ => rfl, .inl ⟨rfl, rfl⟩, .inr rfl, rfl, rfl⟩
    · rename_i hgrow
      obtain ⟨hslots, hwhole', hsmall'⟩ := hwritten x' rfl (by
        rw [hx'.size]
        simp only [direntSize] at *
        omega)
      exact hQ rest t x' hrest ht hx'.step hslots hwhole' hsmall'
  · intro e rest t x' hrest ht hx' hfails
    have hslots : x'.slots = x.slots := by
      have hbytes := hx'.bytes
      simp only [FileState.slots, slotsOf, hx'.size]
      simp only [FileState.byteAt] at hbytes
      rw [hbytes]
    dsimp only
    rw [wpAlong_vnode ht]
    simp only [hx'.size, Nat.not_lt.mpr hoff, if_false, wpAlong_pure, wpAlong_err]
    refine hE e rest t x' hrest ht hx'.step hslots hx'.size fun hnil q hq => ?_
    rcases hfails with ⟨-, hbig⟩ | ⟨-, -, q', hq', hzero⟩ | ⟨-, hne⟩
    · have hfb := placeOf_lt hq
      rw [hwrap] at hbig
      rw [← wrapOf_div, hwrap] at hfb
      simp only [maxFile, ndirect, dbperidb, blockSize] at *
      omega
    · exact noBlock_of_needs hx'.kept hq' hzero q hq
    · exact absurd hnil hne

end Write

end Os161.Sfs

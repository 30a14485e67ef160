import Os161.Sfs.File

/-!
# Blocks, and block I/O

Words and inodes are read back as they were written, and the bytes of a block through `slice` and
`splice`. The functions of the lowest level have rules for `wp` that say what they do in one step.
-/

namespace Os161.Sfs

open Os161.Lib Prog Errno

variable {skip len : Nat} {bytes : List UInt8} {k : Fin 512} {faults rest : List Bool} {c : Core}

/-! ## Words and inodes -/

theorem wordOf_byteOf (w : UInt32) : wordOf (byteOf w 0) (byteOf w 1) (byteOf w 2) (byteOf w 3) = w := by
  apply UInt32.toNat_inj.mp
  have := w.toNat_lt
  simp only [wordOf, byteOf, UInt8.toNat_ofNat', UInt32.toNat_ofNat']
  omega

@[simp] theorem words_ofWords (f : Fin 128 → UInt32) : words (ofWords f) = f := by
  funext j
  have h : ∀ k (hk : k < 4), ofWords f ⟨4 * j + k, by omega⟩ = byteOf (f j) k := by
    intro k hk
    simp only [ofWords]
    congr 2
    · apply Fin.ext
      show (4 * j.val + k) / 4 = j
      omega
    · omega
  rw [words, show (⟨4 * j, _⟩ : Fin 512) = ⟨4 * j + 0, by omega⟩ from rfl, h 0 (by decide),
    h 1 (by decide), h 2 (by decide), h 3 (by decide)]
  exact wordOf_byteOf (f j)

@[simp] theorem words_zeros : words zeros = fun _ => 0 := by
  funext j
  simp [words, zeros, wordOf]

@[simp] theorem Inode.ofBlock_toBlock (n : Inode) : Inode.ofBlock n.toBlock = n := by
  have ht := n.type.toNat_lt
  have hl := n.linkcount.toNat_lt
  simp only [Inode.ofBlock, Inode.toBlock, words_ofWords]
  obtain ⟨size, type, linkcount, direct, indirect, waste⟩ := n
  congr 1
  · show UInt16.ofNat ((UInt32.ofNat (type.toNat * 256 * 256 + linkcount.toNat)).toNat / 256 / 256) =
      type
    apply UInt16.toNat_inj.mp
    simp only [UInt16.toNat_ofNat', UInt32.toNat_ofNat'] at *
    omega
  · show UInt16.ofNat (UInt32.ofNat (type.toNat * 256 * 256 + linkcount.toNat)).toNat = linkcount
    apply UInt16.toNat_inj.mp
    simp only [UInt16.toNat_ofNat', UInt32.toNat_ofNat'] at *
    omega
  · funext k
    simp only [show ¬ (k.val + 2 = 0) by omega, show ¬ (k.val + 2 = 1) by omega,
      show k.val + 2 < 17 by omega, if_false, dite_true, Nat.add_sub_cancel, Fin.eta]

/-! ## Parts of a block -/

@[simp] theorem length_slice (b : Block) (skip len : Nat) : (slice b skip len).length = len := by
  simp [slice]

theorem getElem_slice {b : Block} {i : Nat} (h : i < (slice b skip len).length)
    (hin : skip + i < 512) : (slice b skip len)[i] = b ⟨skip + i, hin⟩ := by
  simp [slice, hin]

theorem splice_of_mem {b : Block}
    (h : skip ≤ k) (h' : k < skip + bytes.length) :
    splice b skip bytes k = bytes.getD (k - skip) 0 := if_pos ⟨h, h'⟩

theorem splice_of_not_mem {b : Block}
    (h : ¬ (skip ≤ k ∧ k < skip + bytes.length)) : splice b skip bytes k = b k := if_neg h

theorem splice_slice (b : Block) (h : skip + len ≤ 512) :
    splice b skip (slice b skip len) = b := by
  funext k
  by_cases hk : skip ≤ k ∧ k < skip + (slice b skip len).length
  · rw [splice_of_mem hk.1 hk.2]
    rw [length_slice] at hk
    have hlen : k.val - skip < (slice b skip len).length := by
      rw [length_slice]
      omega
    rw [List.getD_eq_getElem?_getD, List.getElem?_eq_getElem hlen, Option.getD_some,
      getElem_slice hlen (by omega)]
    congr 1
    apply Fin.ext
    show skip + (k.val - skip) = k
    omega
  · exact splice_of_not_mem hk

/-! ## Transfers -/

/-- What is left of the device's faults after a read that is tried at most so many times, if it succeeds. -/
def afterRead : Nat → List Bool → Option (List Bool)
  | 0, _ => none
  | _ + 1, [] => some []
  | _ + 1, false :: rest => some rest
  | tries + 1, true :: rest => afterRead tries rest

theorem afterRead_suffix {tries : Nat} (h : afterRead tries faults = some rest) :
    rest <:+ faults := by
  induction tries generalizing faults with
  | zero => cases h
  | succ tries ih =>
    match faults with
    | [] => cases h; exact List.suffix_rfl
    | false :: faults => cases h; exact List.suffix_cons ..
    | true :: faults => exact (ih h).trans (List.suffix_cons ..)

/-- What is left of the device's faults after so many reads, if all of them succeed. -/
def afterReads : Nat → List Bool → Option (List Bool)
  | 0, faults => some faults
  | n + 1, faults => (afterRead 11 faults).bind (afterReads n)

theorem afterReads_add (m n : Nat) (faults : List Bool) :
    afterReads (m + n) faults = (afterReads m faults).bind (afterReads n) := by
  induction m generalizing faults with
  | zero => rw [Nat.zero_add, afterReads, Option.bind_some]
  | succ m ih =>
    rw [Nat.succ_add, afterReads, afterReads, Option.bind_assoc]
    exact congrArg _ (funext ih)

theorem afterReads_one (faults : List Bool) : afterReads 1 faults = afterRead 11 faults :=
  Option.bind_fun_some _

theorem afterReads_nil (n : Nat) : afterReads n [] = some [] := by
  induction n with
  | zero => rfl
  | succ n ih => exact ih

theorem afterReads_suffix {n : Nat} (h : afterReads n faults = some rest) :
    rest <:+ faults := by
  induction n generalizing faults with
  | zero =>
    cases h
    exact List.suffix_rfl
  | succ n ih =>
    obtain ⟨mid, hmid, hrest⟩ := Option.bind_eq_some_iff.mp h
    exact (ih hrest).trans (afterRead_suffix hmid)

/-- Whether the next transfer is done. -/
def Done (faults : List Bool) : Prop := faults.head? ≠ some true

instance (faults : List Bool) : Decidable (Done faults) := inferInstanceAs (Decidable (_ ≠ _))

/-- What a stop leaves is not looked at. -/
abbrev AnyStop : Stop Errno Panic → State → Prop := fun _ _ => True

theorem wp_any {α : Type} {x : P α} {Q : α → State → Prop} {s : State} (h : ∀ a t, Q a t) : wp x Q AnyStop s := by
  unfold wp
  split
  · exact h _ _
  · trivial

section Device

variable {s : State}
variable {E : Stop Errno Panic → State → Prop} {Q : Unit → State → Prop} {r : State → State → Prop} {p : Prop}

theorem wp_nextFault {Q : Bool → State → Prop} :
    wp nextFault Q E s ↔ Q (decide (¬ Done s.faults)) { s with faults := s.faults.tail } := by
  simp only [nextFault, wp_bind, wp_read]
  cases hf : s.faults with
  | nil =>
    have hself : { s with faults := [] } = s := by rw [← hf]
    rw [List.tail_nil, hself]
    exact Iff.rfl
  | cons failed rest => cases failed <;> exact Iff.rfl

theorem wp_lhClear : wp lhClear Q E s ↔ Q () { s with lhBusy := true } := by
  simp only [lhClear, wp_bind, wp_read, wp_ite, wp_waitUntil, wp_modify, ite_self]

theorem wp_lhdRead {b : Blk} (hb : b.toNat < s.dBlocks) {Q : Option Block → State → Prop} :
    wp (lhdRead b) Q E s ↔
      Q (if Done s.faults then some (s.disk b) else none) { s with faults := s.faults.tail, lhBusy := false } := by
  simp only [lhdRead, wp_bind, wp_read, wp_ite, Nat.not_le.mpr hb, if_false, wp_lhClear,
    wp_waitUntil, wp_pure, lhCleared, wp_modify, wp_nextFault, decide_not, Bool.not_eq_true', decide_eq_false_iff_not,
    ite_not]

theorem wp_rblockTries {b : Blk} {Q : Block → State → Prop} (tries : Nat) :
    ∀ {s : State}, b.toNat < s.dBlocks →
      (wp (rblockTries tries b) Q E s ↔ match afterRead (tries + 1) s.faults with
        | some rest => Q (s.disk b) { s with faults := rest, lhBusy := false }
        | none => E (.err EIO) { s with faults := s.faults.drop (tries + 1), lhBusy := false }) := by
  induction tries with
  | zero =>
    intro s hb
    simp only [rblockTries, wp_bind]
    rw [wp_lhdRead hb]
    cases hf : s.faults with
    | nil => exact Iff.rfl
    | cons failed rest => cases failed <;> exact Iff.rfl
  | succ tries ih =>
    intro s hb
    simp only [rblockTries, wp_bind]
    rw [wp_lhdRead hb]
    cases hf : s.faults with
    | nil => exact Iff.rfl
    | cons failed rest =>
      cases failed with
      | false => exact Iff.rfl
      | true =>
        -- the next try starts with the rest of the faults
        exact ih (s := { s with faults := rest, lhBusy := false }) hb

theorem wp_sfsRblock_done {b : Blk} (hd : Done s.faults) (hb : b.toNat < s.dBlocks) {Q : Block → State → Prop} :
    wp (sfsRblock b) Q E s ↔ Q (s.disk b) { s with faults := s.faults.tail, lhBusy := false } := by
  rw [sfsRblock, wp_rblockTries 10 hb]
  cases hf : s.faults with
  | nil => exact Iff.rfl
  | cons failed rest =>
    cases failed with
    | false => exact Iff.rfl
    | true => exact absurd (congrArg List.head? hf) hd

theorem wp_sfsWblock_any {b : Blk} (hb : b.toNat < s.dBlocks) (src : State → Block) :
    wp (sfsWblock src b) Q E s ↔ if Done s.faults then
        Q () { s with
          disk := Function.update s.disk b (src { s with lhBusy := true })
          faults := s.faults.tail
          lhBusy := false }
      else Q () { s with faults := s.faults.tail, lhBusy := false, lost := s.lost ++ [b] } := by
  simp only [sfsWblock, lhdWrite, wp_bind, wp_read, wp_ite, Nat.not_le.mpr hb, if_false, wp_lhClear,
    wp_waitUntil, wp_pure, lhCleared, wp_modify, wp_nextFault]
  by_cases hd : Done s.faults
  · simp only [hd, not_true_eq_false, decide_false, Bool.false_eq_true, if_false, if_true]
  · simp only [hd, not_false_eq_true, decide_true, if_true, if_false]

/-- A step that loses no write. -/
def NoLoss (s t : State) : Prop := t.lost = s.lost

instance : DecidableRel NoLoss := fun s t => inferInstanceAs (Decidable (t.lost = s.lost))

/-- The steps of `r` lose no write, or else `done` says that none is lost. -/
def Spares (r : State → State → Prop) (done : Prop) : Prop := (∀ s t, r s t → NoLoss s t) ∨ done

theorem Spares.imp {q : Prop} (h : Spares r p) (hpq : p → q) : Spares r q :=
  Or.imp_right hpq h

theorem Spares.noLoss : Spares NoLoss p := .inl fun _ _ h => h

theorem wpAlong_sfsWblock {b : Blk} (hb : b.toNat < s.dBlocks)
    (hdone : Spares r (Done s.faults))
    (src : State → Block)
    (hQ : Done s.faults → Q () { s with
      disk := Function.update s.disk b (src { s with lhBusy := true })
      faults := s.faults.tail
      lhBusy := false }) : wpAlong r (sfsWblock src b) Q E s := by
  by_cases hd : Done s.faults
  · refine wp.along ?_
    rw [wp_sfsWblock_any hb, if_pos hd]
    exact hQ hd
  · have hr := hdone.resolve_right hd
    simp only [sfsWblock, lhdWrite, wpAlong_bind, wpAlong_read, wpAlong_ite, Nat.not_le.mpr hb, if_false]
    refine (wp_lhClear.mpr ?_).along
    simp only [wpAlong_waitUntil]
    refine (wp_nextFault.mpr ?_).along
    simp only [hd, not_false_eq_true, decide_true, if_true, wpAlong_modify]
    -- the step that notes the lost write
    intro hstep
    exact absurd (hr _ _ hstep) (by simp [NoLoss])

variable {b : Blk} (hs : s.faults = []) (hb : b.toNat < s.dBlocks)
include hs hb

theorem wp_sfsRblock {Q : Block → State → Prop} :
    wp (sfsRblock b) Q E s ↔ Q (s.disk b) { s with lhBusy := false } := by
  have hdone : Done s.faults := by rw [hs]; decide
  have hself : { s with faults := [], lhBusy := false } = { s with lhBusy := false } := by rw [← hs]
  rw [wp_sfsRblock_done hdone hb, hs, List.tail_nil, hself]

theorem wp_sfsWblock (src : State → Block) :
    wp (sfsWblock src b) Q E s ↔
      Q () { s with
        disk := Function.update s.disk b (src { s with lhBusy := true })
        lhBusy := false } := by
  have hdone : Done s.faults := by rw [hs]; decide
  have hself : ∀ disk, { s with disk := disk, faults := [], lhBusy := false } =
      { s with disk := disk, lhBusy := false } := by
    intro disk
    rw [← hs]
  rw [wp_sfsWblock_any hb, if_pos hdone, hs, List.tail_nil, hself]

end Device

/-! ## The free map -/

theorem firstFree_some {b : Blk} (h : c.firstFree = some b) : c.freemap b = false := by
  obtain ⟨i, hi, rfl⟩ := Option.map_eq_some_iff.mp h
  simpa using List.find?_some hi

theorem firstFree_none (h : c.firstFree = none) {b : Blk} (hb : b.toNat < c.nbits) :
    c.freemap b = true := by
  have hnone := Option.map_eq_none_iff.mp h
  have := List.find?_eq_none.mp hnone b.toNat (List.mem_range.mpr hb)
  simpa using this

theorem lt_nbits {b : Blk} (h : b < c.nblocks) : b.toNat < c.nbits := by
  have : b.toNat < c.nblocks.toNat := UInt32.lt_iff_toNat_lt.mp h
  simp only [Core.nbits, blockBits]
  omega

end Os161.Sfs

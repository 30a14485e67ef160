import Os161.Laws.Sfs.Partial
import Os161.Laws.Sfs.Sample
import Os161.Laws.Sfs.Truncate

/-!
# What a truncation releases

`sfs_truncate(len)` should release the blocks of the file from the first past the new end on, and the indirect block
when nothing is left in it. It compares the entries of the indirect block with the number of blocks by `<` instead of
`<=`, and does not look into the indirect block when the new end is in its last two entries. The truncation is
therefore exact only where there is no block right past the new end.
-/

namespace Os161.Sfs

open Os161.Lib Prog Errno

variable {R : Blk → Prop} {c : Core} {p : Ptr} {v : Vnode} {s : State} {x x' y : FileState}
variable {len : Nat} {r : Place}

/-- The number of blocks that `len` bytes take. -/
def blocksFor (len : Nat) : Nat := (len + blockSize - 1) / blockSize

theorem blocklenOf_eq (h : len ≤ maxFile) : blocklenOf len = blocksFor len := by
  unfold blocklenOf blocksFor
  simp only [maxFile, blockSize, ndirect, dbperidb] at *
  omega

/-- From `x` to `x'` exactly the blocks past the first `len` bytes are released. -/
structure ReleasedPast (len : Nat) (x x' : FileState) : Prop where
  unmapped : ∀ fb r, placeOf fb = some r → blocksFor len ≤ fb → x'.blockAt r = 0
  kept : ∀ fb r, placeOf fb = some r → fb < blocksFor len → x'.blockAt r = x.blockAt r
  cleared : ∀ b, x.freemap b = true ∧ x'.freemap b = false ↔
    (∃ r, r ≠ .indirect ∧ x.blockAt r = b ∧ b ≠ 0 ∧ x'.blockAt r = 0) ∨
      x.inode.indirect = b ∧ b ≠ 0 ∧ ∀ j, x'.blockAt (.entry j) = 0
  marked : ∀ b, x'.freemap b = true → x.freemap b = true
  size : x'.inode.size.toNat = len

/-- There is no block right past the end in the indirect block, and no empty indirect block that the truncation does
not look at. -/
def EndsClean (blocks : Nat) (x : FileState) : Prop :=
  (∀ j : Fin 128, ndirect + j.val = blocks → x.blockAt (.entry j) = 0) ∧
    (ndirect + dbperidb - 1 ≤ blocks → ¬ (x.inode.indirect ≠ 0 ∧ ∀ j, x.blockAt (.entry j) = 0))

theorem placeOf_entry (j : Fin 128) : placeOf (ndirect + j.val) = some (.entry j) := by
  unfold placeOf
  have hlt : ndirect + j.val - ndirect < dbperidb := by
    simp only [ndirect, dbperidb]
    omega
  rw [dif_neg (by omega), dif_pos hlt]
  simp

theorem placeOf_direct (k : Fin 15) : placeOf k.val = some (.direct k) := dif_pos k.isLt

theorem placeOf_cases {fb : Nat} (h : placeOf fb = some r) :
    (∃ k : Fin 15, r = .direct k ∧ fb = k.val) ∨ ∃ j : Fin 128, r = .entry j ∧ fb = ndirect + j.val := by
  cases r with
  | direct k => exact .inl ⟨k, rfl, placeOf_inj h (placeOf_direct k)⟩
  | indirect => exact absurd h placeOf_ne_indirect
  | entry j => exact .inr ⟨j, rfl, placeOf_inj h (placeOf_entry j)⟩

/-! ## What the two halves leave -/

/-- The block map after a truncation, against the one before. -/
structure Truncated (R : Blk → Prop) (blocks : Nat) (x x' : FileState) : Prop where
  before : FileOk R x
  dropped : Dropped R (Cut blocks) x x'
  freed : blocks < ndirect + dbperidb - 1 → (∀ j, x'.blockAt (.entry j) = 0) → x'.inode.indirect = 0
  indirect : x'.inode.indirect = x.inode.indirect ∨
    blocks < ndirect + dbperidb - 1 ∧ x'.inode.indirect = 0

theorem Shrunk.truncated {blocks : Nat} (hok : FileOk R x) (hy : DirectDropped R blocks x y)
    (hx : Shrunk R blocks y x') (size : UInt32) : Truncated R blocks x (x'.resized size) := by
  refine ⟨hok, (hx.cut hy).resized size, hx.freed, ?_⟩
  rw [← hy.indirect]
  exact hx.indirect

theorem entries_zero (hi : x.inode.indirect = 0) (j : Fin 128) : x.blockAt (.entry j) = 0 := by
  simp only [FileState.blockAt, Inode.blockAt, hi, if_true]

namespace Truncated

variable {blocks : Nat} (h : Truncated R blocks x x')
include h

theorem same (h0 : x'.blockAt r ≠ 0) : x'.blockAt r = x.blockAt r := by
  by_cases hr : r = .indirect
  · subst hr
    exact h.indirect.resolve_right fun hz => h0 hz.2
  · by_cases hcut : Cut blocks r
    · exact absurd (h.dropped.freed r hr hcut) h0
    · exact h.dropped.kept r hr hcut

theorem cleared_of (h0 : x.blockAt r ≠ 0) (hgone : x'.blockAt r ≠ x.blockAt r) :
    x.freemap (x.blockAt r) = true ∧ x'.freemap (x.blockAt r) = false := by
  refine ⟨h.before.held_marked r h0, ?_⟩
  by_contra hmark
  rw [Bool.not_eq_false] at hmark
  rcases h.dropped.step.ok.complete _ hmark with hR | ⟨q, hq⟩
  · exact h.before.apart r h0 hR
  · have hq0 : x'.blockAt q ≠ 0 := by rwa [hq]
    have hqr : q = r := (h.before.inj r q h0 (by rw [← h.same hq0, hq])).symm
    exact hgone (hqr ▸ hq)

theorem of_cleared {b : Blk} (hx : x.freemap b = true) (hx' : x'.freemap b = false) :
    b ≠ 0 ∧ ∃ r, x.blockAt r = b ∧ x'.blockAt r ≠ b := by
  have hnot : ∀ {b'}, x'.freemap b' = true → b' ≠ b := by
    rintro b' hmark rfl
    rw [hx'] at hmark
    cases hmark
  have hR : ¬ R b := fun hb => hnot (h.dropped.step.ok.others_marked b hb) rfl
  have hb0 : b ≠ 0 := by
    rintro rfl
    exact hR h.before.null_taken
  obtain ⟨r, hr⟩ := (h.before.complete b hx).resolve_left hR
  refine ⟨hb0, r, hr, fun heq => ?_⟩
  exact hnot (h.dropped.step.ok.held_marked r (by rwa [heq])) heq

theorem zero_or_same : x'.blockAt r = 0 ∨ x'.blockAt r = x.blockAt r := by
  by_cases h0 : x'.blockAt r = 0
  · exact .inl h0
  · exact .inr (h.same h0)

theorem releasedPast_iff (hsize : x'.inode.size.toNat = len) (hblocks : blocks = blocksFor len) :
    ReleasedPast len x x' ↔ EndsClean blocks x := by
  subst hblocks
  constructor
  · intro hrel
    refine ⟨fun j hj => ?_, fun hbig ⟨hi, hnone⟩ => ?_⟩
    · have hkept := h.dropped.kept (.entry j) (by simp) (by simp only [Cut]; omega)
      rw [← hkept]
      exact hrel.unmapped _ _ (placeOf_entry j) (by omega)
    · -- the truncation does not look at the indirect block
      have hind : x'.inode.indirect = x.inode.indirect := h.indirect.resolve_right fun hz => by omega
      have hnone' : ∀ j, x'.blockAt (.entry j) = 0 := by
        intro j
        rcases h.zero_or_same (r := .entry j) with h0 | h0
        · exact h0
        · rw [h0, hnone j]
      have hclear := (hrel.cleared x.inode.indirect).mpr (.inr ⟨rfl, hi, hnone'⟩)
      have hmark : x'.freemap x'.inode.indirect = true :=
        h.dropped.step.ok.held_marked .indirect (by show x'.inode.indirect ≠ 0; rwa [hind])
      rw [hind, hclear.2] at hmark
      cases hmark
  · rintro ⟨hend, hlast⟩
    refine ⟨fun fb r hr hle => ?_, fun fb r hr hlt => ?_, fun b => ⟨?_, ?_⟩, fun b hb => ?_, hsize⟩
    · rcases placeOf_cases hr with ⟨k, rfl, rfl⟩ | ⟨j, rfl, rfl⟩
      · exact h.dropped.freed _ (by simp) hle
      · rcases Nat.lt_or_eq_of_le hle with hlt | heq
        · exact h.dropped.freed _ (by simp) hlt
        · rw [h.dropped.kept _ (by simp) (by simp only [Cut]; omega)]
          exact hend j heq.symm
    · refine h.dropped.kept r (fun hi => placeOf_ne_indirect (hi ▸ hr)) ?_
      rcases placeOf_cases hr with ⟨k, rfl, rfl⟩ | ⟨j, rfl, rfl⟩
      · simp only [Cut]
        omega
      · simp only [Cut]
        omega
    · rintro ⟨hx, hx'⟩
      obtain ⟨hb0, r, hr, hne⟩ := h.of_cleared hx hx'
      have hzero : x'.blockAt r = 0 := h.zero_or_same.resolve_right fun heq => hne (heq.trans hr)
      by_cases hri : r = .indirect
      · subst hri
        exact .inr ⟨hr, hb0, entries_zero hzero⟩
      · exact .inl ⟨r, hri, hr, hb0, hzero⟩
    · rintro (⟨r, -, rfl, hb0, hzero⟩ | ⟨rfl, hb0, hnone⟩)
      · exact h.cleared_of hb0 fun heq => hb0 (heq.symm.trans hzero)
      · have hsmall : blocksFor len < ndirect + dbperidb - 1 := by
          by_contra hbig
          have hnocut : ∀ j : Fin 128, ¬ Cut (blocksFor len) (.entry j) := by
            intro j
            simp only [Cut, ndirect, dbperidb] at *
            omega
          refine hlast (Nat.le_of_not_lt hbig) ⟨hb0, fun j => ?_⟩
          rw [← h.dropped.kept (.entry j) (by simp) (hnocut j)]
          exact hnone j
        refine h.cleared_of (r := .indirect) hb0 fun heq => hb0 (heq.symm.trans ?_)
        exact h.freed hsmall hnone
    · rcases h.dropped.step.ok.complete b hb with hR | ⟨r, rfl⟩
      · exact h.before.others_marked b hR
      · by_cases h0 : x'.blockAt r = 0
        · rw [h0]
          exact h.before.others_marked 0 h.before.null_taken
        · rw [h.same h0]
          exact h.before.held_marked r (by rwa [← h.same h0])

end Truncated

/-! ## The truncation -/

theorem Focus.file (h : Focus c p v s x) :
    s.toCore.file { v with inode := x.inode, dirty := x.dirty } = x := by
  rw [show s.toCore = _ from h]
  rfl

theorem DirectDropped.lostWrite_iff {blocks : Nat} {faults : List Bool} (h : DirectDropped R blocks x y) :
    LostWrite blocks y faults ↔ LostWrite blocks x faults := by
  have hentry : ∀ j, y.blockAt (.entry j) = x.blockAt (.entry j) :=
    fun j => h.dropped.kept _ (by simp) (by simp)
  unfold LostWrite
  simp only [h.indirect, hentry]

/-- A truncation that returns releases exactly the blocks past the new end when there is no block right past it, no
empty indirect block that is not looked at, and no lost write of the indirect block; and only then. -/
theorem truncate_exact_iff {t : State} {len : Nat} (hlen : len ≤ maxFile) (hp : s.vnodes p = some v)
    (hm : Mounted R s.toCore) (hok : FileOk R (s.file v)) (hrun : (sfsTruncate p len).run s = (.ok (), t)) :
    (∃ v', t.vnodes p = some v' ∧ ReleasedPast len (s.file v) (t.file v')) ↔
      EndsClean (blocksFor len) (s.file v) ∧ ¬ LostWrite (blocksFor len) (s.file v) s.faults := by
  have hfocus : Focus s.toCore p v s (s.file v) := (Core.withFile_file hp).symm
  have hbl := blocklenOf_eq hlen
  -- what the state says of the file, for the file it has at the end
  have hread : ∀ {rest t} {z : FileState}, Focus (s.toCore.withFaults rest) p v t z →
      ((∃ v', t.vnodes p = some v' ∧ ReleasedPast len (s.file v) (t.file v')) ↔
        ReleasedPast len (s.file v) z) := by
    intro rest t z ht
    constructor
    · rintro ⟨v', hv', hrel⟩
      cases hv'.symm.trans ht.vnode
      rwa [ht.file] at hrel
    · intro hrel
      exact ⟨_, ht.vnode, by rwa [ht.file]⟩
  refine wp.of_run (E := fun _ _ => True) (Q := fun _ t =>
    (∃ v', t.vnodes p = some v' ∧ ReleasedPast len (s.file v) (t.file v')) ↔ _)
    (wp_sfsTruncate_any hm len hfocus hok ?_ ?_ fun _ _ _ => trivial) hrun
  · intro rest t y x' _ hy hl hx' ht
    rw [hread ht, (hx'.truncated hok hy _).releasedPast_iff ?_ hbl, hbl]
    · rw [hy.lostWrite_iff, hbl] at hl
      exact (and_iff_left hl).symm
    · show (UInt32.ofNat len).toNat = len
      rw [UInt32.toNat_ofNat_of_lt']
      simp only [maxFile, ndirect, dbperidb, blockSize, UInt32.size] at *
      omega
  · intro rest t y x' hy hl hdisk hinode ht
    rw [hread ht]
    obtain ⟨-, -, ⟨j, hcut, hj⟩, -⟩ := id hl
    rw [hy.lostWrite_iff, hbl] at hl
    refine iff_of_false (fun hrel => hj ?_) fun hclean => hclean.2 hl
    have := hrel.unmapped _ _ (placeOf_entry j) (by rw [hbl] at hcut; omega)
    simpa only [FileState.resized, FileState.blockAt, Inode.blockAt, hdisk, hinode] using this

/-- A file of one block is truncated to nothing. -/
theorem truncate_exact_oneBlock :
    ∃ t v', (sfsTruncate 0 0).run (oneFile 5 (oneBlock 512) fun _ => zeros) = (.ok (), t) ∧ t.vnodes 0 = some v' ∧
      ReleasedPast 0 ((oneFile 5 (oneBlock 512) fun _ => zeros).file (sampleVnode (oneBlock 512))) (t.file v') := by
  have hrun := run_eq_ok (show ((sfsTruncate 0 0).run (oneFile 5 (oneBlock 512) fun _ => zeros)).1 = .ok () by
    decide +kernel)
  have hok := (oneBlock_blocksAt 512 fun _ => zeros).ok (by decide) (by decide)
  have hclean : EndsClean (blocksFor 0) ((oneFile 5 (oneBlock 512) fun _ => zeros).file (sampleVnode (oneBlock 512))) :=
    ⟨fun j hj => absurd hj (by simp only [show blocksFor 0 = 0 from rfl, ndirect]; omega), fun h => absurd h (by decide)⟩
  obtain ⟨v', hv', hrel⟩ := (truncate_exact_iff (by decide) (oneFile_vnode ..) (oneFile_working ..).mounted hok
    hrun).mpr ⟨hclean, fun h => h.2.1 rfl⟩
  exact ⟨_, v', hrun, hv', hrel⟩

/-- A volume whose file has a block in the first entry of its indirect block. -/
def pastDirect : State := oneFile 6 (oneIndirect 8192) indirectDisk

/-- The block stays when the file is truncated to 15 blocks. -/
theorem truncate_keeps_block_past_end : Mounted sampleOthers pastDirect.toCore ∧
      FileOk sampleOthers (pastDirect.file (sampleVnode (oneIndirect 8192))) ∧
      ∃ t, (sfsTruncate 0 7680).run pastDirect = (.ok (), t) ∧
        ¬ ∃ v', t.vnodes 0 = some v' ∧
          ReleasedPast 7680 (pastDirect.file (sampleVnode (oneIndirect 8192))) (t.file v') := by
  have hrun := run_eq_ok (show ((sfsTruncate 0 7680).run pastDirect).1 = .ok () by decide +kernel)
  have hentry : (((sfsTruncate 0 7680).run pastDirect).2.vnodes 0).any fun v' =>
      decide ((((sfsTruncate 0 7680).run pastDirect).2.file v').blockAt (.entry 0) = 5) := by decide +kernel
  refine ⟨(oneFile_working ..).mounted, (oneIndirect_blocksAt 8192).ok (by decide) (by decide), _, hrun, ?_⟩
  rintro ⟨v', hv', hrel⟩
  have h0 := hrel.unmapped 15 (.entry 0) rfl (by decide)
  rw [hv', Option.any_some, decide_eq_true_eq, h0] at hentry
  exact absurd hentry (by decide)

end Os161.Sfs

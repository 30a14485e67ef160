import Os161.Laws.Sfs.Partial

/-!
# `sfs_io`

A transfer is a leading part of a block, whole blocks, and a trailing part of a block. Whatever it is cut
into, a read delivers the bytes of the file one after the other, up to its size, and leaves the volume as
it is; a write puts the bytes of the buffer over those of the file. Either may stop early, with the part
before it done.
-/

namespace Os161.Sfs

open Os161.Lib Prog

variable {R : Blk → Prop} {c : Core} {p : Ptr} {v : Vnode} {x : FileState} {N : Place → Prop}
variable {off len k m : Nat} {result : Option Errno} {s : State} {u : Uio}
  {Q : Option Errno × Uio → State → Prop} {y x' : FileState}

/-! ## Reading -/

/-- How a read of `len` bytes at `off` ends after `k` of them: all are delivered, or the next block is past
the largest file. -/
def Delivered (off len : Nat) (result : Option Errno) (k : Nat) : Prop :=
  result = none ∧ k = len ∨ result = some .EFBIG ∧ k < len ∧ maxFile ≤ off + k

theorem Delivered.le (h : Delivered off len result k) :
    k ≤ len := by
  rcases h with ⟨-, rfl⟩ | ⟨-, h, -⟩
  · exact Nat.le_refl _
  · exact Nat.le_of_lt h

theorem Delivered.after (h : Delivered (off + m) len result k) : Delivered off (m + len) result (m + k) := by
  rcases h with ⟨hr, rfl⟩ | ⟨hr, hlt, hbig⟩
  · exact .inl ⟨hr, rfl⟩
  · exact .inr ⟨hr, by omega, by omega⟩

section Read

attribute [local irreducible] bytesFrom

variable (hw : Working R c) (hok : FileOk R x) {E : Stop Errno Panic → State → Prop}
include hw hok

theorem wp_ioBlocks_read (n : Nat) :
    ∀ {s : State} {u : Uio} {Q : Option Errno × Uio → State → Prop}, Focus c p v s x → u.rw = .read →
      u.Ok → u.offset % blockSize = 0 → n * blockSize ≤ u.resid → u.offset + u.resid ≤ 0x100000000 →
      (∀ t result k, Focus c p v t x → Delivered u.offset (n * blockSize) result k →
        Q (result, u.advance (bytesFrom x.byteAt u.offset k)) t) →
      wp (ioBlocks p n u) Q E s := by
  induction n with
  | zero =>
    intro s u Q h _ _ _ _ _ hQ
    have := hQ s none 0 h (.inl ⟨rfl, by simp⟩)
    simpa only [ioBlocks, wp_pure, bytesFrom_zero, Uio.advance_nil] using this
  | succ n ih =>
    intro s u Q h hrw hu haligned hresid hoff hQ
    have hsize : blockSize ≤ u.resid := by
      simp only [blockSize] at *
      omega
    simp only [ioBlocks, wp_bind, wp_attempt]
    refine wp_blockio_read hw h hok hu haligned hsize hrw (by simp only [blockSize] at *; omega) ?_ ?_
    · intro t ht
      refine ih ht hrw (hu.advance _) ?_ ?_ ?_ ?_
      · rw [Uio.advance_offset, length_bytesFrom, Nat.add_mod_right]
        exact haligned
      · rw [Uio.advance_resid, length_bytesFrom]
        rw [Nat.succ_mul] at hresid
        exact Nat.le_sub_of_add_le hresid
      · rw [Uio.advance_offset, Uio.advance_resid, length_bytesFrom, Nat.add_assoc,
          Nat.add_sub_cancel' hsize]
        exact hoff
      · intro t' result k ht' hdone
        rw [Uio.advance_append, Uio.advance_offset, length_bytesFrom, bytesFrom_append]
        refine hQ t' result _ ht' ?_
        rw [Uio.advance_offset, length_bytesFrom] at hdone
        rw [Nat.succ_mul, Nat.add_comm (n * blockSize)]
        exact hdone.after
    · intro hbig
      have := hQ s (some .EFBIG) 0 h (.inr ⟨rfl, by simp only [blockSize]; omega, hbig⟩)
      simpa only [wp_pure, bytesFrom_zero, Uio.advance_nil] using this

theorem wp_ioAligned_read (h : Focus c p v s x) (hrw : u.rw = .read) (hu : u.Ok)
    (haligned : u.offset % blockSize = 0 ∨ u.resid = 0) (hoff : u.offset + u.resid ≤ 0x100000000)
    (hQ : ∀ t result k, Focus c p v t x → Delivered u.offset u.resid result k →
      Q (result, u.advance (bytesFrom x.byteAt u.offset k)) t) :
    wp (ioAligned p u) Q E s := by
  simp only [ioAligned, wp_ite, wp_pure]
  split
  · rename_i h0
    have := hQ s none 0 h (.inl ⟨rfl, h0.symm⟩)
    simpa only [bytesFrom_zero, Uio.advance_nil] using this
  · rename_i h0
    have haligned := haligned.resolve_right h0
    have hblocks : u.resid / blockSize * blockSize ≤ u.resid := Nat.div_mul_le_self _ _
    simp only [wp_bind, wp_assert, haligned, decide_true, if_true]
    refine wp_ioBlocks_read hw hok _ h hrw hu haligned hblocks hoff ?_
    intro t result k ht hdone
    rcases hdone with ⟨rfl, rfl⟩ | ⟨rfl, hlt, hbig⟩
    · -- The whole blocks are done, and what is left is less than a block.
      have hleft : u.resid - u.resid / blockSize * blockSize < blockSize := by
        simp only [blockSize]
        omega
      simp only [wp_bind, wp_assert, Uio.advance_resid, length_bytesFrom, hleft, decide_true, if_true,
        wp_ite]
      split
      · rename_i hpos
        simp only [wp_attempt]
        have hmod : (u.advance (bytesFrom x.byteAt u.offset (u.resid / blockSize * blockSize))).offset %
            blockSize = 0 := by
          simp only [Uio.advance_offset, length_bytesFrom, blockSize] at *
          omega
        have hpartial := fun Q' E' => wp_partialio_read (Q := Q') (E := E') hw ht hok
          (hu.advance (bytesFrom x.byteAt u.offset (u.resid / blockSize * blockSize)))
          (by rw [hmod]; omega)
          (show u.resid - u.resid / blockSize * blockSize ≤ _ by rw [Uio.advance_resid, length_bytesFrom]) hrw
          (by simp only [Uio.advance_offset, length_bytesFrom, blockSize] at *; omega)
        rw [hmod] at hpartial
        refine hpartial _ _ ?_ ?_
        · intro t' ht'
          rw [Uio.advance_append, Uio.advance_offset, length_bytesFrom, bytesFrom_append]
          exact hQ t' none _ ht' (.inl ⟨rfl, by omega⟩)
        · intro hbig
          rw [Uio.advance_offset, length_bytesFrom] at hbig
          exact hQ t (some .EFBIG) _ ht (.inr ⟨rfl, by omega, hbig⟩)
      · exact hQ t none _ ht (.inl ⟨rfl, by omega⟩)
    · simp only [wp_pure]
      exact hQ t (some .EFBIG) k ht (.inr ⟨rfl, by omega, hbig⟩)

theorem wp_ioTransfer_read
    (h : Focus c p v s x) (hrw : u.rw = .read) (hu : u.Ok) (hoff : u.offset + u.resid ≤ 0x100000000)
    (hQ : ∀ t result k, Focus c p v t x →
      (Delivered u.offset u.resid result k ∨
        result = some .EFBIG ∧ k = 0 ∧ u.resid = 0 ∧ maxFile ≤ u.offset) →
      Q (result, u.advance (bytesFrom x.byteAt u.offset k)) t) :
    wp (ioTransfer p u) Q E s := by
  simp only [ioTransfer, wp_ite]
  split
  · rename_i h0
    exact wp_ioAligned_read hw hok h hrw hu (.inl h0) hoff fun t result k ht hdone =>
      hQ t result k ht (.inl hdone)
  · rename_i h0
    simp only [wp_bind, wp_attempt]
    have hmod : u.offset % blockSize < blockSize := Nat.mod_lt _ (by decide)
    refine wp_partialio_read hw h hok hu (by omega) (Nat.min_le_right _ _) hrw ?_ ?_ ?_
    · simp only [blockSize] at *
      omega
    · intro t ht
      refine wp_ioAligned_read hw hok ht hrw (hu.advance _) ?_ ?_ ?_
      · simp only [Uio.advance_offset, Uio.advance_resid, length_bytesFrom, blockSize] at *
        omega
      · simp only [Uio.advance_offset, Uio.advance_resid, length_bytesFrom, blockSize] at *
        omega
      · intro t' result k ht' hdone
        rw [Uio.advance_append, Uio.advance_offset, length_bytesFrom, bytesFrom_append]
        refine hQ t' result _ ht' (.inl ?_)
        rw [Uio.advance_offset, Uio.advance_resid, length_bytesFrom] at hdone
        have := hdone.after
        rwa [Nat.add_sub_cancel' (Nat.min_le_right _ _)] at this
    · intro hbig
      have hzero := hQ s (some .EFBIG) 0 h
      rw [show u.advance (bytesFrom x.byteAt u.offset 0) = u by rw [bytesFrom_zero, Uio.advance_nil]] at hzero
      refine hzero ?_
      by_cases hr : u.resid = 0
      · exact .inr ⟨rfl, rfl, hr, hbig⟩
      · exact .inl (.inr ⟨rfl, by omega, hbig⟩)

theorem wp_ioRead (h : Focus c p v s x) (hrw : u.rw = .read) (hu : u.Ok)
    (hQ : ∀ t result k, Focus c p v t x →
      (Delivered u.offset (min u.resid (x.inode.size.toNat - u.offset)) result k ∨
        result = some .EFBIG ∧ k = 0 ∧ u.resid = 0 ∧ maxFile ≤ u.offset ∧
          u.offset < x.inode.size.toNat) →
      Q (result, u.advance (bytesFrom x.byteAt u.offset k)) t) :
    wp (ioRead p u) Q E s := by
  have hsize := x.inode.size.toNat_lt
  simp only [ioRead, wp_bind]
  rw [wp_vnode h]
  simp only [wp_ite, wp_pure, wp_bind]
  split
  · rename_i hle
    have := hQ s none 0 h (.inl (.inl ⟨rfl, by omega⟩))
    simpa only [bytesFrom_zero, Uio.advance_nil] using this
  · rename_i hlt
    have hassert : (decide (u.offset + u.resid - x.inode.size.toNat = 0) ||
        decide (u.offset + u.resid - x.inode.size.toNat < u.resid)) = true := by
      simp only [Bool.or_eq_true, decide_eq_true_eq]
      omega
    simp only [wp_assert, hassert, if_true]
    have hmin : u.resid - (u.offset + u.resid - x.inode.size.toNat) =
        min u.resid (x.inode.size.toNat - u.offset) := by omega
    have hok' : Uio.Ok { u with resid := u.resid - (u.offset + u.resid - x.inode.size.toNat) } :=
      Nat.le_trans (Nat.sub_le _ _) hu
    refine wp_ioTransfer_read hw hok h hrw hok' ?_ ?_
    · show u.offset + (u.resid - (u.offset + u.resid - x.inode.size.toNat)) ≤ _
      omega
    · intro t result k ht hdone
      have hle : k ≤ u.resid - (u.offset + u.resid - x.inode.size.toNat) := by
        rcases hdone with hdone | ⟨-, rfl, -⟩
        · exact hdone.le
        · exact Nat.zero_le _
      -- The residue past the end of the file is added again.
      have hadvance : ({ Uio.advance
          { u with resid := u.resid - (u.offset + u.resid - x.inode.size.toNat) }
          (bytesFrom x.byteAt u.offset k) with
            resid := (Uio.advance
              { u with resid := u.resid - (u.offset + u.resid - x.inode.size.toNat) }
              (bytesFrom x.byteAt u.offset k)).resid + (u.offset + u.resid - x.inode.size.toNat) } : Uio) =
          u.advance (bytesFrom x.byteAt u.offset k) := by
        simp only [Uio.advance, length_bytesFrom, Uio.mk.injEq, true_and, and_true]
        omega
      simp only [hadvance]
      refine hQ t result k ht ?_
      rcases hdone with hdone | ⟨hr, hk, hzero, hbig⟩
      · refine .inl ?_
        rw [← hmin]
        exact hdone
      · refine .inr ⟨hr, hk, ?_, hbig, by omega⟩
        have : u.resid - (u.offset + u.resid - x.inode.size.toNat) = 0 := hzero
        omega

end Read

/-! ## Writing -/

/-- How a write of `len` bytes at `off` ends after `k` of them: all are taken, or the next block is past
the largest file, or there is no block left for it. -/
def Taken (c : Core) (N : Place → Prop) (off len : Nat) (x' : FileState) (result : Option Errno) (k : Nat) : Prop :=
  result = none ∧ k = len ∨
    k < len ∧ (result = some .EFBIG ∧ maxFile ≤ wrapOf (off + k) ∨ result = some .ENOSPC ∧ Full c N x')

theorem Taken.le (h : Taken c N off len x result k) :
    k ≤ len := by
  rcases h with ⟨-, rfl⟩ | ⟨h, -⟩
  · exact Nat.le_refl _
  · exact Nat.le_of_lt h

theorem Taken.after (h : Taken c N (off + m) len x result k) : Taken c N off (m + len) x result (m + k) := by
  rcases h with ⟨hr, rfl⟩ | ⟨hlt, hend⟩
  · exact .inl ⟨hr, rfl⟩
  · rw [Nat.add_assoc] at hend
    exact .inr ⟨Nat.add_lt_add_left hlt m, hend⟩

theorem Taken.stopped {e : Errno} (hlen : 0 < len)
    (h : e = .EFBIG ∧ maxFile ≤ wrapOf off ∨ e = .ENOSPC ∧ Full c N x) : Taken c N off len x (some e) 0 := by
  refine .inr ⟨hlen, ?_⟩
  rcases h with ⟨rfl, h⟩ | ⟨rfl, h⟩
  · exact .inl ⟨rfl, h⟩
  · exact .inr ⟨rfl, h⟩

theorem Written.refl (hok : FileOk R x) (off : Nat) : Written R N x off [] x :=
  (Mapped.refl hok).written off

theorem Written.mapped {data : List UInt8} (h : Written R N x off data y)
    (h' : Mapped R N y x') : Written R N x off data x' :=
  ⟨h.step.trans h'.step, h'.size.trans h.size, fun r hr => (h'.new r hr).elim (h.new r) .inr,
    fun r hr => (h'.kept r (by rwa [h.kept r hr])).trans (h.kept r hr),
    fun pos hle hlt => by
      obtain ⟨r, hr, hy⟩ := h.there pos hle hlt
      exact ⟨r, hr, by rwa [h'.kept r hy]⟩,
    fun hle => h'.bytes.trans (h.bytes hle)⟩

theorem Written.take (hk : k ≤ u.iov.length)
    (h : Written R N x u.offset (u.iov.take k) y)
    (h' : Written R N y (u.advance (u.iov.take k)).offset ((u.advance (u.iov.take k)).iov.take m) x') :
    Written R N x u.offset (u.iov.take (k + m)) x' := by
  rw [← u.take_iov_advance hk]
  exact h.trans h'

theorem FileStep.resize (hok : FileOk R x) (size : UInt32) :
    FileStep R x { x with inode := { x.inode with size := size }, dirty := true } :=
  ⟨hok, fun _ _ => rfl, .inl ⟨rfl, rfl⟩, .inr rfl, rfl, rfl⟩

/-- `N` has the places that the blocks of `len` bytes at `off` have to have. -/
def Covers (N : Place → Prop) (off len : Nat) : Prop :=
  ∀ pos, off ≤ pos → pos < off + len → ∀ r, Needs (fileblockOf pos) r → N r

theorem Covers.first (h : Covers N off len) (hlen : 0 < len) :
    ∀ r, Needs (fileblockOf off) r → N r := h off (Nat.le_refl _) (by omega)

theorem Covers.after (h : Covers N off (m + len)) : Covers N (off + m) len :=
  fun pos hle hlt => h pos (by omega) (by omega)

theorem Covers.front (h : Covers N off len) (hm : m ≤ len) : Covers N off m :=
  fun pos hle hlt => h pos hle (by omega)

section Write

variable (hw : Working R c) {E : Stop Errno Panic → State → Prop}
include hw

theorem wp_ioBlocks_write (n : Nat) :
    ∀ {s : State} {x : FileState} {u : Uio} {Q : Option Errno × Uio → State → Prop}, Focus c p v s x →
      FileOk R x → u.rw = .write → u.Ok → u.offset % blockSize = 0 → n * blockSize ≤ u.resid →
      Covers N u.offset (n * blockSize) →
      (∀ t x' result k, Focus c p v t x' → Written R N x u.offset (u.iov.take k) x' →
        Taken c N u.offset (n * blockSize) x' result k → Q (result, u.advance (u.iov.take k)) t) →
      wp (ioBlocks p n u) Q E s := by
  induction n with
  | zero =>
    intro s x u Q h hok _ _ _ _ _ hQ
    have := hQ s x none 0 h (.refl hok _) (.inl ⟨rfl, by simp⟩)
    simpa only [ioBlocks, wp_pure, List.take_zero, Uio.advance_nil] using this
  | succ n ih =>
    intro s x u Q h hok hrw hu haligned hresid hN hQ
    have hsize : blockSize ≤ u.resid := by
      simp only [blockSize] at *
      omega
    have hiov : blockSize ≤ u.iov.length := Nat.le_trans hsize hu
    have hlength : (u.iov.take blockSize).length = blockSize := List.length_take_of_le hiov
    have hpos : 0 < (n + 1) * blockSize := Nat.mul_pos (Nat.succ_pos n) (by decide)
    simp only [ioBlocks, wp_bind, wp_attempt]
    refine wp_blockio_write hw h hok hu haligned hsize hrw (hN.first hpos) ?_ ?_
    · intro t y ht hy
      refine ih ht hy.step.ok hrw (hu.advance _) ?_ ?_ ?_ ?_
      · rw [Uio.advance_offset, hlength, Nat.add_mod_right]
        exact haligned
      · rw [Uio.advance_resid, hlength]
        rw [Nat.succ_mul] at hresid
        exact Nat.le_sub_of_add_le hresid
      · rw [Nat.succ_mul, Nat.add_comm (n * blockSize)] at hN
        rw [Uio.advance_offset, hlength]
        exact hN.after
      · intro t' x' result k ht' hx' hdone
        rw [Uio.advance_append, u.take_iov_advance hiov]
        refine hQ t' x' result _ ht' (hy.take hiov hx') ?_
        rw [Uio.advance_offset, hlength] at hdone
        rw [Nat.succ_mul, Nat.add_comm (n * blockSize)]
        exact hdone.after
    · intro e t y ht hy hend
      have := hQ t y (some e) 0 ht (hy.written _) (.stopped hpos hend)
      simpa only [wp_pure, List.take_zero, Uio.advance_nil] using this

theorem wp_ioAligned_write (h : Focus c p v s x) (hok : FileOk R x) (hrw : u.rw = .write) (hu : u.Ok)
    (haligned : u.offset % blockSize = 0 ∨ u.resid = 0) (hN : Covers N u.offset u.resid)
    (hQ : ∀ t x' result k, Focus c p v t x' → Written R N x u.offset (u.iov.take k) x' →
      Taken c N u.offset u.resid x' result k → Q (result, u.advance (u.iov.take k)) t) :
    wp (ioAligned p u) Q E s := by
  simp only [ioAligned, wp_ite, wp_pure]
  split
  · rename_i h0
    have := hQ s x none 0 h (.refl hok _) (.inl ⟨rfl, h0.symm⟩)
    simpa only [List.take_zero, Uio.advance_nil] using this
  · rename_i h0
    have haligned := haligned.resolve_right h0
    have hblocks : u.resid / blockSize * blockSize ≤ u.resid := Nat.div_mul_le_self _ _
    simp only [wp_bind, wp_assert, haligned, decide_true, if_true]
    refine wp_ioBlocks_write hw _ h hok hrw hu haligned hblocks (hN.front hblocks) ?_
    intro t y result k ht hy hdone
    have hk : k ≤ u.iov.length := Nat.le_trans hdone.le (Nat.le_trans hblocks hu)
    have hlength : (u.iov.take k).length = k := List.length_take_of_le hk
    rcases hdone with ⟨rfl, rfl⟩ | ⟨hlt, hend⟩
    · -- The whole blocks are done, and what is left is less than a block.
      have hleft : u.resid - u.resid / blockSize * blockSize < blockSize := by
        simp only [blockSize]
        omega
      simp only [wp_bind, wp_assert, Uio.advance_resid, hlength, hleft, decide_true, if_true, wp_ite]
      split
      · rename_i hpos
        simp only [wp_attempt]
        have hmod : (u.advance (u.iov.take (u.resid / blockSize * blockSize))).offset %
            blockSize = 0 := by
          simp only [Uio.advance_offset, hlength, blockSize] at *
          omega
        have hfirst : ∀ r, Needs (fileblockOf
            (u.advance (u.iov.take (u.resid / blockSize * blockSize))).offset) r → N r := by
          rw [Uio.advance_offset, hlength]
          rw [← Nat.add_sub_cancel' hblocks] at hN
          exact hN.after.first hpos
        have hpartial := fun Q' E' => wp_partialio_write (Q := Q') (E := E') hw ht hy.step.ok
          (hu.advance (u.iov.take (u.resid / blockSize * blockSize)))
          (by rw [hmod]; omega)
          (show u.resid - u.resid / blockSize * blockSize ≤ _ by rw [Uio.advance_resid, hlength]) hrw hfirst
        rw [hmod] at hpartial
        refine hpartial _ _ ?_ ?_
        · intro t' x' ht' hx'
          rw [Uio.advance_append, u.take_iov_advance hk]
          exact hQ t' x' none _ ht' (hy.take hk hx') (.inl ⟨rfl, by omega⟩)
        · intro e t' x' ht' hx' hend
          refine hQ t' x' (some e) _ ht' (hy.mapped hx') ?_
          rw [Uio.advance_offset, hlength] at hend
          have := (Taken.stopped hpos hend).after
          rwa [Nat.add_sub_cancel' hblocks, Nat.add_zero] at this
      · exact hQ t y none _ ht hy (.inl ⟨rfl, by omega⟩)
    · have hstop : Taken c N u.offset u.resid y result k :=
        .inr ⟨Nat.lt_of_lt_of_le hlt hblocks, hend⟩
      rcases hend with ⟨rfl, -⟩ | ⟨rfl, -⟩
      · exact hQ t y _ k ht hy hstop
      · exact hQ t y _ k ht hy hstop

theorem wp_ioTransfer_write (h : Focus c p v s x) (hok : FileOk R x) (hrw : u.rw = .write) (hu : u.Ok)
    (hN : Covers N u.offset (max 1 u.resid))
    (hQ : ∀ t x' result k, Focus c p v t x' → Written R N x u.offset (u.iov.take k) x' →
      k ≤ u.resid → (0 < u.resid → Taken c N u.offset u.resid x' result k) →
      Q (result, u.advance (u.iov.take k)) t) :
    wp (ioTransfer p u) Q E s := by
  simp only [ioTransfer, wp_ite]
  split
  · rename_i h0
    exact wp_ioAligned_write hw h hok hrw hu (.inl h0) (hN.front (Nat.le_max_right _ _)) fun t x' result k ht hx' hdone =>
      hQ t x' result k ht hx' hdone.le fun _ => hdone
  · rename_i h0
    simp only [wp_bind, wp_attempt]
    have hmod : u.offset % blockSize < blockSize := Nat.mod_lt _ (by decide)
    have hle : min (blockSize - u.offset % blockSize) u.resid ≤ u.resid := Nat.min_le_right _ _
    have hk := Nat.le_trans hle hu
    have hlength := List.length_take_of_le hk
    refine wp_partialio_write hw h hok hu (by omega) hle hrw (hN.first (by omega)) ?_ ?_
    · intro t y ht hy
      refine wp_ioAligned_write (N := N) hw ht hy.step.ok hrw (hu.advance _) ?_ ?_ ?_
      · simp only [Uio.advance_offset, Uio.advance_resid, hlength, blockSize] at *
        omega
      · have hN := hN.front (Nat.le_max_right 1 u.resid)
        rw [← Nat.add_sub_cancel' hle] at hN
        rw [Uio.advance_offset, Uio.advance_resid, hlength]
        exact hN.after
      · intro t' x' result k ht' hx' hdone
        rw [Uio.advance_append, u.take_iov_advance hk]
        rw [Uio.advance_offset, Uio.advance_resid, hlength] at hdone
        have hall := hdone.after
        rw [Nat.add_sub_cancel' hle] at hall
        exact hQ t' x' result _ ht' (hy.take hk hx') hall.le fun _ => hall
    · intro e t y ht hy hend
      have hzero := hQ t y (some e) 0 ht (hy.written _) (Nat.zero_le _)
      rw [show u.advance (u.iov.take 0) = u by rw [List.take_zero, Uio.advance_nil]] at hzero
      exact hzero fun hpos => .stopped hpos hend

theorem wp_ioWrite (h : Focus c p v s x) (hok : FileOk R x) (hrw : u.rw = .write) (hu : u.Ok)
    (hN : Covers N u.offset (max 1 u.resid))
    (hQ : ∀ t x' result k, Focus c p v t x' → FileStep R x x' → k ≤ u.resid →
      (∀ r, x'.blockAt r ≠ 0 → x.blockAt r ≠ 0 ∨ N r) →
      (∀ r, x.blockAt r ≠ 0 → x'.blockAt r = x.blockAt r) →
      (∀ pos, u.offset ≤ pos → pos < u.offset + k →
        ∃ r, placeOf (fileblockOf pos) = some r ∧ x'.blockAt r ≠ 0) →
      (wrapOf u.offset + k ≤ maxFile → x'.byteAt = overlay x.byteAt (wrapOf u.offset) (u.iov.take k)) →
      x'.inode.size = (if x.inode.size.toNat < u.offset + k then UInt32.ofNat (u.offset + k)
        else x.inode.size) →
      (0 < u.resid → Taken c N u.offset u.resid x' result k) →
      Q (result, u.advance (u.iov.take k)) t) :
    wp (ioWrite p u) Q E s := by
  simp only [ioWrite, wp_bind]
  refine wp_ioTransfer_write hw h hok hrw hu hN ?_
  intro t y result k ht hy hk hdone
  have hlength := List.length_take_of_le (Nat.le_trans hk hu)
  have hbytes : wrapOf u.offset + k ≤ maxFile →
      y.byteAt = overlay x.byteAt (wrapOf u.offset) (u.iov.take k) := by
    intro hle
    exact hy.bytes (by rwa [hlength])
  have hthere := hy.there
  rw [hlength] at hthere
  rw [wp_vnode ht]
  simp only [wp_ite, wp_bind, wp_pure, Uio.advance_offset, hlength, hy.size]
  split
  · rename_i hgrow
    refine wp_setInode ht _ fun t' ht' _ => ?_
    refine hQ t' _ result k ht' (hy.step.trans (.resize hy.step.ok _)) hk hy.new hy.kept hthere hbytes ?_ hdone
    rw [if_pos hgrow]
  · rename_i hin
    refine hQ t y result k ht hy.step hk hy.new hy.kept hthere hbytes ?_ hdone
    rw [if_neg hin, hy.size]

end Write

end Os161.Sfs

import Os161.Laws.Sfs.Io
import Os161.Laws.Sfs.Sample
import Os161.Sfs.Vnode

/-!
# Writes that transfer nothing

A write may return before its first byte: because it is empty, or because its first block is past the largest file,
cannot be allocated or cannot be read. What the file reads as is then as before. Its size need not be: `sfs_io`
compares it with the offset at its common exit, whether anything was transferred or not.
-/

namespace Os161.Sfs

open Os161.Lib Prog Errno

variable {R : Blk → Prop} {c : Core} {p : Ptr} {v : Vnode} {s : State} {x : FileState} {u : Uio}
variable {u' u'' : Uio} {E : Stop Errno Panic → State → Prop} {b : Blk} {offset : Nat}

/-! ## The residue only shrinks -/

/-- The same transfer, with no more to do. -/
structure Shrinks (u u' : Uio) : Prop where
  rw_eq : u'.rw = u.rw
  resid : u'.resid ≤ u.resid

theorem Shrinks.refl (u : Uio) : Shrinks u u := ⟨rfl, Nat.le_refl _⟩

theorem Shrinks.trans (h : Shrinks u u') (h' : Shrinks u' u'') : Shrinks u u'' :=
  ⟨h'.rw_eq.trans h.rw_eq, Nat.le_trans h'.resid h.resid⟩

theorem wp_uiomove_moves {data : List UInt8} {Q : List UInt8 × Uio → State → Prop}
    (hQ : ∀ r, r.2.rw = u.rw → (r.2.resid < u.resid ∨ r = (data, u) ∧ (data.length = 0 ∨ u.resid = 0)) → Q r s)
    (hE : ∀ e, E (.panic e) s) : wp (uiomove data u) Q E s := by
  have hmoved : ∀ bytes rest : List UInt8, bytes.length = min u.iov.length data.length →
      ¬ (data.length = 0 ∨ u.resid = 0) → min u.iov.length data.length ≠ 0 → Q (bytes ++ rest, u.advance bytes) s := by
    intro bytes rest hbytes h0 hsize
    refine hQ _ rfl (.inl ?_)
    show u.resid - bytes.length < u.resid
    omega
  simp only [uiomove, wp_ite, wp_pure]
  split
  · rename_i h0
    exact hQ _ rfl (.inr ⟨rfl, h0⟩)
  · rename_i h0
    split
    · exact hE _
    · rename_i hsize
      split
      · split
        · exact hE _
        · exact hmoved _ _ (by rw [List.length_take]; omega) h0 hsize
      · split
        · exact hE _
        · exact hmoved _ _ (by rw [List.length_take]; omega) h0 hsize

theorem wp_sfsWblock_end {Q : Unit → State → Prop} {src : State → Block}
    (hQ : ∀ t, Q () t) (hE : ∀ e t, E (.panic e) t) : wp (sfsWblock src b) Q E s := by
  by_cases hb : b.toNat < s.dBlocks
  · rw [wp_sfsWblock_any hb]
    split
    · exact hQ _
    · exact hQ _
  · simp only [sfsWblock, lhdWrite, wp_bind, wp_read, wp_ite, Nat.le_of_not_lt hb, if_true, wp_panic]
    exact hE _ _

section Moves

attribute [local irreducible] slice

theorem wp_blockWrite_moves (hE : ∀ e t, E (.panic e) t) (sector : Blk)
    (hresid : blockSize ≤ u.resid) :
    wp (blockWrite u sector) (fun u' _ => u'.rw = u.rw ∧ u'.resid < u.resid) E s := by
  simp only [blockWrite, uiomoveWindow, wp_bind, wp_pure]
  refine wp_uiomove_moves (fun r hrw hend => ?_) fun e => hE e s
  rcases hend with hlt | ⟨-, hzero⟩
  · refine wp_sfsWblock_end (fun _ => ⟨hrw, ?_⟩) hE
    show r.2.resid + u.resid - blockSize < u.resid
    have : r.2.resid < blockSize := hlt
    omega
  · rw [length_slice] at hzero
    exact hzero.elim (absurd · (by decide)) (absurd · (show ¬ blockSize = 0 by decide))

theorem wp_blockMove_moves (hE : ∀ e t, E (.panic e) t) (hrw : u.rw = .write) : wp (blockMove u b) (fun u' _ => u'.rw = u.rw ∧ u'.resid < u.resid) E s := by
  simp only [blockMove, wp_bind, wp_assert, hrw]
  split
  · rename_i hresid
    have := wp_blockWrite_moves (s := s) hE (UInt32.ofNat (b.toNat * blockSize % 0x100000000 / blockSize))
      (of_decide_eq_true hresid)
    rwa [hrw] at this
  · exact hE _ _

theorem wp_blockio_shrinks (hrw : u.rw = .write) : wp (sfsBlockio p u) (fun u' _ => Shrinks u u') AnyStop s := by
  simp only [sfsBlockio, wp_bind, hrw, decide_true]
  refine wp_any fun b t => ?_
  simp only [wp_ite, wp_bind, wp_assert, reduceCtorEq, decide_false, Bool.false_eq_true, if_false]
  split
  · trivial
  · exact (wp_blockMove_moves (fun _ _ => trivial) hrw).mono (fun _ _ h => ⟨h.1, Nat.le_of_lt h.2⟩) fun _ _ h => h

theorem wp_partialMove_shrinks (hrw : u.rw = .write) (skip len : Nat) (b : Blk) :
    wp (partialMove u skip len b) (fun u' _ => Shrinks u u') AnyStop s := by
  simp only [partialMove, wp_bind, wp_read]
  refine wp_uiomove_moves (fun r hrw' hend => ?_) fun _ => trivial
  have hle : r.2.resid ≤ u.resid := by
    rcases hend with hlt | ⟨rfl, -⟩
    · exact Nat.le_of_lt hlt
    · exact Nat.le_refl _
  simp only [wp_modify, hrw', hrw, wp_bind, wp_pure]
  exact wp_any fun _ _ => ⟨hrw', hle⟩

theorem wp_partialio_shrinks (hrw : u.rw = .write) (skip len : Nat) :
    wp (sfsPartialio p u skip len) (fun u' _ => Shrinks u u') AnyStop s := by
  simp only [sfsPartialio, wp_bind, wp_assert]
  split
  · refine wp_any fun b t => ?_
    simp only [wp_ite, wp_bind, wp_assert, hrw, reduceCtorEq, decide_false, Bool.false_eq_true, if_false]
    split
    · trivial
    · refine wp_any fun data t => ?_
      simp only [wp_modify]
      exact wp_partialMove_shrinks hrw skip len b
  · trivial

end Moves

theorem wp_ioBlocks_shrinks (n : Nat) : ∀ {s : State} {u : Uio}, u.rw = .write →
    wp (ioBlocks p n u) (fun r _ => Shrinks u r.2) AnyStop s := by
  induction n with
  | zero =>
    intro s u _
    exact .refl u
  | succ n ih =>
    intro s u hrw
    simp only [ioBlocks, wp_bind, wp_attempt]
    refine (wp_blockio_shrinks hrw).mono (fun u' t hu' => ?_) fun e t _ => ?_
    · exact (ih (hu'.rw_eq.trans hrw)).mono (fun _ _ h => hu'.trans h) fun _ _ h => h
    · cases e with
      | err e => exact .refl u
      | panic e => trivial

theorem wp_ioAligned_shrinks (hrw : u.rw = .write) :
    wp (ioAligned p u) (fun r _ => Shrinks u r.2) AnyStop s := by
  simp only [ioAligned, wp_ite, wp_pure, wp_bind, wp_assert]
  split
  · exact .refl u
  · split
    · refine (wp_ioBlocks_shrinks _ hrw).mono (fun r t hr => ?_) fun _ _ h => h
      obtain ⟨result, u'⟩ := r
      cases result with
      | some e => exact hr
      | none =>
        simp only [wp_bind, wp_assert, wp_ite, wp_attempt, wp_pure]
        split
        · split
          · refine (wp_partialio_shrinks (hr.rw_eq.trans hrw) 0 _).mono (fun _ _ h => hr.trans h) fun e t _ => ?_
            cases e with
            | err e => exact hr
            | panic e => trivial
          · exact hr
        · trivial
    · trivial

/-! ## The first block -/

/-- The file reads as `x`, and has its size; blocks may have been mapped. -/
def Kept (R : Blk → Prop) (c : Core) (p : Ptr) (v : Vnode) (x : FileState) (t : State) : Prop :=
  ∃ rest x', Focus (c.withFaults rest) p v t x' ∧ Mapped R (fun _ => True) x x'

/-- An error leaves the file as it reads. -/
def ErrKept (R : Blk → Prop) (c : Core) (p : Ptr) (v : Vnode) (x : FileState) : Stop Errno Panic → State → Prop
  | .err _, t => Kept R c p v x t
  | .panic _, _ => True

/-- Something was transferred, or the `uio` and the file are as they were. -/
def MovedOrKept (R : Blk → Prop) (c : Core) (p : Ptr) (v : Vnode) (x : FileState) (u u' : Uio) (t : State) : Prop :=
  u'.resid < u.resid ∨ u' = u ∧ Kept R c p v x t

theorem Kept.same {t : State} (h : Kept R c p v x t) (u : Uio) : MovedOrKept R c p v x u u t := .inr ⟨rfl, h⟩

theorem Shrinks.moved (h : Shrinks u' u'') (hlt : u'.resid < u.resid) (t : State) :
    MovedOrKept R c p v x u u'' t := .inl (Nat.lt_of_le_of_lt h.resid hlt)

/-- The device does not lose a write of a block that is allocated for the offset. -/
def FirstDone (x : FileState) (faults : List Bool) (offset : Nat) : Prop :=
  ∀ r, placeOf (fileblockOf offset) = some r → AllocDone x faults r

section First

variable (hm : Mounted R c) (h : Focus c p v s x) (hok : FileOk R x) (hrw : u.rw = .write)
  {k : State → State → Prop} (hdone : Spares k (FirstDone x c.faults u.offset))

include h hok in
theorem Focus.kept : Kept R c p v x s := ⟨c.faults, x, h, .refl hok⟩

include hm h hok hrw hdone

theorem wpAlong_partialio_first (skip len : Nat) :
    wpAlong k (sfsPartialio p u skip len) (fun u' t => u'.rw = u.rw ∧ MovedOrKept R c p v x u u' t)
      (ErrKept R c p v x) s := by
  simp only [sfsPartialio, wpAlong_bind, wpAlong_assert]
  split
  swap
  · trivial
  rename_i hlen
  simp only [hrw, decide_true]
  cases hr : placeOf (fileblockOf u.offset) with
  | none => exact ((wp_bmap_big hr).mpr (h.kept hok)).along
  | some r =>
    refine wpAlong_bmap (N := fun _ => True) hm h hok hr (fun _ _ => trivial) (hdone.imp fun hdone => hdone r hr) ?_ ?_
    · intro rest t x' _ ht hx' h0
      refine wp.along ?_
      have hlt := hm.lt_nblocks hx'.step.ok h0
      simp only [h0, if_false, wp_bind]
      refine wp_rblock_any ht (hm.withFaults rest) hlt (fun rest' t' _ ht' _ => ?_) fun t' _ ht' => ⟨_, x', ht', hx'⟩
      simp only [wp_modify, partialMove, wp_bind, wp_read]
      refine wp_uiomove_moves (fun m hrw' hend => ?_) fun _ => trivial
      simp only [hrw', hrw, wp_bind, wp_pure]
      rcases hend with hlt' | ⟨rfl, -⟩
      · exact wp_sfsWblock_end (fun _ => ⟨trivial, .inl hlt'⟩) fun _ _ => trivial
      · -- what was read is written back
        have hback := splice_slice (x'.disk (x'.blockAt r)) (of_decide_eq_true hlen)
        refine wp_wblock_any (ht'.buffers ?_) (hm.withFaults rest') hlt (x'.disk (x'.blockAt r)) ?_ ?_ ?_
        · rfl
        · intro t'' hsame
          rw [hsame.iobuf]
          exact hback
        · intro t'' _ ht'' _
          rw [Function.update_eq_self] at ht''
          exact ⟨trivial, Kept.same ⟨_, x', ht'', hx'⟩ u⟩
        · intro t'' _ ht'' _
          exact ⟨trivial, Kept.same ⟨_, x', ht'', hx'⟩ u⟩
    · intro e rest t x' _ ht hx' _
      exact ⟨rest, x', ht, hx'⟩

theorem wpAlong_blockio_first :
    wpAlong k (sfsBlockio p u) (fun u' _ => u'.rw = u.rw ∧ u'.resid < u.resid) (ErrKept R c p v x) s := by
  simp only [sfsBlockio, wpAlong_bind, hrw, decide_true]
  cases hr : placeOf (fileblockOf u.offset) with
  | none => exact ((wp_bmap_big hr).mpr (h.kept hok)).along
  | some r =>
    refine wpAlong_bmap (N := fun _ => True) hm h hok hr (fun _ _ => trivial) (hdone.imp fun hdone => hdone r hr) ?_ ?_
    · intro rest t x' _ ht hx' h0
      refine wp.along ?_
      simp only [h0, if_false]
      have := wp_blockMove_moves (s := t) (b := x'.blockAt r) (E := ErrKept R c p v x) (fun _ _ => trivial) hrw
      rwa [hrw] at this
    · intro e rest t x' _ ht hx' _
      exact ⟨rest, x', ht, hx'⟩

theorem wpAlong_ioBlocks_first (n : Nat) :
    wpAlong k (ioBlocks p n u) (fun r t => r.2.rw = u.rw ∧ MovedOrKept R c p v x u r.2 t) AnyStop s := by
  cases n with
  | zero => exact (wpAlong_pure _).mpr ⟨rfl, (h.kept hok).same u⟩
  | succ n =>
    simp only [ioBlocks, wpAlong_bind, wpAlong_attempt]
    refine (wpAlong_blockio_first hm h hok hrw hdone).mono (fun u' t hu' => ?_) fun e t he => ?_
    · refine ((wp_ioBlocks_shrinks n (hu'.1.trans hrw)).mono (fun r _ hr => ?_) fun _ _ h => h).along
      exact ⟨hr.rw_eq.trans hu'.1, hr.moved hu'.2 _⟩
    · cases e with
      | err e => exact (wpAlong_pure _).mpr ⟨rfl, Kept.same he u⟩
      | panic e => trivial

theorem wpAlong_ioAligned_first :
    wpAlong k (ioAligned p u) (fun r t => MovedOrKept R c p v x u r.2 t) AnyStop s := by
  simp only [ioAligned, wpAlong_ite, wpAlong_pure, wpAlong_bind, wpAlong_assert]
  split
  · exact (h.kept hok).same u
  split
  swap
  · trivial
  by_cases hblocks : u.resid < blockSize
  · -- there is only part of a block
    rw [Nat.div_eq_of_lt hblocks]
    simp only [ioBlocks, wpAlong_pure, wpAlong_bind, wpAlong_assert, hblocks, decide_true, if_true, wpAlong_ite,
      wpAlong_attempt]
    split
    · refine (wpAlong_partialio_first hm h hok hrw hdone _ _).mono (fun u' t hu' => hu'.2) fun e t he => ?_
      cases e with
      | err e => exact Kept.same he u
      | panic e => trivial
    · exact (h.kept hok).same u
  · refine (wpAlong_ioBlocks_first hm h hok hrw hdone _).mono (fun r t hr => ?_) fun _ _ h => h
    obtain ⟨result, u'⟩ := r
    cases result with
    | some e => exact (wpAlong_pure _).mpr hr.2
    | none =>
      simp only [wpAlong_bind, wpAlong_assert, wpAlong_ite, wpAlong_attempt, wpAlong_pure]
      obtain ⟨hrw', hlt | ⟨rfl, -⟩⟩ := hr
      · split
        swap
        · trivial
        split
        · refine ((wp_partialio_shrinks (hrw'.trans hrw) 0 _).mono
            (fun u'' _ hu => hu.moved hlt _) fun e t _ => ?_).along
          cases e with
          | err e => exact .inl hlt
          | panic e => trivial
        · exact .inl hlt
      · -- whole blocks were to be transferred, and none was: the assertion fails
        rw [if_neg (by simpa using hblocks)]
        trivial

theorem wpAlong_ioTransfer_first :
    wpAlong k (ioTransfer p u) (fun r t => MovedOrKept R c p v x u r.2 t) AnyStop s := by
  simp only [ioTransfer, wpAlong_ite, wpAlong_bind, wpAlong_attempt]
  split
  · exact wpAlong_ioAligned_first hm h hok hrw hdone
  · refine (wpAlong_partialio_first hm h hok hrw hdone _ _).mono (fun u' t hu' => ?_) fun e t he => ?_
    · obtain ⟨hrw', hlt | ⟨rfl, hkept⟩⟩ := hu'
      · exact ((wp_ioAligned_shrinks (hrw'.trans hrw)).mono
          (fun r _ hr => hr.moved hlt _) fun _ _ h => h).along
      · simp only [ioAligned, wpAlong_ite, wpAlong_pure, wpAlong_bind, wpAlong_assert]
        split
        · exact hkept.same _
        · rename_i hoff _
          rw [if_neg (by simpa using hoff)]
          trivial
    · cases e with
      | err e => exact (wpAlong_pure _).mpr (Kept.same he u)
      | panic e => trivial

end First

/-! ## The common exit -/

/-- What `sfs_read` sees of a file. -/
def FileState.contents (x : FileState) : List UInt8 := bytesFrom x.byteAt 0 x.inode.size.toNat

/-- The file has the size and the contents it had. -/
def Unchanged (p : Ptr) (x : FileState) (t : State) : Prop :=
  ∃ v', t.vnodes p = some v' ∧ v'.inode.size = x.inode.size ∧ (t.file v').contents = x.contents

theorem Focus.unchanged_iff {x' : FileState} (h : Focus c p v s x') (hbytes : x'.byteAt = x.byteAt) :
    Unchanged p x s ↔ x'.inode.size = x.inode.size := by
  constructor
  · rintro ⟨v', hv', hsize, -⟩
    cases hv'.symm.trans h.vnode
    exact hsize
  · intro hsize
    refine ⟨_, h.vnode, hsize, ?_⟩
    rw [show s.file _ = x' by rw [show s.toCore = _ from h]; rfl, FileState.contents, FileState.contents, hbytes, hsize]

/-- The size stays when the offset is not past it, or is taken for it. -/
def KeepsSize (x : FileState) (offset : Nat) : Prop :=
  offset ≤ x.inode.size.toNat ∨ offset % 0x100000000 = x.inode.size.toNat

theorem ofNat_eq_size_iff {size : UInt32} :
    UInt32.ofNat offset = size ↔ offset % 0x100000000 = size.toNat := by
  rw [← UInt32.toNat_inj, UInt32.toNat_ofNat']

/-- What a write that transferred nothing leaves: blocks may have been mapped, and the size was compared with the
offset. -/
def Untouched (R : Blk → Prop) (c : Core) (p : Ptr) (v : Vnode) (x : FileState) (offset : Nat) (t : State) : Prop :=
  ∃ rest x', Focus (c.withFaults rest) p v t x' ∧ FileStep R x x' ∧ x'.byteAt = x.byteAt ∧
    x'.inode.size = if x.inode.size.toNat < offset then UInt32.ofNat offset else x.inode.size

theorem Untouched.unchanged_iff (h : Untouched R c p v x offset s) :
    Unchanged p x s ↔ KeepsSize x offset := by
  obtain ⟨rest, x', hfocus, -, hbytes, hsize⟩ := h
  rw [hfocus.unchanged_iff hbytes, hsize]
  split
  · rename_i hgrow
    exact ofNat_eq_size_iff.trans ⟨.inr, fun hkeep => hkeep.resolve_left (Nat.not_le.mpr hgrow)⟩
  · rename_i hin
    exact iff_of_true rfl (.inl (Nat.le_of_not_lt hin))

theorem wpAlong_ioWrite_first (hm : Mounted R c) (h : Focus c p v s x) (hok : FileOk R x) (hrw : u.rw = .write)
    {k : State → State → Prop} (hdone : Spares k (FirstDone x c.faults u.offset)) :
    wpAlong k (ioWrite p u) (fun r t => r.2.resid < u.resid ∨ Untouched R c p v x u.offset t) AnyStop s := by
  simp only [ioWrite, wpAlong_bind]
  refine (wpAlong_ioTransfer_first hm h hok hrw hdone).mono (fun r t hr => ?_) fun _ _ h => h
  obtain ⟨result, u'⟩ := r
  rcases hr with hlt | ⟨rfl, rest, x', ht, hx'⟩
  · -- something was transferred
    refine wp.along (wp_any fun v t => ?_)
    simp only [wpAlong_ite, wpAlong_bind, wpAlong_pure]
    split
    · exact wp.along (wp_any fun _ _ => .inl hlt)
    · exact .inl hlt
  · rw [wpAlong_vnode ht]
    simp only [wpAlong_ite, wpAlong_bind, wpAlong_pure, hx'.size]
    split
    · rename_i hgrow
      refine wp.along (wp_setInode ht _ fun t' ht' _ => .inr ⟨rest, _, ht', ?_, hx'.bytes, ?_⟩)
      · exact hx'.step.trans (.resize hx'.step.ok _)
      · rw [if_pos hgrow]
    · rename_i hin
      refine .inr ⟨rest, x', ht, hx'.step, hx'.bytes, ?_⟩
      rw [if_neg hin, hx'.size]

theorem wpAlong_write_first (hm : Mounted R c) (h : Focus c p v s x) (hok : FileOk R x) {k : State → State → Prop}
    (hdone : Spares k (FirstDone x c.faults u.offset)) :
    wpAlong k (sfsWrite p u) (fun r t => r.2.resid < u.resid ∨ Untouched R c p v x u.offset t) AnyStop s := by
  simp only [sfsWrite, wpAlong_bind, wpAlong_assert]
  split
  · rename_i hrw
    have hrw : u.rw = .write := of_decide_eq_true hrw
    simp only [sfsIo, hrw]
    exact wpAlong_ioWrite_first hm h hok hrw hdone
  · trivial

/-- A volume with a file of 512 bytes. -/
def fullBlock : State := oneFile 5 (oneBlock 512) fun _ => zeros

end Os161.Sfs

import Os161.Laws.Sfs.Bmap

/-!
# Transfers of part of a block, and of a block

What `sfs_partialio` and `sfs_blockio` do, in terms of the bytes of the file: a read delivers them and
leaves the volume as it is, a write puts the bytes of the buffer over them.
-/

namespace Os161.Sfs

open Os161.Lib Prog

variable {k fb off : Nat} {r : Place}

/-! ## Bytes -/

/-- The size of the largest file. -/
abbrev maxFile : Nat := (ndirect + dbperidb) * blockSize

/-- The bytes of a sequence from a position on. -/
def bytesFrom (f : Nat → UInt8) (off len : Nat) : List UInt8 := (List.range len).map fun i => f (off + i)

@[simp] theorem length_bytesFrom (f : Nat → UInt8) (off len : Nat) :
    (bytesFrom f off len).length = len := by simp [bytesFrom]

@[simp] theorem bytesFrom_zero (f : Nat → UInt8) (off : Nat) : bytesFrom f off 0 = [] := rfl

theorem bytesFrom_append (f : Nat → UInt8) (off m k : Nat) :
    bytesFrom f off m ++ bytesFrom f (off + m) k = bytesFrom f off (m + k) := by
  simp only [bytesFrom, List.range_add, List.map_append, List.map_map]
  congr 1
  refine List.map_congr_left fun i _ => ?_
  show f (off + m + i) = f (off + (m + i))
  rw [Nat.add_assoc]

/-- A sequence of bytes with some of them replaced. -/
def overlay (f : Nat → UInt8) (off : Nat) (data : List UInt8) : Nat → UInt8 := fun pos =>
  if off ≤ pos ∧ pos < off + data.length then data.getD (pos - off) 0 else f pos

@[simp] theorem overlay_nil (f : Nat → UInt8) (off : Nat) : overlay f off [] = f := by
  funext pos
  exact if_neg (by simp only [List.length_nil]; omega)

theorem overlay_append (f : Nat → UInt8) (off : Nat) (a b : List UInt8) :
    overlay (overlay f off a) (off + a.length) b = overlay f off (a ++ b) := by
  funext pos
  simp only [overlay, List.length_append]
  by_cases ha : off ≤ pos ∧ pos < off + a.length
  · rw [if_neg (by omega), if_pos ha, if_pos (by omega)]
    simp only [List.getD_eq_getElem?_getD]
    rw [List.getElem?_append_left (by omega)]
  · by_cases hb : off + a.length ≤ pos ∧ pos < off + a.length + b.length
    · rw [if_pos hb, if_pos (by omega)]
      simp only [List.getD_eq_getElem?_getD]
      rw [List.getElem?_append_right (by omega)]
      congr 2
      omega
    · rw [if_neg hb, if_neg ha, if_neg (by omega)]

/-! ## The `uio` -/

/-- The buffer is as long as what is left to do. -/
def Uio.Ok (u : Uio) : Prop := u.resid ≤ u.iov.length

@[simp] theorem Uio.advance_nil (u : Uio) : u.advance [] = u := by
  simp [Uio.advance]

theorem Uio.advance_append (u : Uio) (a b : List UInt8) :
    (u.advance a).advance b = u.advance (a ++ b) := by
  simp only [Uio.advance, List.length_append, List.append_assoc, List.drop_drop, Uio.mk.injEq, true_and,
    and_true]
  omega

@[simp] theorem Uio.advance_rw (u : Uio) (a : List UInt8) : (u.advance a).rw = u.rw := rfl

@[simp] theorem Uio.advance_offset (u : Uio) (a : List UInt8) :
    (u.advance a).offset = u.offset + a.length := rfl

@[simp] theorem Uio.advance_resid (u : Uio) (a : List UInt8) :
    (u.advance a).resid = u.resid - a.length := rfl

theorem Uio.Ok.advance {u : Uio} (h : u.Ok) (a : List UInt8) : (u.advance a).Ok := by
  simp only [Uio.Ok, Uio.advance, List.length_drop] at *
  omega

theorem Uio.take_iov_advance (u : Uio) {m : Nat} (h : k ≤ u.iov.length) :
    u.iov.take k ++ (u.advance (u.iov.take k)).iov.take m = u.iov.take (k + m) := by
  simp only [Uio.advance, List.length_take, Nat.min_eq_left h]
  rw [List.take_add]

section Uiomove

variable {u : Uio} {data : List UInt8} {s : State} {Q : List UInt8 × Uio → State → Prop}
  {E : Stop Errno Panic → State → Prop}

theorem wp_uiomove_read (hrw : u.rw = .read) (hok : u.Ok) (hle : data.length ≤ u.resid)
    (hQ : Q (data, u.advance data) s) : wp (uiomove data u) Q E s := by
  have hmin : min u.iov.length data.length = data.length := by
    have : u.resid ≤ u.iov.length := hok
    omega
  simp only [uiomove, wp_ite, wp_pure]
  split
  · rename_i h0
    have hnil : data = [] := List.length_eq_zero_iff.mp (by omega)
    subst hnil
    rwa [Uio.advance_nil] at hQ
  · rename_i h0
    have hpos : ¬ data.length = 0 := fun h => h0 (.inl h)
    simp only [hrw, hmin, hpos, if_false, List.take_length, Nat.lt_irrefl, false_and, List.drop_length,
      List.append_nil]
    exact hQ

theorem wp_uiomove_write (hrw : u.rw = .write) (hok : u.Ok) (hle : data.length ≤ u.resid)
    (hQ : Q (u.iov.take data.length, u.advance (u.iov.take data.length)) s) :
    wp (uiomove data u) Q E s := by
  have hmin : min u.iov.length data.length = data.length := by
    have : u.resid ≤ u.iov.length := hok
    omega
  simp only [uiomove, wp_ite, wp_pure]
  split
  · rename_i h0
    have hnil : data = [] := List.length_eq_zero_iff.mp (by omega)
    subst hnil
    simpa using hQ
  · rename_i h0
    have hpos : ¬ data.length = 0 := fun h => h0 (.inl h)
    simp only [hrw, hmin, hpos, if_false, Nat.lt_irrefl, false_and, List.drop_length, List.append_nil]
    exact hQ

theorem Uio.advance_window (hlen : data.length = k) :
    { Uio.advance { u with resid := k } data with
      resid := (Uio.advance { u with resid := k } data).resid + u.resid - k } = u.advance data := by
  simp only [Uio.advance, hlen, Nat.sub_self, Nat.zero_add]

theorem wp_uiomoveWindow_read (hrw : u.rw = .read) (hk : k ≤ u.iov.length)
    (hlen : data.length = k) (hQ : Q (data, u.advance data) s) : wp (uiomoveWindow data u k) Q E s := by
  simp only [uiomoveWindow, wp_bind, wp_pure]
  refine wp_uiomove_read hrw hk (Nat.le_of_eq hlen) ?_
  rw [Uio.advance_window hlen]
  exact hQ

theorem wp_uiomoveWindow_write (hrw : u.rw = .write) (hk : k ≤ u.iov.length)
    (hlen : data.length = k) (hQ : Q (u.iov.take k, u.advance (u.iov.take k)) s) :
    wp (uiomoveWindow data u k) Q E s := by
  simp only [uiomoveWindow, wp_bind, wp_pure]
  refine wp_uiomove_write hrw hk (Nat.le_of_eq hlen) ?_
  rw [hlen, Uio.advance_window (List.length_take_of_le hk)]
  exact hQ

end Uiomove

/-! ## Bytes of one block -/

variable {R : Blk → Prop} {c : Core} {p : Ptr} {v : Vnode} {s : State} {x x' y : FileState}
  {N : Place → Prop}

theorem placeOf_eq_none (h : placeOf fb = none) : ndirect + dbperidb ≤ fb := by
  unfold placeOf at h
  split at h
  · cases h
  · split at h
    · cases h
    · simp only [ndirect, dbperidb] at *
      omega

theorem placeOf_lt (hr : placeOf fb = some r) : fb < ndirect + dbperidb := by
  by_contra hle
  have hle := Nat.le_of_not_lt hle
  simp only [ndirect, dbperidb] at hle
  simp only [placeOf, show ¬ fb < 15 by omega, dite_false, show ¬ fb - 15 < 128 by omega, reduceCtorEq] at hr

/-- The offset that an offset is taken for: the number of its block has 32 bits. -/
def wrapOf (off : Nat) : Nat := fileblockOf off * blockSize + off % blockSize

theorem wrapOf_div (off : Nat) : wrapOf off / blockSize = fileblockOf off := by
  simp only [wrapOf, blockSize]
  omega

theorem wrapOf_mod (off : Nat) : wrapOf off % blockSize = off % blockSize := by
  simp only [wrapOf, blockSize]
  omega

theorem wrapOf_le (off : Nat) : wrapOf off ≤ off := by
  simp only [wrapOf, fileblockOf, blockSize]
  omega

theorem wrapOf_eq (h : off < 0x20000000000) : wrapOf off = off := by
  simp only [wrapOf, fileblockOf, blockSize]
  omega

theorem wrapOf_add {len : Nat} (h : wrapOf off + len ≤ maxFile) : wrapOf (off + len) = wrapOf off + len := by
  simp only [wrapOf, fileblockOf, maxFile, ndirect, dbperidb, blockSize] at *
  omega

theorem maxFile_le (h : placeOf (fileblockOf off) = none) : maxFile ≤ wrapOf off := by
  have := placeOf_eq_none h
  simp only [wrapOf, maxFile, ndirect, dbperidb, blockSize] at *
  omega

theorem fileblockOf_eq (h : off < maxFile + 0x100000000) :
    fileblockOf off = off / blockSize := by
  apply Nat.mod_eq_of_lt
  simp only [maxFile, ndirect, dbperidb, blockSize] at *
  omega

theorem slice_eq_bytesFrom (off len : Nat) (hr : placeOf (off / blockSize) = some r)
    (h0 : x.blockAt r ≠ 0) (hlen : off % blockSize + len ≤ blockSize) :
    slice (x.disk (x.blockAt r)) (off % blockSize) len = bytesFrom x.byteAt off len := by
  refine List.map_congr_left fun i hi => ?_
  have hi := List.mem_range.mp hi
  simp only [blockSize] at *
  have hdiv : (off + i) / 512 = off / 512 := by omega
  have hmod : (off + i) % 512 = off % 512 + i := by omega
  rw [dif_pos (by omega), byteAt_of_placeOf (r := r) (by rw [← hr]; exact congrArg placeOf hdiv) h0]
  congr 1
  exact Fin.ext hmod.symm

theorem slice_zeros {len : Nat} (hr : placeOf (off / blockSize) = some r)
    (h0 : x.blockAt r = 0) (hlen : off % blockSize + len ≤ blockSize) :
    slice zeros (off % blockSize) len = bytesFrom x.byteAt off len := by
  refine List.map_congr_left fun i hi => ?_
  have hi := List.mem_range.mp hi
  simp only [blockSize] at *
  have hdiv : (off + i) / 512 = off / 512 := by omega
  rw [byteAt_of_hole (r := r) (by rw [← hr]; exact congrArg placeOf hdiv) h0]
  simp [zeros]

theorem FileOk.splice (hok : FileOk R x) {data : List UInt8}
    (hr : placeOf (off / blockSize) = some r) (h0 : x.blockAt r ≠ 0)
    (hlen : off % blockSize + data.length ≤ blockSize) :
    FileState.byteAt
      { x with
        disk := Function.update x.disk (x.blockAt r)
          (splice (x.disk (x.blockAt r)) (off % blockSize) data) } = overlay x.byteAt off data := by
  funext pos
  have hne : r ≠ .indirect := by
    rintro rfl
    exact placeOf_ne_indirect hr
  rw [(hok.store hne h0 _).2.2 pos]
  by_cases hpos : pos / blockSize = off / blockSize
  · rw [if_pos (hpos ▸ hr)]
    simp only [overlay]
    simp only [blockSize] at *
    by_cases hin : off ≤ pos ∧ pos < off + data.length
    · rw [if_pos hin, splice_of_mem (show off % 512 ≤ pos % 512 by omega)
        (show pos % 512 < off % 512 + data.length by omega)]
      congr 1
      show pos % 512 - off % 512 = pos - off
      omega
    · rw [if_neg hin, splice_of_not_mem (show ¬ (off % 512 ≤ pos % 512 ∧ pos % 512 < _) by omega),
        byteAt_of_placeOf (hpos ▸ hr) h0]
  · rw [if_neg fun heq => hpos (placeOf_inj heq hr)]
    refine (if_neg ?_).symm
    simp only [blockSize] at *
    omega

/-! ## `sfs_partialio` -/

/-- `data` has been written at `off`, and blocks have been mapped at places of `N`. -/
structure Written (R : Blk → Prop) (N : Place → Prop) (x : FileState) (off : Nat) (data : List UInt8)
    (x' : FileState) : Prop where
  step : FileStep R x x'
  size : x'.inode.size = x.inode.size
  new : ∀ r, x'.blockAt r ≠ 0 → x.blockAt r ≠ 0 ∨ N r
  kept : ∀ r, x.blockAt r ≠ 0 → x'.blockAt r = x.blockAt r
  there : ∀ pos, off ≤ pos → pos < off + data.length →
    ∃ r, placeOf (fileblockOf pos) = some r ∧ x'.blockAt r ≠ 0
  bytes : wrapOf off + data.length ≤ maxFile → x'.byteAt = overlay x.byteAt (wrapOf off) data

theorem Mapped.written (h : Mapped R N x x') (off : Nat) : Written R N x off [] x' :=
  ⟨h.step, h.size, h.new, h.kept, fun pos hle hlt => absurd hle (Nat.not_le.mpr hlt),
    fun _ => by rw [h.bytes, overlay_nil]⟩

theorem Written.trans {a b : List UInt8} (h : Written R N x off a y)
    (h' : Written R N y (off + a.length) b x') : Written R N x off (a ++ b) x' := by
  refine ⟨h.step.trans h'.step, h'.size.trans h.size, fun r hr => ?_, fun r hr => ?_, fun pos hle hlt => ?_,
    fun hle => ?_⟩
  · rcases h'.new r hr with hy | hN
    · exact h.new r hy
    · exact .inr hN
  · have hy := h.kept r hr
    exact (h'.kept r (by rwa [hy])).trans hy
  · rw [List.length_append] at hlt
    by_cases hfirst : pos < off + a.length
    · obtain ⟨r, hr, hy⟩ := h.there pos hle hfirst
      exact ⟨r, hr, by rwa [h'.kept r hy]⟩
    · exact h'.there pos (Nat.le_of_not_lt hfirst) (by omega)
  · rw [List.length_append] at hle
    have hadd : wrapOf (off + a.length) = wrapOf off + a.length := wrapOf_add (by omega)
    rw [h'.bytes (by omega), h.bytes (by omega), hadd, overlay_append]

theorem Mapped.stored (h : Mapped R N x x') {data : List UInt8}
    (hr : placeOf (fileblockOf off) = some r) (hlen : off % blockSize + data.length ≤ blockSize)
    (h0 : x'.blockAt r ≠ 0) {block : Block}
    (hbytes : FileState.byteAt { x' with disk := Function.update x'.disk (x'.blockAt r) block } =
      overlay x.byteAt (wrapOf off) data) :
    Written R N x off data { x' with disk := Function.update x'.disk (x'.blockAt r) block } := by
  have hne : r ≠ .indirect := by
    rintro rfl
    exact placeOf_ne_indirect hr
  obtain ⟨hstep, hat, -⟩ := h.step.ok.store hne h0 block
  refine ⟨h.step.trans hstep, h.size, fun q hq => ?_, fun q hq => ?_, fun pos hle hlt => ⟨r, ?_, ?_⟩, fun _ => hbytes⟩
  · rw [hat] at hq
    exact h.new q hq
  · rw [hat]
    exact h.kept q hq
  · -- all the bytes are in one block
    have hfb : fileblockOf pos = fileblockOf off := by
      simp only [fileblockOf, blockSize] at *
      omega
    rw [hfb, hr]
  · rwa [hat]

/-- The block reads for a file block: those of the block map, and that of the block if it is there. -/
def FileState.blockReads (x : FileState) (fb : Nat) : Nat :=
  match placeOf fb with
  | some r => x.inode.mapReads r + if x.blockAt r = 0 then 0 else 1
  | none => 0

/-- How a write of part of a block fails. -/
def WriteFails (c : Core) (N : Place → Prop) (x : FileState) (off : Nat) (e : Errno) : Prop :=
  e = .EFBIG ∧ maxFile ≤ wrapOf off ∨ BmapFails c N x e

section Partialio

variable (hm : Mounted R c) (h : Focus c p v s x) (hok : FileOk R x) {u : Uio} (hu : u.Ok) {len : Nat}
  (hlen : u.offset % blockSize + len ≤ blockSize) (hresid : len ≤ u.resid)
  {Q : Uio → State → Prop} {E : Stop Errno Panic → State → Prop}
include hm h hok hu hlen hresid

theorem wp_partialio_look (hrw : u.rw = .read) (hoff : u.offset < 0x100000000)
    (hQ : ∀ rest t, afterReads (x.blockReads (fileblockOf u.offset)) c.faults = some rest →
      Focus (c.withFaults rest) p v t x → Q (u.advance (bytesFrom x.byteAt u.offset len)) t)
    (hE : maxFile ≤ u.offset → E (.err .EFBIG) s)
    (hfail : ∀ rest t, rest <:+ c.faults → afterReads (x.blockReads (fileblockOf u.offset)) c.faults = none →
      Focus (c.withFaults rest) p v t x → E (.err Errno.EIO) t) :
    wp (sfsPartialio p u (u.offset % blockSize) len) Q E s := by
  have hfb : fileblockOf u.offset = u.offset / blockSize := fileblockOf_eq (by omega)
  -- The move out of the buffer, once the block is there.
  have hmove : ∀ rest t d b, afterReads (x.blockReads (fileblockOf u.offset)) c.faults = some rest →
      Focus (c.withFaults rest) p v t x → t.iobuf = d →
      slice d (u.offset % blockSize) len = bytesFrom x.byteAt u.offset len →
      wp (partialMove u (u.offset % blockSize) len b) Q E t := by
    intro rest t d b hreads ht hbuf hslice
    simp only [partialMove, wp_bind, wp_read]
    refine wp_uiomove_read hrw hu (by rwa [length_slice]) ?_
    simp only [wp_modify, Uio.advance_rw, hrw, wp_pure, hbuf, hslice]
    exact hQ rest _ hreads (ht.buffers rfl)
  simp only [sfsPartialio, wp_bind, wp_assert, hlen, decide_true, if_true, hrw, reduceCtorEq,
    decide_false]
  cases hr : placeOf (fileblockOf u.offset) with
  | none => exact (wp_bmap_big hr).mpr (hE (Nat.le_trans (maxFile_le hr) (wrapOf_le _)))
  | some r =>
    have hreads : afterReads (x.blockReads (fileblockOf u.offset)) c.faults =
        (afterReads (x.inode.mapReads r) c.faults).bind (afterReads (if x.blockAt r = 0 then 0 else 1)) := by
      simp only [FileState.blockReads, hr]
      exact afterReads_add _ _ _
    refine wp_bmap_look hm h hok hr (fun rest t hmap ht => ?_) fun rest t hrest hmap ht => ?_
    · rw [hmap, Option.bind_some] at hreads
      rw [hfb] at hr
      simp only [wp_ite]
      split
      · rename_i h0
        simp only [wp_bind, wp_modify]
        rw [if_pos h0] at hreads
        exact hmove rest _ _ _ hreads (ht.buffers rfl) rfl (slice_zeros hr h0 hlen)
      · rename_i h0
        rw [if_neg h0, afterReads_one] at hreads
        simp only [wp_bind]
        refine wp_rblock_any ht (hm.withFaults rest) (hm.lt_nblocks hok h0) (fun rest' t' hread ht' _ => ?_)
          fun t' hread ht' =>
            hfail _ t' ((List.drop_suffix 11 _).trans (afterReads_suffix hmap)) (hreads.trans hread) ht'
        simp only [wp_modify]
        exact hmove rest' _ _ _ (hreads.trans hread) (ht'.buffers rfl) rfl (slice_eq_bytesFrom _ _ hr h0 hlen)
    · rw [hmap, Option.bind_none] at hreads
      exact hfail rest t hrest hreads ht

theorem wpAlong_partialio {k : State → State → Prop} (hdone : Spares k (c.faults = [])) (hrw : u.rw = .write)
    (hN : ∀ r, Needs (fileblockOf u.offset) r → N r)
    (hQ : ∀ rest t x', rest <:+ c.faults → Focus (c.withFaults rest) p v t x' →
      Written R N x u.offset (u.iov.take len) x' → Q (u.advance (u.iov.take len)) t)
    (hE : ∀ e rest t x', rest <:+ c.faults → Focus (c.withFaults rest) p v t x' → Mapped R N x x' →
      WriteFails c N x' u.offset e → E (.err e) t) :
    wpAlong k (sfsPartialio p u (u.offset % blockSize) len) Q E s := by
  have htake : (u.iov.take len).length = len := by
    rw [List.length_take]
    exact Nat.min_eq_left (Nat.le_trans hresid hu)
  simp only [sfsPartialio, wpAlong_bind, wpAlong_assert, hlen, decide_true, if_true, hrw]
  cases hr : placeOf (fileblockOf u.offset) with
  | none =>
    exact ((wp_bmap_big hr).mpr (hE _ c.faults s x List.suffix_rfl h (.refl hok) (.inl ⟨rfl, maxFile_le hr⟩))).along
  | some r =>
    refine wpAlong_bmap hm h hok hr hN (hdone.imp fun hnil => by rw [hnil]; exact allocDone_nil x r) ?_ ?_
    · intro rest t x' hrest ht hx' h0
      have hlt := hm.lt_nblocks hx'.step.ok h0
      simp only [h0, if_false, wpAlong_bind]
      refine (wp_rblock_any ht (hm.withFaults rest) hlt (fun rest' t' hread ht' _ => ?_) fun t' hread ht' => ?_).along
      · have hrest' : rest' <:+ c.faults := (afterRead_suffix hread).trans hrest
        simp only [wpAlong_modify, partialMove, wpAlong_bind, wpAlong_read]
        intro _
        refine (wp_uiomove_write hrw hu (by rwa [length_slice]) ?_).along
        simp only [Uio.advance_rw, hrw, length_slice, wpAlong_bind, wpAlong_pure]
        intro _
        have hdone' : Spares k (Done rest') := hdone.imp fun hnil => by
          rw [hnil] at hrest'
          rw [List.suffix_nil.mp hrest']
          decide
        refine wpAlong_wblock (ht'.buffers ?_) (hm.withFaults rest') hlt hdone'
          (splice (x'.disk (x'.blockAt r)) (u.offset % blockSize) (u.iov.take len)) ?_ ?_
        · rfl
        · intro t'' hsame
          exact hsame.iobuf
        · intro t'' ht'' _
          refine hQ _ t'' _ ((List.tail_suffix _).trans hrest') ht'' ?_
          have hlen' : wrapOf u.offset % blockSize + (u.iov.take len).length ≤ blockSize := by
            rwa [wrapOf_mod, htake]
          refine hx'.stored hr (by rwa [htake]) h0 ?_
          rw [← wrapOf_mod, hx'.step.ok.splice (by rwa [wrapOf_div]) h0 hlen', hx'.bytes]
      · refine hE _ _ t' x' ((List.drop_suffix 11 _).trans hrest) ht' hx' (.inr (.inr ⟨rfl, fun hnil => ?_⟩))
        rw [hnil] at hrest
        rw [show (c.withFaults rest).faults = [] from List.suffix_nil.mp hrest] at hread
        cases hread
    · intro e rest t x' hrest ht hx' hfails
      exact hE e rest t x' hrest ht hx' (.inr hfails)

end Partialio

section Working

variable (hw : Working R c) (h : Focus c p v s x) (hok : FileOk R x) {u : Uio} (hu : u.Ok) {len : Nat}
  (hlen : u.offset % blockSize + len ≤ blockSize) (hresid : len ≤ u.resid)
  {Q : Uio → State → Prop} {E : Stop Errno Panic → State → Prop}
include hw h hok hu hlen hresid

theorem wp_partialio_read (hrw : u.rw = .read) (hoff : u.offset < 0x100000000)
    (hQ : ∀ t, Focus c p v t x → Q (u.advance (bytesFrom x.byteAt u.offset len)) t)
    (hE : maxFile ≤ u.offset → E (.err .EFBIG) s) :
    wp (sfsPartialio p u (u.offset % blockSize) len) Q E s := by
  refine wp_partialio_look hw.mounted h hok hu hlen hresid hrw hoff (fun rest t hreads ht => ?_) hE
    fun _ _ _ hreads _ => ?_
  · rw [hw.withFaults (afterReads_suffix hreads)] at ht
    exact hQ t ht
  · rw [hw.faults, afterReads_nil] at hreads
    cases hreads

theorem wp_partialio_write (hrw : u.rw = .write) (hN : ∀ r, Needs (fileblockOf u.offset) r → N r)
    (hQ : ∀ t x', Focus c p v t x' → Written R N x u.offset (u.iov.take len) x' →
      Q (u.advance (u.iov.take len)) t)
    (hE : ∀ e t x', Focus c p v t x' → Mapped R N x x' →
      (e = .EFBIG ∧ maxFile ≤ wrapOf u.offset ∨ e = .ENOSPC ∧ Full c N x') → E (.err e) t) :
    wp (sfsPartialio p u (u.offset % blockSize) len) Q E s := by
  refine (wpAlong_partialio hw.mounted h hok hu hlen hresid (.inr hw.faults) hrw hN
    (fun rest t x' hrest ht => ?_) fun e rest t x' hrest ht hx' hfails => ?_).wp
  · rw [hw.withFaults hrest] at ht
    exact hQ t x' ht
  · rw [hw.withFaults hrest] at ht
    rcases hfails with hbig | hfull | ⟨-, hnil⟩
    · exact hE e t x' ht hx' (.inl hbig)
    · exact hE e t x' ht hx' (.inr hfull)
    · exact absurd hw.faults hnil

end Working

/-! ## `sfs_blockio` -/

theorem wp_uiomovezeros {E : Stop Errno Panic → State → Prop} (n : Nat) :
    ∀ {u : Uio} {Q : Uio → State → Prop}, u.rw = .read → u.Ok → n ≤ u.resid →
      Q (u.advance (List.replicate n 0)) s → wp (uiomovezeros n u) Q E s := by
  induction n using Nat.strongRecOn with
  | ind n ih =>
    intro u Q hrw hu hle hQ
    unfold uiomovezeros
    simp only [wp_ite, wp_pure, wp_bind]
    split
    · rename_i h0
      subst h0
      simpa using hQ
    · rename_i h0
      refine wp_uiomove_read hrw hu (by rw [List.length_replicate]; omega) ?_
      refine ih _ (by omega) hrw (hu.advance _) ?_ ?_
      · rw [Uio.advance_resid, List.length_replicate]
        omega
      · rw [Uio.advance_append, List.replicate_append_replicate, Nat.add_sub_cancel' (Nat.min_le_right _ _)]
        exact hQ

theorem splice_full {b b' : Block} {data : List UInt8} (hlen : data.length = 512) :
    splice b 0 data = splice b' 0 data := by
  funext k
  rw [splice_of_mem (Nat.zero_le _) (by omega), splice_of_mem (Nat.zero_le _) (by omega)]

theorem Working.sector_eq (hw : Working R c) {b : Blk} (hb : b < c.nblocks) :
    UInt32.ofNat (b.toNat * blockSize % 0x100000000 / blockSize) = b := by
  have hlt : b.toNat < c.nblocks.toNat := UInt32.lt_iff_toNat_lt.mp hb
  have hle := hw.small
  have heq : b.toNat * blockSize % 0x100000000 / blockSize = b.toNat := by
    simp only [blockSize]
    omega
  rw [heq, UInt32.ofNat_toNat]

theorem bytesFrom_hole {len : Nat} (hr : placeOf (off / blockSize) = some r)
    (h0 : x.blockAt r = 0) (hlen : off % blockSize + len ≤ blockSize) :
    bytesFrom x.byteAt off len = List.replicate len 0 := by
  rw [← slice_zeros hr h0 hlen]
  refine List.eq_replicate_iff.mpr ⟨length_slice .., fun b hb => ?_⟩
  obtain ⟨i, -, rfl⟩ := List.mem_map.mp hb
  simp [zeros]

section Blockio

attribute [local irreducible] slice

variable (hw : Working R c) (h : Focus c p v s x) (hok : FileOk R x) {u : Uio} (hu : u.Ok)
  (haligned : u.offset % blockSize = 0) (hresid : blockSize ≤ u.resid)
  {Q : Uio → State → Prop} {E : Stop Errno Panic → State → Prop}
include hw h hok hu haligned hresid

theorem wp_blockio_read (hrw : u.rw = .read) (hoff : u.offset < 0x100000000)
    (hQ : ∀ t, Focus c p v t x → Q (u.advance (bytesFrom x.byteAt u.offset blockSize)) t)
    (hE : maxFile ≤ u.offset → E (.err .EFBIG) s) : wp (sfsBlockio p u) Q E s := by
  have hfb : fileblockOf u.offset = u.offset / blockSize := fileblockOf_eq (by omega)
  have hlen : u.offset % blockSize + blockSize ≤ blockSize := by omega
  simp only [sfsBlockio, wp_bind, hrw, reduceCtorEq, decide_false]
  cases hr : placeOf (fileblockOf u.offset) with
  | none => exact (wp_bmap_big hr).mpr (hE (Nat.le_trans (maxFile_le hr) (wrapOf_le _)))
  | some r =>
    refine wp_bmap_read hw h hok hr fun t ht => ?_
    rw [hfb] at hr
    simp only [wp_ite]
    split
    · rename_i h0
      simp only [wp_bind, wp_assert, decide_true, if_true]
      refine wp_uiomovezeros blockSize hrw hu hresid ?_
      rw [← bytesFrom_hole hr h0 hlen]
      exact hQ t ht
    · rename_i h0
      have hlt := hw.mounted.lt_nblocks hok h0
      simp only [blockMove, wp_bind, wp_assert, hresid, decide_true, if_true, hrw, hw.sector_eq hlt]
      simp only [blockRead, wp_bind]
      refine wp_rblock ht hw hlt fun t' ht' _ => ?_
      have hslice := slice_eq_bytesFrom _ _ hr h0 hlen
      rw [haligned] at hslice
      refine wp_uiomoveWindow_read hrw (Nat.le_trans hresid hu) (length_slice ..) ?_
      rw [hslice]
      exact hQ t' ht'

theorem wp_blockio_write (hrw : u.rw = .write) (hN : ∀ r, Needs (fileblockOf u.offset) r → N r)
    (hQ : ∀ t x', Focus c p v t x' → Written R N x u.offset (u.iov.take blockSize) x' →
      Q (u.advance (u.iov.take blockSize)) t)
    (hE : ∀ e t x', Focus c p v t x' → Mapped R N x x' →
      (e = .EFBIG ∧ maxFile ≤ wrapOf u.offset ∨ e = .ENOSPC ∧ Full c N x') → E (.err e) t) :
    wp (sfsBlockio p u) Q E s := by
  have htake : (u.iov.take blockSize).length = blockSize := by
    rw [List.length_take]
    exact Nat.min_eq_left (Nat.le_trans hresid hu)
  simp only [sfsBlockio, wp_bind, hrw, decide_true]
  cases hr : placeOf (fileblockOf u.offset) with
  | none => exact (wp_bmap_big hr).mpr (hE _ _ x h (.refl hok) (.inl ⟨rfl, maxFile_le hr⟩))
  | some r =>
    refine wp_bmap_write hw h hok hr hN ?_ ?_
    · intro t x' ht hx' h0
      have hlt := hw.mounted.lt_nblocks hx'.step.ok h0
      simp only [h0, if_false, blockMove, wp_bind, wp_assert, hresid, decide_true, if_true, hrw,
        hw.sector_eq hlt]
      simp only [blockWrite, wp_bind]
      refine wp_uiomoveWindow_write hrw (Nat.le_trans hresid hu) (length_slice ..) ?_
      simp only [wp_pure]
      refine wp_wblock ht hw hlt (splice (x'.disk (x'.blockAt r)) (u.offset % blockSize)
        (u.iov.take blockSize)) ?_ ?_
      · intro _ _
        rw [haligned]
        exact splice_full htake
      · intro t' ht' _
        refine hQ t' _ ht' ?_
        have hlen' : wrapOf u.offset % blockSize + (u.iov.take blockSize).length ≤ blockSize := by
          rw [wrapOf_mod, htake]
          omega
        refine hx'.stored hr (by rw [htake]; omega) h0 ?_
        rw [← wrapOf_mod, hx'.step.ok.splice (by rwa [wrapOf_div]) h0 hlen', hx'.bytes]
    · intro t x' ht hx' hfull
      exact hE _ t x' ht hx' (.inr ⟨rfl, hfull⟩)

end Blockio

end Os161.Sfs

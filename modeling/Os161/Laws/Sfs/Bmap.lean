import Os161.Laws.Sfs.FileState

/-!
# Block mapping

`sfs_bmap` hands back the block of the file at a place. When it is asked to allocate, it is a step of the
file that does not change what the file reads as; it fails only when every block is taken.
-/

namespace Os161.Sfs

open Os161.Lib Prog Errno

variable {b : Blk} {fb : Nat} {j : Fin 128}

/-- The device does not fail and is large enough, the volume is one that `mksfs` can make, and blocks past
its end are nobody's. -/
structure Working (R : Blk → Prop) (c : Core) : Prop where
  faults : c.faults = []
  device : c.nblocks.toNat ≤ c.dBlocks
  small : c.nblocks.toNat ≤ 131072
  outside : ∀ b, c.nblocks ≤ b → R b

/-- The device is large enough, and blocks past the end of the volume are nobody's. It may fail. -/
structure Mounted (R : Blk → Prop) (c : Core) : Prop where
  device : c.nblocks.toNat ≤ c.dBlocks
  outside : ∀ b, c.nblocks ≤ b → R b

theorem Working.mounted {R : Blk → Prop} {c : Core} (hw : Working R c) : Mounted R c := ⟨hw.device, hw.outside⟩

/-- The volume on a device with other faults to come. -/
def Core.withFaults (c : Core) (faults : List Bool) : Core := { c with faults := faults }

/-- The volume on a device that does not fail any more. -/
def Core.calm (c : Core) : Core := c.withFaults []

theorem Core.calm_eq {c : Core} (h : c.faults = []) : c.calm = c := by
  rw [Core.calm, Core.withFaults, ← h]

theorem Mounted.withFaults {R : Blk → Prop} {c : Core} (hm : Mounted R c) (faults : List Bool) :
    Mounted R (c.withFaults faults) := ⟨hm.device, hm.outside⟩

/-- The state is the volume `c` with the file as `x` has it, whatever is in the buffers. -/
def Focus (c : Core) (p : Ptr) (v : Vnode) (s : State) (x : FileState) : Prop :=
  s.toCore = c.withFile p v x

variable {R : Blk → Prop} {c : Core} {p : Ptr} {v : Vnode} {s : State} {x : FileState}

namespace Focus

variable (h : Focus c p v s x)
include h

theorem disk : s.disk = x.disk :=
  congrArg Core.disk (show s.toCore = c.withFile p v x from h)

theorem freemap : s.freemap = x.freemap :=
  congrArg Core.freemap (show s.toCore = c.withFile p v x from h)

theorem nblocks : s.nblocks = c.nblocks :=
  (congrArg Core.nblocks (show s.toCore = c.withFile p v x from h)).trans rfl

theorem dBlocks : s.dBlocks = c.dBlocks :=
  (congrArg Core.dBlocks (show s.toCore = c.withFile p v x from h)).trans rfl

theorem faults : s.faults = c.faults :=
  (congrArg Core.faults (show s.toCore = c.withFile p v x from h)).trans rfl

theorem vnode : s.vnodes p = some { v with inode := x.inode, dirty := x.dirty } := by
  have : s.vnodes = (c.withFile p v x).vnodes := congrArg Core.vnodes h
  rw [this]
  exact Function.update_self ..

theorem buffers {t : State} (ht : t.toCore = s.toCore) : Focus c p v t x := ht.trans h

end Focus

/-- The static buffers are as they were. -/
structure SameBuffers (s t : State) : Prop where
  bmapIdbuf : t.bmapIdbuf = s.bmapIdbuf
  truncIdbuf : t.truncIdbuf = s.truncIdbuf
  iobuf : t.iobuf = s.iobuf

section Rules

variable {E : Stop Errno Panic → State → Prop} (h : Focus c p v s x)
include h

variable {src : State → Block}

theorem wp_vnode {Q : Vnode → State → Prop} :
    wp (vnode p) Q E s ↔ Q { v with inode := x.inode, dirty := x.dirty } s := by
  simp only [Sfs.vnode, wp_bind, wp_read, h.vnode, wp_pure]

theorem wpAlong_vnode {r : State → State → Prop} {Q : Vnode → State → Prop} :
    wpAlong r (vnode p) Q E s ↔ Q { v with inode := x.inode, dirty := x.dirty } s := by
  simp only [Sfs.vnode, wpAlong_bind, wpAlong_read, h.vnode, wpAlong_pure]

theorem wp_setInode {Q : Unit → State → Prop} (f : Inode → Inode)
    (hQ : ∀ t, Focus c p v t { x with inode := f x.inode, dirty := true } → SameBuffers s t → Q () t) :
    wp (setInode p f) Q E s := by
  refine hQ _ ?_ ⟨rfl, rfl, rfl⟩
  have hvnode := h.vnode
  unfold Focus at *
  show { s.toCore with
    vnodes := Function.update s.vnodes p ((s.vnodes p).map fun v : Vnode =>
      { v with inode := f v.inode, dirty := true }) } = _
  rw [hvnode, h]
  simp [Core.withFile]

theorem Mounted.on_device (hm : Mounted R c) (hb : b < c.nblocks) : b.toNat < s.dBlocks := by
  rw [h.dBlocks]
  exact Nat.lt_of_lt_of_le (UInt32.lt_iff_toNat_lt.mp hb) hm.device

theorem wp_rblock_any (hm : Mounted R c) {Q : Block → State → Prop} (hb : b < c.nblocks)
    (hQ : ∀ rest t, afterRead 11 c.faults = some rest → Focus (c.withFaults rest) p v t x → SameBuffers s t →
      Q (x.disk b) t)
    (hE : ∀ t, afterRead 11 c.faults = none → Focus (c.withFaults (c.faults.drop 11)) p v t x → E (.err EIO) t) :
    wp (sfsRblock b) Q E s := by
  have hfocus : ∀ rest, Focus (c.withFaults rest) p v { s with faults := rest, lhBusy := false } x := by
    intro rest
    show { s.toCore with faults := rest } = _
    rw [show s.toCore = _ from h]
    rfl
  rw [← h.disk] at hQ
  rw [sfsRblock, wp_rblockTries 10 (hm.on_device h hb), h.faults]
  cases hread : afterRead 11 c.faults with
  | some rest => exact hQ rest _ hread (hfocus rest) ⟨rfl, rfl, rfl⟩
  | none => exact hE _ hread (hfocus _)

theorem wp_wblock_any (hm : Mounted R c) {Q : Unit → State → Prop} (hb : b < c.nblocks) (data : Block) (hsrc : ∀ t, SameBuffers s t → src t = data)
    (hQ : ∀ t, Done c.faults →
      Focus (c.withFaults c.faults.tail) p v t { x with disk := Function.update x.disk b data } →
      SameBuffers s t → Q () t)
    (hlost : ∀ t, ¬ Done c.faults → Focus (c.withFaults c.faults.tail) p v t x → SameBuffers s t → Q () t) :
    wp (sfsWblock src b) Q E s := by
  have hdata : src { s with lhBusy := true } = data := hsrc _ ⟨rfl, rfl, rfl⟩
  rw [wp_sfsWblock_any (hm.on_device h hb), hdata, h.faults]
  split
  · rename_i hdone
    refine hQ _ hdone ?_ ⟨rfl, rfl, rfl⟩
    show { s.toCore with disk := Function.update s.disk b data, faults := c.faults.tail } = _
    rw [h.disk, show s.toCore = _ from h]
    rfl
  · rename_i hdone
    refine hlost _ hdone ?_ ⟨rfl, rfl, rfl⟩
    show { s.toCore with faults := c.faults.tail } = _
    rw [show s.toCore = _ from h]
    rfl

theorem wpAlong_wblock {r : State → State → Prop} (hm : Mounted R c) {Q : Unit → State → Prop}
    (hb : b < c.nblocks) (hdone : Spares r (Done c.faults)) (data : Block)
    (hsrc : ∀ t, SameBuffers s t → src t = data)
    (hQ : ∀ t, Focus (c.withFaults c.faults.tail) p v t { x with disk := Function.update x.disk b data } →
      SameBuffers s t → Q () t) :
    wpAlong r (sfsWblock src b) Q E s := by
  have hdata : src { s with lhBusy := true } = data := hsrc _ ⟨rfl, rfl, rfl⟩
  refine wpAlong_sfsWblock (hm.on_device h hb) (by rwa [h.faults]) src fun _ => hQ _ ?_ ⟨rfl, rfl, rfl⟩
  rw [hdata]
  show { s.toCore with disk := Function.update s.disk b data, faults := s.faults.tail } = _
  rw [h.disk, h.faults, show s.toCore = _ from h]
  rfl

variable (hw : Working R c)
include hw

theorem wp_rblock {Q : Block → State → Prop} (hb : b < c.nblocks)
    (hQ : ∀ t, Focus c p v t x → SameBuffers s t → Q (x.disk b) t) : wp (sfsRblock b) Q E s := by
  rw [wp_sfsRblock (h.faults.trans hw.faults) (hw.mounted.on_device h hb), h.disk]
  exact hQ _ (h.buffers rfl) ⟨rfl, rfl, rfl⟩

theorem wp_wblock {Q : Unit → State → Prop} (hb : b < c.nblocks)
    (data : Block) (hsrc : ∀ t, SameBuffers s t → src t = data)
    (hQ : ∀ t, Focus c p v t { x with disk := Function.update x.disk b data } → SameBuffers s t → Q () t) :
    wp (sfsWblock src b) Q E s := by
  have hdata : src { s with lhBusy := true } = data := hsrc _ ⟨rfl, rfl, rfl⟩
  rw [wp_sfsWblock (h.faults.trans hw.faults) (hw.mounted.on_device h hb), hdata, h.disk]
  refine hQ _ ?_ ⟨rfl, rfl, rfl⟩
  unfold Focus at *
  show { s.toCore with disk := Function.update x.disk b data } = _
  rw [h]
  rfl

end Rules

theorem sfsBmap_eq (p : Ptr) (fb : Nat) (doalloc : Bool) :
    sfsBmap p fb doalloc = match placeOf fb with
      | some (.direct k) => bmapDirect p k doalloc
      | some .indirect => .err .EFBIG
      | some (.entry j) => bmapIndirect p j doalloc
      | none => .err .EFBIG := by
  unfold sfsBmap placeOf
  by_cases hlt : fb < ndirect
  · simp only [hlt, dite_true]
  · simp only [hlt, dite_false]
    by_cases hlt' : fb - ndirect < dbperidb
    · simp only [Nat.div_eq_of_lt hlt', Nat.mod_eq_of_lt hlt', gt_iff_lt, Nat.lt_irrefl, dite_false,
        hlt', dite_true]
    · have hdiv : (fb - ndirect) / dbperidb > 0 := Nat.div_pos (Nat.le_of_not_lt hlt') (by decide)
      simp only [hdiv, dite_true, hlt', dite_false]

theorem le_of_placeOf_entry (h : placeOf fb = some (.entry j)) :
    ndirect ≤ fb := by
  by_contra hlt
  simp only [placeOf, Nat.lt_of_not_le hlt, dite_true, Option.some.injEq, reduceCtorEq] at h

section Bmap

variable (hm : Mounted R c) (h : Focus c p v s x) (hok : FileOk R x)
variable {x' : FileState}

section

include hm hok

theorem Mounted.lt_nblocks {r : Place} (h0 : x.blockAt r ≠ 0) : x.blockAt r < c.nblocks := by
  by_contra hle
  exact hok.apart r h0 (hm.outside _ (UInt32.not_lt.mp hle))

theorem Mounted.free_lt (hb : x.freemap b = false) : b < c.nblocks := by
  by_contra hle
  exact hok.not_others hb (hm.outside _ (UInt32.not_lt.mp hle))

end

/-- The places that a file block has to have: its own, and that of the indirect block. -/
def Needs (fb : Nat) (r : Place) : Prop := placeOf fb = some r ∨ r = .indirect ∧ ndirect ≤ fb

/-- A step that maps blocks at places of `N` changes nothing of what the file reads as. -/
structure Mapped (R : Blk → Prop) (N : Place → Prop) (x x' : FileState) : Prop where
  step : FileStep R x x'
  bytes : x'.byteAt = x.byteAt
  size : x'.inode.size = x.inode.size
  new : ∀ r, x'.blockAt r ≠ 0 → x.blockAt r ≠ 0 ∨ N r
  kept : ∀ r, x.blockAt r ≠ 0 → x'.blockAt r = x.blockAt r

variable {N : Place → Prop}

theorem Mapped.refl (hok : FileOk R x) : Mapped R N x x :=
  ⟨.refl hok, rfl, rfl, fun _ h => .inl h, fun _ _ => rfl⟩

theorem Mapped.trans {y : FileState} (h : Mapped R N x y) (h' : Mapped R N y x') : Mapped R N x x' := by
  refine ⟨h.step.trans h'.step, h'.bytes.trans h.bytes, h'.size.trans h.size, fun r hr => ?_, fun r hr => ?_⟩
  · rcases h'.new r hr with hy | hN
    · exact h.new r hy
    · exact .inr hN
  · have hy := h.kept r hr
    exact (h'.kept r (by rwa [hy])).trans hy

/-- Every block of the volume is taken, and the file has none at some place of `N`. -/
def Full (c : Core) (N : Place → Prop) (x : FileState) : Prop :=
  (∀ b, b < c.nblocks → x.freemap b = true) ∧ ∃ q, N q ∧ x.blockAt q = 0

theorem Mapped.single {r : Place} (hstep : FileStep R x x')
    (hbytes : x'.byteAt = x.byteAt) (hsize : x'.inode.size = x.inode.size)
    (hat : x'.blockAt = Function.update x.blockAt r b) (hN : N r) (h0 : x.blockAt r = 0) : Mapped R N x x' := by
  refine ⟨hstep, hbytes, hsize, fun q hq => ?_, fun q hq => ?_⟩
  · by_cases hqr : q = r
    · exact .inr (hqr ▸ hN)
    · rw [hat, Function.update_of_ne hqr] at hq
      exact .inl hq
  · have hqr : q ≠ r := by
      rintro rfl
      exact hq h0
    rw [hat, Function.update_of_ne hqr]

variable {Q : Blk → State → Prop} {E : Stop Errno Panic → State → Prop} {r : State → State → Prop}

section

include hm h hok

theorem wpAlong_sfsBalloc (hdone : Spares r (Done c.faults))
    (hQ : ∀ b t, x.freemap b = false →
      Focus (c.withFaults c.faults.tail) p v t
        { x with
          disk := Function.update x.disk b zeros
          freemap := Function.update x.freemap b true
          freemapdirty := true } → SameBuffers s t → Q b t)
    (hE : (∀ b, b < c.nblocks → x.freemap b = true) → E (.err .ENOSPC) s) :
    wpAlong r sfsBalloc Q E s := by
  simp only [sfsBalloc, wpAlong_bind, wpAlong_read]
  cases hfree : s.firstFree with
  | none =>
    refine (wpAlong_err _).mpr (hE fun b hb => ?_)
    rw [← h.freemap]
    exact firstFree_none hfree (lt_nbits (by rwa [h.nblocks]))
  | some b =>
    have hb : x.freemap b = false := by
      rw [← h.freemap]
      exact firstFree_some hfree
    have hlt := hm.free_lt hok hb
    have hdev := hm.on_device h hlt
    have hnot : ¬ s.nblocks ≤ b := by
      rw [h.nblocks]
      exact UInt32.not_le.mpr hlt
    simp only [wpAlong_bind, wpAlong_modify, hnot, if_false, wpAlong_pure, sfsClearblock]
    intro _
    refine wpAlong_sfsWblock (s := { s with freemap := Function.update s.freemap b true, freemapdirty := true })
      hdev (by rwa [← h.faults] at hdone) _ fun _ => hQ b _ hb ?_ ⟨rfl, rfl, rfl⟩
    show { s.toCore with
      disk := Function.update s.disk b zeros
      freemap := Function.update s.freemap b true
      freemapdirty := true
      faults := s.faults.tail } = _
    rw [show s.toCore = _ from h]
    rfl

theorem wp_handBack (q : Place) (hb : x.blockAt q = b) (hQ : Q b s) :
    wp (handBack b) Q E s := by
  simp only [handBack, wp_ite]
  split
  · exact hQ
  · rename_i h0
    rw [← hb] at h0
    have hlt := hm.lt_nblocks hok h0
    have hnot : ¬ s.nblocks ≤ b := by
      rw [h.nblocks, ← hb]
      exact UInt32.not_le.mpr hlt
    have hmark : s.freemap b = true := by
      rw [h.freemap, ← hb]
      exact hok.held_marked q h0
    simp only [sfsBused, wp_bind, wp_read, hnot, if_false, wp_pure, hmark, if_true]
    exact hQ

end

/-! ## With allocation

The device may fail to read the indirect block; that it does not lose the writes of new blocks is a condition on its
next faults. -/

/-- How `sfs_bmap` fails: no block is left, or the device does not read the indirect block. -/
def BmapFails (c : Core) (N : Place → Prop) (x : FileState) (e : Errno) : Prop :=
  e = .ENOSPC ∧ Full c N x ∨ e = ( EIO : Errno) ∧ c.faults ≠ []

/-- The device does not lose a write of a block that is allocated for a place. -/
def AllocDone (x : FileState) (faults : List Bool) : Place → Prop
  | .direct k => x.blockAt (.direct k) = 0 → Done faults
  | .indirect => True
  | .entry j =>
    if x.inode.indirect = 0 then Done faults ∧ Done faults.tail ∧ Done faults.tail.tail
    else x.blockAt (.entry j) = 0 → ∀ rest, afterRead 11 faults = some rest → Done rest ∧ Done rest.tail

theorem allocDone_nil (x : FileState) (r : Place) : AllocDone x [] r := by
  have hdone : Done [] := by decide
  cases r with
  | direct k => exact fun _ => hdone
  | indirect => exact trivial
  | entry j =>
    simp only [AllocDone]
    split
    · exact ⟨hdone, hdone, hdone⟩
    · intro _ rest hread
      cases hread
      exact ⟨hdone, hdone⟩

section

include hm h hok

variable {q : Place}

theorem wpAlong_bmapDirect {k : Fin 15} (hN : N (.direct k))
    (hdone : Spares r (x.blockAt (.direct k) = 0 → Done c.faults))
    (hQ : ∀ rest t x', rest <:+ c.faults → Focus (c.withFaults rest) p v t x' → Mapped R N x x' →
      x'.blockAt (.direct k) ≠ 0 → Q (x'.blockAt (.direct k)) t)
    (hE : Full c N x → E (.err .ENOSPC) s) :
    wpAlong r (bmapDirect p k true) Q E s := by
  simp only [bmapDirect, wpAlong_bind]
  rw [wpAlong_vnode h]
  simp only [and_true, wpAlong_ite, wpAlong_bind]
  split
  · rename_i h0
    refine wpAlong_sfsBalloc hm h hok (hdone.imp fun hdone => hdone h0) ?_ fun hfull => hE ⟨hfull, .direct k, hN, h0⟩
    intro b t hb ht _
    refine (wp_setInode ht _ fun t' ht' _ => ?_).along
    obtain ⟨hstep, hbytes, hat⟩ := hok.allocDirect hb h0
    have hself := congrFun hat (.direct k)
    rw [Function.update_self] at hself
    refine (wp_handBack (hm.withFaults _) ht' hstep.ok (.direct k) hself ?_).along
    rw [← hself]
    exact hQ _ t' _ (List.tail_suffix _) ht' (.single hstep hbytes rfl hat hN h0)
      (by rw [hself]; exact hok.ne_null hb)
  · rename_i h0
    exact (wp_handBack hm h hok (.direct k) rfl (hQ c.faults s x List.suffix_rfl h (.refl hok) h0)).along

theorem wpAlong_bmapEntry (hN : N (.entry j)) (hi : x.inode.indirect ≠ 0)
    (hdone : Spares r (x.blockAt (.entry j) = 0 → Done c.faults ∧ Done c.faults.tail))
    (hbuf : s.bmapIdbuf = words (x.disk x.inode.indirect))
    (hQ : ∀ rest t x', rest <:+ c.faults → Focus (c.withFaults rest) p v t x' → Mapped R N x x' →
      x'.blockAt (.entry j) ≠ 0 → Q (x'.blockAt (.entry j)) t)
    (hE : Full c N x → E (.err .ENOSPC) s) :
    wpAlong r (bmapEntry x.inode.indirect j true) Q E s := by
  have hblock : s.bmapIdbuf j = x.blockAt (.entry j) := by
    rw [hbuf]
    simp only [FileState.blockAt, Inode.blockAt, hi, if_false]
  simp only [bmapEntry, wpAlong_bind, wpAlong_read, and_true, wpAlong_ite, hblock]
  split
  · rename_i h0
    refine wpAlong_sfsBalloc hm h hok (hdone.imp fun hdone => (hdone h0).1) ?_ fun hfull => hE ⟨hfull, _, hN, h0⟩
    intro b t hb ht hsame
    simp only [wpAlong_modify]
    intro _
    refine wpAlong_wblock (ht.buffers ?_) (hm.withFaults _) (hm.lt_nblocks hok (r := .indirect) hi)
      (hdone.imp fun hdone => (hdone h0).2) (ofWords (Function.update (words (x.disk x.inode.indirect)) j b)) ?_
      fun t' ht' _ => ?_
    · rfl
    · intro t' ht'
      rw [ht'.bmapIdbuf, hsame.bmapIdbuf, hbuf]
    · obtain ⟨hstep, hbytes, hat⟩ := hok.allocEntry hb hi h0
      have hself := congrFun hat (.entry j)
      rw [Function.update_self] at hself
      refine (wp_handBack (hm.withFaults _) ht' hstep.ok (.entry j) hself ?_).along
      rw [← hself]
      exact hQ _ t' _ ((List.tail_suffix _).trans (List.tail_suffix _)) ht' (.single hstep hbytes rfl hat hN h0)
        (by rw [hself]; exact hok.ne_null hb)
  · rename_i h0
    exact (wp_handBack hm h hok (.entry j) rfl (hQ c.faults s x List.suffix_rfl h (.refl hok) h0)).along

theorem wpAlong_bmapIndirect (hN : N (.entry j)) (hN' : N .indirect)
    (hdone : Spares r (AllocDone x c.faults (.entry j)))
    (hQ : ∀ rest t x', rest <:+ c.faults → Focus (c.withFaults rest) p v t x' → Mapped R N x x' →
      x'.blockAt (.entry j) ≠ 0 → Q (x'.blockAt (.entry j)) t)
    (hE : ∀ e rest t x', rest <:+ c.faults → Focus (c.withFaults rest) p v t x' → Mapped R N x x' →
      BmapFails c N x' e → E (.err e) t) :
    wpAlong r (bmapIndirect p j true) Q E s := by
  simp only [bmapIndirect, wpAlong_bind]
  rw [wpAlong_vnode h]
  simp only [if_true, wpAlong_ite, wpAlong_bind]
  simp only [AllocDone] at hdone
  split
  · rename_i hi
    rw [if_pos hi] at hdone
    refine wpAlong_sfsBalloc hm h hok (hdone.imp And.left) ?_ fun hfull =>
      hE _ c.faults s x List.suffix_rfl h (.refl hok) (.inl ⟨rfl, hfull, .indirect, hN', hi⟩)
    intro b t hb ht _
    refine (wp_setInode ht _ fun t' ht' _ => ?_).along
    simp only [wpAlong_modify]
    intro _
    obtain ⟨hstep, hbytes, hat⟩ := hok.allocIndirect hb hi
    have hmapped : Mapped R N x _ := .single hstep hbytes rfl hat hN' hi
    refine wpAlong_bmapEntry (hm.withFaults c.faults.tail) (ht'.buffers ?_) hstep.ok hN (hok.ne_null hb)
      (hdone.imp fun hdone _ => hdone.2) ?_ ?_ ?_
    · rfl
    · simp
    · intro rest u x' hrest hu hx' h0
      exact hQ rest u x' (hrest.trans (List.tail_suffix _)) hu (hmapped.trans hx') h0
    · intro hfull
      exact hE _ c.faults.tail _ _ (List.tail_suffix _) (ht'.buffers rfl) hmapped (.inl ⟨rfl, hfull⟩)
  · rename_i hi
    rw [if_neg hi] at hdone
    refine (wp_rblock_any h hm (hm.lt_nblocks hok (r := .indirect) hi) (fun rest t hread ht _ => ?_) ?_).along
    · simp only [wpAlong_modify]
      intro _
      have hrest := afterRead_suffix hread
      refine wpAlong_bmapEntry (hm.withFaults rest) (ht.buffers ?_) hok hN hi
        (hdone.imp fun hdone h0 => hdone h0 rest hread) ?_ ?_ ?_
      · rfl
      · rfl
      · exact fun rest' u x' hrest' => hQ rest' u x' (hrest'.trans hrest)
      · exact fun hfull => hE _ rest _ x hrest (ht.buffers rfl) (.refl hok) (.inl ⟨rfl, hfull⟩)
    · intro t hread ht
      refine hE _ _ t x (List.drop_suffix 11 _) ht (.refl hok) (.inr ⟨rfl, fun hnil => ?_⟩)
      rw [hnil] at hread
      cases hread

theorem wpAlong_bmap (hq : placeOf fb = some q) (hN : ∀ q, Needs fb q → N q)
    (hdone : Spares r (AllocDone x c.faults q))
    (hQ : ∀ rest t x', rest <:+ c.faults → Focus (c.withFaults rest) p v t x' → Mapped R N x x' →
      x'.blockAt q ≠ 0 → Q (x'.blockAt q) t)
    (hE : ∀ e rest t x', rest <:+ c.faults → Focus (c.withFaults rest) p v t x' → Mapped R N x x' →
      BmapFails c N x' e → E (.err e) t) :
    wpAlong r (sfsBmap p fb true) Q E s := by
  rw [sfsBmap_eq]
  cases q with
  | direct k =>
    simp only [hq]
    exact wpAlong_bmapDirect hm h hok (hN _ (.inl hq)) hdone hQ fun hfull =>
      hE _ c.faults s x List.suffix_rfl h (.refl hok) (.inl ⟨rfl, hfull⟩)
  | indirect => exact absurd hq placeOf_ne_indirect
  | entry j =>
    simp only [hq]
    exact wpAlong_bmapIndirect hm h hok (hN _ (.inl hq)) (hN _ (.inr ⟨rfl, le_of_placeOf_entry hq⟩)) hdone hQ hE

theorem wp_bmap_any (hq : placeOf fb = some q) (hN : ∀ q, Needs fb q → N q)
    (hdone : AllocDone x c.faults q)
    (hQ : ∀ rest t x', rest <:+ c.faults → Focus (c.withFaults rest) p v t x' → Mapped R N x x' →
      x'.blockAt q ≠ 0 → Q (x'.blockAt q) t)
    (hE : ∀ e rest t x', rest <:+ c.faults → Focus (c.withFaults rest) p v t x' → Mapped R N x x' →
      BmapFails c N x' e → E (.err e) t) :
    wp (sfsBmap p fb true) Q E s :=
  (wpAlong_bmap hm h hok hq hN (.inr hdone) hQ hE).wp

end

end Bmap

/-! ## Without allocation -/

/-- The reads of `sfs_bmap` for a place: it reads the indirect block, if there is one. -/
def Inode.mapReads (n : Inode) : Place → Nat
  | .entry _ => if n.indirect = 0 then 0 else 1
  | _ => 0

section Look

variable {Q : Blk → State → Prop} {E : Stop Errno Panic → State → Prop} (hm : Mounted R c) (h : Focus c p v s x)
  (hok : FileOk R x)
include hm h hok

theorem wp_bmapIndirect_look
    (hQ : ∀ rest t, afterReads (x.inode.mapReads (.entry j)) c.faults = some rest → Focus (c.withFaults rest) p v t x →
      Q (x.blockAt (.entry j)) t)
    (hE : ∀ rest t, rest <:+ c.faults → afterReads (x.inode.mapReads (.entry j)) c.faults = none →
      Focus (c.withFaults rest) p v t x → E (.err EIO) t) :
    wp (bmapIndirect p j false) Q E s := by
  simp only [bmapIndirect, wp_bind]
  rw [wp_vnode h]
  simp only [Bool.false_eq_true, if_false, wp_ite, wp_bind, wp_pure]
  simp only [Inode.mapReads] at hQ hE
  split
  · rename_i hi
    rw [if_pos hi] at hQ
    have := hQ c.faults s rfl h
    simpa only [FileState.blockAt, Inode.blockAt, hi, if_true] using this
  · rename_i hi
    rw [if_neg hi, afterReads_one] at hQ hE
    refine wp_rblock_any h hm (hm.lt_nblocks hok (r := .indirect) hi) (fun rest t hread ht _ => ?_)
      fun t hread ht => hE _ t (List.drop_suffix 11 _) hread ht
    simp only [wp_modify, bmapEntry, wp_bind, wp_read, Bool.false_eq_true, and_false, if_false]
    have hblock : x.blockAt (.entry j) = words (x.disk x.inode.indirect) j := by
      simp only [FileState.blockAt, Inode.blockAt, hi, if_false]
    refine wp_handBack (hm.withFaults rest) (ht.buffers ?_) hok (.entry j) hblock ?_
    · rfl
    · rw [← hblock]
      exact hQ rest _ hread (ht.buffers rfl)

theorem wp_bmap_look {r : Place} (hr : placeOf fb = some r)
    (hQ : ∀ rest t, afterReads (x.inode.mapReads r) c.faults = some rest → Focus (c.withFaults rest) p v t x →
      Q (x.blockAt r) t)
    (hE : ∀ rest t, rest <:+ c.faults → afterReads (x.inode.mapReads r) c.faults = none →
      Focus (c.withFaults rest) p v t x → E (.err EIO) t) :
    wp (sfsBmap p fb false) Q E s := by
  rw [sfsBmap_eq]
  cases r with
  | direct k =>
    simp only [hr, bmapDirect, wp_bind]
    rw [wp_vnode h]
    simp only [Bool.false_eq_true, and_false, if_false]
    exact wp_handBack hm h hok (.direct k) rfl (hQ c.faults s rfl h)
  | indirect => exact absurd hr placeOf_ne_indirect
  | entry j =>
    simp only [hr]
    exact wp_bmapIndirect_look hm h hok hQ hE

end Look

/-! ## On a device that does not fail -/

section Working

variable {N : Place → Prop} {Q : Blk → State → Prop} {E : Stop Errno Panic → State → Prop} (hw : Working R c)
  (h : Focus c p v s x) (hok : FileOk R x)

section

include hw

theorem Working.withFaults {rest : List Bool} (h : rest <:+ c.faults) : c.withFaults rest = c := by
  rw [hw.faults] at h
  rw [List.suffix_nil.mp h, Core.withFaults, ← hw.faults]

theorem Working.allocDone (x : FileState) (r : Place) : AllocDone x c.faults r := by
  rw [hw.faults]
  exact allocDone_nil x r

end

include hw h hok

theorem wp_bmap_write {r : Place} (hr : placeOf fb = some r) (hN : ∀ r, Needs fb r → N r)
    (hQ : ∀ t x', Focus c p v t x' → Mapped R N x x' → x'.blockAt r ≠ 0 → Q (x'.blockAt r) t)
    (hE : ∀ t x', Focus c p v t x' → Mapped R N x x' → Full c N x' →
      E (.err .ENOSPC) t) :
    wp (sfsBmap p fb true) Q E s := by
  refine wp_bmap_any hw.mounted h hok hr hN (hw.allocDone x r) ?_ ?_
  · intro rest t x' hrest ht
    rw [hw.withFaults hrest] at ht
    exact hQ t x' ht
  · rintro e rest t x' hrest ht hx' (⟨rfl, hfull⟩ | ⟨-, hnil⟩)
    · rw [hw.withFaults hrest] at ht
      exact hE t x' ht hx' hfull
    · exact absurd hw.faults hnil

theorem wp_bmap_read {r : Place} (hr : placeOf fb = some r)
    (hQ : ∀ t, Focus c p v t x → Q (x.blockAt r) t) : wp (sfsBmap p fb false) Q E s := by
  refine wp_bmap_look hw.mounted h hok hr (fun rest t hreads ht => ?_) fun _ _ _ hreads _ => ?_
  · rw [hw.withFaults (afterReads_suffix hreads)] at ht
    exact hQ t ht
  · rw [hw.faults, afterReads_nil] at hreads
    cases hreads

end Working

theorem wp_bmap_big {Q : Blk → State → Prop} {E : Stop Errno Panic → State → Prop}
    {doalloc : Bool} (hr : placeOf fb = none) : wp (sfsBmap p fb doalloc) Q E s ↔ E (.err .EFBIG) s := by
  rw [sfsBmap_eq]
  simp only [hr, wp_err]

end Os161.Sfs

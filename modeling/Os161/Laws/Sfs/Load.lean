import Os161.Laws.Sfs.Entries
import Os161.Laws.Sfs.Pool
import Os161.Laws.Sfs.Truncate
import Os161.Sfs.Memory

/-!
# Loading and reclaiming vnodes

The functions on the vnode table, on a sound volume: `sfs_loadvnode`, `sfs_makeobj`, `sfs_lookonce`, `VOP_DECREF` with
`sfs_reclaim`. None of them panics. The callers of the file system have references to vnodes, some of them for open
files; what is said of a vnode holds as long as a caller has one.
-/

namespace Os161.Sfs

open Os161.Lib Prog

variable {x' : FileState} {i b : Blk} {Q : Unit → State → Prop} {inode : Inode} {dirty : Bool} {ops : VnodeOps}

/-! ## References -/

/-- What the callers have: references to vnodes, some of them open, each to a known inode. -/
structure Callers where
  opens : Ptr → Nat
  held : Ptr → Nat
  inos : Ptr → Blk

/-- The counts of the vnodes agree with what the callers have. A vnode may have references besides. -/
structure Refs (g : Callers) (c : Core) : Prop where
  open_eq : ∀ p v, c.vnodes p = some v → v.opencount = g.opens p
  open_le : ∀ p, g.opens p ≤ g.held p
  held_le : ∀ p v, c.vnodes p = some v → g.held p ≤ v.refcount
  there : ∀ p, c.vnodes p = none → g.held p = 0
  ino : ∀ p v, c.vnodes p = some v → 0 < g.held p → v.ino = g.inos p

/-- A sound volume with its callers. -/
structure Volume (leaked : Blk → Prop) (owed : Blk → Int) (g : Callers) (c : Core) : Prop where
  sound : Sound leaked owed c
  refs : Refs g c

/-- The other vnodes are as they were, and the volume has its size. -/
structure Beside (p : Ptr) (c c' : Core) : Prop where
  vnodes : ∀ q, q ≠ p → c'.vnodes q = c.vnodes q
  nblocks : c'.nblocks = c.nblocks

/-- Each vnode is still there. -/
def Extends (c c' : Core) : Prop := ∀ p v, c.vnodes p = some v → ∃ v', c'.vnodes p = some v' ∧ v'.ino = v.ino

variable {c c' c'' : Core} {p q : Ptr} {v w : Vnode} {g : Callers} {owed : Blk → Int} {leaked : Blk → Prop}
  {s : State} {name : CStr} {ino : Blk} {E : Stop Errno Panic → State → Prop}

theorem Extends.replace (hp : c.vnodes p = some v) (hino : w.ino = v.ino)
    (hvnodes : c'.vnodes = Function.update c.vnodes p (some w)) : Extends c c' := by
  intro q u hq
  rw [hvnodes, Function.update_apply]
  split
  · rename_i hqp
    subst hqp
    cases hp.symm.trans hq
    exact ⟨w, rfl, hino⟩
  · exact ⟨u, hq, rfl⟩

theorem Extends.withFile {y : FileState} (hp : c.vnodes p = some v) : Extends c (c.withFile p v y) :=
  .replace hp (w := { v with inode := y.inode, dirty := y.dirty }) rfl rfl

namespace Refs

variable (h : Refs g c)
include h

theorem replace (hp : c.vnodes p = some v) (hino : w.ino = v.ino) (hopen : w.opencount = v.opencount)
    (href : g.held p ≤ w.refcount) (hvnodes : c'.vnodes = Function.update c.vnodes p (some w)) : Refs g c' := by
  have hold : ∀ q u, c'.vnodes q = some u → q = p ∧ u = w ∨ c.vnodes q = some u := by
    intro q u hq
    rw [hvnodes, Function.update_apply] at hq
    split at hq
    · cases hq
      exact .inl ⟨‹_›, rfl⟩
    · exact .inr hq
  refine ⟨fun q u hq => ?_, h.open_le, fun q u hq => ?_, fun q hq => ?_, fun q u hq hheld => ?_⟩
  · rcases hold q u hq with ⟨rfl, rfl⟩ | hq
    · exact hopen.trans (h.open_eq q v hp)
    · exact h.open_eq q u hq
  · rcases hold q u hq with ⟨rfl, rfl⟩ | hq
    · exact href
    · exact h.held_le q u hq
  · rw [hvnodes, Function.update_apply] at hq
    split at hq
    · cases hq
    · exact h.there q hq
  · rcases hold q u hq with ⟨rfl, rfl⟩ | hq
    · exact hino.trans (h.ino q v hp hheld)
    · exact h.ino q u hq hheld

theorem withFile (hp : c.vnodes p = some v) : Refs g (c.withFile p v x') :=
  h.replace hp (w := { v with inode := x'.inode, dirty := x'.dirty }) rfl rfl (h.held_le p v hp) rfl

theorem add (hp : c.vnodes p = none) (hopen : w.opencount = 0)
    (hvnodes : c'.vnodes = Function.update c.vnodes p (some w)) : Refs g c' := by
  have hheld := h.there p hp
  have hopens := h.open_le p
  have hold : ∀ q u, c'.vnodes q = some u → q = p ∧ u = w ∨ c.vnodes q = some u := by
    intro q u hq
    rw [hvnodes, Function.update_apply] at hq
    split at hq
    · cases hq
      exact .inl ⟨‹_›, rfl⟩
    · exact .inr hq
  refine ⟨fun q u hq => ?_, h.open_le, fun q u hq => ?_, fun q hq => ?_, fun q u hq hpos => ?_⟩
  · rcases hold q u hq with ⟨rfl, rfl⟩ | hq
    · omega
    · exact h.open_eq q u hq
  · rcases hold q u hq with ⟨rfl, rfl⟩ | hq
    · omega
    · exact h.held_le q u hq
  · rw [hvnodes, Function.update_apply] at hq
    split at hq
    · cases hq
    · exact h.there q hq
  · rcases hold q u hq with ⟨rfl, rfl⟩ | hq
    · omega
    · exact h.ino q u hq hpos

theorem drop (hheld : g.held p = 0) (hvnodes : c'.vnodes = Function.update c.vnodes p none) : Refs g c' := by
  have hold : ∀ q u, c'.vnodes q = some u → c.vnodes q = some u := by
    intro q u hq
    rw [hvnodes, Function.update_apply] at hq
    split at hq
    · cases hq
    · exact hq
  refine ⟨fun q u hq => h.open_eq q u (hold q u hq), h.open_le, fun q u hq => h.held_le q u (hold q u hq),
    fun q hq => ?_, fun q u hq => h.ino q u (hold q u hq)⟩
  rw [hvnodes, Function.update_apply] at hq
  split at hq
  · rename_i hqp
    rw [hqp, hheld]
  · exact h.there q hq

end Refs

theorem Volume.fileStep (h : Volume leaked owed g c) (hp : c.vnodes p = some v)
    (hfile : v.ino ≠ rootLocation) (hx : FileStep (c.Others leaked v.ino) (c.file v) x') :
    Volume leaked owed g (c.withFile p v x') ∧ (c.withFile p v x').slots = c.slots :=
  have hstep := h.sound.fileStep hp hfile hx
  ⟨⟨hstep.1, h.refs.withFile hp⟩, hstep.2⟩

/-! ## Loading -/

/-- The vnodes in memory are of blocks that are in use. -/
def InUse (c : Core) : Prop := ∀ p v, c.vnodes p = some v → v.ino < c.nblocks ∧ c.freemap v.ino = true

theorem Sound.live_lt (h : Sound leaked owed c) (hi : c.Live i) : i < c.nblocks := by
  by_contra hle
  exact h.inode_not_reserved hi (.inr (.inr (UInt32.not_lt.mp hle)))

theorem Sound.inUse (h : Sound leaked owed c) : InUse c := fun _ _ hp =>
  ⟨h.live_lt (Core.live_vnode hp), h.live_marked (Core.live_vnode hp)⟩

theorem wp_bused {Q : Bool → State → Prop} (hlt : b < s.nblocks) (hQ : Q (s.freemap b) s) :
    wp (sfsBused b) Q E s := by
  simp only [sfsBused, wp_bind, wp_read, UInt32.not_le.mpr hlt, if_false, wp_pure]
  exact hQ

theorem wp_loadScan (huse : InUse s.toCore) (l : List Ptr) : ∀ {Q : Option Ptr → State → Prop},
    (∀ q ∈ l, (s.vnodes q).isSome) → (∀ q w, s.vnodes q = some w → w.ino = ino → Q (some q) s) →
    ((∀ q ∈ l, ∀ w, s.vnodes q = some w → w.ino ≠ ino) → Q none s) → wp (loadScan ino l) Q E s := by
  induction l with
  | nil =>
    intro Q _ _ hnone
    exact hnone fun _ h => by cases h
  | cons q rest ih =>
    intro Q hsome hfound hnone
    obtain ⟨w, hq⟩ := Option.isSome_iff_exists.mp (hsome q List.mem_cons_self)
    obtain ⟨hlt, hmark⟩ := huse q w hq
    simp only [loadScan, vnode, wp_bind, wp_read, hq, wp_pure]
    refine wp_bused hlt ?_
    simp only [hmark, if_true, wp_ite]
    split
    · rename_i hino
      exact hfound q w hq hino
    · rename_i hino
      refine ih (fun q hq => hsome q (List.mem_cons_of_mem _ hq)) hfound fun hrest => hnone fun r hr u hu => ?_
      rcases List.mem_cons.mp hr with rfl | hr
      · cases hq.symm.trans hu
        exact hino
      · exact hrest r hr u hu

theorem wp_setVnode {f : Vnode → Vnode} (hp : s.vnodes p = some v)
    (hQ : ∀ t, t.toCore = s.toCore.withVnode p (f v) → Q () t) : wp (setVnode p f) Q E s := by
  refine hQ _ ?_
  show { s.toCore with vnodes := Function.update s.vnodes p ((s.vnodes p).map f) } = _
  rw [hp]
  rfl

theorem Volume.recount (h : Volume leaked owed g c) (hp : c.vnodes p = some v) {n : Nat} (hn : 1 ≤ n) (hheld : g.held p ≤ n) :
    Volume leaked owed g (c.withVnode p { v with refcount := n }) ∧
      (c.withVnode p { v with refcount := n }).slots = c.slots := by
  have hrecounted : Recounted v { v with refcount := n } := ⟨rfl, rfl, rfl, rfl⟩
  obtain ⟨hsound, hslots⟩ := h.sound.withVnode hp hrecounted hn
  exact ⟨⟨hsound, h.refs.replace (w := { v with refcount := n }) hp rfl rfl hheld rfl⟩, hslots⟩

theorem Sound.opsOf_inode (h : Sound leaked owed c) (hi : c.Live i) : ∃ ops, opsOf (c.inode i).type = some ops := by
  by_cases hroot : i = rootLocation
  · subst hroot
    exact ⟨.dir, by rw [h.root.type]; rfl⟩
  · exact ⟨.file, by rw [h.file_type i hi hroot]; rfl⟩

theorem wp_rblock_calm {Q : Block → State → Prop} (h : Fits s.calm) (hb : b < s.nblocks)
    (hQ : ∀ rest t, afterRead 11 s.faults = some rest → t.toCore = s.withFaults rest → Q (s.disk b) t)
    (hE : ∀ rest t, rest <:+ s.faults → afterRead 11 s.faults = none → t.toCore = s.withFaults rest →
      E (.err Errno.EIO) t) :
    wp (sfsRblock b) Q E s := by
  rw [sfsRblock, wp_rblockTries 10 (Nat.lt_of_lt_of_le (UInt32.lt_iff_toNat_lt.mp hb) h.device)]
  cases hread : afterRead 11 s.faults with
  | some rest => exact hQ rest _ hread rfl
  | none => exact hE _ _ (List.drop_suffix 11 _) hread rfl

theorem wp_addVnode {Q : Ptr → State → Prop}
    (hops : opsOf inode.type = some ops)
    (hQ : ∀ t, t.toCore = s.toCore.addVnode ⟨1, 0, ops, ino, inode, dirty⟩ → Q s.next t) :
    wp (addVnode ino inode dirty) Q E s := by
  simp only [addVnode, hops, wp_bind, wp_read, wp_modify, wp_pure]
  exact hQ _ rfl

/-- There is not enough memory, or the device does not read the inode. -/
def LoadFails (m : Memory) (faults : List Bool) : Prop :=
  m.vnode = false ∨ m.table = false ∨ afterRead 11 faults = none

theorem not_loadFails_enough : ¬ LoadFails .enough [] := by
  simp [LoadFails, Memory.enough, afterRead]

theorem wp_addVnodeWith (m : Memory) {Q : Ptr → State → Prop}
    (hops : opsOf inode.type = some ops)
    (hQ : ∀ t, m.table = true → t.toCore = s.toCore.addVnode ⟨1, 0, ops, ino, inode, dirty⟩ → Q s.next t)
    (hE : m.table = false → E (.err .ENOMEM) s) : wp (addVnodeWith m ino inode dirty) Q E s := by
  simp only [addVnodeWith, hops, wp_ite]
  split
  · rename_i htable
    exact wp_addVnode hops fun t => hQ t htable
  · rename_i htable
    exact hE (Bool.eq_false_iff.mpr htable)

theorem wp_loadvnodeWith (m : Memory) (h : Volume leaked owed g s.calm) (hlive : s.Live ino) {Q : Ptr → State → Prop}
    (hQ : ∀ q t w, t.faults <:+ s.faults → Volume leaked owed g t.calm → t.slots = s.slots →
      Extends s.toCore t.toCore → t.vnodes q = some w → w.ino = ino → g.held q < w.refcount → Q q t)
    (hE : ∀ e t, (∀ q w, s.vnodes q = some w → w.ino ≠ ino) → LoadFails m s.faults → t.faults <:+ s.faults →
      t.calm = s.calm → E (.err e) t) :
    wp (sfsLoadvnodeWith m ino typeInval) Q E s := by
  have hsound := h.sound
  simp only [sfsLoadvnodeWith, wp_bind, wp_read]
  refine wp_loadScan hsound.inUse s.table (fun q hq => (hsound.pool.mem q).mp hq) ?_ ?_
  · intro q w hq hino
    have hle := h.refs.held_le q w hq
    simp only [wp_bind, wp_assert, decide_true, if_true, wp_pure, vopIncref]
    refine wp_setVnode hq fun t ht => ?_
    obtain ⟨hvol, hslots⟩ := h.recount hq (n := w.refcount + 1) (by omega) (by omega)
    have hcalm : t.calm = s.calm.withVnode q { w with refcount := w.refcount + 1 } := congrArg Core.calm ht
    rw [← hcalm] at hvol hslots
    refine hQ q t { w with refcount := w.refcount + 1 } (by rw [ht]; exact List.suffix_rfl) hvol hslots ?_ ?_ hino ?_
    · rw [ht]
      exact .replace hq (w := { w with refcount := w.refcount + 1 }) rfl rfl
    · rw [ht, Core.withVnode_vnodes, if_pos rfl]
    · exact Nat.lt_succ_of_le hle
  · intro hnone
    have hnot : ∀ q w, s.vnodes q = some w → w.ino ≠ ino := fun q w hq =>
      hnone q ((hsound.pool.mem q).mpr (by rw [show s.calm.vnodes q = _ from hq]; rfl)) w hq
    have hlive' : s.calm.Live ino := hlive
    obtain ⟨ops, hops⟩ := hsound.opsOf_inode hlive'
    have hinode : s.calm.inode ino = .ofBlock (s.disk ino) := Core.inode_disk (c := s.calm) hnot
    rw [hinode] at hops
    have hlt := hsound.live_lt hlive'
    have hmark : s.freemap ino = true := hsound.live_marked hlive'
    have hfresh : s.vnodes s.next = none := hsound.pool.fresh _ (Nat.le_refl _)
    simp only [wp_ite]
    split
    swap
    · rename_i hmem
      exact hE _ s hnot (.inl (Bool.eq_false_iff.mpr hmem)) List.suffix_rfl rfl
    simp only [wp_bind]
    refine wp_bused hlt ?_
    simp only [hmark, if_true, wp_bind]
    refine wp_rblock_calm hsound.fits hlt (fun rest t hread ht => ?_) fun rest t hrest hread ht => ?_
    swap
    · exact hE _ t hnot (.inr (.inr hread)) (by rw [ht]; exact hrest) (Core.calm_of_eq ht)
    have hrest := afterRead_suffix hread
    refine wp_addVnodeWith m hops (fun t' _ ht' => ?_) fun htable => ?_
    swap
    · exact hE _ t hnot (.inr (.inl htable)) (by rw [ht]; exact hrest) (Core.calm_of_eq ht)
    rw [ht] at ht'
    have hcalm : t'.calm = s.calm.addVnode ⟨1, 0, ops, ino, .ofBlock (s.disk ino), false⟩ := congrArg Core.calm ht'
    obtain ⟨hsound', hslots⟩ := hsound.addVnode (v := ⟨1, 0, ops, ino, .ofBlock (s.disk ino), false⟩) hnot hlive'
      (Nat.le_refl 1) hops rfl
    rw [← hcalm] at hsound' hslots
    refine hQ _ t' ⟨1, 0, ops, ino, .ofBlock (s.disk ino), false⟩ (by rw [ht']; exact hrest) ⟨hsound', ?_⟩ hslots ?_ ?_
      rfl ?_
    · rw [hcalm]
      exact h.refs.add hfresh (w := ⟨1, 0, ops, ino, .ofBlock (s.disk ino), false⟩) rfl rfl
    · rw [ht']
      exact fun q w hq => ⟨w, Core.addVnode_old (c := s.withFaults rest) ⟨hsound.pool.mem, hsound.pool.nodup,
        hsound.pool.fresh, hsound.pool.inj, hsound.pool.ino_ne, hsound.pool.refs, hsound.pool.ops⟩ hq, rfl⟩
    · rw [ht', ht, Core.addVnode_vnodes]
      exact if_pos rfl
    · rw [ht]
      exact Nat.lt_of_le_of_lt (Nat.le_of_eq (h.refs.there _ hfresh)) (Nat.lt_succ_self 0)

theorem wp_loadvnode_any (h : Volume leaked owed g s.calm) (hlive : s.Live ino) {Q : Ptr → State → Prop}
    (hQ : ∀ q t w, t.faults <:+ s.faults → Volume leaked owed g t.calm → t.slots = s.slots →
      Extends s.toCore t.toCore → t.vnodes q = some w → w.ino = ino → g.held q < w.refcount → Q q t)
    (hE : ∀ e t, (∀ q w, s.vnodes q = some w → w.ino ≠ ino) → LoadFails .enough s.faults → t.faults <:+ s.faults →
      t.calm = s.calm → E (.err e) t) :
    wp (sfsLoadvnode ino typeInval) Q E s := by
  rw [← sfsLoadvnodeWith_enough]
  exact wp_loadvnodeWith .enough h hlive hQ hE

theorem wpAlong_balloc {r : State → State → Prop} (hdone : Spares r (s.faults = [])) (h : Sound leaked owed s.calm)
    (hp : s.vnodes p = some v) {Q : Blk → State → Prop}
    (hQ : ∀ b t, s.freemap b = false → b < s.nblocks → t.toCore = (s.withFaults s.faults.tail).takeBlock b → Q b t)
    (hE : (∀ b, b < s.nblocks → s.freemap b = true) → E (.err .ENOSPC) s) : wpAlong r sfsBalloc Q E s := by
  have hok : FileOk (s.calm.Others leaked v.ino) (s.file v) := h.fileOk hp
  have hm := h.mounted_calm v.ino
  refine wpAlong_sfsBalloc hm (Core.withFile_file hp).symm hok (hdone.imp fun hnil => by rw [hnil]; decide) ?_ hE
  intro b t hb ht _
  refine hQ b t hb (hm.free_lt hok hb) ?_
  rw [show t.toCore = _ from ht]
  simp only [Core.withFile, Core.withFaults, Core.takeBlock, Core.file]
  rw [← hp, Function.update_eq_self]

theorem wpAlong_makeobjWith {r : State → State → Prop} (m : Memory) (hdone : Spares r (s.faults = []))
    (h : Volume leaked owed g s.calm) (hp : s.vnodes p = some v) (howed : ∀ i, owed i = 0) {Q : Ptr → State → Prop}
    (hQ : ∀ q t b, ¬ LoadFails m s.faults.tail → t.faults <:+ s.faults → Volume leaked owed g t.calm →
      t.slots = s.slots → t.nblocks = s.nblocks → Extends s.toCore t.toCore → t.vnodes q = some (newVnode b) →
      g.held q = 0 → s.vnodes q = none → Q q t)
    (hE : (∀ b, b < s.nblocks → s.freemap b = true) → E (.err .ENOSPC) s)
    (hleak : ∀ e t b, LoadFails m s.faults.tail → t.faults <:+ s.faults → s.freemap b = false → b < s.nblocks →
      Volume (fun b' => leaked b' ∨ b' = b) owed g t.calm → t.slots = s.slots → t.nblocks = s.nblocks → E (.err e) t) :
    wpAlong r (sfsMakeobjWith m typeFile) Q E s := by
  have hsound := h.sound
  have hfresh : s.vnodes s.next = none := hsound.pool.fresh _ (Nat.le_refl _)
  simp only [sfsMakeobjWith, wpAlong_bind]
  refine wpAlong_balloc hdone hsound hp (fun b t hb hlt ht => ?_) hE
  have hb' : s.calm.freemap b = false := hb
  -- nothing but the faults changes until the vnode is there
  have hspoilt : ∀ e (t' : State) rest, LoadFails m s.faults.tail → rest <:+ s.faults →
      t'.toCore = (s.withFaults rest).takeBlock b → E (.err e) t' := by
    intro e t' rest hfails hrest ht'
    have hcalm : t'.calm = s.calm.takeBlock b := congrArg Core.calm ht'
    obtain ⟨hsound', hslots⟩ := hsound.leak hb'
    rw [← hcalm] at hsound' hslots
    refine hleak e t' b hfails (by rw [ht']; exact hrest) hb hlt ⟨hsound', ?_⟩ hslots (by rw [ht']; rfl)
    rw [hcalm]
    exact ⟨h.refs.open_eq, h.refs.open_le, h.refs.held_le, h.refs.there, h.refs.ino⟩
  have huse : InUse t.toCore := by
    intro q w hq
    rw [ht] at hq ⊢
    obtain ⟨hw, hmark⟩ := hsound.inUse q w hq
    refine ⟨hw, ?_⟩
    show Function.update s.freemap b true w.ino = true
    rw [Function.update_apply]
    split
    · rfl
    · exact hmark
  have hmark : t.freemap b = true := by
    rw [ht]
    exact Function.update_self ..
  have hlt' : b < t.nblocks := by
    rw [ht]
    exact hlt
  have hdata : t.disk b = zeros := by
    rw [ht]
    exact Function.update_self ..
  have hfaults : t.faults = s.faults.tail := by
    rw [ht]
    rfl
  refine wp.along ?_
  simp only [sfsLoadvnodeWith, wp_bind, wp_read]
  refine wp_loadScan huse t.table (fun q hq => ?_) (fun q w hq hino => ?_) fun _ => ?_
  · rw [ht] at hq ⊢
    exact (hsound.pool.mem q).mp hq
  · rw [ht] at hq
    exact absurd hino (hsound.free_ne hb' (Core.live_vnode (c := s.calm) hq))
  simp only [wp_ite]
  split
  swap
  · rename_i hmem
    exact hspoilt _ t _ (.inl (Bool.eq_false_iff.mpr hmem)) (List.tail_suffix _) ht
  rename_i hmem
  simp only [wp_bind]
  refine wp_bused hlt' ?_
  simp only [hmark, if_true, wp_bind]
  have hfits : Fits t.calm := by
    rw [ht]
    exact ⟨hsound.fits.faults, hsound.fits.device, hsound.fits.large, hsound.fits.small⟩
  refine wp_rblock_calm hfits hlt' (fun rest t' hread ht' => ?_) fun rest t' hrest hread ht' => ?_
  swap
  · rw [hfaults] at hread hrest
    rw [ht] at ht'
    exact hspoilt _ t' rest (.inr (.inr hread)) (hrest.trans (List.tail_suffix _)) ht'
  rw [hfaults] at hread
  have hrest : rest <:+ s.faults := (afterRead_suffix hread).trans (List.tail_suffix _)
  rw [ht] at ht'
  have htype : (Inode.ofBlock zeros).type = typeInval := by
    simp only [Inode.ofBlock, words_zeros]
    rfl
  rw [hdata]
  simp only [show ¬ typeFile = typeInval by decide, if_false, wp_bind, wp_assert, htype, decide_true, if_true]
  refine wp_addVnodeWith m (show opsOf typeFile = some .file from rfl) (fun t'' htable ht'' => ?_) fun htable => ?_
  swap
  · exact hspoilt _ t' rest (.inr (.inl htable)) hrest ht'
  have hnext : t'.next = s.next := by
    rw [ht']
    rfl
  rw [ht'] at ht''
  have hcalm : t''.calm = (s.calm.takeBlock b).addVnode (newVnode b) := congrArg Core.calm ht''
  obtain ⟨hsound', hslots⟩ := hsound.newFile hb' (howed b)
  rw [← hcalm] at hsound' hslots
  have hfine : ¬ LoadFails m s.faults.tail := by
    rintro (hno | hno | hno)
    · rw [hmem] at hno
      cases hno
    · rw [htable] at hno
      cases hno
    · rw [hread] at hno
      cases hno
  refine hQ _ t'' b hfine (by rw [ht'']; exact hrest) ⟨hsound', ?_⟩ hslots (by rw [ht'']; rfl) ?_ ?_ ?_ ?_
  · rw [hcalm]
    exact h.refs.add hfresh (w := newVnode b) rfl rfl
  · rw [ht'']
    exact fun q w hq => ⟨w, hsound.new_old (c := s.calm) hq, rfl⟩
  · rw [ht'', hnext, Core.addVnode_vnodes]
    exact if_pos rfl
  · rw [hnext]
    exact h.refs.there _ hfresh
  · rw [hnext]
    exact hfresh

/-- Why `sfs_lookonce` fails: no entry has the name, the directory cannot be read, or the inode has to be and cannot. -/
def LookFails (s : State) (v : Vnode) (name : CStr) : Prop :=
  (∀ d ∈ s.entries, d.str ≠ name.val) ∨ afterReads (s.file v).searchReads s.faults = none ∨
    ∃ d ∈ s.entries, d.str = name.val ∧ ∀ q w, s.vnodes q = some w → w.ino ≠ d.ino

theorem wp_lookonce_any (h : Volume leaked owed g s.calm) (hp : s.vnodes p = some v) (hroot : v.ino = rootLocation)
    (howed : ∀ i, owed i = 0) {Q : Ptr × Nat → State → Prop}
    (hQ : ∀ q k t w, (∃ rest, afterReads (s.file v).searchReads s.faults = some rest) → t.faults <:+ s.faults →
      Volume leaked owed g t.calm → t.slots = s.slots → Extends s.toCore t.toCore → t.vnodes q = some w →
      HasName t.slots name w.ino k → g.held q < w.refcount → Q (q, k) t)
    (hE : ∀ e t, LookFails s v name → (e = .ENOENT ∨ s.faults ≠ []) → t.faults <:+ s.faults → t.calm = s.calm →
      E (.err e) t) :
    wp (sfsLookonce p name) Q E s := by
  simp only [sfsLookonce, wp_bind]
  refine wp_findname_any h.sound hp hroot (fun rest t found emptyslot hreads ht hfound _ => ?_)
    fun rest t hrest hreads ht => ?_
  swap
  · refine hE _ t (.inr (.inl hreads)) (.inr fun hnil => ?_) (by rw [ht]; exact hrest) (Core.calm_of_eq ht)
    rw [hnil, afterReads_nil] at hreads
    cases hreads
  have hcalm : t.calm = s.calm := Core.calm_of_eq ht
  have hfaults : t.faults <:+ s.faults := by
    rw [ht]
    exact afterReads_suffix hreads
  cases found with
  | none => exact hE _ t (.inl (FoundIn.fresh hfound)) (.inl rfl) hfaults hcalm
  | some answer =>
    obtain ⟨ino, k⟩ := answer
    obtain ⟨-, hname⟩ := hfound
    obtain ⟨d, hd, hino, hstr⟩ := hname.mem
    have hlive : t.Live ino := (Core.live_of_calm hcalm ino).mpr (.inr (.inl ⟨d, hd, hino⟩))
    simp only [wp_bind]
    have hvol : Volume leaked owed g t.calm := by rwa [hcalm]
    refine wp_loadvnode_any hvol hlive (fun q t' w ht' hvol hslots hext hq hino' hheld => ?_)
      fun e t' hnot hfails ht' hcalm' => ?_
    swap
    · rw [Core.vnodes_of_calm hcalm, ← hino] at hnot
      refine hE e t' (.inr (.inr ⟨d, hd, hstr, hnot⟩)) (.inr fun hnil => ?_) (ht'.trans hfaults) (hcalm'.trans hcalm)
      rw [hnil] at hfaults
      rw [List.suffix_nil.mp hfaults] at hfails
      exact not_loadFails_enough hfails
    rw [Core.slots_of_calm hcalm] at hslots
    have hext : Extends s.toCore t'.toCore := by
      intro q w hq
      rw [← Core.vnodes_of_calm hcalm] at hq
      exact hext q w hq
    have hq' : t'.calm.vnodes q = some w := hq
    have hlinks := hvol.sound.links w.ino (Core.live_vnode hq')
    have hentry : 0 < links t'.entries w.ino := by
      refine List.countP_pos_iff.mpr ⟨d, ?_, decide_eq_true (hino.trans hino'.symm)⟩
      rw [show t'.entries = occupied t'.slots from rfl, hslots]
      exact hd
    have hpos : w.inode.linkcount ≠ 0 := by
      intro hzero
      rw [hvol.sound.pool.inode_eq hq', hzero, howed, Core.calm_entries] at hlinks
      have hz : ((0 : UInt16).toNat : Int) = 0 := rfl
      rw [hz] at hlinks
      split at hlinks <;> omega
    simp only [vnode, wp_bind, wp_read, hq, wp_pure, hpos, if_false]
    exact hQ q k t' w ⟨rest, hreads⟩ (ht'.trans hfaults) hvol hslots hext hq (by rw [hslots, hino']; exact hname) hheld

/-! ## Writing back and reclaiming -/

theorem wpAlong_syncInode {r : State → State → Prop} (hdone : Spares r (s.faults = []))
    (h : Volume leaked owed g s.calm) (hp : s.vnodes p = some v)
    (hQ : ∀ t, t.faults <:+ s.faults → Volume leaked owed g t.calm → t.slots = s.slots →
      t.vnodes p = some { v with dirty := false } → Beside p s.toCore t.toCore → t.table = s.table → Q () t) :
    wpAlong r (sfsSyncInode p) Q E s := by
  have hsound := h.sound
  have hp' : s.calm.vnodes p = some v := hp
  have hlt := hsound.live_lt (Core.live_vnode hp')
  simp only [sfsSyncInode, vnode, wpAlong_bind, wpAlong_read, hp, wpAlong_pure, wpAlong_ite]
  split
  · obtain ⟨hsound', hslots⟩ := hsound.synced hp'
    have hon : v.ino.toNat < s.dBlocks :=
      Nat.lt_of_lt_of_le (UInt32.lt_iff_toNat_lt.mp hlt) hsound.fits.device
    refine wpAlong_sfsWblock hon (hdone.imp fun hnil => by rw [hnil]; decide) _ fun _ => ?_
    refine wp.along (wp_setVnode (v := v) (by exact hp) fun t ht => ?_)
    have hcore : t.toCore = (s.withFaults s.faults.tail).synced p v := by
      rw [ht]
      simp only [hp, Option.elim_some]
      rfl
    have hcalm : t.calm = s.calm.synced p v := congrArg Core.calm hcore
    rw [← hcalm] at hsound' hslots
    refine hQ t (by rw [hcore]; exact List.tail_suffix _) ⟨hsound', ?_⟩ hslots ?_ ⟨fun q hq => ?_, ?_⟩ ?_
    · rw [hcalm]
      exact h.refs.replace (w := { v with dirty := false }) hp' rfl rfl (h.refs.held_le p v hp') rfl
    · rw [hcore]
      exact Function.update_self ..
    · rw [hcore]
      exact Function.update_of_ne hq _ _
    · rw [hcore]
      rfl
    · rw [hcore]
      rfl
  · rename_i hclean
    have hself : { v with dirty := false } = v := by
      rw [← Bool.eq_false_iff.mpr hclean]
    exact hQ s List.suffix_rfl h rfl (by rw [hself]; exact hp) ⟨fun _ _ => rfl, rfl⟩ rfl

theorem wp_dropVnode (hpool : Pool s.toCore) (hp : s.vnodes p = some v) (href : v.refcount = 1)
    (hopen : v.opencount = 0) (hQ : ∀ t, t.toCore = s.toCore.dropVnode p → Q () t) :
    wp (dropVnode p) Q E s := by
  have hmem : p ∈ s.table := (hpool.mem p).mpr (by rw [hp]; rfl)
  simp only [dropVnode, vnode, wp_bind, wp_read, wp_assert, hmem, decide_true, if_true, wp_modify, hp, wp_pure, href,
    hopen]
  exact hQ _ rfl

theorem Inode.blockAt_none {n : Inode} {disk : Blk → Block} (h : ∀ r, n.blockAt disk r = 0) (disk' : Blk → Block)
    (r : Place) : n.blockAt disk' r = 0 := by
  have hi : n.indirect = 0 := h .indirect
  cases r with
  | direct k => exact h (.direct k)
  | indirect => exact hi
  | entry j => exact if_pos hi

theorem Sound.root_linkcount (h : Sound leaked owed c) (howed : ∀ i, owed i = 0) (hp : c.vnodes p = some v)
    (hzero : v.inode.linkcount = 0) : v.ino ≠ rootLocation ∧ ∀ d ∈ c.entries, d.ino ≠ v.ino := by
  have hlinks := h.links v.ino (Core.live_vnode hp)
  have hz : ((0 : UInt16).toNat : Int) = 0 := rfl
  rw [h.pool.inode_eq hp, hzero, howed, hz] at hlinks
  refine ⟨fun hroot => ?_, fun d hd hino => ?_⟩
  · rw [if_pos hroot] at hlinks
    omega
  · have : 0 < Sfs.links c.entries v.ino := List.countP_pos_iff.mpr ⟨d, hd, decide_eq_true hino⟩
    split at hlinks <;> omega

theorem Sound.named (h : Sound leaked owed c) (howed : ∀ i, owed i = 0) (hp : c.vnodes p = some v)
    (hlink : v.inode.linkcount ≠ 0) : v.ino = rootLocation ∨ ∃ d ∈ c.entries, d.ino = v.ino := by
  by_cases hroot : v.ino = rootLocation
  · exact .inl hroot
  · have hlinks := h.links v.ino (Core.live_vnode hp)
    rw [h.pool.inode_eq hp, howed, if_neg hroot] at hlinks
    have hpos : v.inode.linkcount.toNat ≠ 0 := fun hz => hlink (UInt16.toNat_inj.mp hz)
    have : 0 < Sfs.links c.entries v.ino := by omega
    obtain ⟨d, hd, hino⟩ := List.countP_pos_iff.mp this
    exact .inr ⟨d, hd, of_decide_eq_true hino⟩

section Reclaim

variable {r : State → State → Prop} (hdone : Spares r (s.faults = [])) (h : Volume leaked owed g s.calm)
  (howed : ∀ i, owed i = 0) (hp : s.vnodes p = some v)
include hdone h howed hp

theorem wpAlong_reclaimSynced (href : v.refcount = 1) (hheld : g.held p = 0)
    (hblocks : v.inode.linkcount = 0 → ∀ r, v.inode.blockAt s.disk r = 0)
    (hQ : ∀ t, t.faults <:+ s.faults → Volume leaked owed g t.calm → t.slots = s.slots →
      Beside p s.toCore t.toCore → Q () t) :
    wpAlong r (reclaimSynced p) Q E s := by
  have hopen : v.opencount = 0 := by
    have := h.refs.open_eq p v hp
    have := h.refs.open_le p
    omega
  simp only [reclaimSynced, wpAlong_bind]
  refine wpAlong_syncInode hdone h hp fun t hfaults hvol hslots ht hothers _ => ?_
  have hsound := hvol.sound
  have hp' : t.calm.vnodes p = some { v with dirty := false } := ht
  simp only [vnode, wpAlong_bind, wpAlong_read, ht, wpAlong_pure, wpAlong_ite]
  split
  · rename_i hzero
    obtain ⟨hroot, hnoname⟩ := hsound.root_linkcount howed hp' hzero
    have hlive := Core.live_vnode hp'
    have hlt : v.ino < t.nblocks := hsound.live_lt hlive
    have hmark : t.freemap v.ino = true := hsound.live_marked hlive
    refine wp.along ?_
    simp only [sfsBfree, wp_bind, wp_read, wp_assert, lt_nbits hlt, hmark, decide_true, if_true, wp_modify]
    have hpool := hsound.pool
    refine wp.along (wp_dropVnode
      (s := { t with freemap := Function.update t.freemap v.ino false, freemapdirty := true })
      ⟨hpool.mem, hpool.nodup, hpool.fresh, hpool.inj, hpool.ino_ne, hpool.refs, hpool.ops⟩ ht href hopen
      fun t' ht' => ?_)
    have hcalm : t'.calm = t.calm.freeVnode p v.ino := congrArg Core.calm ht'
    obtain ⟨hsound', hslots'⟩ := hsound.freeVnode hp' hroot hnoname (Inode.blockAt_none (hblocks hzero) _)
    rw [← hcalm] at hsound' hslots'
    refine hQ t' (by rw [ht']; exact hfaults) ⟨hsound', ?_⟩ (hslots'.trans hslots) ⟨fun q hq => ?_, ?_⟩
    · rw [hcalm]
      exact hvol.refs.drop hheld rfl
    · rw [ht']
      exact (Function.update_of_ne hq _ _).trans (hothers.vnodes q hq)
    · rw [ht']
      exact hothers.nblocks
  · rename_i hlink
    have hpool := hsound.pool
    refine (wp_dropVnode ⟨hpool.mem, hpool.nodup, hpool.fresh, hpool.inj, hpool.ino_ne, hpool.refs, hpool.ops⟩ ht href
      hopen fun t' ht' => ?_).along
    have hcalm : t'.calm = t.calm.dropVnode p := congrArg Core.calm ht'
    obtain ⟨hsound', hslots'⟩ := hsound.dropVnode hp' rfl (hsound.named howed hp' hlink)
    rw [← hcalm] at hsound' hslots'
    refine hQ t' (by rw [ht']; exact hfaults) ⟨hsound', ?_⟩ (hslots'.trans hslots) ⟨fun q hq => ?_, ?_⟩
    · rw [hcalm]
      exact hvol.refs.drop hheld rfl
    · rw [ht']
      exact (Function.update_of_ne hq _ _).trans (hothers.vnodes q hq)
    · rw [ht']
      exact hothers.nblocks

theorem wpAlong_reclaim (href : v.refcount = 1) (hheld : g.held p = 0)
    (hread : v.inode.linkcount = 0 → v.inode.indirect = 0 ∨ s.faults = [])
    (hQ : ∀ t, t.faults <:+ s.faults → Volume leaked owed g t.calm → t.slots = s.slots →
      Beside p s.toCore t.toCore → Q () t) :
    wpAlong r (sfsReclaim p) Q E s := by
  have hsound := h.sound
  have hp' : s.calm.vnodes p = some v := hp
  simp only [sfsReclaim, vnode, wpAlong_bind, wpAlong_read, hp, wpAlong_pure, href, ne_eq, not_true_eq_false, if_false,
    wpAlong_ite]
  split
  · rename_i hzero
    obtain ⟨hroot, -⟩ := hsound.root_linkcount howed hp' hzero
    have hops : v.ops = .file := by
      have hops := hsound.pool.ops p v hp'
      have htype := hsound.file_type v.ino (Core.live_vnode hp') hroot
      rw [hsound.pool.inode_eq hp'] at htype
      rw [htype] at hops
      exact (Option.some.inj hops).symm
    have hok : FileOk (s.calm.Others leaked v.ino) (s.file v) := hsound.fileOk hp'
    simp only [wpAlong_bind, vopTruncate, fileOp, vnode, wpAlong_read, hp, wpAlong_pure, hops]
    refine (wp_sfsTruncate_empty (hsound.mounted_calm v.ino) (Core.withFile_file hp).symm hok (hread hzero) ?_).along
    intro rest t x' hrest ht hstep hnone
    obtain ⟨hvol, hslots⟩ := h.fileStep hp' hroot hstep
    rw [← ht.calm] at hvol hslots
    have hfaults := ht.faults_suffix hrest
    refine wpAlong_reclaimSynced (hdone.imp fun hnil => ?_) hvol howed ht.vnode href hheld (fun _ r => ?_)
      fun t' hfaults' hvol' hslots' hothers =>
        hQ t' (hfaults'.trans hfaults) hvol' (hslots'.trans hslots) ⟨fun q hq => ?_, ?_⟩
    · rw [hnil] at hfaults
      exact List.suffix_nil.mp hfaults
    · rw [ht.disk]
      exact hnone r
    · rw [hothers.vnodes q hq, show t.toCore = _ from ht, Core.withFile_vnodes, if_neg hq]
      rfl
    · rw [hothers.nblocks, show t.toCore = _ from ht]
      rfl
  · rename_i hlink
    exact wpAlong_reclaimSynced hdone h howed hp href hheld (fun hzero => absurd hzero hlink) hQ

theorem wpAlong_decref (hheld : g.held p < v.refcount)
    (hread : v.inode.linkcount = 0 → v.inode.indirect = 0 ∨ s.faults = [])
    (hQ : ∀ t, t.faults <:+ s.faults → Volume leaked owed g t.calm → t.slots = s.slots →
      Beside p s.toCore t.toCore → Q () t) :
    wpAlong r (vopDecref p) Q E s := by
  have hpos : 0 < v.refcount := Nat.lt_of_le_of_lt (Nat.zero_le _) hheld
  simp only [vopDecref, vnode, wpAlong_bind, wpAlong_read, hp, wpAlong_pure, wpAlong_assert, hpos, decide_true, if_true,
    wpAlong_ite]
  split
  · rename_i hmany
    refine (wp_setVnode hp fun t ht => ?_).along
    obtain ⟨hvol, hslots⟩ := h.recount hp (n := v.refcount - 1) (by omega) (by omega)
    have hcalm : t.calm = s.calm.withVnode p { v with refcount := v.refcount - 1 } := congrArg Core.calm ht
    rw [← hcalm] at hvol hslots
    refine hQ t (by rw [ht]; exact List.suffix_rfl) hvol hslots ⟨fun q hq => ?_, ?_⟩
    · rw [ht, Core.withVnode_vnodes, if_neg hq]
    · rw [ht]
      rfl
  · rename_i hone
    simp only [wpAlong_attempt]
    exact wpAlong_reclaim hdone h howed hp (by omega) (by omega) hread hQ

end Reclaim

/-! ## On a device that does not fail -/

section Working

variable (h : Volume leaked owed g s.toCore)

theorem Volume.calm (h : Volume leaked owed g c) : Volume leaked owed g c.calm := by
  rwa [Core.calm_eq h.sound.fits.faults]

include h

theorem wp_loadvnode (hlive : s.Live ino) {Q : Ptr → State → Prop}
    (hQ : ∀ q t w, Volume leaked owed g t.toCore → t.slots = s.slots → Extends s.toCore t.toCore →
      t.vnodes q = some w → w.ino = ino → g.held q < w.refcount → Q q t) : wp (sfsLoadvnode ino typeInval) Q E s := by
  have hs := h.sound.fits.faults
  refine wp_loadvnode_any h.calm hlive (fun q t w ht hvol => ?_) fun e t _ hfails _ _ => ?_
  · rw [calm_of_suffix hs ht] at hvol
    exact hQ q t w hvol
  · rw [hs] at hfails
    exact absurd hfails not_loadFails_enough

theorem wp_makeobj (hp : s.vnodes p = some v) (howed : ∀ i, owed i = 0) {Q : Ptr → State → Prop}
    (hQ : ∀ q t b, Volume leaked owed g t.toCore → t.slots = s.slots → Extends s.toCore t.toCore →
      t.vnodes q = some (newVnode b) → g.held q = 0 → s.vnodes q = none → Q q t)
    (hE : E (.err .ENOSPC) s) : wp (sfsMakeobj typeFile) Q E s := by
  have hs := h.sound.fits.faults
  rw [← sfsMakeobjWith_enough]
  refine (wpAlong_makeobjWith .enough (.inr hs) h.calm hp howed (fun q t b _ ht hvol hslots _ => ?_) (fun _ => hE)
    fun e t b hfails _ _ _ _ _ _ => ?_).wp
  · rw [calm_of_suffix hs ht] at hvol
    exact hQ q t b hvol hslots
  · rw [hs] at hfails
    exact absurd hfails not_loadFails_enough

theorem wp_lookonce (hp : s.vnodes p = some v) (hroot : v.ino = rootLocation) (howed : ∀ i, owed i = 0)
    {Q : Ptr × Nat → State → Prop}
    (hQ : ∀ q k t w, Volume leaked owed g t.toCore → t.slots = s.slots → Extends s.toCore t.toCore →
      t.vnodes q = some w → HasName t.slots name w.ino k → g.held q < w.refcount → Q (q, k) t)
    (hE : ∀ t, t.toCore = s.toCore → E (.err .ENOENT) t) : wp (sfsLookonce p name) Q E s := by
  have hs := h.sound.fits.faults
  refine wp_lookonce_any h.calm hp hroot howed (fun q k t w _ ht hvol => ?_) fun e t _ he ht hcalm => ?_
  · rw [calm_of_suffix hs ht] at hvol
    exact hQ q k t w hvol
  · rcases he with rfl | hne
    · rw [calm_of_suffix hs ht, Core.calm_eq hs] at hcalm
      exact hE t hcalm
    · exact absurd hs hne

theorem wp_syncInode (hp : s.vnodes p = some v)
    (hQ : ∀ t, Volume leaked owed g t.toCore → t.slots = s.slots → t.vnodes p = some { v with dirty := false } →
      (∀ q, q ≠ p → t.vnodes q = s.vnodes q) → t.table = s.table → Q () t) :
    wp (sfsSyncInode p) Q E s := by
  have hs := h.sound.fits.faults
  refine (wpAlong_syncInode (.inr hs) h.calm hp fun t ht hvol hslots hp' hothers => ?_).wp
  rw [calm_of_suffix hs ht] at hvol
  exact hQ t hvol hslots hp' hothers.vnodes

theorem wp_decref (howed : ∀ i, owed i = 0) (hp : s.vnodes p = some v) (hheld : g.held p < v.refcount)
    (hQ : ∀ t, Volume leaked owed g t.toCore → t.slots = s.slots → Q () t) : wp (vopDecref p) Q E s := by
  have hs := h.sound.fits.faults
  refine (wpAlong_decref (.inr hs) h.calm howed hp hheld (fun _ => .inr hs) fun t ht hvol hslots _ => ?_).wp
  rw [calm_of_suffix hs ht] at hvol
  exact hQ t hvol hslots

end Working

end Os161.Sfs

import Os161.Laws.Sfs.Load

/-!
# The operations of a volume

Each vnode operation leaves a sound volume sound, whether it succeeds or returns an error: the names are distinct, the
link counts are the numbers of names, and each block has one owner.
-/

namespace Os161.Sfs

open Os161.Lib Prog

variable {c' : Core} {k k' : Nat} {d : SfsDir}

/-- No link count is owed anything. -/
def settled : Blk → Int := fun _ => 0

/-- No name is of the root directory. -/
def Core.Plain (c : Core) : Prop := ∀ d ∈ c.entries, d.ino ≠ rootLocation

/-- A sound volume between two operations; with `plain`, one where no name is of the root directory. -/
structure Settled (plain : Prop) (g : Callers) (c : Core) : Prop where
  volume : Volume noLeak settled g c
  plain : plain → c.Plain

/-- An operation that fails leaves the volume sound, and panics only with `bad`. -/
def Fails (plain : Prop) (g : Callers) (bad : Panic → Prop) : Stop Errno Panic → State → Prop
  | .err _, t => Settled plain g t.toCore
  | .panic e, _ => bad e

/-- An operation hands back a vnode with a reference, for an inode number with `N`. -/
def Hands (plain : Prop) (g : Callers) (N : Blk → Prop) (q : Ptr) (t : State) : Prop :=
  Settled plain g t.toCore ∧ ∃ w, t.vnodes q = some w ∧ g.held q < w.refcount ∧ N w.ino

/-- The inode number of a file that was found by its name. -/
def Named (plain : Prop) (i : Blk) : Prop := plain → i ≠ rootLocation

variable {c : Core} {p q : Ptr} {v w : Vnode} {g : Callers} {owed : Blk → Int} {leaked : Blk → Prop} {s : State}
  {name : CStr} {ino : Blk}
  {E : Stop Errno Panic → State → Prop} {bad : Panic → Prop} {plain : Prop}

/-! ## Names of the root directory -/

theorem Core.Plain.of_slots (h : c.Plain) (hslots : c'.slots = c.slots) : c'.Plain := by
  intro d hd
  rw [Core.entries, hslots] at hd
  exact h d hd

theorem Core.Plain.setSlot (h : c.Plain) (hslots : c'.slots = setSlot c.slots k d)
    (hd : d.ino ≠ rootLocation) : c'.Plain := by
  intro e he
  rw [Core.entries, hslots] at he
  obtain ⟨hmem, hne⟩ := mem_occupied.mp he
  have hor : e = d ∨ e ∈ c.slots := by
    unfold Sfs.setSlot at hmem
    split at hmem
    · exact (List.mem_or_eq_of_mem_set hmem).symm
    · rcases List.mem_append.mp hmem with hmem | hmem
      · exact .inr hmem
      · exact .inl (List.mem_singleton.mp hmem)
  rcases hor with rfl | hmem
  · exact hd
  · exact h e (mem_occupied.mpr ⟨hmem, hne⟩)

theorem Settled.of_slots (h : Settled plain g c) (hvol : Volume noLeak settled g c') (hslots : c'.slots = c.slots) :
    Settled plain g c' :=
  ⟨hvol, fun hplain => (h.plain hplain).of_slots hslots⟩

theorem Settled.named (h : Settled plain g c) (hname : HasName c.slots name ino k) : Named plain ino := by
  intro hplain
  obtain ⟨d, hd, rfl, -⟩ := hname.mem
  exact h.plain hplain d hd

/-! ## Link counts -/

theorem Sound.links_le (h : Sound leaked owed c) (i : Blk) : Sfs.links c.entries i ≤ 1144 := by
  have hsmall := h.root.small
  calc Sfs.links c.entries i ≤ c.entries.length := List.countP_le_length
    _ ≤ c.slots.length := List.length_filter_le _ _
    _ = (c.inode rootLocation).size.toNat / direntSize := length_slotsOf ..
    _ ≤ 1144 := by
      simp only [maxFile, ndirect, dbperidb, blockSize, direntSize] at *
      omega

/-- The volume with the link count of a vnode set. -/
def Core.relinked (c : Core) (p : Ptr) (v : Vnode) (l : UInt16) : Core :=
  c.withFile p v { c.file v with inode := { v.inode with linkcount := l }, dirty := true }

theorem Volume.relinked {n : Int} (h : Volume leaked (bump settled v.ino n) g c) (hp : c.vnodes p = some v) {l : UInt16}
    (hl : (l.toNat : Int) = v.inode.linkcount.toNat + n) :
    Volume leaked settled g (c.relinked p v l) ∧ (c.relinked p v l).slots = c.slots := by
  obtain ⟨hsound, hslots⟩ := h.sound.relink hp l
  have howed : Function.update (bump settled v.ino n) v.ino
      (bump settled v.ino n v.ino + v.inode.linkcount.toNat - l.toNat) = settled := by
    funext i
    by_cases hi : i = v.ino
    · subst hi
      rw [Function.update_self, bump, Function.update_self, hl]
      show (settled v.ino + n + v.inode.linkcount.toNat - (v.inode.linkcount.toNat + n) : Int) = settled v.ino
      omega
    · rw [Function.update_of_ne hi, bump, Function.update_of_ne hi]
  rw [howed] at hsound
  exact ⟨⟨hsound, h.refs.withFile hp⟩, hslots⟩

theorem wp_setLinkcount (hp : s.vnodes p = some v) {f : UInt16 → UInt16} {Q : Unit → State → Prop}
    (hQ : ∀ t, t.toCore = s.toCore.relinked p v (f v.inode.linkcount) → Q () t) : wp (setLinkcount p f) Q E s :=
  wp_setInode (Core.withFile_file hp).symm _ fun t ht _ => hQ t ht

theorem Sound.linkcount_add (h : Sound leaked (bump settled v.ino 1) c) (hp : c.vnodes p = some v) :
    ((v.inode.linkcount + 1).toNat : Int) = v.inode.linkcount.toNat + 1 := by
  have hlinks := h.links v.ino (Core.live_vnode hp)
  have hle := h.links_le v.ino
  rw [h.pool.inode_eq hp, bump, Function.update_self] at hlinks
  have hzero : settled v.ino = 0 := rfl
  rw [UInt16.toNat_add]
  have hone : (1 : UInt16).toNat = 1 := rfl
  split at hlinks <;> omega

theorem Sound.linkcount_pos (h : Sound leaked (bump settled v.ino (-1)) c) (hp : c.vnodes p = some v) :
    0 < v.inode.linkcount.toNat := by
  have hlinks := h.links v.ino (Core.live_vnode hp)
  rw [h.pool.inode_eq hp, bump, Function.update_self] at hlinks
  have hzero : settled v.ino = 0 := rfl
  split at hlinks <;> omega

theorem Sound.linkcount_sub (h : Sound leaked (bump settled v.ino (-1)) c) (hp : c.vnodes p = some v) :
    ((v.inode.linkcount - 1).toNat : Int) = v.inode.linkcount.toNat + -1 := by
  have hpos := h.linkcount_pos hp
  have hone : (1 : UInt16).toNat = 1 := rfl
  have hle : (1 : UInt16) ≤ v.inode.linkcount := UInt16.le_iff_toNat_le.mpr hpos
  rw [UInt16.toNat_sub_of_le _ _ hle, hone]
  omega

theorem Core.relinked_vnodes (l : UInt16) : (c.relinked p v l).vnodes p =
    some { v with inode := { v.inode with linkcount := l }, dirty := true } := by
  rw [Core.relinked, Core.withFile_vnodes, if_pos rfl]

theorem wp_addLink (h : Volume noLeak (bump settled v.ino 1) g s.toCore) (hp : s.vnodes p = some v)
    {Q : Unit → State → Prop}
    (hQ : ∀ t w, Volume noLeak settled g t.toCore → t.slots = s.slots → t.vnodes p = some w → w.ino = v.ino →
      w.refcount = v.refcount → Extends s.toCore t.toCore → Q () t) : wp (setLinkcount p (· + 1)) Q E s := by
  refine wp_setLinkcount hp fun t ht => ?_
  obtain ⟨hvol, hslots⟩ := h.relinked hp (h.sound.linkcount_add hp)
  rw [← ht] at hvol hslots
  have hp' : t.vnodes p = _ := (congrArg (·.vnodes p) ht).trans (Core.relinked_vnodes _)
  refine hQ t _ hvol hslots hp' rfl rfl ?_
  rw [ht]
  exact .withFile hp

theorem wp_dropLink (h : Volume noLeak (bump settled v.ino (-1)) g s.toCore) (hp : s.vnodes p = some v)
    {Q : Unit → State → Prop}
    (hQ : ∀ t w, Volume noLeak settled g t.toCore → t.slots = s.slots → t.vnodes p = some w → w.ino = v.ino →
      w.refcount = v.refcount → Extends s.toCore t.toCore → Q () t) : wp (setLinkcount p (· - 1)) Q E s := by
  refine wp_setLinkcount hp fun t ht => ?_
  obtain ⟨hvol, hslots⟩ := h.relinked hp (h.sound.linkcount_sub hp)
  rw [← ht] at hvol hslots
  have hp' : t.vnodes p = _ := (congrArg (·.vnodes p) ht).trans (Core.relinked_vnodes _)
  refine hQ t _ hvol hslots hp' rfl rfl ?_
  rw [ht]
  exact .withFile hp

/-! ## Names -/

theorem wp_creatNew (h : Settled plain g s.toCore) (hp : s.vnodes p = some v) (hroot : v.ino = rootLocation) :
    wp (creatNew p name) (Hands plain g (Named plain)) (Fails plain g bad) s := by
  simp only [creatNew, wp_bind]
  refine wp_makeobj h.volume hp (fun _ => rfl) (fun q t b hvol hslots hext hq hheld hnone => ?_) h
  obtain ⟨v', hp', hino'⟩ := hext p v hp
  have hqp : q ≠ p := by
    rintro rfl
    rw [hnone] at hp
    cases hp
  have hfile : b ≠ rootLocation := fun hb =>
    hqp (hvol.sound.pool.inj q p _ v' hq hp' (hb.trans (hino'.trans hroot).symm))
  have hlive : t.Live b := Core.live_vnode hq
  have ht : Settled plain g t.toCore := h.of_slots hvol hslots
  simp only [vnode, wp_bind, wp_read, hq, wp_pure, wp_attempt]
  refine wp_dirLink hvol.sound hp' (hino'.trans hroot) (hvol.sound.pool.live_ne hlive) hlive ?_ ?_
  · intro k t' x' ht' hsound hset _ _
    have hq' : t'.vnodes q = some (newVnode b) := by
      rw [ht', Core.withFile_vnodes, if_neg hqp, hq]
    have hvol' : Volume noLeak (bump settled (newVnode b).ino 1) g t'.toCore :=
      ⟨hsound, by rw [ht']; exact hvol.refs.withFile hp'⟩
    refine wp_addLink hvol' hq' fun t'' w hvol'' hslots'' hq'' hino href _ => ⟨⟨hvol'', fun hplain => ?_⟩, w, hq'', ?_, ?_⟩
    · exact ((ht.plain hplain).setSlot hset hfile).of_slots hslots''
    · rw [hheld, href]
      exact Nat.zero_lt_one
    · intro _
      rwa [hino]
  · intro e t' x' ht' hsound hsame
    have hq' : t'.vnodes q = some (newVnode b) := by
      rw [ht', Core.withFile_vnodes, if_neg hqp, hq]
    have hvol' : Volume noLeak settled g t'.toCore := ⟨hsound, by rw [ht']; exact hvol.refs.withFile hp'⟩
    refine wp_decref hvol' (fun _ => rfl) hq' ?_ fun t'' hvol'' hslots'' => ht.of_slots hvol'' (hslots''.trans hsame)
    rw [hheld]
    exact Nat.zero_lt_one

theorem wp_creat (h : Settled plain g s.toCore) (hp : s.vnodes p = some v) (hroot : v.ino = rootLocation)
    (excl : Bool) : wp (sfsCreat p name excl) (Hands plain g (Named plain)) (Fails plain g bad) s := by
  simp only [sfsCreat, wp_bind]
  refine wp_findname h.volume.sound hp hroot fun t found emptyslot ht hfound _ => ?_
  have hvol : Settled plain g t.toCore := by rwa [ht]
  cases found with
  | none => exact wp_creatNew hvol (by rwa [ht]) hroot
  | some answer =>
    obtain ⟨ino, k⟩ := answer
    obtain ⟨-, hname⟩ := hfound
    obtain ⟨d, hd, hino, -⟩ := hname.mem
    simp only [wp_ite, wp_err]
    split
    · exact hvol
    · have hlive : t.Live ino := by
        rw [ht]
        exact .inr (.inl ⟨d, hd, hino⟩)
      refine wp_loadvnode hvol.volume hlive fun q t' w hvol' hslots _ hq hino' hheld =>
        ⟨hvol.of_slots hvol' hslots, w, hq, hheld, ?_⟩
      rw [hino']
      exact h.named hname

theorem wp_link {file : Ptr} (h : Settled plain g s.toCore) (hp : s.vnodes p = some v) (hroot : v.ino = rootLocation)
    (hfile : s.vnodes file = some w) (hnamed : Named plain w.ino) :
    wp (sfsLink p name file) (fun _ t => Settled plain g t.toCore) (Fails plain g bad) s := by
  have hlive : s.Live w.ino := Core.live_vnode hfile
  have hsound := h.volume.sound
  simp only [sfsLink, vnode, wp_bind, wp_read, hfile, wp_pure]
  refine wp_dirLink hsound hp hroot (hsound.pool.live_ne hlive) hlive ?_ ?_
  · intro k t x' ht hsound' hset _ _
    have hext : Extends s.toCore t.toCore := by
      rw [ht]
      exact .withFile hp
    obtain ⟨w', hfile', hino'⟩ := hext file w hfile
    rw [← hino'] at hsound'
    refine wp_addLink ⟨hsound', by rw [ht]; exact h.volume.refs.withFile hp⟩ hfile' fun t' _ hvol hslots _ _ _ _ =>
      ⟨hvol, fun hplain => ?_⟩
    exact ((h.plain hplain).setSlot hset (hnamed hplain)).of_slots hslots
  · intro e t x' ht hsound' hsame
    exact h.of_slots ⟨hsound', by rw [ht]; exact h.volume.refs.withFile hp⟩ hsame

theorem Core.withFile_refcount (x' : FileState) (hp : c.vnodes p = some v) (hq : c.vnodes q = some w) :
    ∃ w', (c.withFile p v x').vnodes q = some w' ∧ w'.ino = w.ino ∧ w'.refcount = w.refcount := by
  rw [Core.withFile_vnodes]
  split
  · rename_i hqp
    subst hqp
    cases hp.symm.trans hq
    exact ⟨_, rfl, rfl, rfl⟩
  · exact ⟨w, hq, rfl, rfl⟩

theorem wp_unlinkDecref {Q : Unit → State → Prop} {E' : Stop Errno Panic → State → Prop}
    (h : Settled plain g s.toCore) (hp : s.vnodes p = some v) (hroot : v.ino = rootLocation)
    (hq : s.vnodes q = some w) (hname : HasName s.slots name w.ino k) (hheld : g.held q < w.refcount)
    (linkPanic : Panic) (hQ : ∀ t, Settled plain g t.toCore → Q () t) :
    wp (sfsDirUnlink p k) (fun _ t => wp (do
      let v ← vnode q
      .assert linkPanic (0 < v.inode.linkcount)
      setLinkcount q (· - 1)
      vopDecref q) Q E t) E' s := by
  refine wp_dirUnlink h.volume.sound hp hroot hname ⟨q, w, hq, rfl⟩ fun t x' ht hsound hset => ?_
  obtain ⟨w', hq', hino', href'⟩ := Core.withFile_refcount x' hp hq
  rw [← ht] at hq'
  rw [← hino'] at hsound
  have hvol : Volume noLeak (bump settled w'.ino (-1)) g t.toCore := ⟨hsound, by rw [ht]; exact h.volume.refs.withFile hp⟩
  have hpos : (0 : UInt16) < w'.inode.linkcount := UInt16.lt_iff_toNat_lt.mpr (hsound.linkcount_pos hq')
  simp only [vnode, wp_bind, wp_read, hq', wp_pure, wp_assert, hpos, decide_true, if_true]
  refine wp_dropLink hvol hq' fun t' w'' hvol' hslots' hq'' _ href'' _ => ?_
  refine wp_decref hvol' (fun _ => rfl) hq'' (by rw [href'', href']; exact hheld) fun t'' hvol'' hslots'' =>
    hQ t'' ⟨hvol'', fun hplain => ?_⟩
  exact ((h.plain hplain).setSlot hset (by decide)).of_slots (hslots''.trans hslots')

theorem wp_remove (h : Settled plain g s.toCore) (hp : s.vnodes p = some v) (hroot : v.ino = rootLocation) :
    wp (sfsRemove p name) (fun _ t => Settled plain g t.toCore) (Fails plain g bad) s := by
  simp only [sfsRemove, wp_bind]
  refine wp_lookonce h.volume hp hroot (fun _ => rfl) (fun q k t w hvol hslots hext hq hname hheld => ?_) fun t ht => ?_
  · obtain ⟨v', hp', hino'⟩ := hext p v hp
    simp only [wp_attempt]
    exact wp_unlinkDecref (h.of_slots hvol hslots) hp' (hino'.trans hroot) hq hname hheld _ fun t ht => ht
  · show Settled plain g t.toCore
    rwa [ht]

theorem HasName.setSlot {slots : List SfsDir} (h : HasName slots name ino k)
    (hfree : ∀ e, slots[k']? = some e → e.ino = 0) : HasName (setSlot slots k' d) name ino k := by
  obtain ⟨e, he, hino, hstr⟩ := h.entry
  have hkk : k' ≠ k := by
    rintro rfl
    exact h.ino_ne (hino.symm.trans (hfree e he))
  refine ⟨⟨e, ?_, hino, hstr⟩, h.ino_ne⟩
  unfold Sfs.setSlot
  split
  · rw [List.getElem?_set_ne hkk, he]
  · rw [List.getElem?_append_left (List.getElem?_eq_some_iff.mp he).1, he]

theorem Sound.vnode_type (h : Sound leaked owed c) (hp : c.vnodes p = some v) (hfile : v.ino ≠ rootLocation) :
    v.inode.type = typeFile := by
  have htype := h.file_type v.ino (Core.live_vnode hp) hfile
  rwa [h.pool.inode_eq hp] at htype

/-! ## Renaming

`sfs_rename` enters the new name and then removes the old one; when that fails it removes the new one again. A run that
loses no write, of a device that may fail, comes to one of three ends: the entry is replaced, the entries are as they
were, or the new name could not be removed and the system stops. -/

/-- The entries before and after: one name is replaced by another one of the same file. -/
structure Replaced (n1 n2 : CStr) (old new : List SfsDir) (d d' : SfsDir) : Prop where
  mem : d ∈ old
  str : d.str = n1.val
  str' : d'.str = n2.val
  ino : d'.ino = d.ino
  names : ((d' :: old).map SfsDir.str).Nodup
  perm : (d :: new).Perm (d' :: old)

theorem Core.Live.keep {i j : Blk} (h : c.Live i) (hj : c'.Live j)
    (hentries : ∀ e ∈ c.entries, e.ino = j ∨ e ∈ c'.entries)
    (hvnodes : ∀ q w, c.vnodes q = some w → w.ino = j ∨ ∃ w', c'.vnodes q = some w' ∧ w'.ino = w.ino) : c'.Live i := by
  rcases h with rfl | ⟨e, he, rfl⟩ | ⟨q, w, hq, rfl⟩
  · exact .inl rfl
  · rcases hentries e he with heq | he
    · rwa [heq]
    · exact .inr (.inl ⟨e, he, rfl⟩)
  · rcases hvnodes q w hq with heq | ⟨w', hq', hino⟩
    · rwa [heq]
    · exact .inr (.inr ⟨q, w', hq', hino⟩)

section Rename

variable {r : State → State → Prop} {n1 n2 : CStr}
variable {t : State}

theorem wpAlong_decref_named (hdone : Spares r (s.faults = [])) (h : Volume leaked settled g s.calm)
    (hq : s.vnodes q = some w) (hheld : g.held q < w.refcount) (hnamed : ∃ d ∈ s.entries, d.ino = w.ino)
    {Q : Unit → State → Prop}
    (hQ : ∀ t, t.faults <:+ s.faults → Volume leaked settled g t.calm → t.slots = s.slots →
      Beside q s.toCore t.toCore → Q () t) :
    wpAlong r (vopDecref q) Q E s := by
  refine wpAlong_decref hdone h (fun _ => rfl) hq hheld (fun hzero => ?_) hQ
  obtain ⟨d, hd, hino⟩ := hnamed
  exact absurd hino ((h.sound.root_linkcount (fun _ => rfl) hq hzero).2 d hd)

theorem wpAlong_decref_counted (hdone : Spares r (s.faults = []))
    (h : Volume leaked (bump settled w.ino (-1)) g s.calm) (hq : s.vnodes q = some w) (hheld : g.held q < w.refcount)
    (hnamed : ∃ d ∈ s.entries, d.ino = w.ino) (ht : t.toCore = s.toCore.relinked q w (w.inode.linkcount - 1))
    {Q : Unit → State → Prop}
    (hQ : ∀ t, t.faults <:+ s.faults → Volume leaked settled g t.calm → t.slots = s.slots →
      Beside q s.toCore t.toCore → Q () t) :
    wpAlong r (vopDecref q) Q E t := by
  have hcalm : t.calm = s.calm.relinked q w (w.inode.linkcount - 1) := congrArg Core.calm ht
  obtain ⟨hvol, hslots⟩ := h.relinked (c := s.calm) hq (h.sound.linkcount_sub hq)
  rw [← hcalm] at hvol hslots
  have hslots : t.slots = s.slots := hslots
  have hq' : t.vnodes q = _ := (congrArg (·.vnodes q) ht).trans (Core.relinked_vnodes _)
  have hfaults : t.faults = s.faults := by
    rw [ht]
    rfl
  refine wpAlong_decref_named (by rwa [hfaults]) hvol hq' hheld ?_ fun t' hfaults' hvol' hslots' hothers =>
    hQ t' (hfaults ▸ hfaults') hvol' (hslots'.trans hslots) ⟨fun q' hne => ?_, ?_⟩
  · rw [Core.entries, hslots]
    exact hnamed
  · rw [hothers.vnodes q' hne, ht, Core.relinked, Core.withFile_vnodes, if_neg hne]
  · rw [hothers.nblocks, ht]
    rfl

theorem Core.one_left (hname : HasName c.slots n1 ino k)
    (hother : HasName c.slots n2 ino k') (hne : n1.val ≠ n2.val) {new : List SfsDir}
    (hnew : new = setSlot c.slots k .empty) :
    ∃ d, d.ino = ino ∧ d.str = n1.val ∧ c.entries.Perm (d :: occupied new) ∧ ∃ e ∈ occupied new, e.ino = ino := by
  obtain ⟨d, hd, hino, hstr⟩ := hname.entry
  have hperm : c.entries.Perm (d :: occupied new) := by
    rw [hnew]
    exact occupied_unlink hd (hino.trans_ne hname.ino_ne)
  obtain ⟨e, he, hino', hstr'⟩ := hother.mem
  refine ⟨d, hino, hstr, hperm, e, ?_, hino'⟩
  rcases List.mem_cons.mp (hperm.mem_iff.mp he) with rfl | he
  · exact absurd (hstr.symm.trans hstr') hne
  · exact he

/-- What is known when the file has both names. -/
structure Linked (leaked : Blk → Prop) (g : Callers) (p q : Ptr) (v w : Vnode) (n1 n2 : CStr) (k k' : Nat) (s : State) :
    Prop where
  volume : Volume leaked settled g s.calm
  dir : s.vnodes p = some v
  root : v.ino = rootLocation
  file : s.vnodes q = some w
  notRoot : w.ino ≠ rootLocation
  dirty : w.dirty = true
  ref : g.held q < w.refcount
  old : HasName s.slots n1 w.ino k
  new : HasName s.slots n2 w.ino k'
  names_ne : n1.val ≠ n2.val

theorem Linked.unlinked (h : Linked leaked g p q v w n1 n2 k k' s) (hdone : Spares r (s.faults = []))
    {x' : FileState} {u : State} (hfaults : t.faults <:+ s.faults) (hcalm : t.calm = s.calm.withFile p v x')
    (hsound : Sound leaked (bump settled w.ino (-1)) t.calm) (hset : t.slots = setSlot s.slots k .empty)
    (hu : u.toCore = t.toCore.relinked q w (w.inode.linkcount - 1)) {Q : Unit → State → Prop}
    (hQ : ∀ t' d, t'.faults <:+ s.faults → Volume leaked settled g t'.calm → d.ino = w.ino → d.str = n1.val →
      s.entries.Perm (d :: t'.entries) → (∀ i, s.Live i → t'.Live i) → Q () t') :
    wpAlong r (vopDecref q) Q E u := by
  have hpq : q ≠ p := by
    rintro rfl
    cases h.dir.symm.trans h.file
    exact h.notRoot h.root
  have hvnodes : ∀ q', q' ≠ p → t.vnodes q' = s.vnodes q' := by
    intro q' hne
    rw [show t.vnodes q' = t.calm.vnodes q' from rfl, hcalm, Core.withFile_vnodes, if_neg hne]
    rfl
  obtain ⟨d, hino, hstr, hperm, hleft⟩ := Core.one_left (c := s.toCore) h.old h.new h.names_ne hset
  have hdone' : Spares r (t.faults = []) := hdone.imp fun hnil => by
    rw [hnil] at hfaults
    exact List.suffix_nil.mp hfaults
  have hvol : Volume leaked (bump settled w.ino (-1)) g t.calm :=
    ⟨hsound, by rw [hcalm]; exact h.volume.refs.withFile h.dir⟩
  refine wpAlong_decref_counted hdone' hvol ((hvnodes q hpq).trans h.file) h.ref hleft hu
    fun t' hfaults' hvol' hslots hothers => ?_
  have hentries : t'.entries = occupied t.slots := congrArg occupied hslots
  rw [← hentries] at hperm hleft
  refine hQ t' d (hfaults'.trans hfaults) hvol' hino hstr hperm fun i hi =>
    hi.keep (j := w.ino) (.inr (.inl hleft)) (fun e he => ?_) ?_
  · rcases List.mem_cons.mp (hperm.mem_iff.mp he) with rfl | he
    · exact .inl hino
    · exact .inr he
  · intro q' w' hq'
    by_cases hqq : q' = q
    · subst hqq
      cases h.file.symm.trans hq'
      exact .inl rfl
    · obtain ⟨w'', hq'', hino''⟩ := Extends.withFile (y := x') (c := s.calm) h.dir q' w' hq'
      refine .inr ⟨w'', ?_, hino''⟩
      rw [hothers.vnodes q' hqq]
      exact (congrArg (·.vnodes q') hcalm).trans hq''

theorem wpAlong_renameUnlink (h : Linked leaked g p q v w n1 n2 k k' s) (hdone : Spares r (s.faults = []))
    {Q : Unit → State → Prop}
    (hQ : ∀ t d, t.faults <:+ s.faults → Volume leaked settled g t.calm → d.ino = w.ino → d.str = n1.val →
      s.entries.Perm (d :: t.entries) → (∀ i, s.Live i → t.Live i) → Q () t)
    (hE : ∀ e t d, t.faults <:+ s.faults → Volume leaked settled g t.calm → d.ino = w.ino → d.str = n2.val →
      s.entries.Perm (d :: t.entries) → (∀ i, s.Live i → t.Live i) → E (.err e) t)
    (hpanic : ∀ t, s.faults ≠ [] → E (.panic .renameRecover) t) : wpAlong r (renameUnlink p q k k') Q E s := by
  have hpq : q ≠ p := by
    rintro rfl
    cases h.dir.symm.trans h.file
    exact h.notRoot h.root
  have hfile : ∀ (t : State) x', t.calm = s.calm.withFile p v x' → t.vnodes q = some w := by
    intro t x' hcalm
    rw [show t.vnodes q = t.calm.vnodes q from rfl, hcalm, Core.withFile_vnodes, if_neg hpq]
    exact h.file
  simp only [renameUnlink, wpAlong_bind, wpAlong_attempt]
  refine wpAlong_dirUnlink h.volume.sound h.dir h.root hdone h.old ⟨q, w, h.file, rfl⟩ ?_ ?_
  · intro t x' hfaults hcalm hsound hset
    have hq := hfile t x' hcalm
    have hpos : (0 : UInt16) < w.inode.linkcount := UInt16.lt_iff_toNat_lt.mpr (hsound.linkcount_pos hq)
    simp only [vnode, wpAlong_bind, wpAlong_read, hq, wpAlong_pure, wpAlong_assert, hpos, decide_true, if_true]
    exact wp.along (wp_setLinkcount hq fun u hu => h.unlinked hdone hfaults hcalm hsound hset hu hQ)
  · -- the old name stays, and the new one is removed again
    intro e t x' hne hfaults hcalm hsound hset
    have hvol : Volume leaked settled g t.calm := ⟨hsound, by rw [hcalm]; exact h.volume.refs.withFile h.dir⟩
    have hq := hfile t x' hcalm
    have hp : t.vnodes p = some { v with inode := x'.inode, dirty := x'.dirty } := by
      rw [show t.vnodes p = t.calm.vnodes p from rfl, hcalm, Core.withFile_vnodes, if_pos rfl]
    have hlinked : Linked leaked g p q { v with inode := x'.inode, dirty := x'.dirty } w n2 n1 k' k t :=
      ⟨hvol, hp, h.root, hq, h.notRoot, h.dirty, h.ref, by rw [hset]; exact h.new, by rw [hset]; exact h.old,
        h.names_ne.symm⟩
    have hentries : t.entries = s.entries := congrArg occupied hset
    have hdone' : Spares r (t.faults = []) := hdone.imp fun hnil => absurd hnil hne
    have hlive : ∀ i, s.Live i → t.Live i := by
      intro i hi
      refine hi.keep (j := rootLocation) (.inl rfl) (fun e he => .inr (by rwa [hentries])) fun q' w' hq' => .inr ?_
      obtain ⟨w'', hq'', hino⟩ := Extends.withFile (y := x') (c := s.calm) h.dir q' w' hq'
      exact ⟨w'', (congrArg (·.vnodes q') hcalm).trans hq'', hino⟩
    dsimp only
    refine wpAlong_dirUnlink hsound hp h.root hdone' hlinked.old ⟨q, w, hq, rfl⟩ ?_ ?_
    · intro t' x'' hfaults' hcalm' hsound' hset'
      have hq' : t'.vnodes q = some w := by
        rw [show t'.vnodes q = t'.calm.vnodes q from rfl, hcalm', Core.withFile_vnodes, if_neg hpq]
        exact hq
      refine wp.along (wp_setVnode hq' fun u hu => ?_)
      have hu : u.toCore = t'.toCore.relinked q w (w.inode.linkcount - 1) := by
        rw [hu]
        simp only [Core.relinked, Core.withFile, Core.withVnode, Core.file, h.dirty]
      refine hlinked.unlinked hdone' hfaults' hcalm' hsound' hset' hu fun t'' d hfaults'' hvol'' hino hstr hperm hlive' =>
        (wpAlong_err _).mpr (hE e t'' d (hfaults''.trans hfaults) hvol'' hino hstr (by rwa [hentries] at hperm)
          fun i hi => hlive' i (hlive i hi))
    · intro _ t' _ _ _ _ _ _
      exact (wpAlong_panic _).mpr (hpanic t' hne)

theorem wpAlong_rename (h : Volume leaked settled g s.calm) (hp : s.vnodes p = some v) (hroot : v.ino = rootLocation)
    (hdone : Spares r (s.faults = [])) {Q : Unit → State → Prop}
    (hQ : ∀ t d d', t.faults <:+ s.faults → Volume leaked settled g t.calm →
      Replaced n1 n2 s.entries t.entries d d' → (∀ i, s.Live i → t.Live i) → Q () t)
    (hE : ∀ e t, t.faults <:+ s.faults → Volume leaked settled g t.calm → t.entries.Perm s.entries →
      (∀ i, s.Live i → t.Live i) → E (.err e) t)
    (htype : ∀ t, (∃ rest, afterReads (s.file v).searchReads s.faults = some rest) →
      (∃ d ∈ s.entries, d.str = n1.val ∧ d.ino = rootLocation) → E (.panic .renameType) t)
    (hpanic : ∀ t, s.faults ≠ [] → E (.panic .renameRecover) t) : wpAlong r (sfsRename p n1 p n2) Q E s := by
  simp only [sfsRename, vnode, wpAlong_bind, wpAlong_read, wpAlong_assert, hp, wpAlong_pure, hroot, decide_true, if_true]
  refine (wp_lookonce_any h hp hroot (fun _ => rfl) (fun q k t w hreads hfaults hvol hslots hext hq hname hheld => ?_)
    fun e t _ _ hfaults hcalm => ?_).along
  swap
  · have hslots : t.slots = s.slots := Core.slots_of_calm hcalm
    refine hE e t hfaults (by rwa [hcalm]) (by rw [Core.entries, hslots]; exact .refl _) fun i hi => ?_
    exact (Core.live_of_calm hcalm i).mpr hi
  have hentries : t.entries = s.entries := congrArg occupied hslots
  have hq' : t.calm.vnodes q = some w := hq
  simp only [hq, wpAlong_pure]
  split
  swap
  · rename_i hno
    refine htype t hreads ?_
    obtain ⟨d, hd, hino, hstr⟩ := hname.mem
    refine ⟨d, by rwa [← hentries], hstr, ?_⟩
    by_contra hne
    exact hno (decide_eq_true (hvol.sound.vnode_type hq' (hino ▸ hne)))
  rename_i hreg
  have hnotroot : w.ino ≠ rootLocation := by
    intro hw
    have htype := (hvol.sound.rootOk hq' hw).type
    rw [of_decide_eq_true hreg] at htype
    cases htype
  obtain ⟨v', hp', hino'⟩ := hext p v hp
  have hlive : t.Live w.ino := Core.live_vnode hq
  have hdone' : Spares r (t.faults = []) := hdone.imp fun hnil => by
    rw [hnil] at hfaults
    exact List.suffix_nil.mp hfaults
  have hlive' : ∀ i, s.Live i → t.Live i := by
    intro i hi
    refine hi.keep (j := rootLocation) (.inl rfl) (fun e he => .inr (by rwa [hentries])) fun q' w' hq' => .inr ?_
    exact hext q' w' hq'
  have hpq : q ≠ p := by
    rintro rfl
    cases hp'.symm.trans hq
    exact hnotroot (hino'.trans hroot)
  simp only [wpAlong_attempt]
  refine wpAlong_dirLink hvol.sound hp' (hino'.trans hroot) hdone' (hvol.sound.pool.live_ne hlive) hlive ?_ ?_
  · intro k₂ t' x' hfaults' hcalm hsound hset hfree hnew
    have hq' : t'.vnodes q = some w := by
      rw [show t'.vnodes q = t'.calm.vnodes q from rfl, hcalm, Core.withFile_vnodes, if_neg hpq]
      exact hq
    have hvol' : Volume leaked (bump settled w.ino 1) g t'.calm :=
      ⟨hsound, by rw [hcalm]; exact hvol.refs.withFile hp'⟩
    simp only [wpAlong_bind]
    refine wp.along (wp_setLinkcount hq' fun u hu => ?_)
    have hucalm : u.calm = t'.calm.relinked q w (w.inode.linkcount + 1) := congrArg Core.calm hu
    obtain ⟨huvol, huslots⟩ := hvol'.relinked (c := t'.calm) hq' (hsound.linkcount_add hq')
    rw [← hucalm] at huvol huslots
    have huslots : u.slots = t'.slots := huslots
    have huset : u.slots = setSlot t.slots k₂ (.link w.ino n2) := huslots.trans hset
    -- the new name is not the old one
    have hperm : u.entries.Perm (.link w.ino n2 :: s.entries) := by
      rw [Core.entries, huset, ← hentries]
      exact occupied_link hfree (hvol.sound.pool.live_ne hlive)
    have hstr : (SfsDir.link w.ino n2).str = n2.val := by
      obtain ⟨e, he, -, hstr⟩ := hnew.entry
      rw [hset] at he
      rwa [← getElem?_setSlot_self he]
    have hnodup : ((SfsDir.link w.ino n2 :: s.entries).map SfsDir.str).Nodup :=
      (hperm.map _).nodup_iff.mp huvol.sound.root.names
    have hfresh : ∀ e ∈ s.entries, e.str ≠ n2.val := by
      intro e he heq
      rw [List.map_cons, hstr, ← heq] at hnodup
      exact (List.nodup_cons.mp hnodup).1 (List.mem_map_of_mem he)
    have hne : n1.val ≠ n2.val := by
      obtain ⟨e, he, -, hestr⟩ := hname.mem
      rw [← hestr]
      exact hfresh e (by rwa [← hentries])
    have hup : u.vnodes p = some { v' with inode := x'.inode, dirty := x'.dirty } := by
      rw [hu, Core.relinked, Core.withFile_vnodes, if_neg (Ne.symm hpq),
        show t'.vnodes p = t'.calm.vnodes p from rfl, hcalm, Core.withFile_vnodes, if_pos rfl]
    have huq : u.vnodes q = _ := (congrArg (·.vnodes q) hu).trans (Core.relinked_vnodes _)
    have hlinked : Linked leaked g p q { v' with inode := x'.inode, dirty := x'.dirty }
        { w with inode := { w.inode with linkcount := w.inode.linkcount + 1 }, dirty := true } n1 n2 k k₂ u :=
      ⟨huvol, hup, hino'.trans hroot, huq, hnotroot, rfl, hheld, by rw [huset]; exact hname.setSlot hfree,
        by rw [huslots]; exact hnew, hne⟩
    have hufaults : u.faults <:+ s.faults := by
      rw [hu]
      exact hfaults'.trans hfaults
    have hnil : u.faults ≠ [] → s.faults ≠ [] := fun hne hnil => hne (by
      rw [hnil] at hufaults
      exact List.suffix_nil.mp hufaults)
    have hulive : ∀ i, s.Live i → u.Live i := by
      intro i hi
      refine (hlive' i hi).keep (j := rootLocation) (.inl rfl) (fun e he => .inr ?_) fun q' w' hold => .inr ?_
      · rw [hentries] at he
        exact hperm.mem_iff.mpr (List.mem_cons_of_mem _ he)
      · obtain ⟨w₁, hq₁, hino₁⟩ := Extends.withFile (y := x') (c := t.calm) hp' q' w' hold
        rw [← hcalm] at hq₁
        obtain ⟨w₂, hq₂, hino₂⟩ := Extends.withFile (c := t'.toCore) hq' q' w₁ hq₁
        exact ⟨w₂, (congrArg (·.vnodes q') hu).trans hq₂, hino₂.trans hino₁⟩
    refine wpAlong_renameUnlink hlinked (hdone.imp fun hs => by rw [hs] at hufaults; exact List.suffix_nil.mp hufaults)
      ?_ ?_ fun t'' hne => hpanic t'' (hnil hne)
    · intro t'' d hfaults'' hvol'' hino hdstr hperm' hlive''
      refine hQ t'' d (.link w.ino n2) (hfaults''.trans hufaults) hvol'' ⟨?_, hdstr, hstr, hino.symm, hnodup, hperm'.symm.trans hperm⟩
        fun i hi => hlive'' i (hulive i hi)
      rcases List.mem_cons.mp (hperm.mem_iff.mp (hperm'.mem_iff.mpr List.mem_cons_self)) with rfl | hd
      · exact absurd (hdstr.symm.trans hstr) hne
      · exact hd
    · intro e t'' d hfaults'' hvol'' _ hdstr hperm' hlive''
      refine hE e t'' (hfaults''.trans hufaults) hvol'' ?_ fun i hi => hlive'' i (hulive i hi)
      have hd : d = .link w.ino n2 := by
        rcases List.mem_cons.mp (hperm.mem_iff.mp (hperm'.mem_iff.mpr List.mem_cons_self)) with hd | hd
        · exact hd
        · exact absurd hdstr (hfresh d hd)
      rw [hd] at hperm'
      exact (hperm'.symm.trans hperm).cons_inv
  · -- the file keeps its one name
    intro e t' x' hfaults' hcalm hsound hset
    have hq' : t'.vnodes q = some w := by
      rw [show t'.vnodes q = t'.calm.vnodes q from rfl, hcalm, Core.withFile_vnodes, if_neg hpq]
      exact hq
    have hvol' : Volume leaked settled g t'.calm := ⟨hsound, by rw [hcalm]; exact hvol.refs.withFile hp'⟩
    obtain ⟨d, hd, hino, -⟩ := hname.mem
    have hdone'' : Spares r (t'.faults = []) := hdone'.imp fun hnil => by
      rw [hnil] at hfaults'
      exact List.suffix_nil.mp hfaults'
    simp only [wpAlong_bind]
    refine wpAlong_decref_named hdone'' hvol' hq' hheld ⟨d, by rwa [Core.entries, hset], hino⟩
      fun t'' hfaults'' hvol'' hslots'' hothers => (wpAlong_err _).mpr ?_
    have hentries'' : t''.entries = s.entries := congrArg occupied ((hslots''.trans hset).trans hslots)
    refine hE e t'' (hfaults''.trans (hfaults'.trans hfaults)) hvol'' (by rw [hentries'']) fun i hi => ?_
    refine (hlive' i hi).keep (j := w.ino) (.inr (.inl ⟨d, ?_, hino⟩)) (fun e he => .inr ?_) fun q' w' hold => ?_
    · rw [hentries'', ← hentries]
      exact hd
    · rwa [hentries'', ← hentries]
    · by_cases hqq : q' = q
      · subst hqq
        cases hq.symm.trans hold
        exact .inl rfl
      · obtain ⟨w₁, hq₁, hino₁⟩ := Extends.withFile (y := x') (c := t.calm) hp' q' w' hold
        rw [← hcalm] at hq₁
        exact .inr ⟨w₁, (hothers.vnodes q' hqq).trans hq₁, hino₁⟩

end Rename

theorem wp_rename {d2 : Ptr} {n2 : CStr} (h : Settled plain g s.toCore) (hp : s.vnodes p = some v)
    (hroot : v.ino = rootLocation) (hdirs : p ≠ d2 → bad .renameDirs) (hbad : ¬ plain → bad .renameType) :
    wp (sfsRename p name d2 n2) (fun _ t => Settled plain g t.toCore) (Fails plain g bad) s := by
  by_cases hd : p = d2
  swap
  · simp only [sfsRename, wp_bind, wp_assert, hd, decide_false, Bool.false_eq_true, if_false]
    exact hdirs hd
  subst hd
  have hs := h.volume.sound.fits.faults
  refine (wpAlong_rename h.volume.calm hp hroot (.inr hs) ?_ ?_ ?_ fun _ hne => absurd hs hne).wp
  · intro t d d' ht hvol hrep _
    rw [calm_of_suffix hs ht] at hvol
    refine ⟨hvol, fun hplain e he => ?_⟩
    rcases List.mem_cons.mp (hrep.perm.mem_iff.mp (List.mem_cons_of_mem _ he)) with rfl | he
    · rw [hrep.ino]
      exact h.plain hplain d hrep.mem
    · exact h.plain hplain e he
  · intro e t ht hvol hperm _
    rw [calm_of_suffix hs ht] at hvol
    exact ⟨hvol, fun hplain e he => h.plain hplain e (hperm.mem_iff.mp he)⟩
  · rintro t - ⟨d, hd, -, hino⟩
    exact hbad fun hplain => h.plain hplain d hd hino

theorem wp_lookup (h : Settled plain g s.toCore) (hp : s.vnodes p = some v) (hroot : v.ino = rootLocation) :
    wp (sfsLookup p name) (Hands plain g (Named plain)) (Fails plain g bad) s := by
  have htype := (h.volume.sound.rootOk hp hroot).type
  simp only [sfsLookup, vnode, wp_bind, wp_read, hp, wp_pure, htype, ne_eq, not_true_eq_false, if_false]
  refine wp_lookonce h.volume hp hroot (fun _ => rfl) (fun q k t w hvol hslots _ hq hname hheld => ?_) fun t ht => ?_
  · have ht := h.of_slots hvol hslots
    exact ⟨ht, w, hq, hheld, ht.named hname⟩
  · show Settled plain g t.toCore
    rwa [ht]

theorem wp_lookparent (h : Settled plain g s.toCore) (hp : s.vnodes p = some v) (hroot : v.ino = rootLocation)
    (buflen : Nat) : wp (sfsLookparent p name buflen)
      (fun r t => r = (p, name) ∧ Hands plain g (· = rootLocation) p t) (Fails plain g bad) s := by
  have htype := (h.volume.sound.rootOk hp hroot).type
  have hle := h.volume.refs.held_le p v hp
  simp only [sfsLookparent, vnode, wp_bind, wp_read, hp, wp_pure, htype, ne_eq, not_true_eq_false, if_false, wp_ite,
    wp_err]
  split
  · exact h
  · simp only [vopIncref]
    refine wp_setVnode hp fun t ht => ?_
    obtain ⟨hvol, hslots⟩ := h.volume.recount hp (n := v.refcount + 1) (by omega) (by omega)
    rw [← ht] at hvol hslots
    refine ⟨trivial, h.of_slots hvol hslots, { v with refcount := v.refcount + 1 }, ?_, Nat.lt_succ_of_le hle, hroot⟩
    rw [ht, Core.withVnode_vnodes, if_pos rfl]

theorem wp_getroot (h : Settled plain g s.toCore) :
    wp sfsGetroot (Hands plain g (· = rootLocation)) E s := by
  simp only [sfsGetroot, wp_bind, wp_attempt]
  exact wp_loadvnode h.volume Core.live_root fun q t w hvol hslots _ hq hino hheld =>
    ⟨h.of_slots hvol hslots, w, hq, hheld, hino⟩

/-! ## Contents -/

section File

variable (h : Settled plain g s.toCore) (hp : s.vnodes p = some v) (hfile : v.ino ≠ rootLocation)
include h hp

variable {u : Uio}

theorem wp_read_file (hrw : u.rw = .read) (hu : u.Ok) :
    wp (sfsRead p u) (fun _ t => t.toCore = s.toCore) E s := by
  simp only [sfsRead, wp_bind, wp_assert, hrw, decide_true, if_true, sfsIo]
  exact wp_ioRead (h.volume.sound.working v.ino) (h.volume.sound.fileOk hp) (Core.withFile_file hp).symm hrw hu
    fun t _ _ ht _ => ht.trans (Core.withFile_file hp)

include hfile

theorem wp_write_file (hrw : u.rw = .write) (hu : u.Ok) :
    wp (sfsWrite p u) (fun _ t => Settled plain g t.toCore) E s := by
  simp only [sfsWrite, wp_bind, wp_assert, hrw, decide_true, if_true, sfsIo]
  refine wp_ioWrite (N := fun _ => True) (h.volume.sound.working v.ino) (Core.withFile_file hp).symm (h.volume.sound.fileOk hp) hrw hu
    (fun _ _ _ _ _ => trivial) ?_
  intro t x' _ _ ht hstep _ _ _ _ _ _ _
  obtain ⟨hvol, hslots⟩ := h.volume.fileStep hp hfile hstep
  rw [show t.toCore = _ from ht]
  exact h.of_slots hvol hslots

theorem wp_truncate_file (len : Nat) :
    wp (sfsTruncate p len) (fun _ t => Settled plain g t.toCore) E s := by
  refine wp_sfsTruncate (h.volume.sound.working v.ino) len (Core.withFile_file hp).symm (h.volume.sound.fileOk hp) ?_
  intro t x' ht hx' _ _ _
  obtain ⟨hvol, hslots⟩ := h.volume.fileStep hp hfile hx'.step
  rw [show t.toCore = _ from ht]
  exact h.of_slots hvol hslots

end File

/-! ## Dispatch -/

theorem Sound.dir_root (h : Sound leaked owed c) (hp : c.vnodes p = some v) (hops : v.ops = .dir) : v.ino = rootLocation := by
  by_contra hroot
  have := h.pool.ops p v hp
  rw [h.vnode_type hp hroot, hops] at this
  cases this

theorem Sound.file_not_root (h : Sound leaked owed c) (hp : c.vnodes p = some v) (hops : v.ops = .file) :
    v.ino ≠ rootLocation := by
  intro hroot
  have htype := (h.rootOk hp hroot).type
  have := h.pool.ops p v hp
  rw [htype, hops] at this
  cases this

section Dispatch

variable {α : Type} {op : P α} {Q : α → State → Prop} (h : Settled plain g s.toCore) (hp : s.vnodes p = some v)
include h hp

theorem wp_dirOp (hop : v.ino = rootLocation → wp op Q (Fails plain g bad) s) : wp (dirOp p op) Q (Fails plain g bad) s := by
  simp only [dirOp, vnode, wp_bind, wp_read, hp, wp_pure]
  cases hops : v.ops with
  | dir => exact hop (h.volume.sound.dir_root hp hops)
  | file => exact h

theorem wp_fileOp (hop : v.ino ≠ rootLocation → wp op Q (Fails plain g bad) s) : wp (fileOp p op) Q (Fails plain g bad) s := by
  simp only [fileOp, vnode, wp_bind, wp_read, hp, wp_pure]
  cases hops : v.ops with
  | file => exact hop (h.volume.sound.file_not_root hp hops)
  | dir => exact h

end Dispatch

end Os161.Sfs

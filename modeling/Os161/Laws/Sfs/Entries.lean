import Os161.Laws.Sfs.Dir

/-!
# Entering and removing names

`sfs_dir_link` and `sfs_dir_unlink` on a sound volume. The link counts are not theirs to change, so that an inode is
owed one afterwards; when `sfs_dir_link` fails, the entries are as they were. `sfs_dir_unlink` of an entry does not
fail.
-/

namespace Os161.Sfs

open Os161.Lib Prog

variable {c : Core} {p : Ptr} {v : Vnode} {s : State} {owed : Blk → Int} {leaked : Blk → Prop} {name : CStr}
  {ino : Blk} {E : Stop Errno Panic → State → Prop}
variable {l l' : List SfsDir} {d : SfsDir} {k : Nat} {c' : Core} {rest : List Bool} {t : State}
  {Q : Nat → State → Prop}

/-- A link count is owed `n` more. -/
def bump (owed : Blk → Int) (i : Blk) (n : Int) : Blk → Int := Function.update owed i (owed i + n)

theorem links_perm (h : l.Perm l') (i : Blk) : links l i = links l' i := h.countP_eq _

theorem links_cons (d : SfsDir) (l : List SfsDir) (i : Blk) :
    links (d :: l) i = links l i + if d.ino = i then 1 else 0 := by
  simp only [links, List.countP_cons, decide_eq_true_eq]

theorem bump_links (h : l'.Perm (d :: l)) :
    (fun i => owed i + links l' i - links l i) = bump owed d.ino 1 := by
  funext i
  rw [links_perm h, links_cons]
  by_cases hi : i = d.ino
  · subst hi
    simp only [bump, Function.update_self, if_true]
    omega
  · rw [bump, Function.update_of_ne hi, if_neg (Ne.symm hi)]
    omega

theorem bump_links_neg (h : l.Perm (d :: l')) :
    (fun i => owed i + links l' i - links l i) = bump owed d.ino (-1) := by
  funext i
  rw [links_perm h, links_cons]
  by_cases hi : i = d.ino
  · subst hi
    simp only [bump, Function.update_self, if_true]
    omega
  · rw [bump, Function.update_of_ne hi, if_neg (Ne.symm hi)]
    omega

section Root

variable (h : Sound leaked owed c) (hp : c.vnodes p = some v) (hroot : v.ino = rootLocation)
include h hp hroot

theorem Sound.slots_eq : (c.file v).slots = c.slots := by
  have hinode := h.pool.inode_eq hp
  rw [hroot] at hinode
  simp only [Core.slots, hinode]
  rfl

theorem Sound.rootOk : RootOk v.inode (c.file v).slots := by
  have hinode := h.pool.inode_eq hp
  have hslots := h.slots_eq hp hroot
  rw [hroot] at hinode
  rw [← hinode, hslots]
  exact h.root

variable {x' : FileState} (hx : FileStep (c.Others leaked v.ino) (c.file v) x')
include hx

theorem Sound.rootSame (hslots : x'.slots = c.slots) (hsize : x'.inode.size = v.inode.size) :
    Sound leaked owed (c.withFile p v x') ∧ (c.withFile p v x').slots = c.slots := by
  have hok := h.rootOk hp hroot
  have hstep := h.rootStep hp hroot hx hslots
    ⟨hx.type.trans hok.type, by rw [hsize]; exact hok.whole, by rw [hsize]; exact hok.small, h.root.names⟩
    (fun d hd => .inr (.inl ⟨d, hd, rfl⟩)) fun d hd => .inr (.inl ⟨d, hd, rfl⟩)
  have howed : (fun i => owed i + Sfs.links (occupied c.slots) i - Sfs.links c.entries i) = owed := by
    funext i
    exact Int.add_sub_cancel ..
  rwa [howed] at hstep

theorem Sound.linked (hslots : x'.slots = setSlot c.slots k d)
    (hwhole : x'.inode.size.toNat % direntSize = 0) (hsmall : x'.inode.size.toNat ≤ maxFile)
    (hfree : ∀ e, c.slots[k]? = some e → e.ino = 0) (hd : d.ino ≠ 0) (hlive : c.Live d.ino)
    (hnew : ∀ e ∈ c.entries, e.str ≠ d.str) :
    Sound leaked (bump owed d.ino 1) (c.withFile p v x') ∧ (c.withFile p v x').slots = setSlot c.slots k d := by
  have hperm : (occupied (setSlot c.slots k d)).Perm (d :: c.entries) := occupied_link hfree hd
  have hok := h.rootOk hp hroot
  have hnames : ((occupied (setSlot c.slots k d)).map SfsDir.str).Nodup := by
    rw [(hperm.map _).nodup_iff, List.map_cons, List.nodup_cons]
    refine ⟨fun hmem => ?_, h.root.names⟩
    obtain ⟨e, he, hstr⟩ := List.mem_map.mp hmem
    exact hnew e he hstr
  rw [← bump_links hperm]
  refine h.rootStep hp hroot hx hslots ⟨hx.type.trans hok.type, hwhole, hsmall, hnames⟩ ?_ ?_
  · intro e he
    rcases List.mem_cons.mp (hperm.mem_iff.mp he) with rfl | he
    · exact hlive
    · exact .inr (.inl ⟨e, he, rfl⟩)
  · intro e he
    exact .inr (.inl ⟨e, hperm.mem_iff.mpr (List.mem_cons_of_mem _ he), rfl⟩)

theorem Sound.unlinked (hslots : x'.slots = setSlot c.slots k .empty)
    (hwhole : x'.inode.size.toNat % direntSize = 0) (hsmall : x'.inode.size.toNat ≤ maxFile)
    (hk : c.slots[k]? = some d) (hd : d.ino ≠ 0) (hloaded : ∃ q w, c.vnodes q = some w ∧ w.ino = d.ino) :
    Sound leaked (bump owed d.ino (-1)) (c.withFile p v x') ∧ (c.withFile p v x').slots = setSlot c.slots k .empty := by
  have hperm : c.entries.Perm (d :: occupied (setSlot c.slots k .empty)) := occupied_unlink hk hd
  have hok := h.rootOk hp hroot
  have hnames : ((occupied (setSlot c.slots k .empty)).map SfsDir.str).Nodup := by
    have hnames := h.root.names
    rw [show occupied c.slots = c.entries from rfl, (hperm.map _).nodup_iff, List.map_cons] at hnames
    exact (List.nodup_cons.mp hnames).2
  rw [← bump_links_neg hperm]
  refine h.rootStep hp hroot hx hslots ⟨hx.type.trans hok.type, hwhole, hsmall, hnames⟩ ?_ ?_
  · intro e he
    exact .inr (.inl ⟨e, hperm.mem_iff.mpr (List.mem_cons_of_mem _ he), rfl⟩)
  · intro e he
    rcases List.mem_cons.mp (hperm.mem_iff.mp he) with rfl | he
    · exact .inr (.inr hloaded)
    · exact .inr (.inl ⟨e, he, rfl⟩)

end Root

/-! ## The functions -/

@[simp] theorem Core.calm_file (c : Core) (v : Vnode) : c.calm.file v = c.file v := rfl

@[simp] theorem Core.calm_slots (c : Core) : c.calm.slots = c.slots := rfl

@[simp] theorem Core.calm_entries (c : Core) : c.calm.entries = c.entries := rfl

theorem Core.calm_of_eq (h : c' = c.withFaults rest) : c'.calm = c.calm := by
  rw [h]
  rfl

theorem Core.slots_of_calm (h : c'.calm = c.calm) : c'.slots = c.slots :=
  show c'.calm.slots = c.calm.slots from congrArg Core.slots h

theorem Core.vnodes_of_calm (h : c'.calm = c.calm) : c'.vnodes = c.vnodes :=
  show c'.calm.vnodes = c.calm.vnodes from congrArg Core.vnodes h

theorem Core.live_of_calm (h : c'.calm = c.calm) (i : Blk) : c'.Live i ↔ c.Live i :=
  Iff.of_eq (show c'.calm.Live i = c.calm.Live i from congrArg (Core.Live · i) h)

theorem Sound.mounted_calm (h : Sound leaked owed c.calm) (i : Blk) : Mounted (c.calm.Others leaked i) c :=
  ⟨h.fits.device, fun _ hb => .inl (.inl (.inr (.inr hb)))⟩

theorem Focus.calm {x' : FileState} (h : Focus (c.withFaults rest) p v t x') :
    t.calm = c.calm.withFile p v x' := congrArg Core.calm h

theorem Focus.faults_suffix {x' : FileState} (h : Focus (c.withFaults rest) p v t x')
    (hrest : rest <:+ c.faults) : t.faults <:+ c.faults := by
  rwa [h.faults]

section Functions

variable (h : Sound leaked owed s.calm) (hp : s.vnodes p = some v) (hroot : v.ino = rootLocation)
include h hp hroot

variable {r : State → State → Prop}

theorem wp_findname_any {Q : Option (Blk × Nat) × Option Nat → State → Prop}
    (hQ : ∀ rest t found emptyslot, afterReads (s.file v).searchReads s.faults = some rest →
      t.toCore = s.withFaults rest → FoundIn s.slots name s.slots.length found →
      EmptyIn s.slots s.slots.length emptyslot → Q (found, emptyslot) t)
    (hE : ∀ rest t, rest <:+ s.faults → afterReads (s.file v).searchReads s.faults = none →
      t.toCore = s.withFaults rest → E (.err Errno.EIO) t) :
    wp (sfsDirFindname p name) Q E s := by
  have hslots : (s.file v).slots = s.slots := h.slots_eq hp hroot
  have hok : FileOk (s.calm.Others leaked v.ino) (s.file v) := h.fileOk hp
  have hroot' : RootOk (s.file v).inode (s.file v).slots := h.rootOk hp hroot
  have hself : ∀ rest, (s.withFaults rest).withFile p v (s.file v) = s.withFaults rest :=
    fun rest => Core.withFile_file (c := s.withFaults rest) hp
  refine wp_dirFindname hok hroot' (h.mounted_calm v.ino) (Core.withFile_file hp).symm ?_ ?_
  · intro rest t found emptyslot hreads ht hfound hempty
    rw [hslots] at hfound hempty
    exact hQ rest t found emptyslot hreads (ht.trans (hself rest)) hfound hempty
  · intro rest t hrest hreads ht
    exact hE rest t hrest hreads (ht.trans (hself rest))

theorem wpAlong_dirEnter
    (hdone : Spares r (s.faults = [])) (hk : k ≤ s.slots.length) (hfree : ∀ e, s.slots[k]? = some e → e.ino = 0)
    (hino : ino ≠ 0) (hlive : s.Live ino) (hlen : ¬ name.val.length + 1 > nameLen)
    (hnew : ∀ e ∈ s.entries, e.str ≠ name.val)
    (hQ : ∀ t x', t.faults <:+ s.faults → t.calm = s.calm.withFile p v x' → Sound leaked (bump owed ino 1) t.calm →
      t.slots = setSlot s.slots k (.link ino name) → Q k t)
    (hE : ∀ e t x', t.faults <:+ s.faults → t.calm = s.calm.withFile p v x' → Sound leaked owed t.calm →
      t.slots = s.slots → E (.err e) t) :
    wpAlong r (dirEnter p name ino k) Q E s := by
  have hslots : (s.file v).slots = s.slots := h.slots_eq hp hroot
  have hok : FileOk (s.calm.Others leaked v.ino) (s.file v) := h.fileOk hp
  have hroot' := h.rootOk hp hroot
  simp only [dirEnter, wpAlong_bind, wpAlong_pure]
  refine wpAlong_writedir (h.mounted_calm v.ino) (Core.withFile_file hp).symm hok (SfsDir.link_ok ino hlen)
    (by rwa [hslots]) hroot'.whole hroot'.small hdone ?_ ?_
  · intro rest t x' hrest ht hstep hset hwhole hsmall
    have hset : x'.slots = setSlot s.calm.slots k (.link ino name) := hset.trans (by rw [hslots]; rfl)
    obtain ⟨hsound, hset'⟩ := h.linked hp hroot hstep hset hwhole hsmall hfree hino hlive (by
      rwa [SfsDir.str_link ino hlen])
    rw [← ht.calm] at hsound hset'
    exact hQ t x' (ht.faults_suffix hrest) ht.calm hsound hset'
  · intro e rest t x' hrest ht hstep hset hsize _
    obtain ⟨hsound, hset'⟩ := h.rootSame hp hroot hstep (hset.trans hslots) hsize
    rw [← ht.calm] at hsound hset'
    exact hE e t x' (ht.faults_suffix hrest) ht.calm hsound hset'

theorem wpAlong_dirLink (hdone : Spares r (s.faults = []))
    (hino : ino ≠ 0) (hlive : s.Live ino)
    (hQ : ∀ k t x', t.faults <:+ s.faults → t.calm = s.calm.withFile p v x' → Sound leaked (bump owed ino 1) t.calm →
      t.slots = setSlot s.slots k (.link ino name) → (∀ e, s.slots[k]? = some e → e.ino = 0) →
      HasName t.slots name ino k → Q k t)
    (hE : ∀ e t x', t.faults <:+ s.faults → t.calm = s.calm.withFile p v x' → Sound leaked owed t.calm →
      t.slots = s.slots → E (.err e) t) :
    wpAlong r (sfsDirLink p name ino) Q E s := by
  have hself : s.calm = s.calm.withFile p v (s.file v) := (Core.withFile_file (c := s.calm) hp).symm
  have hsame : ∀ e rest, ∀ t : State, rest <:+ s.faults → t.toCore = s.withFaults rest → E (.err e) t := by
    intro e rest t hrest ht
    have hcalm : t.calm = s.calm := Core.calm_of_eq ht
    refine hE e t _ (by rw [ht]; exact hrest) (hcalm.trans hself) (by rwa [hcalm]) ?_
    rw [ht]
    rfl
  simp only [sfsDirLink, wpAlong_bind]
  refine (wp_findname_any h hp hroot (fun rest t found emptyslot hreads ht hfound hempty => ?_)
    fun rest t hrest _ ht => ?_).along
  swap
  · exact hsame _ rest t hrest ht
  have hrest := afterReads_suffix hreads
  cases found with
  | some answer => exact (wpAlong_err _).mpr (hsame _ rest t hrest ht)
  | none =>
    have hnew : ∀ e ∈ s.entries, e.str ≠ name.val := FoundIn.fresh hfound
    have hhas : ∀ k, k ≤ s.slots.length → ¬ name.val.length + 1 > nameLen →
        HasName (setSlot s.slots k (.link ino name)) name ino k := by
      intro k hk hlen
      refine ⟨⟨.link ino name, ?_, rfl, SfsDir.str_link ino hlen⟩, hino⟩
      unfold setSlot
      split
      · rw [List.getElem?_set_self ‹_›]
      · rw [show k = s.slots.length by omega, List.getElem?_concat_length]
    have hcalm : t.calm = s.calm := Core.calm_of_eq ht
    have hslots : t.slots = s.slots := Core.slots_of_calm hcalm
    have ht' : Sound leaked owed t.calm := by rwa [hcalm]
    have hp' : t.vnodes p = some v := by rwa [Core.vnodes_of_calm hcalm]
    have hfaults : t.faults <:+ s.faults := by
      rw [ht]
      exact hrest
    have hdone' : Spares r (t.faults = []) := hdone.imp fun hnil => by
      rw [hnil] at hfaults
      exact List.suffix_nil.mp hfaults
    -- the entry is written to a slot that is not occupied
    have henter : ∀ k, k ≤ s.slots.length → (∀ e, s.slots[k]? = some e → e.ino = 0) →
        ¬ name.val.length + 1 > nameLen → wpAlong r (dirEnter p name ino k) Q E t := by
      intro k hk hfree hlen
      refine wpAlong_dirEnter ht' hp' hroot hdone' (by rwa [hslots]) (by rwa [hslots]) hino
        ((Core.live_of_calm hcalm ino).mpr hlive) hlen (by rwa [Core.entries, hslots]) ?_ ?_
      · intro u x' hu hucalm hsound hset
        rw [hcalm] at hucalm
        rw [hslots] at hset
        exact hQ k u x' (hu.trans hfaults) hucalm hsound hset hfree (by rw [hset]; exact hhas k hk hlen)
      · intro e u x' hu hucalm hsound hset
        rw [hcalm] at hucalm
        exact hE e u x' (hu.trans hfaults) hucalm hsound (hset.trans hslots)
    simp only [Option.isSome_none, Bool.false_eq_true, if_false, wpAlong_ite]
    split
    · exact (wpAlong_err _).mpr (hsame _ rest t hrest ht)
    · rename_i hlen
      cases emptyslot with
      | some k =>
        obtain ⟨hk, d, hd, hzero⟩ := hempty
        refine henter k (Nat.le_of_lt hk) (fun e he => ?_) hlen
        cases hd.symm.trans he
        exact hzero
      | none =>
        -- the entry goes after the last slot
        have hroot' : RootOk (t.file v).inode (t.file v).slots := ht'.rootOk hp' hroot
        have hslots' : (t.file v).slots = s.slots := (ht'.slots_eq hp' hroot).trans hslots
        simp only [wpAlong_bind]
        refine (wp_dirNentries hroot' (Core.withFile_file hp').symm ?_).along
        rw [hslots']
        refine henter _ (Nat.le_refl _) (fun e he => ?_) hlen
        rw [List.getElem?_eq_none (Nat.le_refl _)] at he
        cases he

theorem wpAlong_dirUnlink {Q : Unit → State → Prop}
    (hdone : Spares r (s.faults = [])) (hname : HasName s.slots name ino k)
    (hloaded : ∃ q w, s.vnodes q = some w ∧ w.ino = ino)
    (hQ : ∀ t x', t.faults <:+ s.faults → t.calm = s.calm.withFile p v x' → Sound leaked (bump owed ino (-1)) t.calm →
      t.slots = setSlot s.slots k .empty → Q () t)
    (hE : ∀ e t x', s.faults ≠ [] → t.faults <:+ s.faults → t.calm = s.calm.withFile p v x' →
      Sound leaked owed t.calm → t.slots = s.slots → E (.err e) t) :
    wpAlong r (sfsDirUnlink p k) Q E s := by
  have hslots : (s.file v).slots = s.slots := h.slots_eq hp hroot
  have hok : FileOk (s.calm.Others leaked v.ino) (s.file v) := h.fileOk hp
  have hroot' := h.rootOk hp hroot
  obtain ⟨d, hd, rfl, -⟩ := hname.entry
  have hk : k < s.slots.length := (List.getElem?_eq_some_iff.mp hd).1
  refine wpAlong_writedir (h.mounted_calm v.ino) (Core.withFile_file hp).symm hok SfsDir.empty_ok
    (by rw [hslots]; exact Nat.le_of_lt hk) hroot'.whole hroot'.small hdone ?_ ?_
  · intro rest t x' hrest ht hstep hset hwhole hsmall
    have hset : x'.slots = setSlot s.calm.slots k .empty := hset.trans (by rw [hslots]; rfl)
    obtain ⟨hsound, hset'⟩ := h.unlinked hp hroot hstep hset hwhole hsmall hd hname.ino_ne hloaded
    rw [← ht.calm] at hsound hset'
    exact hQ t x' (ht.faults_suffix hrest) ht.calm hsound hset'
  · intro e rest t x' hrest ht hstep hset hsize hnone
    obtain ⟨hsound, hset'⟩ := h.rootSame hp hroot hstep (hset.trans hslots) hsize
    rw [← ht.calm] at hsound hset'
    refine hE e t x' (fun hnil => ?_) (ht.faults_suffix hrest) ht.calm hsound hset'
    exact not_noBlock hroot'.small (by rwa [hslots]) hname.ino_ne (hnone hnil)

end Functions

/-! ## On a device that does not fail -/

section Working

variable (h : Sound leaked owed s.toCore) (hp : s.vnodes p = some v) (hroot : v.ino = rootLocation)

theorem Sound.calm (h : Sound leaked owed c) : Sound leaked owed c.calm := by
  rwa [Core.calm_eq h.fits.faults]

theorem calm_of_suffix (hs : s.faults = []) (h : t.faults <:+ s.faults) : t.calm = t.toCore := by
  rw [hs] at h
  exact Core.calm_eq (List.suffix_nil.mp h)

include h hp hroot

theorem wp_findname {Q : Option (Blk × Nat) × Option Nat → State → Prop}
    (hQ : ∀ t found emptyslot, t.toCore = s.toCore → FoundIn s.slots name s.slots.length found →
      EmptyIn s.slots s.slots.length emptyslot → Q (found, emptyslot) t) :
    wp (sfsDirFindname p name) Q E s := by
  refine wp_findname_any h.calm hp hroot (fun rest t found emptyslot hreads ht => ?_) fun _ _ _ hreads _ => ?_
  · rw [h.fits.faults, afterReads_nil] at hreads
    cases hreads
    exact hQ t found emptyslot (ht.trans (Core.calm_eq h.fits.faults))
  · rw [h.fits.faults, afterReads_nil] at hreads
    cases hreads

theorem wp_dirLink (hino : ino ≠ 0) (hlive : s.Live ino)
    (hQ : ∀ k t x', t.toCore = s.toCore.withFile p v x' → Sound leaked (bump owed ino 1) t.toCore →
      t.slots = setSlot s.slots k (.link ino name) → (∀ e, s.slots[k]? = some e → e.ino = 0) →
      HasName t.slots name ino k → Q k t)
    (hE : ∀ e t x', t.toCore = s.toCore.withFile p v x' → Sound leaked owed t.toCore → t.slots = s.slots →
      E (.err e) t) :
    wp (sfsDirLink p name ino) Q E s := by
  have hs := h.fits.faults
  have hself : s.calm = s.toCore := Core.calm_eq hs
  refine (wpAlong_dirLink h.calm hp hroot (.inr hs) hino hlive ?_ ?_).wp
  · intro k t x' ht hcalm hsound
    rw [calm_of_suffix hs ht] at hcalm hsound
    rw [hself] at hcalm
    exact hQ k t x' hcalm hsound
  · intro e t x' ht hcalm hsound
    rw [calm_of_suffix hs ht] at hcalm hsound
    rw [hself] at hcalm
    exact hE e t x' hcalm hsound

theorem wp_dirUnlink {Q : Unit → State → Prop} (hname : HasName s.slots name ino k)
    (hloaded : ∃ q w, s.vnodes q = some w ∧ w.ino = ino)
    (hQ : ∀ t x', t.toCore = s.toCore.withFile p v x' → Sound leaked (bump owed ino (-1)) t.toCore →
      t.slots = setSlot s.slots k .empty → Q () t) :
    wp (sfsDirUnlink p k) Q E s := by
  have hs := h.fits.faults
  have hself : s.calm = s.toCore := Core.calm_eq hs
  refine (wpAlong_dirUnlink h.calm hp hroot (.inr hs) hname hloaded ?_ fun _ _ _ hne => absurd hs hne).wp
  intro t x' ht hcalm hsound
  rw [calm_of_suffix hs ht] at hcalm hsound
  rw [hself] at hcalm
  exact hQ t x' hcalm hsound

end Working

end Os161.Sfs

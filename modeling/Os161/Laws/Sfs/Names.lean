import Os161.Laws.Sfs.Cycles
import Os161.Laws.Sfs.Rename

/-!
# The directory as a map

A volume refines a finite map from names to inode numbers: each operation does to the map what it is for or, when it
returns an error, nothing.
-/

namespace Os161.Sfs

open Os161.Lib Prog
open Function (update)

variable {c c' : Core} {s : State} {p : Ptr} {v : Vnode} {name : CStr} {k : Nat} {ino : Blk} {op : Op}
  {leaked : Blk → Prop} {owed : Blk → Int} {E E' : Stop Errno Panic → State → Prop}

/-- What an operation that returns 0 does to the names. A new file has an inode that nothing else has. -/
def Op.OnNames (c : Core) (names : List UInt8 → Option Blk) : Op → Prop
  | .creat _ name excl => names = c.names ∧ (c.names name.val).isSome ∧ excl = false ∨
      ∃ i, ¬ c.Live i ∧ c.names name.val = none ∧ names = update c.names name.val (some i)
  | .link _ name file => ∃ v, c.vnodes file = some v ∧ c.names name.val = none ∧
      names = update c.names name.val (some v.ino)
  | .remove _ name => (c.names name.val).isSome ∧ names = update c.names name.val none
  | .rename _ n1 _ n2 => ∃ i, c.names n1.val = some i ∧ c.names n2.val = none ∧
      names = update (update c.names n1.val none) n2.val (some i)
  | .lookup _ path => (c.names path.val).isSome ∧ names = c.names
  | _ => names = c.names

/-- Why an operation may return an error: a name is not found only when it is not there. -/
def Op.Refused (c : Core) (e : Errno) : Op → Prop
  | .remove _ name | .lookup _ name => e = .ENOTDIR ∨ e = .ENOENT ∧ c.names name.val = none
  | _ => True

/-- An operation that returns an error leaves the names alone. -/
def Op.Stops (op : Op) (c : Core) : Stop Errno Panic → State → Prop
  | .err e, t => t.names = c.names ∧ op.Refused c e
  | .panic e, _ => RenamePanic e

/-- A program does to the names what the operation is for. -/
abbrev Op.Refines {α : Type} (op : Op) (x : P α) (s : State) : Prop :=
  wp x (fun _ t => op.OnNames s.toCore t.names) (op.Stops s.toCore) s

theorem names_of_slots (h : c'.slots = c.slots) : c'.names = c.names := congrArg (nameMap ∘ occupied) h

theorem Sound.names_some (h : Sound leaked owed c) (hname : HasName c.slots name ino k) :
    c.names name.val = some ino := by
  obtain ⟨d, hd, rfl, hstr⟩ := hname.mem
  rw [← hstr]
  exact nameMap_of_mem h.root.names hd

theorem Sound.names_link (h : Sound leaked owed c') (hslots : c'.slots = setSlot c.slots k (.link ino name))
    (hfree : ∀ e, c.slots[k]? = some e → e.ino = 0) (hname : HasName c'.slots name ino k) :
    c.names name.val = none ∧ c'.names = update c.names name.val (some ino) := by
  have hstr : (SfsDir.link ino name).str = name.val := by
    obtain ⟨e, he, -, hstr⟩ := hname.entry
    rw [hslots] at he
    rwa [← getElem?_setSlot_self he]
  have hperm : c'.entries.Perm (.link ino name :: c.entries) := by
    rw [Core.entries, hslots]
    exact occupied_link hfree hname.ino_ne
  have hnames := (hperm.map _).nodup_iff.mp h.root.names
  refine ⟨nameMap_eq_none fun d hd heq => (List.nodup_cons.mp hnames).1 ?_, ?_⟩
  · rw [hstr, ← heq]
    exact List.mem_map_of_mem hd
  · rw [← hstr]
    exact (nameMap_perm h.root.names hperm).trans (nameMap_cons ..)

theorem Sound.names_unlink (h : Sound leaked owed c) (hname : HasName c.slots name ino k)
    (hslots : c'.slots = setSlot c.slots k .empty) : c'.names = update c.names name.val none := by
  obtain ⟨d, hd, hino, hstr⟩ := hname.entry
  have hperm : c.entries.Perm (d :: c'.entries) := by
    rw [Core.entries, Core.entries, hslots]
    exact occupied_unlink hd (hino.trans_ne hname.ino_ne)
  have hnames := (hperm.map _).nodup_iff.mp h.root.names
  have hgone : c'.names name.val = none := nameMap_eq_none fun e he heq => (List.nodup_cons.mp hnames).1 (by
    rw [hstr, ← heq]
    exact List.mem_map_of_mem he)
  have hmap : c.names = update c'.names d.str (some d.ino) :=
    (nameMap_perm h.root.names hperm).trans (nameMap_cons ..)
  rw [hmap, hstr, Function.update_idem, ← hgone, Function.update_eq_self]

/-! ## The operations -/

section Ops

variable (h : s.Whole)
include h

section Dispatch

variable {α : Type} {prog : P α} {Q : α → State → Prop} (hp : (s.vnodes p).isSome)
include hp

theorem wp_dirOp_names (hrefused : op.Refused s.toCore .ENOTDIR)
    (hop : ∀ v, s.vnodes p = some v → v.ino = rootLocation → wp prog Q (op.Stops s.toCore) s) :
    wp (dirOp p prog) Q (op.Stops s.toCore) s := by
  obtain ⟨v, hp⟩ := Option.isSome_iff_exists.mp hp
  simp only [dirOp, vnode, wp_bind, wp_read, hp, wp_pure]
  cases hops : v.ops with
  | dir => exact hop v hp (h.sound.dir_root hp hops)
  | file => exact ⟨rfl, hrefused⟩

theorem wp_fileOp_names (hrefused : op.Refused s.toCore .EISDIR)
    (hop : ∀ v, s.vnodes p = some v → v.ino ≠ rootLocation → wp prog Q (op.Stops s.toCore) s) :
    wp (fileOp p prog) Q (op.Stops s.toCore) s := by
  obtain ⟨v, hp⟩ := Option.isSome_iff_exists.mp hp
  simp only [fileOp, vnode, wp_bind, wp_read, hp, wp_pure]
  cases hops : v.ops with
  | file => exact hop v hp (h.sound.file_not_root hp hops)
  | dir => exact ⟨rfl, hrefused⟩

end Dispatch

variable (hp : s.vnodes p = some v) (hroot : v.ino = rootLocation)
include hp hroot

theorem wp_lookonce_names {Q : Ptr × Nat → State → Prop}
    (hQ : ∀ q k t w, t.Whole → t.slots = s.slots → Extends s.toCore t.toCore →
      t.vnodes q = some w → HasName t.slots name w.ino k → nobody.held q < w.refcount → Q (q, k) t)
    (hE : ∀ t, t.names = s.names → s.names name.val = none → E (.err .ENOENT) t) : wp (sfsLookonce p name) Q E s := by
  simp only [sfsLookonce, wp_bind]
  refine wp_findname h.sound hp hroot fun t found _ ht hfound _ => ?_
  cases found with
  | none => exact hE t (congrArg Core.names ht) (nameMap_eq_none (FoundIn.fresh hfound))
  | some answer =>
    obtain ⟨ino, k⟩ := answer
    obtain ⟨d, hd, hino, -⟩ := hfound.2.mem
    simp only [wp_bind]
    refine wp_loadvnode (s := t) (by rwa [ht]) (by rw [ht]; exact .inr (.inl ⟨d, hd, hino⟩))
      fun q t' w hvol hslots hext hq hino' hheld => ?_
    rw [ht] at hslots hext
    simp only [vnode, wp_bind, wp_read, hq, wp_pure, wp_ite]
    split
    · rename_i hzero
      have hd' : d ∈ t'.entries := by rwa [Core.entries, hslots]
      exact absurd (hino.trans hino'.symm) ((hvol.sound.root_linkcount (fun _ => rfl) hq hzero).2 d hd')
    · exact hQ q k t' w hvol hslots hext hq (by rw [hslots, hino']; exact hfound.2) hheld

theorem wp_enter {q : Ptr} {w : Vnode} {Q : Unit → State → Prop} (hq : s.vnodes q = some w)
    (hQ : ∀ t, s.names name.val = none ∧ t.names = update s.names name.val (some w.ino) → Q () t)
    (hE : ∀ e t w', t.Whole → t.slots = s.slots → t.vnodes q = some w' →
      w'.refcount = w.refcount → E (.err e) t) :
    wp (sfsDirLink p name w.ino) (fun _ t => wp (setLinkcount q (· + 1)) Q E' t) E s := by
  have hlive : s.Live w.ino := Core.live_vnode hq
  refine wp_dirLink h.sound hp hroot (h.sound.pool.live_ne hlive) hlive ?_ ?_
  · intro k t x' ht hsound hset hfree hname
    obtain ⟨w', hq', hino, -⟩ := Core.withFile_refcount x' hp hq
    refine wp_addLink ⟨by rwa [hino], by rw [ht]; exact h.refs.withFile hp⟩ (by rwa [ht]) fun t' _ _ hslots _ _ _ _ =>
      hQ t' ?_
    rw [names_of_slots hslots]
    exact hsound.names_link hset hfree hname
  · intro e t x' ht hsound hsame
    obtain ⟨w', hq', -, href⟩ := Core.withFile_refcount x' hp hq
    exact hE e t w' ⟨hsound, by rw [ht]; exact h.refs.withFile hp⟩ hsame (by rwa [ht]) href

theorem wp_creatNew_names {excl : Bool} : (Op.creat p name excl).Refines (creatNew p name) s := by
  simp only [creatNew, wp_bind]
  refine wp_makeobj h hp (fun _ => rfl) (fun q t b hvol hslots hext hq hheld hnone => ?_) ⟨rfl, trivial⟩
  obtain ⟨hfile, hunnamed⟩ := hvol.sound.root_linkcount (fun _ => rfl) hq rfl
  -- its link count is 0 so far, so that no entry is for it
  have hfresh : ¬ s.Live b := by
    rintro (rfl | ⟨d, hd, hino⟩ | ⟨p', v', hp', rfl⟩)
    · exact hfile rfl
    · rw [Core.entries, ← hslots] at hd
      exact hunnamed d hd hino
    · obtain ⟨v'', hp'', hino⟩ := hext p' v' hp'
      obtain rfl := hvol.sound.pool.inj q p' _ v'' hq hp'' hino.symm
      rw [hnone] at hp'
      cases hp'
  obtain ⟨v', hp', hino'⟩ := hext p v hp
  simp only [vnode, wp_bind, wp_read, hq, wp_pure, wp_attempt]
  refine wp_enter hvol hp' (hino'.trans hroot) hq (fun t' ht' => .inr ⟨b, hfresh, ?_⟩)
    fun e t' w hvol' hsame hq' href => ?_
  · rwa [← names_of_slots hslots]
  · exact wp_decref hvol' (fun _ => rfl) hq' (by rw [hheld, href]; exact Nat.zero_lt_one) fun t'' _ hslots'' =>
      ⟨names_of_slots (hslots''.trans (hsame.trans hslots)), trivial⟩

theorem wp_creat_names (excl : Bool) : (Op.creat p name excl).Refines (sfsCreat p name excl) s := by
  simp only [sfsCreat, wp_bind]
  refine wp_findname h.sound hp hroot fun t found emptyslot ht hfound _ => ?_
  have hsame : t.names = s.names := congrArg Core.names ht
  cases found with
  | none =>
    have hnew : (Op.creat p name excl).Refines (creatNew p name) t :=
      wp_creatNew_names (by rwa [ht]) (by rwa [ht]) hroot
    rwa [Op.Refines, ht] at hnew
  | some answer =>
    obtain ⟨ino, k⟩ := answer
    obtain ⟨d, hd, hino, -⟩ := hfound.2.mem
    simp only [wp_ite, wp_err]
    split
    · exact ⟨hsame, trivial⟩
    · rename_i hexcl
      refine wp_loadvnode (s := t) (by rwa [ht]) (by rw [ht]; exact .inr (.inl ⟨d, hd, hino⟩))
        fun q t' w _ hslots _ _ _ _ => .inl ⟨(names_of_slots hslots).trans hsame, ?_, Bool.not_eq_true _ ▸ hexcl⟩
      rw [h.sound.names_some hfound.2]
      rfl

theorem wp_link_names {file : Ptr} {w : Vnode} (hfile : s.vnodes file = some w) :
    (Op.link p name file).Refines (sfsLink p name file) s := by
  simp only [sfsLink, vnode, wp_bind, wp_read, hfile, wp_pure]
  exact wp_enter h hp hroot hfile (fun _ ht => ⟨w, hfile, ht⟩) fun _ _ _ _ hsame _ _ => ⟨names_of_slots hsame, trivial⟩

theorem wp_remove_names : (Op.remove p name).Refines (sfsRemove p name) s := by
  simp only [sfsRemove, wp_bind]
  refine wp_lookonce_names h hp hroot (fun q k t w hvol hslots hext hq hname hheld => ?_)
    fun t ht hnone => ⟨ht, .inr ⟨rfl, hnone⟩⟩
  obtain ⟨v', hp', hino'⟩ := hext p v hp
  simp only [wp_attempt]
  refine wp_dirUnlink hvol.sound hp' (hino'.trans hroot) hname ⟨q, w, hq, rfl⟩ fun t' x' ht hsound hset => ?_
  obtain ⟨w', hq', hino, href⟩ := Core.withFile_refcount x' hp' hq
  rw [← ht] at hq'
  rw [← hino] at hsound
  have hpos : (0 : UInt16) < w'.inode.linkcount := UInt16.lt_iff_toNat_lt.mpr (hsound.linkcount_pos hq')
  simp only [vnode, wp_bind, wp_read, hq', wp_pure, wp_assert, hpos, decide_true, if_true]
  refine wp_dropLink ⟨hsound, by rw [ht]; exact hvol.refs.withFile hp'⟩ hq' fun u w'' huvol huslots hq'' _ href' _ =>
    wp_decref huvol (fun _ => rfl) hq'' (by rw [href', href]; exact hheld) fun u' _ hslots' => ?_
  rw [Op.OnNames, names_of_slots (hslots'.trans huslots), ← names_of_slots hslots, hvol.sound.names_some hname]
  exact ⟨rfl, hvol.sound.names_unlink hname hset⟩

theorem wp_rename_names {d2 : Ptr} {n2 : CStr} : (Op.rename p name d2 n2).Refines (sfsRename p name d2 n2) s := by
  by_cases hd : p = d2
  swap
  · simp only [sfsRename, wp_bind, wp_assert, hd, decide_false, Bool.false_eq_true, if_false]
    exact .inl rfl
  subst hd
  have hs := h.sound.fits.faults
  refine (wpAlong_rename h.calm hp hroot (.inr hs) (fun t d d' _ _ hrep _ => ?_) (fun e t _ _ hperm _ => ?_)
    (fun _ _ _ => .inr rfl) fun _ hne => absurd hs hne).wp
  · refine ⟨d.ino, hrep.nameMap.1, nameMap_eq_none fun e he heq => (List.nodup_cons.mp hrep.names).1 ?_, hrep.nameMap.2⟩
    rw [hrep.str', ← heq]
    exact List.mem_map_of_mem he
  · exact ⟨(nameMap_perm h.sound.root.names hperm.symm).symm, trivial⟩

theorem wp_lookup_names : (Op.lookup p name).Refines (sfsLookup p name) s := by
  have htype := (h.sound.rootOk hp hroot).type
  simp only [sfsLookup, vnode, wp_bind, wp_read, hp, wp_pure, htype, ne_eq, not_true_eq_false, if_false]
  refine wp_lookonce_names h hp hroot (fun q k t w hvol hslots _ _ hname _ => ?_)
    fun t ht hnone => ⟨ht, .inr ⟨rfl, hnone⟩⟩
  rw [Op.OnNames, ← names_of_slots hslots, hvol.sound.names_some hname]
  exact ⟨rfl, rfl⟩

omit hp hroot

theorem wp_op_names (hop : op.Allowed s) : op.Refines op.prog s := by
  cases op with
  | getroot =>
    simp only [Op.prog, sfsGetroot, wp_bind, wp_attempt]
    exact wp_loadvnode h Core.live_root fun _ _ _ _ hslots _ _ _ _ => names_of_slots hslots
  | creat dir name excl =>
    simp only [Op.prog, wp_bind]
    exact wp_dirOp_names h (hop dir (.head _)) trivial fun _ hp hroot => wp_creat_names h hp hroot excl
  | link dir name file =>
    obtain ⟨w, hfile⟩ := Option.isSome_iff_exists.mp (hop file (.tail _ (.head _)))
    exact wp_dirOp_names h (hop dir (.head _)) trivial fun _ hp hroot => wp_link_names h hp hroot hfile
  | remove dir name =>
    exact wp_dirOp_names h (hop dir (.head _)) (.inl rfl) fun _ hp hroot => wp_remove_names h hp hroot
  | rename d1 n1 d2 n2 =>
    exact wp_dirOp_names h (hop d1 (.head _)) trivial fun _ hp hroot => wp_rename_names h hp hroot
  | lookup dir path =>
    simp only [Op.prog, wp_bind]
    exact wp_dirOp_names h (hop dir (.head _)) (.inl rfl) fun _ hp hroot => wp_lookup_names h hp hroot
  | lookparent dir path buflen =>
    simp only [Op.prog, wp_bind]
    refine wp_dirOp_names h (hop dir (.head _)) trivial fun v hp hroot => ?_
    have htype := (h.sound.rootOk hp hroot).type
    simp only [sfsLookparent, vnode, wp_bind, wp_read, hp, wp_pure, htype, ne_eq, not_true_eq_false, if_false, wp_ite,
      wp_err]
    split
    · exact ⟨rfl, trivial⟩
    · refine wp_setVnode hp fun t ht => names_of_slots ?_
      rw [ht]
      exact (h.recount hp (n := v.refcount + 1) (by omega) (Nat.zero_le _)).2
  | read p off len =>
    simp only [Op.prog, wp_bind]
    have hs : Settled False nobody s.toCore := ⟨h, fun hno => by cases hno⟩
    exact wp_fileOp_names h (hop p (.head _)) trivial fun _ hp _ => (wp_read_file hs hp rfl (Nat.le_refl _)).mono
      (fun _ _ ht => congrArg Core.names ht) fun _ _ he => he
  | write p off data =>
    simp only [Op.prog, wp_bind]
    refine wp_fileOp_names h (hop p (.head _)) trivial fun v hp hfile => ?_
    simp only [sfsWrite, wp_bind, wp_assert, uioKinit, decide_true, if_true, sfsIo]
    refine wp_ioWrite (N := fun _ => True) (h.sound.working v.ino) (Core.withFile_file hp).symm (h.sound.fileOk hp) rfl
      (Nat.le_refl _) (fun _ _ _ _ _ => trivial) fun t x' _ _ ht hstep _ _ _ _ _ _ _ => names_of_slots ?_
    rw [show t.toCore = _ from ht]
    exact (h.fileStep hp hfile hstep).2
  | truncate p len =>
    refine wp_fileOp_names h (hop p (.head _)) trivial fun v hp hfile => wp_sfsTruncate (h.sound.working v.ino) len
      (Core.withFile_file hp).symm (h.sound.fileOk hp) fun t x' ht hx' _ _ _ => names_of_slots ?_
    rw [show t.toCore = _ from ht]
    exact (h.fileStep hp hfile hx'.step).2
  | fsync p =>
    obtain ⟨v, hp⟩ := Option.isSome_iff_exists.mp (hop p (.head _))
    exact wp_syncInode h hp fun _ _ hslots _ _ _ => names_of_slots hslots
  | decref p =>
    obtain ⟨v, hp⟩ := Option.isSome_iff_exists.mp (hop p (.head _))
    exact wp_decref h (fun _ => rfl) hp (h.sound.pool.refs p v hp) fun _ _ hslots => names_of_slots hslots
  | sync => exact wp_sync h fun _ _ _ _ hslots => names_of_slots hslots

end Ops

end Os161.Sfs

import Os161.Laws.Sfs.Runs

/-!
# Renaming, all or nothing

What `sfs_rename` leaves of the directory and the link counts when the device fails in any pattern. A read that fails is
reported and the call undoes what it has done. A write that fails is not: `sfs_wblock` answers that it was done, the
call goes on, and what it returns is not what is on the disk. So the runs that are all or nothing are those that lose no
write; one more thing is in the way, an entry for the root directory itself, which `sfs_rename` asserts not to find.
-/

namespace Os161.Sfs

open Os161.Lib Prog

variable {c : Core} {p : Ptr} {v : Vnode} {g : Callers} {leaked : Blk → Prop} {s : State} {n1 n2 : CStr}
  {d d' : SfsDir} {l l' : List SfsDir} {name : List UInt8}
variable {i : Blk}

/-! ## Where names lead -/

/-- The inode of the entry with a name. -/
def nameMap (entries : List SfsDir) (name : List UInt8) : Option Blk :=
  (entries.find? fun d => d.str = name).map SfsDir.ino

/-- The directory as a map. -/
def Core.names (c : Core) : List UInt8 → Option Blk := nameMap c.entries

theorem nameMap_cons (d : SfsDir) (l : List SfsDir) :
    nameMap (d :: l) = Function.update (nameMap l) d.str (some d.ino) := by
  funext name
  rw [nameMap, List.find?_cons, Function.update_apply]
  by_cases h : d.str = name
  · rw [decide_eq_true h, if_pos h.symm]
    rfl
  · rw [decide_eq_false h, if_neg (Ne.symm h)]
    rfl

theorem nameMap_of_mem (hnames : (l.map SfsDir.str).Nodup) (h : d ∈ l) : nameMap l d.str = some d.ino := by
  induction l with
  | nil => cases h
  | cons e l ih =>
    rw [List.map_cons, List.nodup_cons] at hnames
    rw [nameMap_cons]
    rcases List.mem_cons.mp h with rfl | h
    · exact Function.update_self ..
    · rw [Function.update_of_ne, ih hnames.2 h]
      exact fun heq => hnames.1 (heq ▸ List.mem_map_of_mem h)

theorem nameMap_eq_none (h : ∀ d ∈ l, d.str ≠ name) : nameMap l name = none := by
  rw [nameMap, Option.map_eq_none_iff, List.find?_eq_none]
  exact fun d hd => by rw [decide_eq_true_eq]; exact h d hd

theorem exists_mem_of_nameMap (h : nameMap l name = some i) : ∃ d ∈ l, d.str = name ∧ d.ino = i := by
  obtain ⟨d, hd, hino⟩ := Option.map_eq_some_iff.mp h
  have hstr := List.find?_some hd
  exact ⟨d, List.mem_of_find?_eq_some hd, of_decide_eq_true hstr, hino⟩

theorem nameMap_perm (hnames : (l.map SfsDir.str).Nodup) (h : l.Perm l') : nameMap l = nameMap l' := by
  have hnames' : (l'.map SfsDir.str).Nodup := (h.map _).nodup_iff.mp hnames
  funext name
  cases hn : nameMap l name with
  | some i =>
    obtain ⟨d, hd, rfl, rfl⟩ := exists_mem_of_nameMap hn
    exact (nameMap_of_mem hnames' (h.mem_iff.mp hd)).symm
  | none =>
    refine (nameMap_eq_none fun d hd hstr => ?_).symm
    rw [← hstr, nameMap_of_mem hnames (h.mem_iff.mpr hd)] at hn
    cases hn

theorem Replaced.nameMap (h : Replaced n1 n2 l l' d d') :
    nameMap l n1.val = some d.ino ∧
      nameMap l' = Function.update (Function.update (nameMap l) n1.val none) n2.val (some d.ino) := by
  have hold : (l.map SfsDir.str).Nodup := (List.nodup_cons.mp h.names).2
  have hnew : ((d :: l').map SfsDir.str).Nodup := (h.perm.map _).nodup_iff.mpr h.names
  have hgone : ∀ e ∈ l', e.str ≠ n1.val := fun e he heq =>
    (List.nodup_cons.mp hnew).1 (by rw [h.str, ← heq]; exact List.mem_map_of_mem he)
  have hne : n1.val ≠ n2.val := by
    intro heq
    refine (List.nodup_cons.mp h.names).1 ?_
    rw [h.str', ← heq, ← h.str]
    exact List.mem_map_of_mem h.mem
  have hmaps : Function.update (Sfs.nameMap l') n1.val (some d.ino) =
      Function.update (Sfs.nameMap l) n2.val (some d.ino) := by
    have := nameMap_perm hnew h.perm
    rwa [nameMap_cons, nameMap_cons, h.str, h.str', h.ino] at this
  refine ⟨h.str ▸ nameMap_of_mem hold h.mem, ?_⟩
  calc Sfs.nameMap l' = Function.update (Sfs.nameMap l') n1.val none := by
        rw [← nameMap_eq_none hgone, Function.update_eq_self]
    _ = Function.update (Function.update (Sfs.nameMap l') n1.val (some d.ino)) n1.val none :=
        (Function.update_idem ..).symm
    _ = Function.update (Function.update (Sfs.nameMap l) n2.val (some d.ino)) n1.val none := by rw [hmaps]
    _ = Function.update (Function.update (Sfs.nameMap l) n1.val none) n2.val (some d.ino) :=
        Function.update_comm (Ne.symm hne) ..

theorem Replaced.links (h : Replaced n1 n2 l l' d d') (i : Blk) : Sfs.links l' i = Sfs.links l i := by
  have := links_perm h.perm i
  rw [links_cons, links_cons, h.ino] at this
  exact Nat.add_right_cancel this

/-! ## The call -/

/-- Each file that was there has its link count of before. -/
def SameLinks (c c' : Core) : Prop :=
  ∀ i, c.Live i → c'.Live i ∧ (c'.inode i).linkcount = (c.inode i).linkcount

/-- A rename is done or is not, and stops the system only when it cannot be undone. -/
def AllOrNothing (n1 n2 : CStr) (c : Core) : Except (Stop Errno Panic) Unit → Core → Prop
  | .ok _, c' => SameLinks c c' ∧ ∃ i, c.names n1.val = some i ∧
      c'.names = Function.update (Function.update c.names n1.val none) n2.val (some i)
  | .error (.err _), c' => SameLinks c c' ∧ c'.names = c.names
  | .error (.panic e), _ => e = .renameRecover

theorem sameLinks {t : State} (hs : Volume leaked settled g s.calm) (ht : Volume leaked settled g t.calm)
    (hlive : ∀ i, s.Live i → t.Live i) (hlinks : ∀ i, links t.entries i = links s.entries i) :
    SameLinks s.toCore t.toCore := by
  intro i hi
  have hi' := hlive i hi
  refine ⟨hi', UInt16.toNat_inj.mp ?_⟩
  have hbefore : ((s.inode i).linkcount.toNat : Int) + settled i = _ := hs.sound.links i hi
  have hafter : ((t.inode i).linkcount.toNat : Int) + settled i = _ := ht.sound.links i hi'
  rw [Core.calm_entries] at hbefore hafter
  rw [hlinks i, ← hbefore] at hafter
  omega

theorem wp_rename_root (h : Volume leaked settled g s.calm) (hp : s.vnodes p = some v) (hroot : v.ino = rootLocation)
    (hname : s.names n1.val = some rootLocation) {rest : List Bool}
    (hreads : afterReads (s.file v).searchReads s.faults = some rest) :
    wp (sfsRename p n1 p n2) (fun _ _ => False) (fun e _ => e = .panic .renameType) s := by
  obtain ⟨d, hd, hstr, hino⟩ := exists_mem_of_nameMap hname
  simp only [sfsRename, vnode, wp_bind, wp_read, wp_assert, hp, wp_pure, hroot, decide_true, if_true]
  refine wp_lookonce_any h hp hroot (fun _ => rfl) (fun q k t w _ _ hvol hslots _ hq hname hheld => ?_)
    fun e t hfails _ _ _ => ?_
  · have hq' : t.calm.vnodes q = some w := hq
    have hw : w.ino = rootLocation := by
      obtain ⟨e, he, heino, hestr⟩ := hname.mem
      rw [hslots] at he
      have := nameMap_of_mem h.sound.root.names he
      rw [hestr] at this
      exact heino.symm.trans (Option.some.inj (this.symm.trans ‹s.names n1.val = _›))
    have htype := (hvol.sound.rootOk hq' hw).type
    simp only [hq, wp_pure, htype, show ¬ typeDir = typeFile by decide, decide_false, Bool.false_eq_true, if_false]
  · exfalso
    rcases hfails with hnone | hnone | ⟨e, he, hestr, hnot⟩
    · exact hnone d hd hstr
    · rw [hreads] at hnone
      cases hnone
    · have := nameMap_of_mem h.sound.root.names he
      rw [hestr] at this
      have heino : e.ino = rootLocation := Option.some.inj (this.symm.trans hname)
      exact hnot p v hp (hroot.trans heino.symm)

/-- Of the runs that lose no write, with any failures of reads, those are all or nothing that find no entry for the root
directory under the old name. -/
theorem rename_all_or_nothing_iff (h : Volume leaked settled g s.calm) (hp : s.vnodes p = some v)
    (hroot : v.ino = rootLocation) (halong : Along NoLoss (sfsRename p n1 p n2) s) :
    AllOrNothing n1 n2 s.toCore ((sfsRename p n1 p n2).run s).1 ((sfsRename p n1 p n2).run s).2.toCore ↔
      (s.names n1.val = some rootLocation → afterReads (s.file v).searchReads s.faults = none) := by
  constructor
  · intro hdone hname
    by_contra hsome
    obtain ⟨rest, hreads⟩ := Option.ne_none_iff_exists'.mp hsome
    have hwp : wp (sfsRename p n1 p n2) _ _ s := wp_rename_root h hp hroot hname hreads
    rw [wp] at hwp
    generalize (sfsRename p n1 p n2).run s = r at *
    obtain ⟨result, t⟩ := r
    cases result with
    | ok _ => exact hwp
    | error e =>
      cases hwp
      cases hdone
  · intro hfile
    have hwp : wp (sfsRename p n1 p n2) (fun _ t => AllOrNothing n1 n2 s.toCore (.ok ()) t.toCore)
        (fun e t => AllOrNothing n1 n2 s.toCore (.error e) t.toCore) s := by
      refine wpAlong_rename h hp hroot .noLoss ?_ ?_ ?_ ?_ halong
      · intro t d d' _ hvol hrep hlive
        exact ⟨sameLinks h hvol hlive hrep.links, d.ino, hrep.nameMap⟩
      · intro e t _ hvol hperm hlive
        exact ⟨sameLinks h hvol hlive (links_perm hperm), nameMap_perm hvol.sound.root.names hperm⟩
      · rintro t ⟨rest, hreads⟩ ⟨d, hd, hstr, hino⟩
        have hname : s.names n1.val = some rootLocation := by
          rw [← hstr, ← hino]
          exact nameMap_of_mem h.sound.root.names hd
        rw [hfile hname] at hreads
        cases hreads
      · intro t _
        exact rfl
    rw [wp] at hwp
    generalize (sfsRename p n1 p n2).run s = r at *
    obtain ⟨result, t⟩ := r
    cases result with
    | ok _ => exact hwp
    | error e => exact hwp

/-- A state with other failures to come. -/
def State.failing (s : State) (faults : List Bool) : State := { s with faults := faults }

theorem State.failing_calm (s : State) (faults : List Bool) : (s.failing faults).calm = s.calm := rfl

theorem namedVolume_failing (faults : List Bool) : Volume noLeak settled nobody ((namedVolume []).failing faults).calm := by
  rw [State.failing_calm]
  exact (reached_namedVolume.volume (by decide) (by decide)).calm

/-- The two names. -/
def nameA : CStr := ⟨[97], zero_not_mem_a⟩

@[inherit_doc nameA]
def nameB : CStr := ⟨[98], by decide⟩

/-- `a` becomes `b` although the first read of the directory fails. -/
theorem rename_read_again : AllOrNothing nameA nameB ((namedVolume []).failing [true]).toCore
      ((sfsRename 0 nameA 0 nameB).run ((namedVolume []).failing [true])).1
      ((sfsRename 0 nameA 0 nameB).run ((namedVolume []).failing [true])).2.toCore := by
  have hvol := namedVolume_failing [true]
  have hroot : (((namedVolume []).failing [true]).vnodes 0).map Vnode.ino = some rootLocation := by decide +kernel
  have hfile : ((namedVolume []).failing [true]).names nameA.val ≠ some rootLocation := by decide +kernel
  generalize hs : (namedVolume []).failing [true] = s at *
  obtain ⟨v, hp, hino⟩ := Option.map_eq_some_iff.mp hroot
  refine (rename_all_or_nothing_iff hvol hp hino ?_).mpr fun hname => absurd hname hfile
  rw [← hs]
  decide +kernel

theorem not_allOrNothing {c' : Core} {r : Except (Stop Errno Panic) Unit} (hr : r = .ok ())
    (hne : n1.val ≠ n2.val) (hstays : c'.names n1.val = some i) : ¬ AllOrNothing n1 n2 c r c' := by
  subst hr
  rintro ⟨-, j, -, hnames⟩
  rw [hnames, Function.update_of_ne hne, Function.update_self] at hstays
  cases hstays

/-- The write that takes `a` out of the directory is lost: the call returns 0, and the file has both names. -/
theorem rename_loses_write :
    ¬ AllOrNothing nameA nameB ((namedVolume []).failing [false, false, false, false, false, true]).toCore
      ((sfsRename 0 nameA 0 nameB).run ((namedVolume []).failing [false, false, false, false, false, true])).1
      ((sfsRename 0 nameA 0 nameB).run ((namedVolume []).failing [false, false, false, false, false, true])).2.toCore :=
  not_allOrNothing (i := 3) (by decide +kernel) (by decide) (by decide +kernel)

end Os161.Sfs

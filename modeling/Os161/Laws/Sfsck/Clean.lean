import Os161.Laws.Sfsck.Result
import Os161.Laws.Sfs.Snapshot

/-!
# `sfsck` on the volumes of the kernel

`sfsck` wants a directory to have entries `.` and `..`, and a link count of 2 and one more for each subdirectory.
`mksfs` writes no such entries and a link count of 1, and the kernel counts the root's entries beyond that 1. So `sfsck`
finds no volume clean that the kernel has left.
-/

namespace Os161.Sfsck

open Os161.Lib Os161.Sfs

variable {seen : Bool} {i ino parentino : Blk} {c : Checked} {entries : List SfsDir} {d : SfsDir} {s t : State}
  {w : Walk} {n : Inode}

/-! ## The entries of a clean directory -/

theorem addDot_clean {name : List UInt8}
    (hch : (addDot seen name i c).changed = false) (hfull : (addDot seen name i c).full = false) :
    seen = true ∧ addDot seen name i c = c := by
  unfold addDot at *
  split at hch
  · rename_i hseen
    exact ⟨hseen, if_pos hseen⟩
  · rename_i hseen
    rw [if_neg hseen] at hfull
    split at hch
    · cases hch
    · rename_i hadd
      rw [hadd] at hfull
      split at hch
      · cases hch
      · rename_i hadd'
        simp only [hadd'] at hfull
        cases hfull

theorem fixDots_seen {seen' : Bool} {r : Dots}
    (h : fixDots ino parentino entries seen seen' = some r) :
    (r.dotseen = true → seen = true ∨ ∃ d ∈ r.entries, cstr d.name = dot) ∧
      (r.dotdotseen = true → seen' = true ∨ ∃ d ∈ r.entries, cstr d.name = dotdot) := by
  induction entries generalizing seen seen' r with
  | nil =>
    cases h
    exact ⟨.inl, .inl⟩
  | cons d rest ih =>
    have hcons : ∀ {name : List UInt8} {e : SfsDir} {es : List SfsDir}, (∃ d ∈ es, cstr d.name = name) →
        ∃ d ∈ e :: es, cstr d.name = name := fun ⟨d, hd, hname⟩ => ⟨d, List.mem_cons_of_mem _ hd, hname⟩
    unfold fixDots at h
    split at h
    · rename_i hdot
      split at h
      · cases h
      obtain ⟨r, hr, rfl⟩ := Option.map_eq_some_iff.mp h
      exact ⟨fun _ => .inr ⟨_, List.mem_cons_self, hdot⟩, fun hs => ((ih hr).2 hs).imp_right hcons⟩
    split at h
    · rename_i hdd
      split at h
      · cases h
      obtain ⟨r, hr, rfl⟩ := Option.map_eq_some_iff.mp h
      exact ⟨fun hs => ((ih hr).1 hs).imp_right hcons, fun _ => .inr ⟨_, List.mem_cons_self, hdd⟩⟩
    · obtain ⟨r, hr, rfl⟩ := Option.map_eq_some_iff.mp h
      exact ⟨fun hs => ((ih hr).1 hs).imp_right hcons, fun hs => ((ih hr).2 hs).imp_right hcons⟩

theorem checkEntries_clean {uc uc' : UInt32} {nd : Nat}
    (h : checkEntries uc ino parentino entries nd = some (c, uc')) (hch : c.changed = false) (hfull : c.full = false) :
    (∃ d ∈ entries.take nd, cstr d.name = dot ∧ d.ino = ino) ∧
      ∃ d ∈ entries.take nd, cstr d.name = dotdot ∧ d.ino = parentino := by
  unfold checkEntries at h
  dsimp only at h
  obtain ⟨merged, hmerged, h⟩ := Option.bind_eq_some_iff.mp h
  obtain ⟨dots, hdots, h⟩ := Option.map_eq_some_iff.mp h
  cases h
  obtain ⟨hdd, heq⟩ := addDot_clean hch hfull
  rw [heq] at hch hfull
  obtain ⟨hdot, heq⟩ := addDot_clean hch hfull
  rw [heq] at hch
  obtain ⟨hch₁, hch₂⟩ := Bool.or_eq_false_iff.mp hch
  have hm := mergeNames_merged hmerged
  have hd := fixDots_dotted hdots
  have hsame : dots.entries = entries.take nd := by
    rw [hd.same hch₂, (hm.same hch₁).1, checkDirEntries_same (hm.same hch₁).2]
  have hseen := fixDots_seen hdots
  rw [hsame] at hseen
  have hright := hd.right
  rw [hsame] at hright
  obtain ⟨d, hd, hname⟩ := (hseen.1 hdot).resolve_left (by decide)
  obtain ⟨e, he, hname'⟩ := (hseen.2 hdd).resolve_left (by decide)
  exact ⟨⟨d, hd, hname, (hright d hd).dot hname⟩, ⟨e, he, hname', (hright e he).dotdot hname'⟩⟩

theorem take_dirEntries (n : Inode) (disk : Blk → Block) :
    (dirEntries n disk).take (n.size / 64).toNat = slotsOf n disk := by
  have hle := entries_le n
  have hcount := toNat_entries n
  apply List.ext_getElem
  · rw [List.length_take, length_dirEntries, length_slotsOf, hcount]
    simp only [direntSize]
    omega
  · intro k h₁ h₂
    rw [length_slotsOf] at h₂
    rw [List.getElem_take, getElem_dirEntries n disk (by rw [hcount]; exact h₂), getElem_slotsOf]
    rfl

/-! ## Subdirectories -/

section Subdirs

variable {disk : Blk → Block} {nblocks : Blk} {sub : Blk → Blk → F Bool} {vis : Blk → Blk → Nat → Walk → Option Walk}

theorem followEntry_subdir (hsub : Follows disk nblocks sub vis) {r : SfsDir × Bool × Bool} (h : Sim disk s w) (hnb : s.nblocks = nblocks) (hrun : followEntry sub ino d s = .ok r t)
    (ht : t.badness ≤ exitRecov) (hr : r.2.1 = true) :
    d.ino ≠ 0 ∧ ¬ s.Used d.ino ∧ (Inode.ofBlock (disk d.ino)).type = typeDir := by
  unfold followEntry at hrun
  split at hrun
  · cases hrun
    cases hr
  rename_i hskip
  obtain ⟨data, u, hread, hrest⟩ := of_bind_ok hrun
  obtain ⟨rfl, rfl⟩ := diskread_eq hread
  dsimp only at hrest
  split at hrest
  · obtain ⟨_, v, _, hpure⟩ := of_bind_ok hrest
    cases hpure
    cases hr
  split at hrest
  · rename_i htype
    obtain ⟨remembered, v, hdir, hpure⟩ := of_bind_ok hrest
    have hv : v.badness ≤ exitRecov :=
      (Calm.ite ((setbadness_calm _).bind fun _ => Calm.pure _) (Calm.pure _)).badness_le hpure ht
    obtain ⟨-, hfree, hlt, -⟩ := hsub d.ino ino 0 u v remembered w h hnb htype hdir hv
    rw [h.inode hlt hfree] at htype
    exact ⟨fun h0 => hskip (.inr (.inr h0)), hfree, htype⟩
  · obtain ⟨_, v, _, hpure⟩ := of_bind_ok hrest
    cases hpure
    cases hr

theorem followEntries_subdirs (hsub : Follows disk nblocks sub vis) (hleads : ∀ i p, Leads (sub i p)) {r : List SfsDir × Nat × Bool} (h : Sim disk s w)
    (hnb : s.nblocks = nblocks) (hrun : followEntries sub ino entries s = .ok r t) (ht : t.badness ≤ exitRecov)
    (hused : ∀ d ∈ entries, d.ino ≠ 0 → (Inode.ofBlock (disk d.ino)).type = typeDir → s.Used d.ino) : r.2.1 = 0 := by
  induction entries generalizing s w r with
  | nil =>
    cases hrun
    rfl
  | cons d rest ih =>
    obtain ⟨first, u, hfirst, hrest⟩ := of_bind_ok hrun
    obtain ⟨others, v, hothers, hpure⟩ := of_bind_ok hrest
    cases hpure
    have hu := ((followEntries_under (fun i p => (hleads i p).under) _ _).leads).badness_le hothers ht
    obtain ⟨w₁, -, hf⟩ := followEntry_goes hsub 0 h hnb hfirst hu
    have hno : first.2.1 = false := by
      refine Bool.eq_false_of_not_eq_true fun hr => ?_
      obtain ⟨h0, hfree, htype⟩ := followEntry_subdir hsub h hnb hfirst hu hr
      exact hfree (hused d List.mem_cons_self h0 htype)
    have hothers := ih hf.goes.sim (hf.goes.nblocks.trans hnb) hothers fun e he h0 htype =>
      hf.goes.used _ (hused e (List.mem_cons_of_mem _ he) h0 htype)
    show first.2.1.toNat + others.2.1 = 0
    rw [hno, hothers]
    rfl

end Subdirs

theorem checkLinkcount_clean {k : Nat} {r : Inode × Bool}
    (h : checkLinkcount n k s = .ok r t) (ht : t.badness = 0) : n.linkcount.toNat = k + 2 := by
  unfold checkLinkcount at h
  split at h
  · obtain ⟨_, u, hbad, hpure⟩ := of_bind_ok h
    cases hpure
    exact absurd ((setbadness_noted hbad).trans ht.le) (by decide)
  · exact not_not.mp ‹_›

theorem checkDir_clean {disk : Blk → Block} {depth : Nat} {parent : Blk} {r : Bool}
    (h : Sim disk s w) (hrun : checkDir (depth + 1) ino parent s = .ok r t) (ht : t.badness = 0)
    (hn : Inode.ofBlock (disk ino) = n) (hwhole : n.size.toNat % direntSize = 0)
    (hdirs : ∀ d ∈ slotsOf n disk, d.ino ≠ 0 → (Inode.ofBlock (disk d.ino)).type = typeDir → d.ino = ino) :
    n.linkcount = 2 ∧ (∃ d ∈ slotsOf n disk, cstr d.name = dot ∧ d.ino = ino) ∧
      ∃ d ∈ slotsOf n disk, cstr d.name = dotdot ∧ d.ino = parent := by
  have hround : roundSize n = n := by
    refine if_neg (not_not.mpr ?_)
    rw [← UInt32.toNat_inj, UInt32.toNat_mod]
    exact hwhole
  obtain ⟨-, v, q, -, -, -, u, n', ichanged, c, counter, hopen, hgo⟩ := checkDir_opens h hrun (by rw [ht]; decide)
  rw [hn, hround] at hopen
  have hleads := checkDir_leads depth
  obtain ⟨followed, u₁, hfollow, h₁⟩ := of_bind_ok hgo
  obtain ⟨counted, u₂, hcount, hwrite⟩ := of_bind_ok h₁
  have h₂ := (writeBack_calm _ _ _ _ _ _).badness_le hwrite ht.le
  have h₁ := (checkLinkcount_calm _ _).badness_le hcount h₂
  have hu := ((followEntries_under (fun i p => (hleads i p).under) _ _).leads).badness_le hfollow h₁
  obtain ⟨hich, hch, hfull⟩ := hopen.noted (Nat.le_zero.mp hu)
  obtain ⟨hentries, hnd⟩ := hopen.rechecked.same hch
  have hslots : c.entries.take c.nd = slotsOf n disk := by
    rw [hentries, hnd, take_dirEntries]
  have hclean := checkEntries_clean hopen.entries hch hfull
  rw [take_dirEntries] at hclean
  refine ⟨?_, hclean⟩
  have hzero : followed.2.1 = 0 := by
    refine followEntries_subdirs (checkDir_follows u.nblocks depth) hleads hopen.sim rfl hfollow
      (h₁.trans (by decide)) fun d hd h0 htype => ?_
    rw [hslots] at hd
    rw [hdirs d hd h0 htype]
    exact (hopen.used_own List.mem_cons_self).2
  have hlinks := checkLinkcount_clean hcount (Nat.le_zero.mp h₂)
  rw [hzero, hopen.same hich, hn] at hlinks
  exact UInt16.toNat_inj.mp hlinks

/-! ## A volume that the kernel has left -/

theorem two_le_links {e : SfsDir} (hd : d ∈ entries) (he : e ∈ entries)
    (hne : d ≠ e) (hdi : d.ino = i) (hei : e.ino = i) : 2 ≤ links entries i := by
  have hsub : [d, e].Nodup := by simpa using hne
  have hmem : ∀ x ∈ [d, e], x ∈ entries.filter (·.ino = i) := by
    intro x hx
    rw [List.mem_filter, decide_eq_true_eq]
    rcases List.mem_pair.mp hx with rfl | rfl
    · exact ⟨hd, hdi⟩
    · exact ⟨he, hei⟩
  rw [links, List.countP_eq_length_filter]
  exact (List.subperm_of_subset hsub hmem).length_le

theorem main_not_clean {img : Image} {c : Core} {leaked : Blk → Prop} (h : Sfs.Sound leaked settled c)
    (hclean : ∀ p v, c.vnodes p = some v → v.dirty = false) (hdisk : img.disk = c.disk) (depth : Nat) (u : State) :
    main depth img.start ≠ .ok exitClean u := by
  intro hrun
  have hnblocks : img.nblocks = c.nblocks := by
    rw [Image.nblocks, hdisk, h.onDisk.super.2, words_superBlock_one]
  have hinode : ∀ i, Inode.ofBlock (img.disk i) = c.inode i := by
    rw [hdisk]
    exact h.inode_clean hclean
  have hfixed : img.fixed = img.disk := if_pos (by rw [hinode]; exact h.root.type)
  obtain ⟨s, t, v, r, hsim, -, -, -, hdir, hbad, -⟩ :=
    main_root (by rw [hnblocks]; exact h.fits.small.trans (by decide)) hrun (by decide)
  rw [hfixed] at hsim
  cases depth with
  | zero => cases hdir
  | succ depth =>
    have hslots : slotsOf (c.inode rootLocation) img.disk = c.slots := by rw [hdisk, Core.slots]
    have hoccupied : ∀ d ∈ c.slots, d.ino ≠ 0 → d ∈ c.entries := by
      intro d hd h0
      rw [Core.entries, occupied, List.mem_filter, decide_eq_true_eq]
      exact ⟨hd, h0⟩
    obtain ⟨htwo, ⟨d, hd, hdot, hdi⟩, e, he, hdd, hei⟩ := checkDir_clean hsim hdir (Nat.le_zero.mp hbad)
      (hinode rootLocation) h.root.whole fun d hd h0 htype => by
        rw [hslots] at hd
        by_contra hne
        rw [hinode, h.file_type d.ino (.inr (.inl ⟨d, hoccupied d hd h0, rfl⟩)) hne] at htype
        cases htype
    rw [hslots] at hd he
    have hlinks := h.links rootLocation Core.live_root
    have hge := two_le_links (hoccupied d hd (by rw [hdi]; decide)) (hoccupied e he (by rw [hei]; decide))
      (fun heq => by rw [heq, hdd] at hdot; cases hdot) hdi hei
    rw [htwo, if_pos rfl, settled] at hlinks
    have : ((2 : UInt16).toNat : Int) = 2 := rfl
    omega

/-- Whatever the operations on a new volume were, `sfsck` does not find it clean after `sfs_sync`. -/
theorem synced_not_clean {volname : CStr} {size : Nat} {s t : Sfs.State} (hlarge : 3 ≤ size)
    (h : Reached volname size [] s) (hsync : sfsSync.run s = (.ok (), t)) (img : Image) (hdisk : img.disk = t.disk)
    (depth : Nat) (u : State) : main depth img.start ≠ .ok exitClean u := by
  have hwp : Prog.wp sfsSync (fun _ t => Volume noLeak settled nobody t.toCore ∧
      ∀ p v, t.vnodes p = some v → v.dirty = false) (fun _ _ => True) s :=
    wp_sync (h.volume hlarge h.small) fun _ hvol hclean _ _ => ⟨hvol, hclean⟩
  obtain ⟨hvol, hclean⟩ := hwp.of_run hsync
  exact main_not_clean hvol.sound hclean hdisk depth u

/-- The disk of the volume with a file `a`, after `sfs_sync`. -/
def namedImage : Image := ⟨16, (sfsSync.run (namedVolume [])).2.disk, by decide⟩

theorem namedImage_not_clean : ¬ ∃ depth u, main depth namedImage.start = .ok exitClean u := by
  have hsync : (sfsSync.run (namedVolume [])).1 = .ok () := by decide +kernel
  have hrun : sfsSync.run (namedVolume []) = (.ok (), (sfsSync.run (namedVolume [])).2) := Prog.run_eq_ok hsync
  have hdisk : namedImage.disk = (sfsSync.run (namedVolume [])).2.disk := by rw [namedImage]
  rintro ⟨depth, u, hclean⟩
  exact synced_not_clean (by decide) reached_namedVolume hrun namedImage hdisk depth u hclean

/-- A device of 4096 blocks on which `mksfs` has made a volume. -/
def wideDevice : Sfs.State := { newDevice [] with dBlocks := 4096, disk := mkImage [] 4096 fun _ => zeros }

/-- A volume that is mounted and synced, and nothing else: there is no room for `.` in its root directory. -/
theorem fresh_volume_not_clean : ∃ s t, Reached ⟨[], by decide⟩ 4096 [] s ∧ sfsSync.run s = (.ok (), t) ∧
    exitCode (main 3 (Image.mk 4096 t.disk (by decide)).start) = some exitUnrecov := by
  have hdisk : mksfs [] 4096 (fun _ => zeros) = some wideDevice.disk :=
    mksfs_eq (by decide) (by decide) (by decide) (by decide) (by decide) fun _ => zeros
  have hmount : (sfsDomount.run wideDevice).1 = .ok () := by decide +kernel
  exact ⟨_, _, .mount hdisk rfl (Nat.le_refl 4096) (Prog.run_eq_ok hmount), Prog.run_eq_ok (by decide +kernel),
    by decide +kernel⟩

end Os161.Sfsck

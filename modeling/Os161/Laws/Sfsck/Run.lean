import Os161.Laws.Sfsck.Walk

/-!
# `sfsck`: a whole run

From `check_sb` to `adjust_filelinks`: a run that returns with at most `EXIT_RECOV` has walked over the image and
leaves every inode of the walk as it should be left, with the marks in the free map.
-/

namespace Os161.Sfsck

open Os161.Lib Os161.Sfs

variable {disk : Blk → Block}
variable {k depth i code : Nat} {img : Image} {r : Nat × Nat}

/-! ## `check_dir` -/

theorem DirOpened.rechecked {s u : State} {w : Walk} {ino parent : Blk} {n n' : Inode} {ichanged : Bool}
    {c : Checked} {counter : UInt32} (h : DirOpened disk s u w ino parent n n' ichanged c counter) :
    Rechecked ino parent (dirEntries n disk) (n.size / 64).toNat c := by
  refine checkEntries_rechecked (dirEntries_ok n disk) ?_ (drop_dirEntries n disk) h.entries
  rw [length_dirEntries]
  exact entries_le n

theorem checkLinkcount_quiet {n : Inode} {r : Inode × Bool} {s t : State}
    (h : checkLinkcount n k s = .ok r t) :
    Quiet s t [] nowhere ∧ (∃ links, r.1 = { n with linkcount := links }) ∧ (r.2 = false → r.1 = n) := by
  unfold checkLinkcount at h
  split at h
  · obtain ⟨_, u, hbad, hpure⟩ := of_bind_ok h
    cases hpure
    exact ⟨setbadness_quiet hbad, ⟨_, rfl⟩, nofun⟩
  · cases h
    exact ⟨Quiet.refl _ _, ⟨n.linkcount, rfl⟩, fun _ => rfl⟩

section OnDisk

variable {nblocks : Blk} {sub : Blk → Blk → F Bool} {vis : Blk → Blk → Nat → Walk → Option Walk}
  {ino parent : Blk} {n n' : Inode} {ichanged : Bool} {c : Checked} {counter : UInt32} {s u t : State} {w : Walk}
variable {m : Inode} {now : Blk → Block}

theorem DirOpened.size_grown (h : DirOpened disk s u w ino parent n n' ichanged c counter) :
    (n'.size + UInt32.ofNat (direntSize * (c.nd - (n'.size / 64).toNat))).toNat = 64 * c.nd := by
  have hre := h.rechecked
  have hle := hre.le_nd
  have hmax := hre.nd_le
  have hwhole := h.sized.whole
  have hsmall := h.sized.small
  rw [length_dirEntries] at hmax
  rw [toNat_entries] at hle
  rw [UInt32.toNat_add, h.size, toNat_entries, UInt32.toNat_ofNat']
  simp only [direntSize]
  omega

theorem DirOpened.blocks (h : DirOpened disk s u w ino parent n n' ichanged c counter) :
    (c.nd + 7) / 8 = blocksOf n := by
  have hre := h.rechecked
  have hle := hre.le_nd
  have hmax := hre.nd_le
  rw [length_dirEntries] at hmax
  rw [toNat_entries] at hle
  rw [h.sized.blocks]
  have := h.sized.count
  omega

theorem DirOpened.used_own (h : DirOpened disk s u w ino parent n n' ichanged c counter) {b : Blk}
    (hb : b ∈ ino :: claimed n disk) : b < u.nblocks ∧ u.Used b := by
  have hheld : b ∈ Walk.held disk ⟨ino :: claimed n disk ++ w.busy, w.nodes, counter⟩ :=
    List.mem_append_left _ (List.mem_append_left _ hb)
  have hlt := h.sim.lt b hheld
  exact ⟨hlt, (h.sim.used b hlt).mpr hheld⟩

theorem holds_dir {slot : Nat} {inos : List Blk} (hopen : Opened disk now n m)
    (hstored : Inode.ofBlock (now ino) = m) (htype : n.type = typeDir) (hmtype : m.type = n.type)
    (hsize : m.size.toNat = 64 * inos.length) (hmax : inos.length ≤ 8 * blocksOf n)
    (hslots : ∀ k (hk : k < inos.length), (slotAt m now k).ino = inos[k]) :
    Node.Holds disk now ⟨ino, parent, slot, n, inos⟩ := by
  have hcount : m.size.toNat / direntSize = inos.length := by
    rw [hsize]
    simp only [direntSize]
    omega
  have hnot : n.type ≠ typeFile := by rw [htype]; decide
  refine ⟨?_, ?_, fun hf => absurd hf hnot, fun _ => ?_, fun _ => ?_⟩
  · rw [hstored]
    exact hopen.place
  · rw [hstored]
    exact hmtype
  · rw [hstored]
    apply List.ext_getElem
    · rw [List.length_map, length_slotsOf, hcount]
    · intro k h₁ h₂
      rw [List.getElem_map, getElem_slotsOf]
      exact hslots k h₂
  · rw [hstored, hcount]
    exact hmax

theorem DirOpened.unchanged (h : DirOpened disk s u w ino parent n n' ichanged c counter) {followed : List SfsDir × Nat × Bool} (hopen : Opened disk now n m)
    (hnow : ∀ b ∈ ino :: claimed n disk, now b = u.disk b)
    (hsame : followed.2.2 = false → followed.1 = c.entries.take c.nd)
    (hch : (c.changed || followed.2.2) = false)
    (hk : k < (followed.1 ++ c.entries.drop c.nd).length) (hknd : k < c.nd) :
    (slotAt m now k).ino = (followed.1 ++ c.entries.drop c.nd)[k].ino := by
  obtain ⟨hc, hf⟩ := Bool.or_eq_false_iff.mp hch
  obtain ⟨hentries, hnd⟩ := h.rechecked.same hc
  have hall : followed.1 ++ c.entries.drop c.nd = dirEntries n' u.disk := by
    rw [hsame hf, List.take_append_drop, hentries, h.slots]
  have hk8 : k / 8 < blocksOf n := by
    have := h.blocks
    omega
  simp only [hall]
  rw [getElem_dirEntries n' u.disk (by rw [h.size, ← hnd]; exact hknd),
    ← Nat.div_add_mod k 8]
  refine congrArg _ (slotAt_congr (Nat.mod_lt _ (by decide)) ?_ fun h0 => ?_)
  · rw [hopen.fileBlock hk8, h.opened.fileBlock hk8]
  · exact hnow _ (List.mem_cons_of_mem _ (h.opened.mem_claimed hk8 h0))

theorem checkOnDisk_goes (slot : Nat) (hsub : Follows disk nblocks sub vis) (hleads : ∀ i p, Leads (sub i p))
    (h : DirOpened disk s u w ino parent n n' ichanged c counter) (htype : n.type = typeDir)
    (hnb : s.nblocks = nblocks) (hrun : checkOnDisk sub ino n' ichanged c u = .ok () t)
    (ht : t.badness ≤ exitRecov) (hn : n = roundSize (.ofBlock (disk ino))) :
    ∃ w', visitWith disk nblocks vis ino parent slot w c counter = some w' ∧ Goes disk s t w w' := by
  obtain ⟨followed, v, hfollow, h₁⟩ := of_bind_ok hrun
  obtain ⟨counted, v', hcount, hwrite⟩ := of_bind_ok h₁
  have hv' := (writeBack_calm _ _ _ _ _ _).badness_le hwrite ht
  have hv := (checkLinkcount_calm _ _).badness_le hcount hv'
  have hre := h.rechecked
  obtain ⟨w₂, hall, hgoes, hlen, hok, hsame⟩ :=
    followEntries_goes hsub hleads 0 h.sim (h.nblocks.trans hnb) hfollow hv
  obtain ⟨q, ⟨links, hm⟩, hlinks⟩ := checkLinkcount_quiet hcount
  have hclen : c.entries.length = 8 * blocksOf n := by
    rw [hre.length, length_dirEntries, h.sized.blocks]
  have hnd := hre.nd_le
  rw [length_dirEntries, ← h.sized.blocks] at hnd
  have hlen : followed.1.length = c.nd := by
    rw [hlen, List.length_take]
    omega
  -- the blocks of the directory are as they were when its entries were read
  have hnow : ∀ b ∈ ino :: claimed n disk, v'.disk b = u.disk b := by
    intro b hb
    rw [q.disk_eq]
    exact hgoes.frame b (h.used_own hb).1 (h.used_own hb).2
  have hind : n'.indirect ≠ 0 → n'.indirect ∈ claimed n disk := by
    rw [h.opened.indirect]
    exact left_mem_claimed (mem_markedPlaces.mpr nofun)
  have hopen : Opened disk v'.disk n counted.1 := by
    rw [hm]
    exact h.opened.resize rfl rfl fun h0 => hnow _ (List.mem_cons_of_mem _ (hind h0))
  have hnodup : (ino :: claimed n disk).Nodup :=
    (List.nodup_append'.mp (List.nodup_append'.mp h.sim.nodup).1).1
  have hsec : ∀ b ∈ ino :: claimed n disk, sector b = b := fun b hb => h.sim.mapped.sector (h.used_own hb).1
  have hfinal : ∀ d ∈ followed.1 ++ c.entries.drop c.nd, d.Ok := by
    intro d hd
    rcases List.mem_append.mp hd with hd | hd
    · exact hok (fun e he => hre.ok e (List.mem_of_mem_take he)) d hd
    · exact hre.ok d (List.mem_of_mem_drop hd)
  have hinode : (ichanged || UInt32.ofNat (direntSize * (c.nd - (n'.size / 64).toNat)) ≠ 0 || counted.2) = false →
      Inode.ofBlock (v'.disk ino) = counted.1 := by
    intro hch
    simp only [Bool.or_eq_false_iff, decide_eq_false_iff_not, not_not] at hch
    obtain ⟨⟨hich, hgrown⟩, hcounted⟩ := hch
    rw [hnow ino List.mem_cons_self, h.stored, ← h.same hich, hlinks hcounted, hgrown, UInt32.add_zero]
  obtain ⟨q', hstored, hopen', hslots⟩ := writeBack_quiet hopen hnodup hsec hfinal
    (by rw [List.length_append, hlen, List.length_drop, hclen]; omega) h.blocks
    (fun hch k hk hknd => h.unchanged hopen hnow hsame hch hk hknd) hinode hwrite ht
  have hholds : Node.Holds disk t.disk ⟨ino, parent, slot, n, followed.1.map (·.ino)⟩ := by
    refine holds_dir hopen' hstored htype ?_ ?_ ?_ ?_
    · rw [hm]
      exact h.type
    · rw [hm, List.length_map, hlen]
      exact h.size_grown
    · rw [List.length_map, hlen]
      exact hnd
    · intro k hk
      rw [List.length_map] at hk
      rw [hslots k (by rw [List.length_append]; omega) (by omega), List.getElem_append_left hk, List.getElem_map]
  have hsim := (hgoes.sim.quiet q nofun).quiet q' fun b hb => by
    rw [List.nil_append, List.nil_append, hgoes.busy]
    exact List.mem_append_left _ hb
  refine ⟨⟨w.busy, ⟨ino, parent, slot, n, followed.1.map (·.ino)⟩ :: w₂.nodes, w₂.counter⟩, ?_, ?_⟩
  · rw [visitWith, ← hn, hall]
    rfl
  · refine ⟨Sim.close (U := ino :: claimed n disk) ?_ (List.Perm.refl _) hholds, rfl, ?_, ?_, ?_, ?_⟩
    · have hbusy : w₂.busy = ino :: claimed n disk ++ w.busy := hgoes.busy
      rw [← hbusy]
      exact hsim
    · rw [q'.nblocks, q.nblocks, hgoes.nblocks, h.nblocks]
    · rw [q'.bitblocks, q.bitblocks, hgoes.bitblocks, h.bitblocks]
    · exact fun b hb => q'.used_of (q.used_of (hgoes.used b (h.used b hb)))
    · intro b hlt hb
      rw [q'.disk b fun hown => h.fresh b hown hb, q.disk_eq, hgoes.frame b (h.nblocks ▸ hlt) (h.used b hb),
        h.frame b hb]

theorem checkDir_opens {r : Bool} (h : Sim disk s w)
    (hrun : checkDir (depth + 1) ino parent s = .ok r t) (ht : t.badness ≤ exitRecov) :
    r = false ∧ ∃ v, Quiet { s with entered := ino :: s.entered } v [] nowhere ∧ ¬ v.Used ino ∧ ino < v.nblocks ∧
      v.disk (sector ino) = disk ino ∧ ∃ u n' ichanged c counter,
        DirOpened disk v u w ino parent (roundSize (.ofBlock (disk ino))) n' ichanged c counter ∧
          checkOnDisk (checkDir depth) ino n' ichanged c u = .ok () t := by
  rw [checkDir_succ] at hrun
  obtain ⟨_, s₁, henter, hrun⟩ := of_bind_ok hrun
  cases henter
  have h₁ : Sim disk { s with entered := ino :: s.entered } w :=
    ⟨⟨h.mapped.small, h.mapped.pastEnd⟩, h.ninodes, h.maxinodes, h.nodup, h.used, h.lt, h.free, h.holds, h.counter⟩
  obtain ⟨data, s₂, hread, hrest⟩ := of_bind_ok hrun
  obtain ⟨rfl, rfl⟩ := diskread_eq hread
  obtain ⟨remembered, v, hremember, hrest⟩ := of_bind_ok hrest
  obtain ⟨rfl, q⟩ := rememberDir_quiet h₁.ninodes hremember
  obtain ⟨_, s₄, hnew, hpure⟩ := of_bind_ok hrest
  cases hpure
  have h₃ : Sim disk v w := h₁.quiet q nofun
  have hdisk : v.disk = s.disk := q.disk_eq
  rw [show (Inode.ofBlock (s.disk (sector ino))) = .ofBlock (v.disk (sector ino)) by rw [hdisk]] at hnew
  have hleads := checkDir_leads depth
  obtain ⟨hfree, hlt, hopen⟩ := checkNewDir_opens h₃
    (fun n ichanged c => (checkOnDisk_under (fun i p => (hleads i p).under) ino n ichanged c).leads) hnew ht
  exact ⟨rfl, v, q, hfree, hlt, h₃.inode hlt hfree, hopen⟩

theorem checkDir_follows (nblocks : Blk) (depth : Nat) :
    Follows disk nblocks (checkDir depth) (visit disk nblocks depth) := by
  induction depth with
  | zero =>
    intro ino parent slot s t r w _ _ _ hrun
    cases hrun
  | succ depth ih =>
    intro ino parent slot s t r w h hnb htype hrun ht
    obtain ⟨rfl, v, q, hfree, hlt, himage, u, n', ichanged, c, counter, hopen, hgo⟩ := checkDir_opens h hrun ht
    have hdisk : v.disk = s.disk := q.disk_eq
    have htype' : (roundSize (.ofBlock (disk ino))).type = typeDir := by
      rw [← hdisk, himage] at htype
      rw [← htype]
      unfold roundSize
      split
      · rfl
      · rfl
    obtain ⟨w', hvisit, hgoes⟩ :=
      checkOnDisk_goes slot ih (checkDir_leads depth) hopen htype' (q.nblocks.trans hnb) hgo ht rfl
    have hused : ∀ b, v.Used b ↔ s.Used b := fun b => (q.used b).trans (by simp [State.Used])
    refine ⟨rfl, fun hu => hfree ((hused ino).mpr hu), q.nblocks ▸ hlt, w', ?_, hgoes.sim, hgoes.busy,
      hgoes.nblocks.trans q.nblocks, hgoes.bitblocks.trans q.bitblocks, fun b hb => hgoes.used b ((hused b).mpr hb),
      fun b hlt hb => ?_⟩
    · rw [visit, hopen.entries]
      exact hvisit
    · rw [hgoes.frame b (q.nblocks.symm ▸ hlt) ((hused b).mpr hb), hdisk]

end OnDisk

/-! ## The superblock -/

theorem markAll_quiet {how : Usage} (hhow : how ≠ .tofree) {blocks : List Nat} {s t : State}
    (h : markAll how blocks s = .ok () t) (ht : t.badness ≤ exitRecov) :
    Quiet s t (blocks.map UInt32.ofNat) nowhere := by
  induction blocks generalizing s with
  | nil =>
    cases h
    exact Quiet.refl _ _
  | cons b rest ih =>
    obtain ⟨_, u, hmark, hrest⟩ := of_bind_ok h
    have q := bitmapMark_quiet hmark ((markAll_calm _ _).badness_le hrest ht)
    rw [marked, if_neg hhow] at q
    exact q.trans (ih hrest)

theorem checkVolname_quiet {sp : Block} {s t : State} (h : checkVolname sp s = .ok () t) :
    Quiet s t [] (· = 0) := by
  rcases onlyIf_eq h with ⟨-, h⟩ | ⟨-, rfl⟩
  · obtain ⟨_, u, hbad, hwrite⟩ := of_bind_ok h
    exact ((setbadness_quiet hbad).mono nofun).trans (diskwrite_quiet hwrite rfl).1
  · exact Quiet.refl _ _

/-- The blocks of the volume itself, as they are marked. -/
def reserved (nblocks : Blk) : List Blk :=
  0 :: (List.range' mapLocation (bitblocks32 nblocks).toNat).map UInt32.ofNat

/-- The number of blocks in the superblock. -/
def Image.nblocks (img : Image) : Blk := words (img.disk 0) 1

theorem bitblocks32_bound (nblocks : Blk) : (bitblocks32 nblocks).toNat * blockBits < 2 ^ 32 := by
  have := nblocks.toNat_lt
  unfold bitblocks32
  simp only [UInt32.toNat_add, UInt32.toNat_sub, UInt32.toNat_mul, UInt32.toNat_div, UInt32.reduceToNat, blockBits]
  omega

theorem checkSb_sim {t : State} (hvol : img.nblocks.toNat ≤ 0x800000)
    (h : checkSb img.start = .ok () t) (ht : t.badness ≤ exitRecov) :
    Sim img.disk t ⟨reserved img.nblocks, [], 1⟩ ∧ t.nblocks = img.nblocks ∧
      t.bitblocks = bitblocks32 img.nblocks ∧ ∀ b, b ≠ 0 → t.disk b = img.disk b := by
  obtain ⟨sp, s, hread, hrest⟩ := of_bind_ok h
  obtain ⟨rfl, rfl⟩ := diskread_eq hread
  split at hrest
  · cases hrest
  unfold checkSbWith at hrest
  split at hrest
  · cases hrest
  rename_i hzero
  obtain ⟨_, s₁, hset, h₁⟩ := of_bind_ok hrest
  obtain ⟨_, s₂, hpast, h₂⟩ := of_bind_ok h₁
  obtain ⟨_, s₃, hvolname, h₃⟩ := of_bind_ok h₂
  obtain ⟨_, s₄, hsuper, hmap⟩ := of_bind_ok h₃
  have ht₄ := (markAll_calm _ _).badness_le hmap ht
  have ht₃ := (bitmapMark_calm _ _).badness_le hsuper ht₄
  have ht₂ := (checkVolname_calm _).badness_le hvolname ht₃
  have q₁ := markAll_quiet (by decide) hpast ht₂
  have q₂ := checkVolname_quiet hvolname
  have q₃ : Quiet s₃ s₄ [0] nowhere := bitmapMark_quiet hsuper ht₄
  have q₄ := markAll_quiet (by decide) hmap ht
  have q := q₂.trans ((q₃.mono nofun).trans (q₄.mono nofun))
  cases hset
  have hnb : s₂.nblocks = img.nblocks := q₁.nblocks
  have hbb : s₂.bitblocks = bitblocks32 img.nblocks := q₁.bitblocks
  -- at first only the blocks past the end are marked
  have hbound := bitblocks32_bound img.nblocks
  have hpastEnd : ∀ b, s₂.Used b ↔
      b ∈ (List.range' img.nblocks.toNat
        ((bitblocks32 img.nblocks).toNat * blockBits - img.nblocks.toNat)).map UInt32.ofNat := by
    intro b
    rw [q₁.used]
    exact or_iff_right fun hused => hused (UInt8.zero_and ..)
  have hsim : Sim img.disk s₂ ⟨[], [], 1⟩ := by
    refine ⟨⟨hnb ▸ hvol, fun b hb hle => ?_⟩, q₁.ninodes, q₁.maxinodes, List.nodup_nil, fun b hb => ?_, nofun,
      fun b _ _ => q₁.disk b id, nofun, q₁.counter⟩
    · rw [hpastEnd]
      rw [hbb] at hb
      rw [hnb] at hle
      have hle := UInt32.le_iff_toNat_le.mp hle
      refine List.mem_map.mpr ⟨b.toNat, List.mem_range'_1.mpr ?_, UInt32.ofNat_toNat⟩
      simp only [blockSize, blockBits] at *
      omega
    · rw [hpastEnd]
      refine iff_of_false (fun hmem => ?_) nofun
      obtain ⟨k, hk, rfl⟩ := List.mem_map.mp hmem
      have hk := List.mem_range'_1.mp hk
      rw [hnb] at hb
      have hb := UInt32.lt_iff_toNat_lt.mp hb
      rw [UInt32.toNat_ofNat_of_lt' (by simp only [UInt32.size, blockBits] at *; omega)] at hb
      omega
  refine ⟨?_, q.nblocks.trans hnb, q.bitblocks.trans hbb, fun b hb => (q.disk b hb).trans (q₁.disk b id)⟩
  have := hsim.quiet q fun b hb => by
    rw [hb]
    exact List.mem_append_left _ (List.mem_append_right _ List.mem_cons_self)
  rwa [List.append_nil] at this

/-! ## The root -/

/-- The disk of an image, with the root made a directory. -/
def Image.fixed (img : Image) : Blk → Block :=
  if (Inode.ofBlock (img.disk rootLocation)).type = typeDir then img.disk
  else Function.update img.disk rootLocation
    { Inode.ofBlock (img.disk rootLocation) with type := typeDir }.toBlock

/-- The walk over an image. -/
def Image.walk (img : Image) (depth : Nat) : Option Walk :=
  visit img.fixed img.nblocks depth rootLocation rootLocation 0 ⟨reserved img.nblocks, [], 1⟩

theorem fixRoot_sim {counter : UInt32} {busy : List Blk} {s t : State}
    (h : Sim img.disk s ⟨busy, [], counter⟩)
    (hroot : s.disk rootLocation = img.disk rootLocation)
    (hrun : fixRoot (.ofBlock (s.disk rootLocation)) s = .ok () t) :
    Sim img.fixed t ⟨busy, [], counter⟩ ∧ t.nblocks = s.nblocks ∧ t.bitblocks = s.bitblocks ∧
      (Inode.ofBlock (t.disk rootLocation)).type = typeDir := by
  rw [hroot] at hrun
  rcases onlyIf_eq hrun with ⟨htype, hrun⟩ | ⟨htype, rfl⟩
  · obtain ⟨_, u, hbad, hwrite⟩ := of_bind_ok hrun
    have q := (setbadness_quiet hbad).mono (V := (· = rootLocation)) nofun
    obtain ⟨q', hdata⟩ := diskwrite_quiet hwrite rfl
    have q := q.trans q'
    have hfixed : img.fixed = Function.update img.disk rootLocation _ := if_neg htype
    have hheld : Walk.held img.fixed ⟨busy, [], counter⟩ = Walk.held img.disk ⟨busy, [], counter⟩ := by
      rw [Walk.held, Walk.held, List.flatMap_nil, List.flatMap_nil]
    refine ⟨⟨q.mapped h.mapped, q.ninodes.trans h.ninodes, q.maxinodes.trans h.maxinodes, ?_, ?_, ?_, ?_, nofun,
      q.counter.trans h.counter⟩, q.nblocks, q.bitblocks, by rw [hdata, Inode.ofBlock_toBlock]⟩
    · rw [hheld]
      exact h.nodup
    · intro b hb
      rw [hheld, q.used, List.append_nil, ← h.used b (q.nblocks ▸ hb)]
      exact or_iff_left List.not_mem_nil
    · rw [hheld, q.nblocks]
      exact h.lt
    · intro b hb hfree
      by_cases hroot : b = rootLocation
      · rw [hroot, hdata, hfixed, Function.update_self]
      · rw [q.disk b hroot, hfixed, Function.update_of_ne hroot]
        exact h.free b (q.nblocks ▸ hb) fun hu => hfree (q.used_of hu)
  · have htype := not_not.mp htype
    have hfixed : img.fixed = img.disk := if_pos htype
    rw [hfixed]
    exact ⟨h, rfl, rfl, by rw [hroot]; exact htype⟩

/-! ## The free map -/

/-- A block of the map of used blocks. -/
def mapBlock (s : State) (i : Nat) : Block := fun j => s.bitmapdata (i * blockSize + j)

theorem checkByte_fst (bits found tofree : UInt8) : (checkByte bits found tofree).1 = found := by
  unfold checkByte
  split
  · assumption
  split
  · rfl
  · rfl

theorem checkByte_same {bits found tofree : UInt8} (h : (checkByte bits found tofree).2.1 = false) :
    bits = found := by
  unfold checkByte at h
  split at h
  · assumption
  split at h
  · cases h
  · cases h

theorem checkedBlock_eq (i : Nat) (bits : Block) (s : State) : checkedBlock (checkBytes i bits s) = mapBlock s i :=
  funext fun _ => checkByte_fst _ _ _

theorem of_not_bchanged {bits : Block} {s : State} (h : ¬ bchanged (checkBytes i bits s) = true) :
    bits = mapBlock s i := by
  funext j
  have := List.any_eq_false.mp (Bool.eq_false_iff.mpr h) j (List.mem_finRange j)
  exact checkByte_same (Bool.eq_false_iff.mpr this)

theorem assert_eq {c : Prop} [Decidable c] {s t : State} (h : assert c s = .ok () t) : t = s := by
  unfold assert at h
  split at h
  · cases h
    rfl
  · cases h

set_option maxRecDepth 2000 in
theorem checkMapBlock_eq {s t : State}
    (hsec : sector (UInt32.ofNat (mapLocation + i)) = UInt32.ofNat (mapLocation + i))
    (h : checkMapBlock i s = .ok r t) :
    t = { s with disk := Function.update s.disk (UInt32.ofNat (mapLocation + i)) (mapBlock s i) } := by
  obtain ⟨bits, u, hread, h₁⟩ := of_bind_ok h
  obtain ⟨rfl, rfl⟩ := diskread_eq hread
  obtain ⟨_, u', hget, h₂⟩ := of_bind_ok h₁
  cases hget
  obtain ⟨_, u', hassert, h₃⟩ := of_bind_ok h₂
  obtain rfl := assert_eq hassert
  obtain ⟨_, v, hwrite, hpure⟩ := of_bind_ok h₃
  obtain rfl : v = t := (EStateM.Result.ok.inj (hpure : EStateM.Result.ok _ v = _)).2
  rcases onlyIf_eq hwrite with ⟨-, hwrite⟩ | ⟨hch, rfl⟩
  · rw [diskwrite_eq hwrite, hsec, checkedBlock_eq]
  · rw [hsec] at hch
    rw [← of_not_bchanged hch, Function.update_eq_self]

/-- What `check_bitmap` has written after some of its rounds. -/
structure MapWritten (s t : State) (is : List Nat) : Prop where
  rest : t = { s with disk := t.disk }
  other : ∀ b, (∀ i ∈ is, b ≠ UInt32.ofNat (mapLocation + i)) → t.disk b = s.disk b
  map : ∀ i ∈ is, t.disk (UInt32.ofNat (mapLocation + i)) = mapBlock s i

theorem checkMapBlocks_written {is : List Nat} {a f : Nat} {s t : State}
    (hsmall : ∀ i ∈ is, mapLocation + i < 0x800000) (h : checkMapBlocks is a f s = .ok r t) :
    MapWritten s t is := by
  induction is generalizing a f s with
  | nil =>
    cases h
    exact ⟨rfl, fun _ _ => rfl, nofun⟩
  | cons i rest ih =>
    obtain ⟨counts, u, hfirst, hrest⟩ := of_bind_ok h
    have hi := hsmall i List.mem_cons_self
    have hnat : ∀ k, mapLocation + k < 0x800000 → (UInt32.ofNat (mapLocation + k)).toNat = mapLocation + k := fun k hk =>
      UInt32.toNat_ofNat_of_lt' (by simp only [UInt32.size]; omega)
    have hu := checkMapBlock_eq (sector_eq (by rw [hnat i hi]; exact hi)) hfirst
    have hw := ih (fun k hk => hsmall k (List.mem_cons_of_mem _ hk)) hrest
    have hblock : ∀ k, mapBlock u k = mapBlock s k := fun k => by rw [hu]; rfl
    refine ⟨?_, fun b hb => ?_, fun k hk => ?_⟩
    · rw [hw.rest, hu]
    · rw [List.forall_mem_cons] at hb
      rw [hw.other b hb.2, hu]
      exact Function.update_of_ne hb.1 _ _
    · by_cases hkrest : k ∈ rest
      · rw [hw.map k hkrest, hblock]
      · obtain rfl := (List.mem_cons.mp hk).resolve_right hkrest
        rw [hw.other _ fun l hl heq => ?_, hu]
        · exact Function.update_self ..
        · have := congrArg UInt32.toNat heq
          rw [hnat k hi, hnat l (hsmall l (List.mem_cons_of_mem _ hl))] at this
          exact hkrest ((Nat.add_left_cancel this) ▸ hl)

theorem checkBitmap_written {s t : State} (hsmall : ∀ i < s.bitblocks.toNat, mapLocation + i < 0x800000)
    (h : checkBitmap s = .ok () t) :
    (∀ b, (∀ i < s.bitblocks.toNat, b ≠ UInt32.ofNat (mapLocation + i)) → t.disk b = s.disk b) ∧
      (∀ i < s.bitblocks.toNat, t.disk (UInt32.ofNat (mapLocation + i)) = mapBlock s i) ∧ t.ninodes = s.ninodes := by
  obtain ⟨_, u, hget, h₁⟩ := of_bind_ok h
  cases hget
  obtain ⟨counts, u, hblocks, h₂⟩ := of_bind_ok h₁
  obtain ⟨_, v, hshort, hextra⟩ := of_bind_ok h₂
  have hw := checkMapBlocks_written (fun i hi => hsmall i (List.mem_range.mp hi)) hblocks
  have hlater := (Calm.onlyIf (setbadness_calm _)).leads.later hextra
  have hlater' := (Calm.onlyIf (setbadness_calm _)).leads.later hshort
  have hdisk : t.disk = u.disk := by
    rcases onlyIf_eq hextra with ⟨-, hset⟩ | ⟨-, rfl⟩ <;> rcases onlyIf_eq hshort with ⟨-, hset'⟩ | ⟨-, rfl⟩
    · cases hset
      cases hset'
      rfl
    · cases hset
      rfl
    · cases hset'
      rfl
    · rfl
  have hn : u.ninodes = s.ninodes := by rw [hw.rest]
  rw [hdisk]
  refine ⟨fun b hb => hw.other b fun i hi => hb i (List.mem_range.mp hi), fun i hi => hw.map i (List.mem_range.mpr hi), ?_⟩
  rw [hlater.ninodes, hlater'.ninodes, hn]

/-! ## A whole run -/

/-- The bit of a block in the free map of a disk. -/
def mapBit (now : Blk → Block) (b : Blk) : Prop :=
  now (UInt32.ofNat (mapLocation + b.toNat / blockBits)) ⟨b.toNat % blockBits / 8,
    mapByte_lt b⟩ &&& mask b ≠ 0

/-- What a run leaves on the disk, given the walk. -/
structure Left (img : Image) (now : Blk → Block) (w : Walk) : Prop where
  busy : w.busy = reserved img.nblocks
  nodup : (w.held img.fixed).Nodup
  lt : ∀ b ∈ w.held img.fixed, b < img.nblocks
  holds : ∀ x ∈ w.nodes, x.Holds img.fixed now
  map : ∀ b, b < img.nblocks → (mapBit now b ↔ b ∈ w.held img.fixed)

theorem adjustFilelinks_eq {s t : State} (hs : s.ninodes = 0) (h : adjustFilelinks s = .ok () t) : t = s := by
  obtain ⟨_, u, hget, hrest⟩ := of_bind_ok h
  cases hget
  rw [hs] at hrest
  cases hrest
  rfl

theorem le_bitblocks32 {nblocks : Blk} (h : nblocks.toNat ≤ 0x800000) :
    nblocks.toNat ≤ (bitblocks32 nblocks).toNat * blockBits := by
  unfold bitblocks32
  simp only [UInt32.toNat_add, UInt32.toNat_sub, UInt32.toNat_mul, UInt32.toNat_div, UInt32.reduceToNat, blockBits]
  omega

theorem main_root {t : State} (hvol : img.nblocks.toNat ≤ 0x800000)
    (h : main depth img.start = .ok code t) (hcode : code ≤ exitRecov) :
    ∃ s u v r, Sim img.fixed s ⟨reserved img.nblocks, [], 1⟩ ∧ s.nblocks = img.nblocks ∧
      s.bitblocks = bitblocks32 img.nblocks ∧ (Inode.ofBlock (s.disk (sector rootLocation))).type = typeDir ∧
      checkDir depth rootLocation rootLocation s = .ok r u ∧ u.badness ≤ code ∧ checkBitmap u = .ok () v ∧
      adjustFilelinks v = .ok () t := by
  obtain ⟨_, s₁, hsb, h₁⟩ := of_bind_ok h
  obtain ⟨_, u, hroot, h₂⟩ := of_bind_ok h₁
  obtain ⟨_, v, hbitmap, h₃⟩ := of_bind_ok h₂
  obtain ⟨_, s₄, hadjust, h₄⟩ := of_bind_ok h₃
  obtain ⟨_, s₅, hget, hpure⟩ := of_bind_ok h₄
  cases hget
  cases hpure
  have hu := checkBitmap_calm.badness_le hbitmap (adjustFilelinks_calm.badness_le hadjust (Nat.le_refl _))
  obtain ⟨data, r₁, hread, hroot⟩ := of_bind_ok hroot
  obtain ⟨rfl, rfl⟩ := diskread_eq hread
  obtain ⟨_, s, hfix, hroot⟩ := of_bind_ok hroot
  obtain ⟨r, r₃, hdir, hroot⟩ := of_bind_ok hroot
  cases hroot
  have hs := (checkDir_leads _ _ _).badness_le hdir (hu.trans hcode)
  have hr₁ := (fixRoot_calm _).badness_le hfix hs
  have hsec : sector rootLocation = rootLocation := by decide
  rw [hsec] at hfix
  obtain ⟨hsim, hnb, hbb, hdisk⟩ := checkSb_sim hvol hsb hr₁
  obtain ⟨hsim₂, hnb₂, hbb₂, htype⟩ := fixRoot_sim hsim (hdisk _ (by decide)) hfix
  rw [← hsec] at htype
  exact ⟨s, u, v, r, hsim₂, hnb₂.trans hnb, hbb₂.trans hbb, htype, hdir, hu, hbitmap, hadjust⟩

theorem main_left {t : State} (hvol : img.nblocks.toNat ≤ 0x800000)
    (h : main depth img.start = .ok code t) (hcode : code ≤ exitRecov) :
    ∃ w, img.walk depth = some w ∧ Left img t.disk w := by
  obtain ⟨s, s₂, s₃, r, hsim, hnb, hbb, htype, hdir, hbad, hbitmap, hadjust⟩ := main_root hvol h hcode
  obtain ⟨-, -, -, w, hwalk, hgoes⟩ :=
    checkDir_follows img.nblocks depth _ _ 0 _ _ _ _ hsim hnb htype hdir (hbad.trans hcode)
  have hnb₃ : s₂.nblocks = img.nblocks := hgoes.nblocks.trans hnb
  have hbb₃ : s₂.bitblocks = bitblocks32 img.nblocks := hgoes.bitblocks.trans hbb
  have hlt : ∀ b ∈ w.held img.fixed, b < img.nblocks := fun b hb => hnb₃ ▸ hgoes.sim.lt b hb
  have hmapMem : ∀ i < s₂.bitblocks.toNat, UInt32.ofNat (mapLocation + i) ∈ w.busy := by
    intro i hi
    rw [hgoes.busy]
    refine List.mem_cons_of_mem _ (List.mem_map.mpr ⟨_, List.mem_range'_1.mpr ⟨Nat.le_add_right _ _, ?_⟩, rfl⟩)
    rw [← hbb₃]
    omega
  have hsmall : ∀ i < s₂.bitblocks.toNat, mapLocation + i < 0x800000 := by
    intro i hi
    have hi' := UInt32.lt_iff_toNat_lt.mp (hlt _ (List.mem_append_left _ (hmapMem i hi)))
    have hbound := bitblocks32_bound img.nblocks
    rw [← hbb₃] at hbound
    simp only [blockBits, mapLocation] at *
    rw [UInt32.toNat_ofNat_of_lt' (by simp only [UInt32.size]; omega)] at hi'
    omega
  obtain ⟨hother, hmap, hn⟩ := checkBitmap_written hsmall hbitmap
  obtain rfl : t = s₃ := adjustFilelinks_eq (hn.trans hgoes.sim.ninodes) hadjust
  refine ⟨w, hwalk, hgoes.busy, hgoes.sim.nodup, hlt, fun x hx => ?_, fun b hb => ?_⟩
  · refine (hgoes.sim.holds x hx).congr fun b hb => hother b ?_
    rintro i hi rfl
    exact List.disjoint_of_nodup_append hgoes.sim.nodup (hmapMem i hi) (List.mem_flatMap.mpr ⟨x, hx, hb⟩)
  · rw [← hgoes.sim.used b (hnb₃ ▸ hb)]
    have hb' := UInt32.lt_iff_toNat_lt.mp hb
    have hle := le_bitblocks32 hvol
    rw [mapBit, hmap _ (by rw [hbb₃]; exact Nat.div_lt_of_lt_mul (by rw [Nat.mul_comm]; omega)), mapBlock, State.Used]
    have hindex : b.toNat / blockBits * blockSize + b.toNat % blockBits / 8 = b.toNat / 8 := by
      simp only [blockBits, blockSize]
      omega
    rw [hindex]

end Os161.Sfsck

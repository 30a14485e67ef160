import Os161.Laws.Sfsck.Follow

/-!
# `sfsck`: a directory and all that is below it

`check_dir` follows the walk over the image: its entries are those of the image, it goes on to the inodes that
the walk goes on to, and in the end it writes what the walk says is left.
-/

namespace Os161.Sfsck

open Os161.Lib Os161.Sfs

variable {disk : Blk → Block}
variable {i : Nat} {entries : List SfsDir} {w : Walk}

/-! ## Sizes -/

theorem size_roundSize (n : Inode) : (roundSize n).size.toNat % 64 = 0 := by
  unfold roundSize
  split
  · simp only [UInt32.toNat_add, UInt32.toNat_sub, UInt32.toNat_mul, UInt32.toNat_div, UInt32.reduceToNat]
    omega
  · rename_i h
    have h := congrArg UInt32.toNat (not_not.mp h)
    simpa only [UInt32.toNat_mod, UInt32.reduceToNat] using h

theorem toNat_entries (n : Inode) : (n.size / 64).toNat = n.size.toNat / 64 := by
  rw [UInt32.toNat_div]
  rfl

/-- The number of entries is not so large that the products in `check_dir` wrap. -/
structure Sized (n : Inode) : Prop where
  whole : n.size.toNat % 64 = 0
  count : dirBlocks n = (n.size.toNat / 64 + 7) / 8
  blocks : blocksOf n = dirBlocks n
  small : 512 * dirBlocks n < 2 ^ 32

theorem Sized.of_max {n : Inode} (h : n.size.toNat % 64 = 0)
    (hmax : 8 * dirBlocks n ≤ (maxEntries (n.size / 64)).toNat) : Sized n := by
  have hlt := n.size.toNat_lt
  suffices dirBlocks n = (n.size.toNat / 64 + 7) / 8 ∧ blocksOf n = dirBlocks n ∧ 512 * dirBlocks n < 2 ^ 32 from
    ⟨h, this.1, this.2.1, this.2.2⟩
  unfold dirBlocks maxEntries blocksOf fileBlocks at *
  simp only [UInt32.toNat_add, UInt32.toNat_sub, UInt32.toNat_mul, UInt32.toNat_div, UInt32.reduceToNat,
    UInt32.reduceDiv] at *
  omega

/-! ## A directory whose blocks have been checked -/

/-- The inode `n'` in memory is what is left of `n`, and so is its indirect block on the disk `now`. -/
structure Opened (disk now : Blk → Block) (n n' : Inode) : Prop where
  direct : n'.direct = n.direct
  place : ∀ r, n'.blockAt now r = left n disk r

theorem left_within {n : Inode} {r : Place} (hr : placeOf i = some r) (hi : i < blocksOf n) :
    left n disk r = n.blockAt disk r := by
  cases r with
  | direct k => rfl
  | indirect => exact absurd hr placeOf_ne_indirect
  | entry j =>
    have := placeOf_entry_eq hr
    exact if_neg (by omega)

section Opened

variable {now : Blk → Block} {n n' : Inode} (h : Opened disk now n n')
include h

theorem Opened.indirect : n'.indirect = left n disk .indirect := h.place .indirect

theorem Opened.resize {m : Inode} {now' : Blk → Block} (hdirect : m.direct = n'.direct)
    (hind : m.indirect = n'.indirect) (hnow : n'.indirect ≠ 0 → now' n'.indirect = now n'.indirect) :
    Opened disk now' n m := by
  refine ⟨hdirect.trans h.direct, fun r => ?_⟩
  rw [← h.place, ← blockAt_eq_of_indirect hnow]
  cases r with
  | direct k => rw [Inode.blockAt, Inode.blockAt, hdirect]
  | indirect => rw [Inode.blockAt, Inode.blockAt, hind]
  | entry j => rw [Inode.blockAt, Inode.blockAt, hind]

theorem Opened.fileBlock (hi : i < blocksOf n) : fileBlock n' now i = fileBlock n disk i := by
  unfold Sfsck.fileBlock
  cases hr : placeOf i with
  | none => rfl
  | some r => rw [Option.elim_some, Option.elim_some, h.place, left_within hr hi]

theorem Opened.mem_claimed (hi : i < blocksOf n) (h0 : Sfsck.fileBlock n' now i ≠ 0) :
    Sfsck.fileBlock n' now i ∈ claimed n disk := by
  unfold Sfsck.fileBlock at h0 ⊢
  cases hr : placeOf i with
  | none =>
    rw [hr] at h0
    exact absurd rfl h0
  | some r =>
    rw [hr, Option.elim_some, h.place] at h0
    rw [Option.elim_some, h.place]
    exact left_mem_claimed (placeOf_marked hr hi) h0

theorem Opened.own (hnodup : (claimed n disk).Nodup) (hsec : ∀ b ∈ claimed n disk, sector b = b) :
    OwnBlocks n' now 0 (blocksOf n) := by
  -- a block at two places
  have hplace : ∀ k r, k < blocksOf n → Sfsck.fileBlock n' now k ≠ 0 → r ∈ markedPlaces n →
      Sfsck.fileBlock n' now k = left n disk r → placeOf k = some r := by
    intro k r hk h0 hr heq
    unfold Sfsck.fileBlock at h0 heq
    cases hrk : placeOf k with
    | none =>
      rw [hrk] at h0
      exact absurd rfl h0
    | some r' =>
      rw [hrk, Option.elim_some, h.place] at h0 heq
      have h0' : left n disk r ≠ 0 := heq ▸ h0
      rw [left_eq h0, left_eq h0'] at heq
      rw [left_eq h0] at h0
      rw [place_unique hnodup (placeOf_marked hrk hk) hr h0 heq]
  refine ⟨?_, ?_, ?_⟩
  · intro k _ hk
    by_cases h0 : Sfsck.fileBlock n' now k = 0
    · rw [h0]
      rfl
    · exact hsec _ (h.mem_claimed (by omega) h0)
  · intro k _ hk h0 heq
    rw [h.indirect] at heq
    exact placeOf_ne_indirect (hplace k .indirect (by omega) h0 (mem_markedPlaces.mpr nofun) heq)
  · intro k l _ hkl hl h0 heq
    cases hrl : placeOf l with
    | none =>
      refine h0 (heq.trans ?_)
      unfold Sfsck.fileBlock
      rw [hrl, Option.elim_none]
    | some r =>
      have hl' : Sfsck.fileBlock n' now l = left n disk r := by
        unfold Sfsck.fileBlock
        rw [hrl, Option.elim_some, h.place]
      have := hplace k r (by omega) h0 (placeOf_marked hrl (by omega)) (heq.trans hl')
      exact absurd (placeOf_inj this hrl) (by omega)

theorem Opened.dirEntries (hsize : n'.size = n.size) (hsized : Sized n)
    (hnow : ∀ b ∈ claimed n disk, b ≠ n.indirect → now b = disk b) (hnodup : (claimed n disk).Nodup) :
    dirEntries n' now = dirEntries n disk := by
  have hblocks : dirBlocks n' = dirBlocks n := by
    unfold dirBlocks
    rw [hsize]
  suffices (List.range (8 * dirBlocks n)).map (slotAt n' now) =
      (List.range (8 * dirBlocks n)).map (slotAt n disk) by
    rw [Sfsck.dirEntries, Sfsck.dirEntries, hblocks, hsize, this]
  refine List.map_congr_left fun k hk => ?_
  have hk := List.mem_range.mp hk
  have hi : k / 8 < blocksOf n := by
    rw [hsized.blocks]
    omega
  rw [← Nat.div_add_mod k 8]
  refine slotAt_congr (Nat.mod_lt _ (by decide)) (h.fileBlock hi) fun h0 => ?_
  unfold Sfsck.fileBlock at h0 ⊢
  cases hr : placeOf (k / 8) with
  | none =>
    rw [hr] at h0
    exact absurd rfl h0
  | some r =>
    rw [hr, Option.elim_some] at h0
    rw [Option.elim_some]
    have hmarked := placeOf_marked hr hi
    refine hnow _ (Sfsck.mem_claimed.mpr ⟨r, hmarked, rfl, h0⟩) fun heq => ?_
    have hindirect : .indirect ∈ markedPlaces n := mem_markedPlaces.mpr (by simp)
    exact placeOf_ne_indirect (place_unique hnodup hmarked hindirect h0 heq ▸ hr)

end Opened

theorem readEntries_eq {n : Inode} {s t : State} (hsec : sector n.indirect = n.indirect)
    (hblocks : 8 * dirBlocks n ≤ (maxEntries (n.size / 64)).toNat →
      ∀ k, k < dirBlocks n → sector (fileBlock n s.disk k) = fileBlock n s.disk k)
    (h : readEntries n s = .ok entries t) :
    t = { s with listed := n.size :: s.listed } ∧ 8 * dirBlocks n ≤ (maxEntries (n.size / 64)).toNat ∧
      entries = dirEntries n s.disk := by
  unfold readEntries at h
  obtain ⟨_, u, hlog, h⟩ := of_bind_ok h
  cases hlog
  dsimp only at h
  split at h
  · cases h
  rename_i hmax
  have hmax := Nat.le_of_not_lt hmax
  obtain ⟨es, u, hread, hpure⟩ := of_bind_ok h
  cases hpure
  have hblocks := hblocks hmax
  obtain ⟨rfl, rfl⟩ := dirread_eq (s := { s with listed := n.size :: s.listed }) hsec
    (fun k _ hk => hblocks k (by rwa [Nat.zero_add] at hk)) hread
  refine ⟨rfl, hmax, ?_⟩
  rw [Nat.mul_zero, ← List.range_eq_range', List.length_map, List.length_range]
  rfl

/-! ## The beginning of `check_dir` -/

theorem checkSize_quiet {n : Inode} {r : Inode × Bool} {s t : State} (h : checkSize n s = .ok r t) :
    Quiet s t [] nowhere ∧ r.1 = roundSize n ∧ (r.2 = false → roundSize n = n) ∧
      (r.2 = true → exitRecov ≤ t.badness) := by
  unfold checkSize at h
  unfold roundSize
  split at h
  · obtain ⟨_, u, hbad, hpure⟩ := of_bind_ok h
    cases hpure
    exact ⟨setbadness_quiet hbad, (if_pos ‹_›).symm, nofun, fun _ => setbadness_noted hbad⟩
  · cases h
    exact ⟨Quiet.refl _ _, (if_neg ‹_›).symm, fun _ => if_neg ‹_›, nofun⟩

theorem checkInMemory_eq {ino parent : Blk} {nd : Nat} {c : Checked} {s t : State}
    (h : checkInMemory ino parent entries nd s = .ok c t) :
    ∃ counter, checkEntries s.uniquecounter ino parent entries nd = some (c, counter) ∧
      t = { s with uniquecounter := counter, badness := t.badness } ∧
      (t.badness = 0 → c.changed = false ∧ c.full = false) := by
  obtain ⟨_, u, hget, hrest⟩ := of_bind_ok h
  cases hget
  cases hc : checkEntries s.uniquecounter ino parent entries nd with
  | none =>
    rw [hc] at hrest
    cases hrest
  | some r =>
    rw [hc] at hrest
    obtain ⟨_, u, hset, hrest⟩ := of_bind_ok hrest
    cases hset
    obtain ⟨_, v, hch, hrest⟩ := of_bind_ok hrest
    obtain ⟨_, z, hfull, hpure⟩ := of_bind_ok hrest
    cases hpure
    refine ⟨r.2, rfl, ?_, fun h0 => ⟨?_, ?_⟩⟩
    · rcases onlyIf_eq hfull with ⟨-, hset⟩ | ⟨-, rfl⟩ <;> rcases onlyIf_eq hch with ⟨-, hset'⟩ | ⟨-, rfl⟩
      · cases hset'
        cases hset
        rfl
      · cases hset
        rfl
      · cases hset'
        rfl
      · rfl
    · have hv : v.badness ≤ 0 := (Calm.onlyIf (setbadness_calm _)).badness_le hfull h0.le
      rcases onlyIf_eq hch with ⟨_, hset⟩ | ⟨hnot, _⟩
      · exact absurd ((setbadness_noted hset).trans hv) (by decide)
      · exact Bool.eq_false_of_not_eq_true hnot
    · rcases onlyIf_eq hfull with ⟨_, hset⟩ | ⟨hnot, _⟩
      · exact absurd ((setbadness_noted hset).trans h0.le) (by decide)
      · exact Bool.eq_false_of_not_eq_true hnot

theorem Sim.recount {s : State} (h : Sim disk s w) (counter : UInt32) (badness : Nat) :
    Sim disk { s with uniquecounter := counter, badness := badness } { w with counter := counter } :=
  ⟨⟨h.mapped.small, h.mapped.pastEnd⟩, h.ninodes, h.maxinodes, h.nodup, h.used, h.lt, h.free, h.holds, rfl⟩

/-- A directory whose entries are in memory and checked. -/
structure DirOpened (disk : Blk → Block) (s u : State) (w : Walk) (ino parent : Blk) (n n' : Inode)
    (ichanged : Bool) (c : Checked) (counter : UInt32) : Prop where
  entries : checkEntries w.counter ino parent (dirEntries n disk) (n.size / 64).toNat = some (c, counter)
  sim : Sim disk u ⟨ino :: claimed n disk ++ w.busy, w.nodes, counter⟩
  nblocks : u.nblocks = s.nblocks
  bitblocks : u.bitblocks = s.bitblocks
  used : ∀ b, s.Used b → u.Used b
  frame : ∀ b, s.Used b → u.disk b = s.disk b
  fresh : ∀ b ∈ ino :: claimed n disk, ¬ s.Used b
  opened : Opened disk u.disk n n'
  size : n'.size = n.size
  sized : Sized n
  type : n'.type = n.type
  stored : u.disk ino = disk ino
  same : ichanged = false → n' = .ofBlock (disk ino)
  slots : dirEntries n' u.disk = dirEntries n disk
  noted : u.badness = 0 → ichanged = false ∧ c.changed = false ∧ c.full = false

theorem checkNewDir_opens {sub : Blk → Blk → F Bool} {ino parent : Blk} {s t : State}
    (h : Sim disk s w) (hsub : ∀ n ichanged c, Leads (checkOnDisk sub ino n ichanged c))
    (hrun : checkNewDir sub ino parent (.ofBlock (s.disk (sector ino))) s = .ok () t)
    (ht : t.badness ≤ exitRecov) :
    ¬ s.Used ino ∧ ino < s.nblocks ∧ ∃ u n' ichanged c counter,
      DirOpened disk s u w ino parent (roundSize (.ofBlock (disk ino))) n' ichanged c counter ∧
        checkOnDisk sub ino n' ichanged c u = .ok () t := by
  obtain ⟨_, s₁, hmark, h₁⟩ := of_bind_ok hrun
  obtain ⟨⟨n, sch⟩, s₂, hsize, h₂⟩ := of_bind_ok h₁
  obtain ⟨⟨n', bch⟩, s₃, hblocks, h₃⟩ := of_bind_ok h₂
  obtain ⟨entries, s₄, hread, h₄⟩ := of_bind_ok h₃
  obtain ⟨c, u, hmem, h₅⟩ := of_bind_ok h₄
  have htu := (hsub _ _ _).badness_le h₅ ht
  have ht₄ := (checkInMemory_calm _ _ _ _).badness_le hmem htu
  have ht₃ := (readEntries_calm _).badness_le hread ht₄
  have ht₂ := (checkInodeBlocks_calm _ _).badness_le hblocks ht₃
  have ht₁ := (checkSize_calm _).badness_le hsize ht₂
  have q₁ : Quiet s s₁ [ino] nowhere := bitmapMark_quiet hmark ht₁
  have hino := q₁.lt h.mapped (List.mem_singleton_self ino)
  have hfresh := q₁.fresh ino (List.mem_singleton_self ino)
  have himage : s.disk (sector ino) = disk ino := by
    rw [h.mapped.sector hino]
    exact h.free ino hino hfresh
  rw [himage] at hsize
  obtain ⟨q₂, hn, hsame₂, hnoted₂⟩ := checkSize_quiet hsize
  have hn : n = roundSize (.ofBlock (disk ino)) := hn
  have hdisk₂ : s₂.disk = s.disk := q₂.disk_eq.trans q₁.disk_eq
  have hm₂ := q₂.mapped (q₁.mapped h.mapped)
  have hb := checkInodeBlocks_quiet hm₂ hblocks ht₃
  -- all that has been marked and written
  have q : Quiet s s₃ (ino :: claimed n s₂.disk) (fun b => b = n.indirect ∧ b ≠ 0) :=
    (q₁.mono nofun).trans ((q₂.mono nofun).trans hb.quiet)
  have hind : n.indirect ≠ 0 → s₂.disk n.indirect = disk n.indirect := by
    intro h0
    rw [hdisk₂]
    exact h.image q (List.mem_cons_of_mem _ (indirect_mem_claimed h0))
  rw [claimed_congr hind] at q
  have hW : ∀ b, b = n.indirect ∧ b ≠ 0 → b ∈ ino :: claimed n disk := by
    rintro b ⟨rfl, h0⟩
    exact List.mem_cons_of_mem _ (indirect_mem_claimed h0)
  have hnodup := (List.nodup_cons.mp q.nodup).2
  have hopen : Opened disk s₃.disk n n' := by
    refine ⟨by rw [hb.inode]; rfl, fun r => ?_⟩
    rw [hb.place (m := n') (by rw [hb.inode]; rfl) rfl (fun _ => rfl), left_congr hind]
  have hsec : ∀ b ∈ ino :: claimed n disk, sector b = b := fun b hmem => h.mapped.sector (q.lt h.mapped hmem)
  have hsecind : sector n'.indirect = n'.indirect := by
    by_cases h0 : n'.indirect = 0
    · rw [h0]
      rfl
    · refine hsec _ (List.mem_cons_of_mem _ ?_)
      rw [hopen.indirect] at h0 ⊢
      exact left_mem_claimed (mem_markedPlaces.mpr nofun) h0
  have hsize' : n'.size = n.size := by rw [hb.inode]; rfl
  have hwhole : n.size.toNat % 64 = 0 := hn ▸ size_roundSize _
  have hblocks' : dirBlocks n' = dirBlocks n := by
    unfold dirBlocks
    rw [hsize']
  have hsized : 8 * dirBlocks n' ≤ (maxEntries (n'.size / 64)).toNat → Sized n := by
    rw [hblocks', hsize']
    exact Sized.of_max hwhole
  obtain ⟨rfl, hmax, rfl⟩ := readEntries_eq hsecind (fun hmax k hk => by
    have hown := hopen.own hnodup fun b hmem => hsec b (List.mem_cons_of_mem _ hmem)
    refine hown.sector k (Nat.zero_le _) ?_
    rw [(hsized hmax).blocks, Nat.zero_add, ← hblocks']
    exact hk) hread
  have hslots := hopen.dirEntries hsize' (hsized hmax) (fun b hmem hne => by
    rw [q.disk b fun hw => hne hw.1]
    exact h.image q (List.mem_cons_of_mem _ hmem)) hnodup
  have q : Quiet s { s₃ with listed := n'.size :: s₃.listed } (ino :: claimed n disk)
      (fun b => b = n.indirect ∧ b ≠ 0) := by
    have hlog : Quiet s₃ { s₃ with listed := n'.size :: s₃.listed } [] nowhere :=
      .of_same rfl rfl rfl rfl rfl rfl rfl rfl
    simpa only [List.append_nil] using q.trans (hlog.mono nofun)
  obtain ⟨counter, hentries, hu, hnoted⟩ := checkInMemory_eq hmem
  have hclean : u.badness = 0 → (sch || bch) = false ∧ c.changed = false ∧ c.full = false := by
    intro h0
    have h₃ := (readEntries_calm _).badness_le hread ((checkInMemory_calm _ _ _ _).badness_le hmem h0.le)
    have h₂ := (checkInodeBlocks_calm _ _).badness_le hblocks h₃
    refine ⟨Bool.or_eq_false_iff.mpr ⟨Bool.eq_false_of_not_eq_true fun hch => ?_,
      Bool.eq_false_of_not_eq_true fun hch => ?_⟩, hnoted h0⟩
    · exact absurd ((hnoted₂ hch).trans h₂) (by decide)
    · exact absurd ((hb.noted hch).trans h₃) (by decide)
  have hsim := (h.quiet q fun b hw => List.mem_append_left _ (hW b hw)).recount counter u.badness
  rw [q.counter, h.counter, hslots] at hentries
  rw [hu] at h₅
  subst hn
  refine ⟨hfresh, hino, _, n', _, c, counter, ⟨?_, hsim, q.nblocks, q.bitblocks, fun b hb => q.used_of hb, fun b hb => ?_,
    q.fresh, hopen, hsize', hsized hmax, ?_, ?_, ?_, hslots, hclean⟩, h₅⟩
  · rw [← hsize']
    exact hentries
  · exact q.frame hW hb
  · rw [hb.inode]
    rfl
  · have hne : ¬ (ino = (roundSize (.ofBlock (disk ino))).indirect ∧ ino ≠ 0) := by
      rintro ⟨heq, h0⟩
      have hmem := @indirect_mem_claimed disk _ (heq.symm.trans_ne h0)
      exact (List.nodup_cons.mp q.nodup).1 ((congrArg (· ∈ claimed _ disk) heq).mpr hmem)
    exact (q.disk ino hne).trans (h.free ino hino hfresh)
  · intro hch
    obtain ⟨hsch, hbch⟩ := Bool.or_eq_false_iff.mp hch
    rw [(hb.same hbch).1, hsame₂ hsch]

/-! ## The end of `check_dir` -/

section WriteBack

variable {ino parent : Blk} {slot : Nat} {n n' m : Inode} {s t : State} {final : List SfsDir} {nd : Nat}
  {ichanged dchanged : Bool}

theorem writeBack_quiet (hopen : Opened disk s.disk n m) (hnodup : (ino :: claimed n disk).Nodup) (hsec : ∀ b ∈ ino :: claimed n disk, sector b = b)
    (hok : ∀ d ∈ final, d.Ok) (hlen : final.length = 8 * blocksOf n) (hnd : (nd + 7) / 8 = blocksOf n)
    (hsame : dchanged = false → ∀ k (hk : k < final.length), k < nd → (slotAt m s.disk k).ino = final[k].ino)
    (hinode : ichanged = false → Inode.ofBlock (s.disk ino) = m)
    (h : writeBack ino m final nd ichanged dchanged s = .ok () t) (ht : t.badness ≤ exitRecov) :
    Quiet s t [] (· ∈ ino :: claimed n disk) ∧ Inode.ofBlock (t.disk ino) = m ∧ Opened disk t.disk n m ∧
      ∀ k (hk : k < final.length), k < nd → (slotAt m t.disk k).ino = final[k].ino := by
  obtain ⟨hino, hclaimed⟩ := List.nodup_cons.mp hnodup
  rw [List.forall_mem_cons] at hsec
  have hown := hopen.own hclaimed hsec.2
  have hind : m.indirect ≠ 0 → m.indirect ∈ claimed n disk := by
    rw [hopen.indirect]
    exact left_mem_claimed (mem_markedPlaces.mpr nofun)
  have hsecind : sector m.indirect = m.indirect := by
    by_cases h0 : m.indirect = 0
    · rw [h0]
      rfl
    · exact hsec.2 _ (hind h0)
  obtain ⟨_, u, hdir, hwrite⟩ := of_bind_ok h
  have hu := (Calm.onlyIf (diskwrite_calm _ _)).badness_le hwrite ht
  -- the entries
  have hfirst : Quiet s u [] (Written m s.disk 0 (blocksOf n)) ∧
      ∀ k (hk : k < final.length), k < nd → (slotAt m u.disk k).ino = final[k].ino := by
    rcases onlyIf_eq hdir with ⟨-, hdir⟩ | ⟨hch, rfl⟩
    · rw [hnd] at hdir
      obtain ⟨q, hslots⟩ := dirwrite_quiet hsecind hown hok hlen hdir hu
      refine ⟨q, fun k hk _ => ?_⟩
      have := hslots k hk
      rwa [Nat.mul_zero, Nat.zero_add] at this
    · exact ⟨Quiet.refl _ _, hsame (Bool.eq_false_iff.mpr hch)⟩
  obtain ⟨q₁, hslots⟩ := hfirst
  have hW : ∀ b, Written m s.disk 0 (blocksOf n) b → b ∈ claimed n disk := by
    rintro b ⟨k, -, hk, rfl, h0⟩
    exact hopen.mem_claimed (by omega) h0
  -- the inode
  have hsecond : Quiet u t [] (· = ino) ∧ Inode.ofBlock (t.disk ino) = m := by
    rcases onlyIf_eq hwrite with ⟨-, hwrite⟩ | ⟨hch, rfl⟩
    · obtain ⟨q, hdata⟩ := diskwrite_quiet hwrite hsec.1
      exact ⟨q, by rw [hdata, Inode.ofBlock_toBlock]⟩
    · refine ⟨Quiet.refl _ _, ?_⟩
      rw [q₁.disk ino fun hw => hino (hW ino hw)]
      exact hinode (Bool.eq_false_iff.mpr hch)
  obtain ⟨q₂, hstored⟩ := hsecond
  have hne : ∀ b ∈ claimed n disk, t.disk b = u.disk b := by
    intro b hb
    refine q₂.disk b ?_
    rintro rfl
    exact hino hb
  have hindt : m.indirect ≠ 0 → t.disk m.indirect = s.disk m.indirect := by
    intro h0
    rw [hne _ (hind h0)]
    exact q₁.disk _ (Written.not_indirect hown)
  have hopen' : Opened disk t.disk n m := ⟨hopen.direct, by
    rw [blockAt_eq_of_indirect hindt]
    exact hopen.place⟩
  refine ⟨?_, hstored, hopen', fun k hk hknd => ?_⟩
  · have q₁ := q₁.mono (V := (· ∈ ino :: claimed n disk)) fun b hb => List.mem_cons_of_mem _ (hW b hb)
    refine q₁.trans (q₂.mono ?_)
    rintro b rfl
    exact List.mem_cons_self
  · rw [← hslots k hk hknd]
    have hk8 : k / 8 < blocksOf n := by omega
    have hfile : fileBlock m u.disk (k / 8) = fileBlock m s.disk (k / 8) :=
      congrFun (fileBlock_congr fun _ => q₁.disk _ (Written.not_indirect hown)) _
    rw [← Nat.div_add_mod k 8]
    refine congrArg _ (slotAt_congr (Nat.mod_lt _ (by decide)) ?_ fun h0 => ?_)
    · rw [hfile, fileBlock_congr hindt]
    · rw [hfile] at h0 ⊢
      exact hne _ (hopen.mem_claimed hk8 h0)

end WriteBack

/-! ## The entries of a directory -/

/-- A function that checks a directory, and the walk over it. -/
def Follows (disk : Blk → Block) (nblocks : Blk) (sub : Blk → Blk → F Bool)
    (visit : Blk → Blk → Nat → Walk → Option Walk) : Prop :=
  ∀ (ino parent : Blk) (slot : Nat) (s t : State) (r : Bool) (w : Walk), Sim disk s w → s.nblocks = nblocks →
    (Inode.ofBlock (s.disk (sector ino))).type = typeDir → sub ino parent s = .ok r t → t.badness ≤ exitRecov →
      r = false ∧ ¬ s.Used ino ∧ ino < s.nblocks ∧ ∃ w', visit ino parent slot w = some w' ∧ Goes disk s t w w'

section Entries

variable {nblocks : Blk} {sub : Blk → Blk → F Bool} {vis : Blk → Blk → Nat → Walk → Option Walk}
variable {d : SfsDir}

theorem Sim.inode {s : State} (h : Sim disk s w) {b : Blk} (hlt : b < s.nblocks) (hfree : ¬ s.Used b) :
    s.disk (sector b) = disk b := by
  rw [h.mapped.sector hlt]
  exact h.free b hlt hfree

theorem followOne_free {s : State} (h : Sim disk s w) {ino : Blk} {slot : Nat}
    (hskip : ¬ (cstr d.name = dot ∨ cstr d.name = dotdot ∨ d.ino = 0)) (hlt : d.ino < s.nblocks)
    (hfree : ¬ s.Used d.ino) :
    followOne disk s.nblocks vis ino slot d w =
      if (Inode.ofBlock (s.disk (sector d.ino))).type = typeFile then
        some ({ w with nodes := ⟨d.ino, ino, slot, .ofBlock (disk d.ino), []⟩ :: w.nodes }, d.ino)
      else if (Inode.ofBlock (s.disk (sector d.ino))).type = typeDir then
        (vis d.ino ino slot w).map fun w => (w, d.ino)
      else some (w, 0) := by
  have hnot : ¬ (d.ino ∈ w.held disk ∨ s.nblocks ≤ d.ino) := by
    rintro (hmem | hle)
    · exact hfree ((h.used _ hlt).mpr hmem)
    · exact UInt32.not_lt.mpr hle hlt
  rw [followOne, if_neg hskip, if_neg hnot, h.inode hlt hfree]

/-- What has become of an entry. -/
structure Followed (disk : Blk → Block) (s t : State) (w w' : Walk) (d d' : SfsDir) (changed : Bool) : Prop where
  goes : Goes disk s t w w'
  ok : d.Ok → d'.Ok
  same : changed = false → d' = d

theorem followEntry_goes (hsub : Follows disk nblocks sub vis) {ino : Blk} (slot : Nat)
    {r : SfsDir × Bool × Bool} {s t : State} (h : Sim disk s w) (hnb : s.nblocks = nblocks)
    (hrun : followEntry sub ino d s = .ok r t) (ht : t.badness ≤ exitRecov) :
    ∃ w', followOne disk nblocks vis ino slot d w = some (w', r.1.ino) ∧
      Followed disk s t w w' d r.1 r.2.2 := by
  unfold followEntry at hrun
  split at hrun
  · rename_i hskip
    cases hrun
    exact ⟨w, if_pos hskip, h.refl, fun hd => hd, fun _ => rfl⟩
  rename_i hskip
  obtain ⟨data, u, hread, hrest⟩ := of_bind_ok hrun
  obtain ⟨rfl, rfl⟩ := diskread_eq hread
  subst hnb
  dsimp only at hrest
  split at hrest
  · rename_i htype
    obtain ⟨_, v, hfile, hpure⟩ := of_bind_ok hrest
    cases hpure
    obtain ⟨hfree, hlt, hgoes⟩ := checkFile_goes h hfile ht htype
    refine ⟨_, ?_, hgoes, fun hd => hd, fun _ => rfl⟩
    rw [followOne_free h hskip hlt hfree, if_pos htype]
  rename_i hfile
  split at hrest
  · rename_i htype
    obtain ⟨r, v, hdir, hpure⟩ := of_bind_ok hrest
    have hv : v.badness ≤ exitRecov :=
      (Calm.ite ((setbadness_calm _).bind fun _ => Calm.pure _) (Calm.pure _)).badness_le hpure ht
    obtain ⟨rfl, hfree, hlt, w', hvis, hgoes⟩ := hsub d.ino ino slot u v r w h rfl htype hdir hv
    cases hpure
    refine ⟨w', ?_, hgoes, fun hd => hd, fun _ => rfl⟩
    rw [followOne_free h hskip hlt hfree, if_neg hfile, if_pos htype, hvis]
    rfl
  · rename_i htype
    obtain ⟨_, v, hbad, hpure⟩ := of_bind_ok hrest
    cases hpure
    have q := setbadness_quiet hbad
    refine ⟨w, ?_, ⟨h.quiet q nofun, rfl, q.nblocks, q.bitblocks, fun b hb => q.used_of hb, fun b _ _ => q.disk b id⟩,
      fun hd => List.length_set.trans hd, nofun⟩
    by_cases hout : d.ino ∈ w.held disk ∨ u.nblocks ≤ d.ino
    · rw [followOne, if_neg hskip, if_pos hout]
    · rw [not_or] at hout
      have hlt := UInt32.not_le.mp hout.2
      rw [followOne_free h hskip hlt fun hused => hout.1 ((h.used _ hlt).mp hused), if_neg hfile, if_neg htype]

theorem followEntries_goes (hsub : Follows disk nblocks sub vis) (hleads : ∀ i p, Leads (sub i p)) {ino : Blk}
    (slot : Nat) {r : List SfsDir × Nat × Bool} {s t : State}
    (h : Sim disk s w) (hnb : s.nblocks = nblocks) (hrun : followEntries sub ino entries s = .ok r t)
    (ht : t.badness ≤ exitRecov) :
    ∃ w', followAll disk nblocks vis ino slot entries w = some (w', r.1.map (·.ino)) ∧ Goes disk s t w w' ∧
      r.1.length = entries.length ∧ ((∀ d ∈ entries, d.Ok) → ∀ d ∈ r.1, d.Ok) ∧ (r.2.2 = false → r.1 = entries) := by
  induction entries generalizing slot s w r with
  | nil =>
    cases hrun
    exact ⟨w, rfl, h.refl, rfl, fun hok => hok, fun _ => rfl⟩
  | cons d rest ih =>
    obtain ⟨first, u, hfirst, hrest⟩ := of_bind_ok hrun
    obtain ⟨others, v, hothers, hpure⟩ := of_bind_ok hrest
    cases hpure
    have hu := ((followEntries_under (fun i p => (hleads i p).under) _ _).leads).badness_le hothers ht
    obtain ⟨w₁, hone, hf⟩ := followEntry_goes hsub slot h hnb hfirst hu
    obtain ⟨w₂, hall, hgoes, hlen, hok, hsame⟩ := ih (slot + 1) hf.goes.sim (hf.goes.nblocks.trans hnb) hothers
    refine ⟨w₂, ?_, hf.goes.trans hgoes, congrArg (· + 1) hlen, ?_, ?_⟩
    · rw [followAll, hone, Option.bind_some, hall]
      rfl
    · intro hall
      rw [List.forall_mem_cons] at hall
      exact List.forall_mem_cons.mpr ⟨hf.ok hall.1, hok hall.2⟩
    · intro hch
      obtain ⟨h₁, h₂⟩ := Bool.or_eq_false_iff.mp hch
      exact congrArg₂ List.cons (hf.same h₁) (hsame h₂)

end Entries

end Os161.Sfsck

import Os161.Laws.Sfsck.Census

/-!
# `sfsck`: a run and the inodes of the image

A run that finds nothing beyond repair does what the walk over the unchanged image says: it marks the blocks of
the inodes of the walk, each once, and leaves each inode as `Node.Holds` has it. The disk is changed on the way,
but only in blocks that are marked already, and those are never read as something new.
-/

namespace Os161.Sfsck

open Os161.Lib Os161.Sfs

variable {disk : Blk → Block}
variable {ino : Blk} {n' : Inode} {changed : Bool}

/-- A state of a run, and the walk so far. -/
structure Sim (disk : Blk → Block) (s : State) (w : Walk) : Prop where
  mapped : Mapped s
  ninodes : s.ninodes = 0
  maxinodes : s.maxinodes = 0
  nodup : (w.held disk).Nodup
  used : ∀ b, b < s.nblocks → (s.Used b ↔ b ∈ w.held disk)
  lt : ∀ b ∈ w.held disk, b < s.nblocks
  free : ∀ b, b < s.nblocks → ¬ s.Used b → s.disk b = disk b
  holds : ∀ x ∈ w.nodes, x.Holds disk s.disk
  counter : s.uniquecounter = w.counter

/-- The run has gone on with the walk. -/
structure Goes (disk : Blk → Block) (s t : State) (w w' : Walk) : Prop where
  sim : Sim disk t w'
  busy : w'.busy = w.busy
  nblocks : t.nblocks = s.nblocks
  bitblocks : t.bitblocks = s.bitblocks
  used : ∀ b, s.Used b → t.Used b
  frame : ∀ b, b < s.nblocks → s.Used b → t.disk b = s.disk b

theorem Sim.refl {s : State} {w : Walk} (h : Sim disk s w) : Goes disk s s w w :=
  ⟨h, rfl, rfl, rfl, fun _ hb => hb, fun _ _ _ => rfl⟩

theorem Goes.trans {s t u : State} {w w' w'' : Walk} (h : Goes disk s t w w') (h' : Goes disk t u w' w'') :
    Goes disk s u w w'' :=
  ⟨h'.sim, h'.busy.trans h.busy, h'.nblocks.trans h.nblocks, h'.bitblocks.trans h.bitblocks,
    fun b hb => h'.used b (h.used b hb), fun b hlt hb =>
    (h'.frame b (h.nblocks ▸ hlt) (h.used b hb)).trans (h.frame b hlt hb)⟩

section Steps

variable {s t : State} {w : Walk} {U : List Blk} {W : Blk → Prop}
variable {b : Blk}

theorem Sim.quiet (h : Sim disk s w) (q : Quiet s t U W) (hW : ∀ b, W b → b ∈ U ++ w.busy) :
    Sim disk t ⟨U ++ w.busy, w.nodes, w.counter⟩ := by
  have hheld : Walk.held disk ⟨U ++ w.busy, w.nodes, w.counter⟩ = U ++ w.held disk := List.append_assoc ..
  have hlt := fun b hb => q.lt h.mapped (b := b) hb
  have hused : ∀ b, b < t.nblocks → (t.Used b ↔ b ∈ U ++ w.held disk) := by
    intro b hb
    rw [q.used, h.used b (q.nblocks ▸ hb), List.mem_append, or_comm]
  have hdisj : U.Disjoint (w.held disk) := by
    intro b hU hheld
    exact q.fresh b hU ((h.used b (h.lt b hheld)).mpr hheld)
  refine ⟨q.mapped h.mapped, q.ninodes.trans h.ninodes, q.maxinodes.trans h.maxinodes, ?_, ?_, ?_, ?_, ?_,
    q.counter.trans h.counter⟩
  · rw [hheld]
    exact List.nodup_append'.mpr ⟨q.nodup, h.nodup, hdisj⟩
  · rw [hheld]
    exact hused
  · rw [hheld, q.nblocks]
    intro b hb
    rcases List.mem_append.mp hb with hb | hb
    · exact hlt b hb
    · exact h.lt b hb
  · intro b hb hnot
    rw [hused b hb] at hnot
    have hlt := q.nblocks ▸ hb
    rw [q.disk b, h.free b hlt]
    · rw [h.used b hlt]
      exact fun hmem => hnot (List.mem_append_right _ hmem)
    · intro hw
      apply hnot
      rcases List.mem_append.mp (hW b hw) with hmem | hmem
      · exact List.mem_append_left _ hmem
      · exact List.mem_append_right _ (List.mem_append_left _ hmem)
  · intro x hx
    refine (h.holds x hx).congr fun b hb => q.disk b fun hw => ?_
    have hmem : b ∈ w.nodes.flatMap (Node.blocks disk) := List.mem_flatMap.mpr ⟨x, hx, hb⟩
    rcases List.mem_append.mp (hW b hw) with hU | hbusy
    · exact hdisj hU (List.mem_append_right _ hmem)
    · exact List.disjoint_of_nodup_append h.nodup hbusy hmem

theorem Sim.close {busy : List Blk} {nodes : List Node} {counter : UInt32} {x : Node}
    (h : Sim disk s ⟨U ++ busy, nodes, counter⟩) (hperm : U.Perm (x.blocks disk)) (hx : x.Holds disk s.disk) :
    Sim disk s ⟨busy, x :: nodes, counter⟩ := by
  have hheld : (Walk.held disk ⟨U ++ busy, nodes, counter⟩).Perm (Walk.held disk ⟨busy, x :: nodes, counter⟩) := by
    show (U ++ busy ++ _).Perm (busy ++ (x.blocks disk ++ _))
    rw [← List.append_assoc]
    exact (List.perm_append_comm.trans (hperm.append_left busy)).append_right _
  refine ⟨h.mapped, h.ninodes, h.maxinodes, hheld.nodup_iff.mp h.nodup, ?_, ?_, h.free, ?_, h.counter⟩
  · intro b hb
    rw [h.used b hb, hheld.mem_iff]
  · intro b hb
    exact h.lt b (hheld.mem_iff.mpr hb)
  · exact List.forall_mem_cons.mpr ⟨hx, h.holds⟩

theorem Sim.image (h : Sim disk s w) (q : Quiet s t U W) (hb : b ∈ U) : s.disk b = disk b :=
  h.free b (q.lt h.mapped hb) (q.fresh b hb)

theorem Quiet.frame (q : Quiet s t U W) (hW : ∀ b, W b → b ∈ U) (hb : s.Used b) :
    t.disk b = s.disk b :=
  q.disk b fun hw => q.fresh b (hW b hw) hb

end Steps

/-! ## The memory of inodes -/

theorem remembered_none {s : State} (h : s.ninodes = 0) (ino : Blk) : s.remembered ino = none := by
  rw [State.remembered, h]
  rfl

theorem addmemory_quiet {links : UInt32} {s t : State} (h : addmemory ino links s = .ok () t) :
    Quiet s t [] nowhere := by
  obtain ⟨_, u, hget, hrest⟩ := of_bind_ok h
  cases hget
  obtain ⟨_, v, hassert, hset⟩ := of_bind_ok hrest
  have hv : v = s := by
    unfold assert at hassert
    split at hassert
    · cases hassert
      rfl
    · cases hassert
  subst hv
  dsimp only at hset
  generalize (if v.ninodes = v.maxinodes then (v.maxinodes + 1) * 2 else v.space) = space at hset
  by_cases hspace : space ≤ v.ninodes
  · rw [if_pos hspace] at hset
    cases hset
  · rw [if_neg hspace] at hset
    cases hset
    exact .of_same rfl rfl rfl rfl rfl rfl rfl rfl

theorem rememberDir_quiet {r : Bool} {s t : State} (hs : s.ninodes = 0)
    (h : rememberDir ino s = .ok r t) : r = false ∧ Quiet s t [] nowhere := by
  obtain ⟨_, u, hget, hrest⟩ := of_bind_ok h
  cases hget
  rw [remembered_none hs] at hrest
  obtain ⟨_, v, hadd, hpure⟩ := of_bind_ok hrest
  cases hpure
  exact ⟨rfl, addmemory_quiet hadd⟩

theorem observeFilelink_quiet {s t : State} (hs : s.ninodes = 0)
    (h : observeFilelink ino s = .ok () t) (ht : t.badness ≤ exitRecov) : Quiet s t [ino] nowhere := by
  obtain ⟨_, u, hget, hrest⟩ := of_bind_ok h
  cases hget
  rw [remembered_none hs] at hrest
  obtain ⟨_, v, hmark, hadd⟩ := of_bind_ok hrest
  have hv := (addmemory_calm _ _).badness_le hadd ht
  exact (bitmapMark_quiet hmark hv).trans (addmemory_quiet hadd)

/-! ## A file -/

section Congr

variable {n : Inode} {disk' : Blk → Block} (h : n.indirect ≠ 0 → disk' n.indirect = disk n.indirect)
include h

theorem claimed_congr : claimed n disk' = claimed n disk := by
  unfold claimed
  rw [blockAt_eq_of_indirect h]

theorem left_congr : left n disk' = left n disk := by
  have hentry : keptEntry n disk' = keptEntry n disk := by
    funext j
    rw [keptEntry, keptEntry, blockAt_eq_of_indirect h]
  funext r
  cases r with
  | direct k => rw [left, left]
  | indirect => rw [left, left, keptIndirect, keptIndirect, hentry]
  | entry j => rw [left, left, hentry]

end Congr

theorem indirect_mem_claimed {n : Inode} (h : n.indirect ≠ 0) : n.indirect ∈ claimed n disk :=
  mem_claimed.mpr ⟨.indirect, mem_markedPlaces.mpr nofun, rfl, h⟩

theorem Sim.indirect {s t : State} {w : Walk} (h : Sim disk s w) {n : Inode}
    (hb : BlocksChecked s t n n' changed) : n.indirect ≠ 0 → s.disk n.indirect = disk n.indirect :=
  fun h0 => h.image hb.quiet (indirect_mem_claimed h0)

theorem BlocksChecked.place {s t : State} {n m : Inode} (hb : BlocksChecked s t n n' changed)
    (hdirect : m.direct = n.direct) (hind : m.indirect = n'.indirect) {now : Blk → Block}
    (hnow : n'.indirect ≠ 0 → now n'.indirect = t.disk n'.indirect) (r : Place) :
    m.blockAt now r = left n s.disk r := by
  cases r with
  | direct k => rw [Inode.blockAt, hdirect, left]
  | indirect => rw [Inode.blockAt, hind, hb.inode, left, repaired]
  | entry j =>
    rw [left, ← hb.entry j, ← blockAt_eq_of_indirect hnow, Inode.blockAt, Inode.blockAt, hind]

theorem writeInode_quiet {n : Inode} {s s₁ s₂ t : State} (hs : Mapped s)
    (hb : BlocksChecked s s₁ n n' changed) (hn : n = .ofBlock (s.disk (sector ino)))
    (hwrite : onlyIf changed (diskwrite n'.toBlock ino) s₁ = .ok () s₂) (q : Quiet s₂ t [ino] nowhere) :
    sector ino = ino ∧ Quiet s₁ s₂ [] (· = ino) ∧ Inode.ofBlock (s₂.disk ino) = n' := by
  have hm := hb.quiet.mapped hs
  rcases onlyIf_eq hwrite with ⟨-, hw⟩ | ⟨hch, rfl⟩
  · have hs₂ := diskwrite_eq hw
    have hsec : sector ino = ino := by
      have hm₂ : Mapped s₂ := by
        subst hs₂
        exact ⟨hm.small, hm.pastEnd⟩
      exact hm₂.sector (q.lt hm₂ (List.mem_singleton_self ino))
    obtain ⟨q₂, hdata⟩ := diskwrite_quiet hw hsec
    exact ⟨hsec, q₂, by rw [hdata, Inode.ofBlock_toBlock]⟩
  · have hsec := hm.sector (q.lt hm (List.mem_singleton_self ino))
    obtain ⟨hsame, hdisk⟩ := hb.same (Bool.eq_false_iff.mpr hch)
    rw [hsec] at hn
    exact ⟨hsec, Quiet.refl _ _, by rw [hdisk, hsame, hn]⟩

theorem checkFile_goes {parent : Blk} {slot : Nat} {s t : State} {w : Walk} (h : Sim disk s w)
    (hrun : checkFile ino (.ofBlock (s.disk (sector ino))) s = .ok () t) (ht : t.badness ≤ exitRecov)
    (htype : (Inode.ofBlock (s.disk (sector ino))).type = typeFile) :
    ¬ s.Used ino ∧ ino < s.nblocks ∧
      Goes disk s t w
        { w with nodes := ⟨ino, parent, slot, .ofBlock (disk ino), []⟩ :: w.nodes } := by
  obtain ⟨⟨n', changed⟩, s₁, hblocks, h₁⟩ := of_bind_ok hrun
  obtain ⟨_, s₂, hwrite, hobserve⟩ := of_bind_ok h₁
  have ht₂ := (observeFilelink_calm _).badness_le hobserve ht
  have hlater := (Calm.onlyIf (diskwrite_calm _ _)).leads.later hwrite
  have hb := checkInodeBlocks_quiet h.mapped hblocks (hlater.badness.trans ht₂)
  have q₃ := observeFilelink_quiet (hlater.ninodes.trans (hb.quiet.ninodes.trans h.ninodes)) hobserve ht
  obtain ⟨hsec, q₂, hstored⟩ := writeInode_quiet h.mapped hb rfl hwrite q₃
  -- all that has been marked and written
  have q := (hb.quiet.mono (V := fun b => (b = _ ∧ b ≠ 0) ∨ b = ino) fun _ => .inl).trans
    ((q₂.mono fun _ => .inr).trans (q₃.mono nofun))
  have hino : ino ∈ claimed (Inode.ofBlock (s.disk (sector ino))) s.disk ++ ([] ++ [ino]) := by simp
  have hW : ∀ b, (b = (Inode.ofBlock (s.disk (sector ino))).indirect ∧ b ≠ 0) ∨ b = ino →
      b ∈ claimed (Inode.ofBlock (s.disk (sector ino))) s.disk ++ ([] ++ [ino]) := by
    rintro b (⟨rfl, h0⟩ | rfl)
    · exact List.mem_append_left _ (indirect_mem_claimed h0)
    · exact hino
  have hfresh := q.fresh ino hino
  have hlt := q.lt h.mapped hino
  refine ⟨hfresh, hlt, ?_⟩
  have himage : s.disk (sector ino) = disk ino := by
    rw [hsec]
    exact h.free ino hlt hfresh
  have hind := h.indirect hb
  have hsim := h.quiet q fun b hw => List.mem_append_left _ (hW b hw)
  refine ⟨hsim.close (x := ⟨ino, parent, slot, .ofBlock (disk ino), []⟩) ?_ ?_, rfl, q.nblocks, q.bitblocks,
    fun b hb => q.used_of hb, fun b _ hb => q.frame hW hb⟩
  · rw [himage] at hind ⊢
    rw [claimed_congr hind]
    exact List.perm_append_singleton ..
  · have hstored : Inode.ofBlock (t.disk ino) = n' := by rw [q₃.disk_eq, hstored]
    have hnow : n'.indirect ≠ 0 → t.disk n'.indirect = s₁.disk n'.indirect := by
      intro h0
      rw [q₃.disk_eq]
      refine q₂.disk _ fun heq => ?_
      have hmem : n'.indirect ∈ claimed (Inode.ofBlock (s.disk (sector ino))) s.disk := by
        rw [hb.inode] at h0 ⊢
        exact left_mem_claimed (r := .indirect) (mem_markedPlaces.mpr nofun) h0
      exact List.disjoint_of_nodup_append q.nodup hmem (by simp [heq])
    have hplace := hb.place (m := n') (by rw [hb.inode]; rfl) rfl hnow
    rw [left_congr hind, himage] at hplace
    rw [himage] at hb htype
    have hnot : (Inode.ofBlock (disk ino)).type ≠ typeDir := by rw [htype]; decide
    refine ⟨?_, ?_, fun _ => ?_, fun hd => absurd hd hnot, fun hd => absurd hd hnot⟩
    · rw [hstored]
      exact hplace
    · rw [hstored, hb.inode]
      rfl
    · rw [hstored, hb.inode]
      rfl

end Os161.Sfsck

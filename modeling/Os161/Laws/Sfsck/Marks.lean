import Os161.Laws.Sfsck.Ends
import Os161.Laws.Sfs.FileState

/-!
# `sfsck`: marks, and runs that find nothing beyond repair

A block that is marked as used twice makes the run end with `EXIT_UNRECOV`. Where it ends with less, every mark
of a used block was the first: the blocks that a function has marked are a list without repetitions, of blocks
that were free before. `Quiet` says that of a function, with the blocks it has written.
-/

namespace Os161.Sfsck

open Os161.Lib Os161.Sfs

variable {s t : State} {W : Blk → Prop} {U : List Blk} {b : Blk} {code : Nat} {how : Usage}

/-! ## The map of used blocks -/

/-- The block is marked as used. -/
def State.Used (s : State) (b : Blk) : Prop := s.bitmapdata (b.toNat / 8) &&& mask b ≠ 0

theorem mask_and_mask (b c : Blk) : mask c &&& mask b ≠ 0 ↔ b.toNat % 8 = c.toNat % 8 := by
  have h : ∀ i j : Fin 8, UInt8.ofNat (2 ^ i.val) &&& UInt8.ofNat (2 ^ j.val) ≠ 0 ↔ j.val = i.val := by decide
  exact h ⟨c.toNat % 8, Nat.mod_lt _ (by decide)⟩ ⟨b.toNat % 8, Nat.mod_lt _ (by decide)⟩

theorem or_and_ne_zero (x y z : UInt8) : (x ||| y) &&& z ≠ 0 ↔ x &&& z ≠ 0 ∨ y &&& z ≠ 0 := by
  have h : (x ||| y) &&& z = x &&& z ||| y &&& z := by
    apply UInt8.toBitVec_inj.mp
    simp only [UInt8.toBitVec_and, UInt8.toBitVec_or, BitVec.and_or_distrib_right]
  rw [h, ne_eq, UInt8.or_eq_zero_iff, not_and_or]

theorem setByte_mark (map : Nat → UInt8) (b c : Blk) :
    setByte map (c.toNat / 8) (map (c.toNat / 8) ||| mask c) (b.toNat / 8) &&& mask b ≠ 0 ↔
      map (b.toNat / 8) &&& mask b ≠ 0 ∨ b = c := by
  by_cases hi : b.toNat / 8 = c.toNat / 8
  · rw [hi, setByte, Function.update_self, or_and_ne_zero, mask_and_mask]
    refine or_congr Iff.rfl ⟨fun hm => ?_, fun hbc => hbc ▸ rfl⟩
    apply UInt32.toNat_inj.mp
    omega
  · rw [setByte, Function.update_of_ne hi]
    refine ⟨.inl, fun h => h.resolve_right fun hbc => hi (hbc ▸ rfl)⟩

/-! ## Quiet functions -/

/-- What a function has done that has found nothing beyond repair: it has marked the blocks `U`, which were not
marked before, and has written to blocks in `W` only. -/
structure Quiet (s t : State) (U : List Blk) (W : Blk → Prop) : Prop where
  nodup : U.Nodup
  fresh : ∀ b ∈ U, ¬ s.Used b
  used : ∀ b, t.Used b ↔ s.Used b ∨ b ∈ U
  inMap : ∀ b ∈ U, b.toNat / 8 < s.bitblocks.toNat * blockSize
  disk : ∀ b, ¬ W b → t.disk b = s.disk b
  size : t.size = s.size
  nblocks : t.nblocks = s.nblocks
  bitblocks : t.bitblocks = s.bitblocks
  counter : t.uniquecounter = s.uniquecounter
  ninodes : t.ninodes = s.ninodes
  maxinodes : t.maxinodes = s.maxinodes

/-- Nothing is written. -/
abbrev nowhere : Blk → Prop := fun _ => False

theorem Quiet.of_same (hmap : t.bitmapdata = s.bitmapdata)
    (hdisk : t.disk = s.disk) (hsize : t.size = s.size) (hnb : t.nblocks = s.nblocks)
    (hbb : t.bitblocks = s.bitblocks) (hcounter : t.uniquecounter = s.uniquecounter)
    (hn : t.ninodes = s.ninodes) (hmax : t.maxinodes = s.maxinodes) : Quiet s t [] W :=
  ⟨List.nodup_nil, nofun, by simp [State.Used, hmap], nofun, fun _ _ => by rw [hdisk], hsize, hnb, hbb, hcounter,
    hn, hmax⟩

theorem Quiet.refl (s : State) (W : Blk → Prop) : Quiet s s [] W := .of_same rfl rfl rfl rfl rfl rfl rfl rfl

theorem Quiet.trans {u : State} {V : List Blk} (h : Quiet s t U W)
    (h' : Quiet t u V W) : Quiet s u (U ++ V) W := by
  refine ⟨?_, ?_, ?_, ?_, fun b hb => (h'.disk b hb).trans (h.disk b hb), h'.size.trans h.size,
    h'.nblocks.trans h.nblocks, h'.bitblocks.trans h.bitblocks, h'.counter.trans h.counter,
    h'.ninodes.trans h.ninodes, h'.maxinodes.trans h.maxinodes⟩
  · refine List.nodup_append'.mpr ⟨h.nodup, h'.nodup, ?_⟩
    intro b hU hV
    exact h'.fresh b hV ((h.used b).mpr (.inr hU))
  · intro b hb
    rcases List.mem_append.mp hb with hb | hb
    · exact h.fresh b hb
    · exact fun hs => h'.fresh b hb ((h.used b).mpr (.inl hs))
  · intro b
    rw [h'.used, h.used, List.mem_append, or_assoc]
  · intro b hb
    rcases List.mem_append.mp hb with hb | hb
    · exact h.inMap b hb
    · exact h.bitblocks ▸ h'.inMap b hb

theorem Quiet.mono {V : Blk → Prop} (h : Quiet s t U W)
    (hW : ∀ b, W b → V b) : Quiet s t U V :=
  { h with disk := fun b hb => h.disk b fun hw => hb (hW b hw) }

theorem Quiet.used_of (h : Quiet s t U W)
    (hb : s.Used b) : t.Used b := (h.used b).mpr (.inl hb)

/-! ## Marking a block -/

theorem setbadness_eq (h : setbadness code s = .ok () t) :
    t = { s with badness := max s.badness code } := by
  cases h
  rfl

theorem setbadness_noted (h : setbadness code s = .ok () t) : code ≤ t.badness := by
  rw [setbadness_eq h]
  exact Nat.le_max_right _ _

theorem setbadness_quiet (h : setbadness code s = .ok () t) : Quiet s t [] nowhere := by
  cases h
  exact .of_same rfl rfl rfl rfl rfl rfl rfl rfl

theorem onlyIf_eq {c : Prop} [Decidable c] {x : F Unit} (h : onlyIf c x s = .ok () t) :
    c ∧ x s = .ok () t ∨ ¬ c ∧ t = s := by
  unfold onlyIf at h
  split at h
  · exact .inl ⟨‹_›, h⟩
  · cases h
    exact .inr ⟨‹_›, rfl⟩

theorem markUsed_quiet (h : markUsed b s = .ok () t) (ht : t.badness ≤ exitRecov)
    (hin : b.toNat / 8 < s.bitblocks.toNat * blockSize) : Quiet s t [b] nowhere := by
  obtain ⟨_, u, hget, hrest⟩ := of_bind_ok h
  cases hget
  obtain ⟨_, u, hbad, hset⟩ := of_bind_ok hrest
  cases hset
  obtain ⟨hfree, rfl⟩ : ¬ s.Used b ∧ u = s := by
    rcases onlyIf_eq hbad with ⟨_, hset⟩ | ⟨hc, rfl⟩
    · cases hset
      exact absurd ht (by simp [exitRecov, exitUnrecov])
    · exact ⟨hc, rfl⟩
  refine ⟨List.nodup_singleton b, ?_, fun c => ?_, ?_, fun _ _ => rfl, rfl, rfl, rfl, rfl, rfl, rfl⟩
  · intro c hc
    rw [List.mem_singleton.mp hc]
    exact hfree
  · rw [List.mem_singleton]
    exact setByte_mark u.bitmapdata c b
  · intro c hc
    rw [List.mem_singleton.mp hc]
    exact hin

theorem markTofree_quiet (h : markTofree b s = .ok () t) : Quiet s t [] nowhere := by
  obtain ⟨_, u, hget, h⟩ := of_bind_ok h
  cases hget
  dsimp only at h
  split at h
  · cases h
    exact Quiet.refl _ _
  split at h
  · cases h
    exact Quiet.refl _ _
  · cases h
    exact .of_same rfl rfl rfl rfl rfl rfl rfl rfl

/-- The blocks that a mark adds. -/
def marked (how : Usage) (b : Blk) : List Blk := if how = .tofree then [] else [b]

theorem bitmapMark_quiet (h : bitmapMark b how s = .ok () t)
    (ht : t.badness ≤ exitRecov) : Quiet s t (marked how b) nowhere := by
  obtain ⟨_, u, hlog, h⟩ := of_bind_ok h
  obtain ⟨_, v, hget, h⟩ := of_bind_ok h
  cases hget
  have hu : Quiet s u [] nowhere := by
    cases hlog
    exact .of_same rfl rfl rfl rfl rfl rfl rfl rfl
  split at h
  · cases h
  rename_i hin
  unfold marked
  split at h
  · rename_i hhow
    rw [if_pos hhow]
    exact hu.trans (markTofree_quiet h)
  · rename_i hhow
    rw [if_neg hhow]
    exact hu.trans (markUsed_quiet h ht (Nat.lt_of_not_le hin))

/-- The blocks that a mark adds where there is one. -/
def markedBlock (how : Usage) (b : Blk) : List Blk := if b = 0 then [] else marked how b

theorem markBlock_quiet (h : markBlock b how s = .ok () t)
    (ht : t.badness ≤ exitRecov) : Quiet s t (markedBlock how b) nowhere := by
  unfold markBlock at h
  unfold markedBlock
  split at h
  · rw [if_neg ‹_›]
    exact bitmapMark_quiet h ht
  · cases h
    rw [if_pos (not_not.mp ‹_›)]
    exact Quiet.refl _ _

end Os161.Sfsck

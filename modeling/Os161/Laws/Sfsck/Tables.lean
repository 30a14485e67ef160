import Os161.Laws.Sfsck.Ends
import Os161.Laws.Sfsck.Entries
import Os161.Laws.Sfsck.Sorting

/-!
# `sfsck`: the tables

The block numbers that `sfsck` marks come from the disk, and `bitmap_mark` does not compare them with the size of the
maps. The number of entries of a directory is computed from its size in 32 bits and can be too small for the blocks
that are read. The array of inodes is always large enough, as it only ever holds one of them. A run leaves no table
exactly when all it has met is in range.
-/

namespace Os161.Sfsck

open Os161.Lib Os161.Sfs

variable {c : Checked}

/-! ## The entries in memory -/

theorem addDot_fits (hnd : c.nd ≤ c.entries.length) (seen : Bool) (name : List UInt8) (ino : Blk) :
    (addDot seen name ino c).entries.length = c.entries.length ∧
      (addDot seen name ino c).nd ≤ (addDot seen name ino c).entries.length := by
  rcases addDot_cases hnd seen name ino with ⟨full, heq⟩ | ⟨k, nd, -, -, -, -, hnd', heq⟩
  · rw [heq]
    exact ⟨rfl, hnd⟩
  · rw [heq]
    exact ⟨List.length_set, hnd'.trans (Nat.le_of_eq List.length_set.symm)⟩

theorem checkEntries_fits {uc uc' : UInt32} {ino parentino : Blk} {own room : List SfsDir}
    (h : checkEntries uc ino parentino (own ++ room) own.length = some (c, uc')) :
    c.entries.length = (own ++ room).length ∧ c.nd ≤ c.entries.length := by
  unfold checkEntries at h
  dsimp only at h
  obtain ⟨merged, hmerged, h⟩ := Option.bind_eq_some_iff.mp h
  obtain ⟨dots, hdots, h⟩ := Option.map_eq_some_iff.mp h
  have hlength : dots.entries.length = own.length := by
    rw [(fixDots_dotted hdots).length, (mergeNames_merged hmerged).length, length_checkDirEntries, List.take_left]
  have hbase : own.length ≤ (dots.entries ++ (own ++ room).drop own.length).length := by
    rw [List.length_append, hlength]
    exact Nat.le_add_right _ _
  have hdot := addDot_fits (c := ⟨_, own.length, merged.changed || dots.changed, false⟩) hbase dots.dotseen dot ino
  have hdd := addDot_fits hdot.2 dots.dotdotseen dotdot parentino
  cases h
  refine ⟨hdd.1.trans (hdot.1.trans ?_), hdd.2⟩
  rw [List.length_append, hlength, List.drop_left, List.length_append]

/-! ## The run -/

/-- The check of the image makes no access outside an array. -/
def Image.StaysInside (img : Image) : Prop := ∀ depth t, main depth img.start ≠ .error .wild t

/-- The blocks that `bitmap_mark` is called with, each with the number of blocks of the map. -/
def Image.marked (img : Image) (depth : Nat) : List (Blk × UInt32) := (leaves (main depth img.start)).marked

/-- The sizes of the directories whose entries are read. -/
def Image.listed (img : Image) (depth : Nat) : List UInt32 := (leaves (main depth img.start)).listed

theorem main_leads (depth : Nat) : Leads (main depth) := (main_under (Nat.le_refl depth)).leads

theorem Image.start_inside (img : Image) : img.start.Inside :=
  ⟨fun _ h => absurd h List.not_mem_nil, fun _ h => absurd h List.not_mem_nil, .inl rfl⟩

theorem Image.inside_iff (img : Image) (depth : Nat) :
    (leaves (main depth img.start)).Inside ↔
      (∀ m ∈ img.marked depth, m.1.toNat < m.2.toNat * blockBits) ∧
        ∀ size ∈ img.listed depth, size.toNat + 448 < 2 ^ 32 := by
  have hlater : Later img.start (leaves (main depth img.start)) := by
    cases hrun : main depth img.start with
    | ok code t => exact (main_leads depth).later hrun
    | error e t => exact ((main_leads depth img.start).of_error (Onward.refl _) hrun).later
  exact ⟨fun h => ⟨h.marked, h.listed⟩,
    fun h => ⟨h.1, h.2, .inl (hlater.ninodes.trans hlater.maxinodes.symm)⟩⟩

theorem Image.staysInside_iff_inside (img : Image) :
    img.StaysInside ↔ ∀ depth, (leaves (main depth img.start)).Inside := by
  refine forall_congr' fun depth => ?_
  cases hrun : main depth img.start with
  | ok code t =>
    have honward := (main_leads depth img.start).of_ok (Onward.refl _) hrun
    exact ⟨fun _ => honward.inside img.start_inside, fun _ _ => nofun⟩
  | error e t =>
    have hwild := ((main_leads depth img.start).of_error (Onward.refl _) hrun).wild img.start_inside
    constructor
    · intro h
      exact not_not.mp fun hout => h t (by rw [hwild.mpr hout])
    · rintro hin u heq
      cases heq
      exact hwild.mp rfl hin

/-- A file has a block behind the end of a volume of 4096 blocks. -/
def farBlock : Image := sample 64 [.link 4 ⟨[97], zero_not_mem_a⟩] (sampleFile 1 4096)

end Os161.Sfsck

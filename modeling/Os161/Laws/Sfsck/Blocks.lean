import Mathlib.Data.List.Pairwise
import Os161.Laws.Sfsck.Marks

/-!
# `sfsck`: the blocks of an inode

What `check_inode_blocks` marks and what it leaves of an inode. It marks the direct blocks within the file, the
indirect block and everything that is in it. It forgets what is past the end in the indirect block, and the
indirect block itself if nothing is left in it, but those blocks stay marked; the direct blocks past the end it
neither marks nor forgets.
-/

namespace Os161.Sfsck

open Os161.Lib Os161.Sfs

variable {b ientry ientry' : Blk} {data : Block} {r : Place} {isdir : Bool} {bad bad' : Nat} {e : Fin 128 → Blk}

/-! ## Blocks of the volume -/

/-- The blocks past the end of the volume are marked, and the others have 32-bit offsets. -/
structure Mapped (s : State) : Prop where
  small : s.nblocks.toNat ≤ 0x800000
  pastEnd : ∀ b : Blk, b.toNat / 8 < s.bitblocks.toNat * blockSize → s.nblocks ≤ b → s.Used b

theorem sector_eq (h : b.toNat < 0x800000) : sector b = b := by
  have : b.toNat * 512 % 0x100000000 / 512 = b.toNat := by omega
  rw [sector, blockSize, this, UInt32.ofNat_toNat]

section Mapped

variable {s t : State} {U : List Blk} {W : Blk → Prop}

theorem Mapped.sector (h : Mapped s) (hb : b < s.nblocks) : sector b = b := by
  have := h.small
  have := UInt32.lt_iff_toNat_lt.mp hb
  exact sector_eq (by omega)

theorem Quiet.mapped (h : Quiet s t U W) (hs : Mapped s) : Mapped t := by
  refine ⟨h.nblocks ▸ hs.small, fun b hb hle => h.used_of (hs.pastEnd b ?_ ?_)⟩
  · exact h.bitblocks ▸ hb
  · exact h.nblocks ▸ hle

theorem Quiet.lt (h : Quiet s t U W) (hs : Mapped s) (hb : b ∈ U) : b < s.nblocks := by
  by_contra hle
  exact h.fresh b hb (hs.pastEnd b (h.inMap b hb) (UInt32.not_lt.mp hle))

theorem Quiet.disk_eq (h : Quiet s t U nowhere) : t.disk = s.disk := funext fun b => h.disk b id

end Mapped

/-! ## The disk -/

theorem diskread_eq {s t : State} (h : diskread b s = .ok data t) :
    t = s ∧ data = s.disk (sector b) := by
  obtain ⟨_, u, hget, hrest⟩ := of_bind_ok h
  cases hget
  split at hrest
  · cases hrest
  · cases hrest
    exact ⟨rfl, rfl⟩

theorem diskwrite_eq {s t : State} (h : diskwrite data b s = .ok () t) :
    t = { s with disk := Function.update s.disk (sector b) data } := by
  obtain ⟨_, u, hget, hrest⟩ := of_bind_ok h
  cases hget
  split at hrest
  · cases hrest
  · cases hrest
    rfl

theorem diskwrite_quiet {s t : State} (h : diskwrite data b s = .ok () t)
    (hb : sector b = b) : Quiet s t [] (· = b) ∧ t.disk b = data := by
  have ht := diskwrite_eq h
  rw [hb] at ht
  subst ht
  refine ⟨⟨List.nodup_nil, nofun, by simp [State.Used], nofun, ?_, rfl, rfl, rfl, rfl, rfl, rfl⟩, ?_⟩
  · exact fun c hc => Function.update_of_ne hc _ _
  · exact Function.update_self ..

/-! ## What is marked, and what is left -/

/-- A block number, unless it is 0. -/
def present (b : Blk) : List Blk := if b = 0 then [] else [b]

theorem mem_present {c : Blk} : c ∈ present b ↔ c = b ∧ b ≠ 0 := by
  unfold present
  split
  · simp_all
  · simp_all

section Inode

variable (n : Inode) (disk : Blk → Block)

/-- The number of blocks of a file. -/
def blocksOf : Nat := (fileBlocks n.size).toNat

/-- The places whose blocks are marked as used. -/
def markedPlaces : List Place :=
  ((List.finRange 15).filter (·.val < blocksOf n)).map .direct ++ .indirect :: (List.finRange 128).map .entry

/-- The blocks that are marked as used by an inode. -/
def claimed : List Blk := (markedPlaces n).flatMap fun r => present (n.blockAt disk r)

/-- An entry of the indirect block, without what is past the end. -/
def keptEntry (j : Fin 128) : Blk := if blocksOf n ≤ ndirect + j.val then 0 else n.blockAt disk (.entry j)

/-- The indirect block, unless nothing is left in it. -/
def keptIndirect : Blk := if (List.finRange 128).all (fun j => keptEntry n disk j = 0) then 0 else n.indirect

/-- What the check leaves at a place of the block map. -/
def left : Place → Blk
  | .direct k => n.direct k
  | .indirect => keptIndirect n disk
  | .entry j => keptEntry n disk j

/-- The inode without its forgotten indirect block. -/
def repaired : Inode := { n with indirect := keptIndirect n disk }

end Inode

theorem mem_claimed {n : Inode} {disk : Blk → Block} :
    b ∈ claimed n disk ↔ ∃ r ∈ markedPlaces n, n.blockAt disk r = b ∧ b ≠ 0 := by
  simp only [claimed, List.mem_flatMap, mem_present]
  refine exists_congr fun r => and_congr_right fun _ => ⟨?_, ?_⟩
  · rintro ⟨rfl, h⟩
    exact ⟨rfl, h⟩
  · rintro ⟨rfl, h⟩
    exact ⟨rfl, h⟩

theorem mem_markedPlaces {n : Inode} :
    r ∈ markedPlaces n ↔ ∀ k, r = .direct k → k.val < blocksOf n := by
  simp only [markedPlaces, List.mem_append, List.mem_map, List.mem_filter, List.mem_finRange, true_and,
    List.mem_cons, decide_eq_true_eq]
  cases r with
  | direct k => simp
  | indirect => simp
  | entry j => simp

theorem claimed_eq (n : Inode) (disk : Blk → Block) :
    claimed n disk =
      ((List.finRange 15).flatMap fun k => if k.val < blocksOf n then present (n.direct k) else []) ++
        (present n.indirect ++ (List.finRange 128).flatMap fun j => present (n.blockAt disk (.entry j))) := by
  have hfilter : ∀ ks : List (Fin 15), ((ks.filter (·.val < blocksOf n)).flatMap fun k => present (n.direct k)) =
      ks.flatMap fun k => if k.val < blocksOf n then present (n.direct k) else [] := by
    intro ks
    induction ks with
    | nil => rfl
    | cons k rest ih =>
      rw [List.filter_cons, List.flatMap_cons, ← ih]
      split
      · rw [if_pos (of_decide_eq_true ‹_›), List.flatMap_cons]
      · rw [if_neg (fun h => ‹¬ _› (decide_eq_true h)), List.nil_append]
  rw [← hfilter, claimed, markedPlaces, List.flatMap_append, List.flatMap_cons, List.flatMap_map, List.flatMap_map]
  rfl

theorem place_unique {n : Inode} {disk : Blk → Block} (h : (claimed n disk).Nodup) {r' : Place}
    (hr : r ∈ markedPlaces n) (hr' : r' ∈ markedPlaces n) (h0 : n.blockAt disk r ≠ 0)
    (heq : n.blockAt disk r = n.blockAt disk r') : r = r' := by
  by_contra hne
  have : Std.Symm (Function.onFun List.Disjoint fun r => present (n.blockAt disk r)) :=
    ⟨fun _ _ hd => List.Disjoint.symm hd⟩
  have hdisj := (List.nodup_flatMap.mp h).2.forall hr hr' hne
  exact hdisj (mem_present.mpr ⟨rfl, h0⟩) (mem_present.mpr ⟨heq, heq ▸ h0⟩)

theorem markedBlock_data (isdir : Bool) (b : Blk) : markedBlock (dataUsage isdir) b = present b := by
  cases isdir <;> rfl

theorem markedBlock_tofree (b : Blk) : markedBlock .tofree b = [] := ite_self _

/-! ## The loops -/

theorem checkDirect_quiet {n : Inode} {ks : List (Fin 15)} {s t : State}
    (h : checkDirect n (fileBlocks n.size) isdir ks bad s = .ok bad' t) (ht : t.badness ≤ exitRecov) :
    Quiet s t (ks.flatMap fun k => if k.val < blocksOf n then present (n.direct k) else []) nowhere := by
  induction ks generalizing bad s with
  | nil =>
    cases h
    exact Quiet.refl _ _
  | cons k rest ih =>
    rw [List.flatMap_cons]
    unfold checkDirect at h
    split at h
    · obtain ⟨_, u, hmark, hrest⟩ := of_bind_ok h
      have hmark := markBlock_quiet hmark ((checkDirect_calm _ _ _ _ _).badness_le hrest ht)
      rw [markedBlock_data] at hmark
      rw [if_pos ‹_›]
      exact hmark.trans (ih hrest)
    · obtain ⟨_, u, hmark, hrest⟩ := of_bind_ok h
      have hmark := markBlock_quiet hmark ((checkDirect_calm _ _ _ _ _).badness_le hrest ht)
      rw [markedBlock_tofree] at hmark
      rw [if_neg ‹_›]
      exact hmark.trans (ih hrest)

/-- What the loop over the entries of the indirect block does. -/
structure EntriesChecked (nb : UInt32) (js : List (Fin 128)) (e e' : Fin 128 → Blk) (bad bad' : Nat) : Prop where
  entry : ∀ j, e' j = if j ∈ js ∧ nb.toNat ≤ ndirect + j.val then 0 else e j
  same : bad' = 0 → bad = 0 ∧ e' = e

theorem checkIndirEntries_quiet {nb : UInt32} {js : List (Fin 128)} {e' : Fin 128 → Blk} {s t : State} (hjs : js.Nodup)
    (h : checkIndirEntries nb isdir js e bad s = .ok (e', bad') t) (ht : t.badness ≤ exitRecov) :
    Quiet s t (js.flatMap fun j => present (e j)) nowhere ∧ EntriesChecked nb js e e' bad bad' := by
  induction js generalizing e bad s with
  | nil =>
    cases h
    exact ⟨Quiet.refl _ _, by simp, fun h => ⟨h, rfl⟩⟩
  | cons j rest ih =>
    obtain ⟨hj, hrest⟩ := List.nodup_cons.mp hjs
    unfold checkIndirEntries at h
    obtain ⟨_, u, hmark, hgo⟩ := of_bind_ok h
    rw [List.flatMap_cons, ← markedBlock_data isdir]
    split at hgo
    · rename_i hin
      have hmark := markBlock_quiet hmark ((checkIndirEntries_calm _ _ _ _ _).badness_le hgo ht)
      obtain ⟨hq, hentry, hsame⟩ := ih hrest hgo
      refine ⟨hmark.trans hq, fun i => ?_, hsame⟩
      rw [hentry i]
      by_cases hij : i = j
      · subst hij
        rw [if_neg (by omega), if_neg (by omega)]
      · simp only [List.mem_cons, hij, false_or]
    · rename_i hin
      have hmark := markBlock_quiet hmark ((checkIndirEntries_calm _ _ _ _ _).badness_le hgo ht)
      obtain ⟨hq, hentry, hsame⟩ := ih hrest hgo
      -- the entry that is cleared is not met again
      have hsameMarks : (rest.flatMap fun i => present (Function.update e j 0 i)) =
          rest.flatMap fun i => present (e i) := by
        refine List.flatMap_congr fun i hi => ?_
        have hij : i ≠ j := fun hij => hj (hij ▸ hi)
        rw [Function.update_of_ne hij]
      refine ⟨hsameMarks ▸ hmark.trans hq, fun i => ?_, fun hbad => ?_⟩
      · rw [hentry i]
        by_cases hij : i = j
        · subst hij
          rw [if_neg (by simp [hj]), Function.update_self, if_pos ⟨List.mem_cons_self, by omega⟩]
        · simp only [List.mem_cons, hij, false_or, Function.update_of_ne hij]
      · obtain ⟨hzero, he⟩ := hsame hbad
        split at hzero
        · cases hzero
        · rename_i hj0
          rw [← not_not.mp hj0, Function.update_eq_self] at he
          exact ⟨hzero, he⟩

/-! ## The indirect block -/

theorem readIndirect_quiet {s t : State} (hs : Mapped s)
    (h : readIndirect ientry s = .ok e t) (ht : t.badness ≤ exitRecov) :
    Quiet s t (present ientry) nowhere ∧ e = fun j => if ientry = 0 then 0 else words (s.disk ientry) j := by
  unfold readIndirect at h
  split at h
  · rename_i hne
    obtain ⟨data, u, hread, hrest⟩ := of_bind_ok h
    obtain ⟨rfl, rfl⟩ := diskread_eq hread
    obtain ⟨_, v, hmark, hpure⟩ := of_bind_ok hrest
    cases hpure
    have hq : Quiet u t [ientry] nowhere := bitmapMark_quiet hmark ht
    rw [hs.sector (hq.lt hs (List.mem_singleton_self _)), present, if_neg hne]
    exact ⟨hq, by simp only [if_neg hne]⟩
  · rename_i hz
    cases h
    rw [present, if_pos (not_not.mp hz)]
    exact ⟨Quiet.refl _ _, by simp only [if_pos (not_not.mp hz)]⟩

/-- What the end of `check_indirect_block` does to the indirect block. -/
structure IndirectFinished (s t : State) (ientry ientry' : Blk) (e : Fin 128 → Blk) (bad bad' : Nat) : Prop where
  kept : ientry' = if (List.finRange 128).all (fun j => e j = 0) then 0 else ientry
  disk : ientry' ≠ 0 → words (t.disk ientry) = e ∨ bad = 0 ∧ t.disk ientry = s.disk ientry
  same : bad' = 0 → bad = 0 ∧ ientry' = ientry ∧ t.disk = s.disk

theorem finishIndirect_quiet {s t : State}
    (hsec : sector ientry = ientry) (h : finishIndirect ientry e bad s = .ok (ientry', bad') t)
    (ht : t.badness ≤ exitRecov) :
    Quiet s t [] (fun b => b = ientry ∧ b ≠ 0) ∧ IndirectFinished s t ientry ientry' e bad bad' := by
  unfold finishIndirect at h
  split at h
  · rename_i hall
    split at h
    · obtain ⟨_, u, hmark, hpure⟩ := of_bind_ok h
      cases hpure
      have hq : Quiet s t [] nowhere := bitmapMark_quiet hmark ht
      exact ⟨hq.mono nofun, by rw [if_pos hall], fun h0 => absurd rfl h0, nofun⟩
    · rename_i hz
      cases h
      have hz := not_not.mp hz
      exact ⟨Quiet.refl _ _, by rw [if_pos hall, hz], fun h0 => absurd hz h0, fun hbad => ⟨hbad, rfl, rfl⟩⟩
  rename_i hall
  split at h
  · cases h
  rename_i h0
  split at h
  · rename_i hbad
    obtain ⟨_, u, hwrite, hpure⟩ := of_bind_ok h
    cases hpure
    obtain ⟨hq, hdata⟩ := diskwrite_quiet hwrite hsec
    refine ⟨hq.mono ?_, by rw [if_neg hall], fun _ => .inl ?_, fun h0 => absurd h0 (Nat.ne_of_gt hbad)⟩
    · rintro b rfl
      exact ⟨rfl, h0⟩
    · rw [hdata, words_ofWords]
  · rename_i hbad
    cases h
    exact ⟨Quiet.refl _ _, by rw [if_neg hall], fun _ => .inr ⟨by omega, rfl⟩, fun hb => ⟨hb, rfl, rfl⟩⟩

theorem IndirectFinished.entry {n : Inode} {s t : State}
    (h : IndirectFinished s t n.indirect ientry' (keptEntry n s.disk) bad bad')
    (hsame : bad = 0 → keptEntry n s.disk = fun j => n.blockAt s.disk (.entry j)) (j : Fin 128) :
    (if ientry' = 0 then 0 else words (t.disk ientry') j) = keptEntry n s.disk j := by
  have hkept := h.kept
  by_cases h0 : ientry' = 0
  · rw [if_pos h0]
    split at hkept
    · rename_i hall
      have := List.all_eq_true.mp hall j (List.mem_finRange j)
      exact (of_decide_eq_true this).symm
    · rw [keptEntry, Inode.blockAt, if_pos (hkept.symm.trans h0), ite_self]
  · rw [if_neg h0]
    split at hkept
    · exact absurd hkept h0
    subst hkept
    rcases h.disk h0 with hwords | ⟨hbad, hdisk⟩
    · rw [hwords]
    · rw [hdisk, hsame hbad]
      exact (if_neg h0).symm

/-! ## `check_inode_blocks` -/

/-- What `check_inode_blocks` does. -/
structure BlocksChecked (s t : State) (n n' : Inode) (changed : Bool) : Prop where
  quiet : Quiet s t (claimed n s.disk) (fun b => b = n.indirect ∧ b ≠ 0)
  inode : n' = repaired n s.disk
  entry : ∀ j, n'.blockAt t.disk (.entry j) = keptEntry n s.disk j
  same : changed = false → n' = n ∧ t.disk = s.disk
  noted : changed = true → exitRecov ≤ t.badness

theorem checkInodeBlocks_quiet {n n' : Inode} {changed : Bool} {s t : State} (hs : Mapped s)
    (h : checkInodeBlocks n isdir s = .ok (n', changed) t) (ht : t.badness ≤ exitRecov) :
    BlocksChecked s t n n' changed := by
  unfold checkInodeBlocks at h
  obtain ⟨bad₁, s₁, hdirect, h₁⟩ := of_bind_ok h
  obtain ⟨⟨ientry, bad₂⟩, s₂, hindirect, h₂⟩ := of_bind_ok h₁
  obtain ⟨_, s₃, hbad, hpure⟩ := of_bind_ok h₂
  cases hpure
  have ht₂ : s₂.badness ≤ exitRecov := (Calm.onlyIf (setbadness_calm _)).badness_le hbad ht
  obtain ⟨e, u₁, hread, h₃⟩ := of_bind_ok hindirect
  obtain ⟨⟨e', bad₃⟩, u₂, hentries, hfinish⟩ := of_bind_ok h₃
  have hu₂ := (finishIndirect_calm _ _ _).badness_le hfinish ht₂
  have hu₁ := (checkIndirEntries_calm _ _ _ _ _).badness_le hentries hu₂
  have hs₁ := (readIndirect_calm _).badness_le hread hu₁
  -- the four parts, one after the other
  have q₁ := checkDirect_quiet hdirect hs₁
  obtain ⟨q₂, he⟩ := readIndirect_quiet (q₁.mapped hs) hread hu₁
  have he : e = fun j => n.blockAt s.disk (.entry j) := by
    rw [he, q₁.disk_eq]
    rfl
  subst he
  obtain ⟨q₃, hchecked⟩ := checkIndirEntries_quiet (List.nodup_finRange 128) hentries hu₂
  have hsec : sector n.indirect = n.indirect := by
    by_cases h0 : n.indirect = 0
    · rw [h0]
      rfl
    · exact (q₁.mapped hs).sector (q₂.lt (q₁.mapped hs) (mem_present.mpr ⟨rfl, h0⟩))
  obtain ⟨q₄, hfinished⟩ := finishIndirect_quiet hsec hfinish ht₂
  have q₅ : Quiet s₂ t [] nowhere := by
    rcases onlyIf_eq hbad with ⟨_, hset⟩ | ⟨_, rfl⟩
    · exact setbadness_quiet hset
    · exact Quiet.refl _ _
  have hdisk : u₂.disk = s.disk := q₃.disk_eq.trans (q₂.disk_eq.trans q₁.disk_eq)
  have he' : e' = keptEntry n s.disk := by
    funext j
    rw [hchecked.entry, keptEntry, blocksOf]
    simp only [List.mem_finRange, true_and]
  subst he'
  have hmarks : Quiet s t (claimed n s.disk) (fun b => b = n.indirect ∧ b ≠ 0) := by
    have q := (q₁.trans (q₂.trans q₃)).mono (V := fun b => b = n.indirect ∧ b ≠ 0) nofun
    have q := (q.trans q₄).trans (q₅.mono nofun)
    rw [List.append_nil, List.append_nil] at q
    rw [claimed_eq]
    exact q
  refine ⟨hmarks, ?_, ?_, ?_, ?_⟩
  · rw [hfinished.kept]
    rfl
  · intro j
    rw [q₅.disk_eq]
    rw [← hdisk] at hfinished hchecked ⊢
    exact hfinished.entry (fun h0 => (hchecked.same h0).2) j
  · intro hch
    have hbad₂ : bad₂ = 0 := by simpa using hch
    obtain ⟨-, hind, hdisk'⟩ := hfinished.same hbad₂
    exact ⟨by rw [hind], q₅.disk_eq.trans (hdisk'.trans hdisk)⟩
  · intro hch
    rcases onlyIf_eq hbad with ⟨_, hset⟩ | ⟨hnot, _⟩
    · exact setbadness_noted hset
    · exact absurd (of_decide_eq_true hch) hnot

end Os161.Sfsck

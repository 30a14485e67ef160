import Os161.Lib.Bounded
import Os161.Sfsck.Check

/-!
# `sfsck`: what a function can do to the globals

`badness` only grows, the log of `check_dir` only grows, and the memory of inodes stays empty, because
`addmemory` does not count what it adds. Only `check_dir` runs out of depth.
-/

namespace Os161.Sfsck

open Os161.Lib Os161.Sfs

variable {s t u : State} {e : Halt}

/-- What the states of a run have in common with an earlier one. -/
structure Later (s t : State) : Prop where
  badness : s.badness ≤ t.badness
  entered : s.entered <:+ t.entered
  ninodes : t.ninodes = s.ninodes
  maxinodes : t.maxinodes = s.maxinodes

theorem Later.refl (s : State) : Later s s := ⟨le_refl _, List.suffix_refl _, rfl, rfl⟩

theorem Later.trans (h : Later s t) (h' : Later t u) : Later s u :=
  ⟨h.badness.trans h'.badness, h.entered.trans h'.entered, h'.ninodes.trans h.ninodes,
    h'.maxinodes.trans h.maxinodes⟩

/-- No table has been left: `bitmap_mark` has been called for blocks of the maps only, the directories that were
read fit into their arrays, and there is room for one more inode. -/
structure State.Inside (s : State) : Prop where
  marked : ∀ m ∈ s.marked, m.1.toNat < m.2.toNat * blockBits
  listed : ∀ size ∈ s.listed, size.toNat + 448 < 2 ^ 32
  room : s.ninodes = s.maxinodes ∨ s.ninodes < s.space

/-- A later state of a run that goes on. -/
structure Onward (s t : State) : Prop extends Later s t where
  inside : s.Inside → t.Inside

/-- A later state in which a run stops. It stops with `.wild` where a table is left, and only there. -/
structure Halted (s : State) (e : Halt) (t : State) : Prop where
  later : Later s t
  wild : s.Inside → (e = .wild ↔ ¬ t.Inside)

theorem Onward.refl (s : State) : Onward s s := ⟨Later.refl s, id⟩

theorem Onward.trans (h : Onward s t) (h' : Onward t u) : Onward s u :=
  ⟨h.toLater.trans h'.toLater, h'.inside ∘ h.inside⟩

theorem Onward.of_same (hbad : s.badness ≤ t.badness)
    (h : (t.entered, t.marked, t.listed) = (s.entered, s.marked, s.listed))
    (h' : (t.ninodes, t.maxinodes, t.space) = (s.ninodes, s.maxinodes, s.space)) : Onward s t := by
  simp only [Prod.mk.injEq] at h h'
  obtain ⟨hentered, hmarked, hlisted⟩ := h
  obtain ⟨hninodes, hmaxinodes, hspace⟩ := h'
  refine ⟨⟨hbad, hentered ▸ List.suffix_refl _, hninodes, hmaxinodes⟩, fun hs => ⟨?_, ?_, ?_⟩⟩
  · rw [hmarked]
    exact hs.marked
  · rw [hlisted]
    exact hs.listed
  · rw [hninodes, hmaxinodes, hspace]
    exact hs.room

theorem Onward.halted (h : Onward s t) (he : e ≠ .wild) : Halted s e t :=
  ⟨h.toLater, fun hs => ⟨(absurd · he), (absurd (h.inside hs) ·)⟩⟩

theorem Halted.of_outside (h : Later s t) (hout : ¬ t.Inside) : Halted s .wild t :=
  ⟨h, fun _ => ⟨fun _ => hout, fun _ => rfl⟩⟩

/-- The function leads to a later state, however it stops. -/
def Leads {α : Type} (x : F α) : Prop := ∀ s₀, Triple (Onward s₀) x (fun _ => Onward s₀) (Halted s₀)

/-- The function leads to a later state, and stops for some other reason than depth. -/
def Calm {α : Type} (x : F α) : Prop :=
  ∀ s₀, Triple (Onward s₀) x (fun _ => Onward s₀) fun e t => Halted s₀ e t ∧ e ≠ .depth

section Rules

variable {α β : Type} {x : F α} {f : α → F β}
variable {a : α} {code : Nat} {c : Prop}

theorem Leads.bind (hx : Leads x) (hf : ∀ a, Leads (f a)) : Leads (x >>= f) :=
  fun s₀ => (hx s₀).bind fun a => hf a s₀

theorem Leads.later (h : Leads x) (hx : x s = .ok a t) : Later s t :=
  ((h s).of_ok (Onward.refl s) hx).toLater

theorem Leads.badness_le (h : Leads x) (hx : x s = .ok a t)
    (ht : t.badness ≤ code) : s.badness ≤ code := (h.later hx).badness.trans ht

theorem Leads.extends (h : Leads x) : Extends State.entered x := by
  intro s
  cases hx : x s with
  | ok a t => exact (h.later hx).entered
  | error e t => exact ((h s).of_error (Onward.refl s) hx).later.entered

theorem Calm.pure (a : α) : Calm (pure a : F α) := fun _ => Triple.pure fun _ hs => hs

theorem Calm.throw (h : e ≠ .wild) (h' : e ≠ .depth) : Calm (throw e : F α) :=
  fun _ => Triple.throw fun _ hs => ⟨hs.halted h, h'⟩

theorem Calm.modify {g : State → State} (h : ∀ s, Onward s (g s)) : Calm (modify g : F PUnit) :=
  fun _ => Triple.modify fun s hs => hs.trans (h s)

theorem Calm.bind (hx : Calm x) (hf : ∀ a, Calm (f a)) : Calm (x >>= f) :=
  fun s₀ => (hx s₀).bind fun a => hf a s₀

theorem Calm.get {f : State → F β} (hf : ∀ s, Calm (f s)) : Calm (get >>= f) :=
  fun s₀ s hs => hf s s₀ s hs

theorem Calm.ite [Decidable c] {y : F α} (hx : Calm x) (hy : Calm y) :
    Calm (if c then x else y) := by
  split
  · exact hx
  · exact hy

theorem Calm.onlyIf [Decidable c] {x : F Unit} (hx : Calm x) : Calm (onlyIf c x) :=
  Calm.ite hx (Calm.pure _)

theorem Calm.forM {γ : Type} {g : γ → F PUnit} (l : List γ) (h : ∀ c ∈ l, Calm (g c)) : Calm (l.forM g) := by
  induction l with
  | nil => exact Calm.pure _
  | cons c l ih =>
    exact Calm.bind (h c List.mem_cons_self) fun _ => ih fun d hd => h d (List.mem_cons_of_mem _ hd)

theorem Calm.leads (h : Calm x) : Leads x :=
  fun s₀ => Triple.conseq (h s₀) (fun _ hs => hs) (fun _ _ hs => hs) fun _ _ hs => hs.1

theorem Calm.badness_le (h : Calm x) (hx : x s = .ok a t)
    (ht : t.badness ≤ code) : s.badness ≤ code := h.leads.badness_le hx ht

theorem Calm.ne_depth (h : Calm x) (s t : State) : x s ≠ .error .depth t :=
  fun hx => ((h s).of_error (Onward.refl s) hx).2 rfl

theorem Calm.deep (h : Calm x) (k : Nat) : Deep State.entered Halt.depth k x := Deep.of_ne h.ne_depth

end Rules

/-! ## The disk, the maps and the memory -/

theorem setbadness_calm (code : Nat) : Calm (setbadness code) :=
  Calm.modify fun _ => .of_same (le_max_left _ _) rfl rfl

theorem assert_calm (c : Prop) [Decidable c] : Calm (assert c) :=
  Calm.ite (Calm.pure _) (Calm.throw nofun nofun)

theorem diskread_calm (block : Blk) : Calm (diskread block) :=
  Calm.get fun _ => Calm.ite (Calm.throw nofun nofun) (Calm.pure _)

theorem diskwrite_calm (data : Block) (block : Blk) : Calm (diskwrite data block) :=
  Calm.get fun _ =>
    Calm.ite (Calm.throw nofun nofun) (Calm.modify fun _ => .of_same (le_refl _) rfl rfl)

theorem markTofree_calm (block : Blk) : Calm (markTofree block) := by
  refine Calm.get fun s => ?_
  refine Calm.ite (Calm.pure _) (Calm.ite (Calm.pure _) ?_)
  exact Calm.modify fun _ => .of_same (le_refl _) rfl rfl

theorem markUsed_calm (block : Blk) : Calm (markUsed block) := by
  refine Calm.get fun s => ?_
  refine (Calm.onlyIf (setbadness_calm _)).bind fun _ => ?_
  exact Calm.modify fun _ => .of_same (le_refl _) rfl rfl

theorem bitmapMark_calm (block : Blk) (how : Usage) : Calm (bitmapMark block how) := by
  have hmark : Calm (if how = .tofree then markTofree block else markUsed block) :=
    Calm.ite (markTofree_calm block) (markUsed_calm block)
  intro s₀ s hs
  have hlater : Later s₀ { s with marked := (block, s.bitblocks) :: s.marked } :=
    hs.toLater.trans ⟨le_refl _, List.suffix_refl _, rfl, rfl⟩
  by_cases hwild : s.bitblocks.toNat * blockSize ≤ block.toNat / 8
  · have hrun : bitmapMark block how s = .error .wild { s with marked := (block, s.bitblocks) :: s.marked } :=
      congrFun (if_pos hwild) _
    rw [hrun]
    refine ⟨.of_outside hlater fun hin => ?_, nofun⟩
    have := hin.marked (block, s.bitblocks) List.mem_cons_self
    dsimp only [blockBits, blockSize] at this hwild
    omega
  · have hrun : bitmapMark block how s = (if how = .tofree then markTofree block else markUsed block)
        { s with marked := (block, s.bitblocks) :: s.marked } := congrFun (if_neg hwild) _
    rw [hrun]
    refine hmark s₀ _ ⟨hlater, fun h₀ => ⟨List.forall_mem_cons.mpr ⟨?_, (hs.inside h₀).marked⟩,
      (hs.inside h₀).listed, (hs.inside h₀).room⟩⟩
    dsimp only [blockBits, blockSize] at hwild ⊢
    omega

set_option maxRecDepth 2000 in
theorem checkMapBlock_calm (i : Nat) : Calm (checkMapBlock i) := by
  refine (diskread_calm _).bind fun bits => Calm.get fun s => ?_
  refine (assert_calm _).bind fun _ => ?_
  exact Calm.bind (Calm.onlyIf (diskwrite_calm _ _)) fun _ => Calm.pure _

theorem checkMapBlocks_calm (is : List Nat) (a f : Nat) : Calm (checkMapBlocks is a f) := by
  induction is generalizing a f with
  | nil => exact Calm.pure _
  | cons i rest ih => exact (checkMapBlock_calm i).bind fun _ => ih _ _

theorem checkBitmap_calm : Calm checkBitmap :=
  Calm.get fun _ => (checkMapBlocks_calm _ _ _).bind fun _ =>
    (Calm.onlyIf (setbadness_calm _)).bind fun _ => Calm.onlyIf (setbadness_calm _)

theorem addmemory_calm (ino : Blk) (linkcount : UInt32) : Calm (addmemory ino linkcount) := by
  refine fun s₀ => Triple.get fun s => ?_
  refine (Triple.ite (Q := fun _ t => t = s ∧ Onward s₀ s) (fun _ => ?_) fun _ => ?_).bind fun _ => ?_
  · exact Triple.pure fun _ h => h
  · exact Triple.throw fun t h => ⟨h.1 ▸ h.2.halted nofun, nofun⟩
  refine Triple.ite (fun hfull => ?_) fun hroom => ?_
  · rintro t ⟨rfl, hs⟩
    refine ⟨.of_outside hs.toLater fun hin => ?_, nofun⟩
    rcases hin.room with heq | hlt
    · rw [if_pos heq] at hfull
      omega
    · split at hfull <;> omega
  · rintro t ⟨rfl, hs⟩
    refine hs.trans ⟨⟨le_refl _, List.suffix_refl _, rfl, rfl⟩, fun hin => ⟨hin.marked, hin.listed, .inr ?_⟩⟩
    exact Nat.lt_of_not_le hroom

theorem rememberDir_calm (ino : Blk) : Calm (rememberDir ino) := by
  refine Calm.get fun s => ?_
  cases s.remembered ino with
  | some i => exact (assert_calm _).bind fun _ => Calm.pure _
  | none => exact (addmemory_calm ino 0).bind fun _ => Calm.pure _

theorem observeFilelink_calm (ino : Blk) : Calm (observeFilelink ino) := by
  refine Calm.get fun s => ?_
  cases s.remembered ino with
  | some i =>
    exact (assert_calm _).bind fun _ =>
      Calm.modify fun _ => .of_same (le_refl _) rfl rfl
  | none => exact (bitmapMark_calm ino .inode).bind fun _ => addmemory_calm ino 1

theorem adjustFilelink_calm (m : InodeMemory) : Calm (adjustFilelink m) := by
  refine Calm.ite (Calm.pure _) ((diskread_calm _).bind fun _ => (assert_calm _).bind fun _ => ?_)
  exact Calm.ite ((setbadness_calm _).bind fun _ => diskwrite_calm _ _) (Calm.pure _)

theorem adjustFilelinks_calm : Calm adjustFilelinks :=
  Calm.get fun _ => Calm.forM _ fun _ _ => Calm.get fun _ => adjustFilelink_calm _

/-! ## The superblock -/

theorem markAll_calm (how : Usage) (blocks : List Nat) : Calm (markAll how blocks) := by
  induction blocks with
  | nil => exact Calm.pure _
  | cons b rest ih => exact (bitmapMark_calm _ how).bind fun _ => ih

theorem checkVolname_calm (sp : Block) : Calm (checkVolname sp) :=
  Calm.onlyIf ((setbadness_calm _).bind fun _ => diskwrite_calm _ _)

theorem checkSb_calm : Calm checkSb := by
  refine (diskread_calm _).bind fun sp => Calm.ite (Calm.throw nofun nofun) ?_
  refine Calm.ite (Calm.throw nofun nofun) ?_
  refine Calm.bind (Calm.modify fun _ => .of_same (le_refl _) rfl rfl) fun _ => ?_
  refine (markAll_calm _ _).bind fun _ => (checkVolname_calm sp).bind fun _ => ?_
  exact (bitmapMark_calm _ _).bind fun _ => markAll_calm _ _

/-! ## The blocks of inodes and directories -/

theorem markBlock_calm (block : Blk) (how : Usage) : Calm (markBlock block how) :=
  Calm.ite (bitmapMark_calm block how) (Calm.pure _)

theorem checkDirect_calm (n : Inode) (nblocks : UInt32) (isdir : Bool) (ks : List (Fin 15)) (bad : Nat) :
    Calm (checkDirect n nblocks isdir ks bad) := by
  induction ks generalizing bad with
  | nil => exact Calm.pure _
  | cons k rest ih =>
    exact Calm.ite ((markBlock_calm _ _).bind fun _ => ih _) ((markBlock_calm _ _).bind fun _ => ih _)

theorem checkIndirEntries_calm (nblocks : UInt32) (isdir : Bool) (js : List (Fin 128))
    (entries : Fin 128 → Blk) (bad : Nat) : Calm (checkIndirEntries nblocks isdir js entries bad) := by
  induction js generalizing entries bad with
  | nil => exact Calm.pure _
  | cons j rest ih => exact (markBlock_calm _ _).bind fun _ => Calm.ite (ih _ _) (ih _ _)

theorem readIndirect_calm (ientry : Blk) : Calm (readIndirect ientry) :=
  Calm.ite ((diskread_calm _).bind fun _ => (bitmapMark_calm _ _).bind fun _ => Calm.pure _) (Calm.pure _)

theorem finishIndirect_calm (ientry : Blk) (entries : Fin 128 → Blk) (bad : Nat) :
    Calm (finishIndirect ientry entries bad) := by
  refine Calm.ite (Calm.ite ((bitmapMark_calm _ _).bind fun _ => Calm.pure _) (Calm.pure _)) ?_
  refine Calm.ite (Calm.throw nofun nofun) (Calm.ite ?_ (Calm.pure _))
  exact (diskwrite_calm _ _).bind fun _ => Calm.pure _

theorem checkInodeBlocks_calm (n : Inode) (isdir : Bool) : Calm (checkInodeBlocks n isdir) := by
  refine (checkDirect_calm _ _ _ _ _).bind fun _ => ?_
  refine Calm.bind ?_ fun _ => (Calm.onlyIf (setbadness_calm _)).bind fun _ => Calm.pure _
  exact (readIndirect_calm _).bind fun _ =>
    (checkIndirEntries_calm _ _ _ _ _).bind fun _ => finishIndirect_calm _ _ _

theorem dobmap_calm (n : Inode) (fileblock : Nat) : Calm (dobmap n fileblock) := by
  unfold dobmap
  split
  · exact Calm.pure _
  · split
    · exact Calm.ite (Calm.pure _) ((diskread_calm _).bind fun _ => Calm.pure _)
    · exact Calm.pure _

theorem dirread_calm (n : Inode) (i nblocks : Nat) : Calm (dirread n i nblocks) := by
  induction nblocks generalizing i with
  | zero => exact Calm.pure _
  | succ nblocks ih =>
    refine (dobmap_calm n i).bind fun _ => Calm.ite ?_ ((ih _).bind fun _ => Calm.pure _)
    exact (diskread_calm _).bind fun _ => (ih _).bind fun _ => Calm.pure _

theorem dirwrite_calm (n : Inode) (i nblocks : Nat) (entries : List SfsDir) :
    Calm (dirwrite n i nblocks entries) := by
  induction nblocks generalizing i entries with
  | zero => exact Calm.pure _
  | succ nblocks ih =>
    refine (dobmap_calm n i).bind fun _ => Calm.ite ((diskwrite_calm _ _).bind fun _ => ih _ _) ?_
    exact (Calm.onlyIf (setbadness_calm _)).bind fun _ => ih _ _

theorem checkSize_calm (n : Inode) : Calm (checkSize n) :=
  Calm.ite ((setbadness_calm _).bind fun _ => Calm.pure _) (Calm.pure _)

theorem maxEntries_lt_iff (size : UInt32) :
    (maxEntries (size / 64)).toNat < 8 * ((size / 64 + 8 - 1) / 8 * 8 / 8).toNat ↔ 2 ^ 32 ≤ size.toNat + 448 := by
  have := size.toNat_lt
  simp only [maxEntries, UInt32.toNat_div, UInt32.toNat_mul, UInt32.toNat_sub, UInt32.toNat_add,
    UInt32.reduceToNat, UInt32.reduceDiv]
  omega

theorem readEntries_calm (n : Inode) : Calm (readEntries n) := by
  refine fun s₀ => Triple.bind (Q := fun _ t => ∃ s, t = { s with listed := n.size :: s.listed } ∧ Onward s₀ s)
    (Triple.modify fun s hs => ⟨s, rfl, hs⟩) fun _ => Triple.ite (fun hwild => ?_) fun hfits => ?_
  · rintro t ⟨s, rfl, hs⟩
    refine ⟨.of_outside (hs.toLater.trans ⟨le_refl _, List.suffix_refl _, rfl, rfl⟩) fun hin => ?_, nofun⟩
    have := hin.listed n.size List.mem_cons_self
    have := (maxEntries_lt_iff n.size).mp hwild
    omega
  · refine Triple.conseq (Calm.bind (dirread_calm _ _ _) (fun _ => Calm.pure _) s₀) ?_ (fun _ _ h => h)
      fun _ _ h => h
    rintro t ⟨s, rfl, hs⟩
    refine hs.trans ⟨⟨le_refl _, List.suffix_refl _, rfl, rfl⟩, fun hin => ⟨hin.marked, ?_, hin.room⟩⟩
    refine List.forall_mem_cons.mpr ⟨?_, hin.listed⟩
    exact Nat.lt_of_not_le fun h => hfits ((maxEntries_lt_iff n.size).mpr h)

theorem checkInMemory_calm (ino parentino : Blk) (entries : List SfsDir) (nd : Nat) :
    Calm (checkInMemory ino parentino entries nd) := by
  refine Calm.get fun s => ?_
  cases checkEntries s.uniquecounter ino parentino entries nd with
  | none => exact Calm.throw nofun nofun
  | some c =>
    refine Calm.bind (Calm.modify fun _ => .of_same (le_refl _) rfl rfl) fun _ => ?_
    exact (Calm.onlyIf (setbadness_calm _)).bind fun _ =>
      (Calm.onlyIf (setbadness_calm _)).bind fun _ => Calm.pure _

theorem checkFile_calm (ino : Blk) (n : Inode) : Calm (checkFile ino n) :=
  (checkInodeBlocks_calm n false).bind fun _ =>
    (Calm.onlyIf (diskwrite_calm _ _)).bind fun _ => observeFilelink_calm ino

theorem checkLinkcount_calm (n : Inode) (subdircount : Nat) : Calm (checkLinkcount n subdircount) :=
  Calm.ite ((setbadness_calm _).bind fun _ => Calm.pure _) (Calm.pure _)

theorem writeBack_calm (ino : Blk) (n : Inode) (entries : List SfsDir) (nd : Nat)
    (ichanged dchanged : Bool) : Calm (writeBack ino n entries nd ichanged dchanged) :=
  (Calm.onlyIf (dirwrite_calm _ _ _ _)).bind fun _ => Calm.onlyIf (diskwrite_calm _ _)

theorem fixRoot_calm (n : Inode) : Calm (fixRoot n) :=
  Calm.onlyIf ((setbadness_calm _).bind fun _ => diskwrite_calm _ _)

end Os161.Sfsck

import Mathlib.Data.Set.Card
import Os161.Laws.Sfsck.Run
import Os161.Laws.Sfsck.Tree

/-!
# `sfsck`: what it leaves behind

Whether the free map and the link counts are right after a run that ends with at most `EXIT_RECOV`. The inodes
that can be reached afterwards are those of the walk, each regular file from one entry only. The link counts of
files are never repaired. The free map is right unless a block past the end of a file is referenced: a direct block
past the end keeps its reference and loses its bit, and what is forgotten of an indirect block keeps its bit.
-/

namespace Os161.Sfsck

open Os161.Lib Os161.Sfs

variable {x : Node} {disk : Blk → Block}

/-! ## The files of a disk -/

/-- The inodes that the directories lead to, from the root on. -/
inductive Reachable (now : Blk → Block) : Blk → Prop
  | root : Reachable now rootLocation
  | entry {i : Blk} {d : SfsDir} : Reachable now i → (Inode.ofBlock (now i)).type = typeDir →
      d ∈ slotsOf (.ofBlock (now i)) now → d.ino ≠ 0 → Reachable now d.ino

/-- The directory entries of the tree that name an inode: a directory and a slot of it. -/
def namings (now : Blk → Block) (f : Blk) : Set (Blk × Nat) :=
  { p | Reachable now p.1 ∧ (Inode.ofBlock (now p.1)).type = typeDir ∧
    ∃ d, (slotsOf (.ofBlock (now p.1)) now)[p.2]? = some d ∧ d.ino = f }

/-- The link count of every regular file that can be reached is the number of its entries. -/
def LinksRight (now : Blk → Block) : Prop :=
  ∀ f, Reachable now f → (Inode.ofBlock (now f)).type = typeFile →
    (Inode.ofBlock (now f)).linkcount.toNat = (namings now f).ncard

/-- A bit of the free map is set exactly for the blocks in use. -/
def MapRight (nblocks : Blk) (now : Blk → Block) : Prop :=
  ∀ b, b < nblocks → (mapBit now b ↔ b ∈ reserved nblocks ∨ Reachable now b ∨
    ∃ i r, Reachable now i ∧ (Inode.ofBlock (now i)).blockAt now r = b ∧ b ≠ 0)

/-! ## The files of a walk -/

/-- An inode of the walk over an image. -/
def Image.Reaches (img : Image) (depth : Nat) (x : Node) : Prop := ∃ w, img.walk depth = some w ∧ x ∈ w.nodes

theorem Image.type_root (img : Image) : (Inode.ofBlock (img.fixed rootLocation)).type = typeDir := by
  unfold Image.fixed
  split
  · assumption
  · rw [Function.update_self, Inode.ofBlock_toBlock]

theorem walk_grown {img : Image} {depth : Nat} {w : Walk} (h : img.walk depth = some w) :
    ∃ x ∈ w.nodes, x.ino = rootLocation ∧ x.parent = rootLocation ∧ x.IsDir ∧ Grown (· = x) w.nodes := by
  obtain ⟨x, xs, hnodes, hino, hparent, -, hdir, hgrown⟩ := visit_grown depth _ _ _ _ _ img.type_root h
  rw [List.append_nil] at hnodes
  rw [hnodes]
  exact ⟨x, List.mem_cons_self, hino, hparent, hdir, hgrown⟩

section Left

variable {img : Image} {depth : Nat} {w : Walk} {now : Blk → Block}
variable {y : Node} {b : Blk}

theorem Left.disjoint (h : Left img now w) (hx : x ∈ w.nodes) (hy : y ∈ w.nodes) (hne : x ≠ y) :
    (x.blocks img.fixed).Disjoint (y.blocks img.fixed) := by
  have hnodup := (List.nodup_append'.mp h.nodup).2.1
  have : Std.Symm (Function.onFun List.Disjoint (Node.blocks img.fixed)) := ⟨fun _ _ hd => List.Disjoint.symm hd⟩
  exact (List.nodup_flatMap.mp hnodup).2.forall hx hy hne

theorem Left.unique (h : Left img now w) (hx : x ∈ w.nodes) (hy : y ∈ w.nodes) (hino : x.ino = y.ino) :
    x = y := by
  by_contra hne
  exact h.disjoint hx hy hne (List.mem_cons_self ..) (hino ▸ List.mem_cons_self)

theorem Left.ino_ne_zero (h : Left img now w) (hx : x ∈ w.nodes) : x.ino ≠ 0 := by
  intro h0
  have hbusy : x.ino ∈ w.busy := by
    rw [h.busy, h0]
    exact List.mem_cons_self
  exact List.disjoint_of_nodup_append h.nodup hbusy (List.mem_flatMap.mpr ⟨x, hx, List.mem_cons_self⟩)

theorem walk_parent (hw : img.walk depth = some w) (hx : x ∈ w.nodes) :
    ∃ p ∈ w.nodes, p.IsDir ∧ p.ino = x.parent := by
  obtain ⟨root, hroot, hino, hparent, hdir, hgrown⟩ := walk_grown hw
  rcases hgrown.named x hx with rfl | ⟨p, hp, hpdir, hpar, -⟩
  · exact ⟨x, hx, hdir, hino.trans hparent.symm⟩
  · exact ⟨p, hp, hpdir, hpar.symm⟩

variable (hw : img.walk depth = some w) (h : Left img now w)
include hw h

theorem reachable_iff : Reachable now b ↔ ∃ x ∈ w.nodes, x.ino = b := by
  obtain ⟨root, hroot, hino, hparent, hdir, hgrown⟩ := walk_grown hw
  constructor
  · intro hb
    induction hb with
    | root => exact ⟨root, hroot, hino⟩
    | @entry i d _ htype hd h0 ih =>
      obtain ⟨x, hx, rfl⟩ := ih
      have hxdir : x.IsDir := ((h.holds x hx).type).symm.trans htype
      have hmem : d.ino ∈ x.inos := by
        rw [← (h.holds x hx).slots hxdir]
        exact List.mem_map_of_mem hd
      obtain ⟨k, hk⟩ := List.mem_iff_getElem?.mp hmem
      rcases hgrown.slots x hx hxdir k _ hk h0 with hself | hpar | ⟨y, hy, hyino, -⟩
      · exact ⟨x, hx, hself.symm⟩
      · obtain ⟨p, hp, -, hpino⟩ := walk_parent hw hx
        exact ⟨p, hp, hpino.trans hpar.symm⟩
      · exact ⟨y, hy, hyino⟩
  · rintro ⟨x, hx, rfl⟩
    refine hgrown.reach (Reachable now) ?_ ?_ x hx
    · intro p hp hpdir hreach i hi h0
      rw [← (h.holds p hp).slots hpdir] at hi
      obtain ⟨d, hd, rfl⟩ := List.mem_map.mp hi
      exact .entry hreach ((h.holds p hp).type.trans hpdir) hd h0
    · rintro y - rfl
      rw [hino]
      exact .root

theorem namings_eq (hx : x ∈ w.nodes) (hfile : x.inode.type = typeFile) :
    namings now x.ino = {(x.parent, x.slot)} := by
  obtain ⟨root, hroot, hino, hparent, hdir, hgrown⟩ := walk_grown hw
  have hnot : ∀ y ∈ w.nodes, y.IsDir → y.ino ≠ x.ino := by
    intro y hy hydir heq
    rw [h.unique hy hx heq] at hydir
    exact absurd (hfile.symm.trans hydir) (by decide)
  have h0 := h.ino_ne_zero hx
  ext ⟨i, k⟩
  constructor
  · rintro ⟨hreach, htype, d, hd, hdino⟩
    obtain ⟨p, hp, rfl⟩ := (reachable_iff hw h).mp hreach
    have hpdir : p.IsDir := ((h.holds p hp).type).symm.trans htype
    have hk : p.inos[k]? = some x.ino := by
      rw [← (h.holds p hp).slots hpdir, List.getElem?_map, hd]
      exact congrArg some hdino
    rcases hgrown.slots p hp hpdir k _ hk h0 with hself | hpar | ⟨y, hy, hyino, hypar, hyslot⟩
    · exact absurd hself.symm (hnot p hp hpdir)
    · obtain ⟨q, hq, hqdir, hqino⟩ := walk_parent hw hp
      exact absurd (hqino.trans hpar.symm) (hnot q hq hqdir)
    · rw [h.unique hy hx hyino] at hypar hyslot
      rw [← hypar, ← hyslot]
      rfl
  · rintro heq
    cases heq
    rcases hgrown.named x hx with rfl | ⟨p, hp, hpdir, hpar, hslot⟩
    · exact absurd rfl (hnot x hx hdir)
    rw [← (h.holds p hp).slots hpdir, List.getElem?_map] at hslot
    obtain ⟨d, hd, hdino⟩ := Option.map_eq_some_iff.mp hslot
    rw [hpar]
    exact ⟨(reachable_iff hw h).mpr ⟨p, hp, rfl⟩, (h.holds p hp).type.trans hpdir, d, hd, hdino⟩

theorem linksRight_iff : LinksRight now ↔ ∀ x ∈ w.nodes, x.inode.type = typeFile → x.inode.linkcount = 1 := by
  have hcount : ∀ x ∈ w.nodes, x.inode.type = typeFile →
      ((Inode.ofBlock (now x.ino)).linkcount.toNat = (namings now x.ino).ncard ↔ x.inode.linkcount = 1) := by
    intro x hx hfile
    rw [namings_eq hw h hx hfile, Set.ncard_singleton, (h.holds x hx).links hfile]
    exact UInt16.toNat_inj (b := 1)
  constructor
  · intro hright x hx hfile
    refine (hcount x hx hfile).mp (hright _ ((reachable_iff hw h).mpr ⟨x, hx, rfl⟩) ?_)
    rw [(h.holds x hx).type, hfile]
  · intro hone f hf htype
    obtain ⟨x, hx, rfl⟩ := (reachable_iff hw h).mp hf
    have hfile := (h.holds x hx).type.symm.trans htype
    exact (hcount x hx hfile).mpr (hone x hx hfile)

/-! ## The blocks -/

/-- A block that is marked for an inode and of which the inode is left without a reference. -/
def Dropped (disk : Blk → Block) (x : Node) (b : Blk) : Prop :=
  ∃ r ∈ markedPlaces x.inode, x.inode.blockAt disk r = b ∧ b ≠ 0 ∧ left x.inode disk r = 0

/-- A direct block past the end of an inode. -/
def Dangling (x : Node) (b : Blk) : Prop := ∃ k : Fin 15, blocksOf x.inode ≤ k.val ∧ x.inode.direct k = b ∧ b ≠ 0

/-- A block that is marked for an inode and stays with it. -/
def Kept (disk : Blk → Block) (x : Node) (b : Blk) : Prop :=
  b = x.ino ∨ ∃ r ∈ markedPlaces x.inode, left x.inode disk r = b ∧ b ≠ 0

omit hw h in
theorem mem_blocks_iff : b ∈ x.blocks disk ↔ Kept disk x b ∨ Dropped disk x b := by
  rw [Node.blocks, List.mem_cons, mem_claimed, Kept, Dropped, or_assoc]
  refine or_congr_right ⟨?_, ?_⟩
  · rintro ⟨r, hr, hb, h0⟩
    by_cases hl : left x.inode disk r = 0
    · exact .inr ⟨r, hr, hb, h0, hl⟩
    · exact .inl ⟨r, hr, (left_eq hl).trans hb, h0⟩
  · rintro (⟨r, hr, hb, h0⟩ | ⟨r, hr, hb, h0, -⟩)
    · exact ⟨r, hr, (left_eq (hb ▸ h0)).symm.trans hb, h0⟩
    · exact ⟨r, hr, hb, h0⟩

omit hw h in
/-- A block is left to an inode where it is kept, or at a direct place past the end. -/
theorem left_iff : (b = x.ino ∨ ∃ r, left x.inode disk r = b ∧ b ≠ 0) ↔ Kept disk x b ∨ Dangling x b := by
  rw [Kept, Dangling, or_assoc]
  refine or_congr_right ⟨?_, ?_⟩
  · rintro ⟨r, hb, h0⟩
    by_cases hr : r ∈ markedPlaces x.inode
    · exact .inl ⟨r, hr, hb, h0⟩
    · rw [mem_markedPlaces] at hr
      simp only [not_forall, not_lt] at hr
      obtain ⟨k, rfl, hk⟩ := hr
      exact .inr ⟨k, hk, hb, h0⟩
  · rintro (⟨r, -, hb, h0⟩ | ⟨k, -, hb, h0⟩)
    · exact ⟨r, hb, h0⟩
    · exact ⟨.direct k, hb, h0⟩

omit hw in
/-- A block is not both kept and dropped. -/
theorem Left.kept_ne_dropped (hx : x ∈ w.nodes) (hy : y ∈ w.nodes)
    (hkept : Kept img.fixed x b) : ¬ Dropped img.fixed y b := by
  rintro hdropped
  by_cases hxy : x = y
  · subst hxy
    obtain ⟨r, hr, hb, h0, hl⟩ := hdropped
    have hmem : b ∈ claimed x.inode img.fixed := mem_claimed.mpr ⟨r, hr, hb, h0⟩
    have hnodup := (List.nodup_flatMap.mp (List.nodup_append'.mp h.nodup).2.1).1 x hx
    obtain ⟨hino, hclaimed⟩ := List.nodup_cons.mp hnodup
    rcases hkept with rfl | ⟨r', hr', hb', -⟩
    · exact hino hmem
    · have h0' : left x.inode img.fixed r' ≠ 0 := hb'.trans_ne h0
      have hat : x.inode.blockAt img.fixed r' = b := (left_eq h0').symm.trans hb'
      have := place_unique hclaimed hr' hr (hat.trans_ne h0) (hat.trans hb.symm)
      exact h0' (this ▸ hl)
  · exact h.disjoint hx hy hxy (mem_blocks_iff.mpr (.inl hkept)) (mem_blocks_iff.mpr (.inr hdropped))

/-- A block that stays in use. -/
def Stays (img : Image) (w : Walk) (b : Blk) : Prop :=
  b ∈ reserved img.nblocks ∨ ∃ x ∈ w.nodes, Kept img.fixed x b

omit hw in
theorem Left.mapBit_iff (hb : b < img.nblocks) :
    mapBit now b ↔ Stays img w b ∨ ∃ x ∈ w.nodes, Dropped img.fixed x b := by
  rw [h.map b hb, Walk.held, List.mem_append, h.busy, List.mem_flatMap, Stays, or_assoc]
  refine or_congr_right ⟨?_, ?_⟩
  · rintro ⟨x, hx, hmem⟩
    exact (mem_blocks_iff.mp hmem).imp (fun hk => ⟨x, hx, hk⟩) fun hd => ⟨x, hx, hd⟩
  · rintro (⟨x, hx, hk⟩ | ⟨x, hx, hd⟩)
    · exact ⟨x, hx, mem_blocks_iff.mpr (.inl hk)⟩
    · exact ⟨x, hx, mem_blocks_iff.mpr (.inr hd)⟩

theorem inUse_iff : (b ∈ reserved img.nblocks ∨ Reachable now b ∨
      ∃ i r, Reachable now i ∧ (Inode.ofBlock (now i)).blockAt now r = b ∧ b ≠ 0) ↔
      Stays img w b ∨ ∃ x ∈ w.nodes, Dangling x b := by
  rw [Stays, or_assoc]
  refine or_congr_right ⟨?_, ?_⟩
  · intro hb
    obtain ⟨x, hx, hleft⟩ : ∃ x ∈ w.nodes, b = x.ino ∨ ∃ r, left x.inode img.fixed r = b ∧ b ≠ 0 := by
      rcases hb with hb | ⟨i, r, hi, hb, h0⟩
      · obtain ⟨x, hx, rfl⟩ := (reachable_iff hw h).mp hb
        exact ⟨x, hx, .inl rfl⟩
      · obtain ⟨x, hx, rfl⟩ := (reachable_iff hw h).mp hi
        exact ⟨x, hx, .inr ⟨r, ((h.holds x hx).place r).symm.trans hb, h0⟩⟩
    exact (left_iff.mp hleft).imp (fun hk => ⟨x, hx, hk⟩) fun hd => ⟨x, hx, hd⟩
  · intro hb
    obtain ⟨x, hx, hleft⟩ : ∃ x ∈ w.nodes, Kept img.fixed x b ∨ Dangling x b := by
      rcases hb with ⟨x, hx, hk⟩ | ⟨x, hx, hd⟩
      · exact ⟨x, hx, .inl hk⟩
      · exact ⟨x, hx, .inr hd⟩
    have hreach : Reachable now x.ino := (reachable_iff hw h).mpr ⟨x, hx, rfl⟩
    rcases left_iff.mpr hleft with rfl | ⟨r, hb, h0⟩
    · exact .inl hreach
    · exact .inr ⟨x.ino, r, hreach, ((h.holds x hx).place r).trans hb, h0⟩

omit hw in
theorem Left.stays_ne_dropped (hs : Stays img w b) (hy : y ∈ w.nodes) :
    ¬ Dropped img.fixed y b := by
  intro hd
  rcases hs with hb | ⟨x, hx, hk⟩
  · rw [← h.busy] at hb
    exact List.disjoint_of_nodup_append h.nodup hb
      (List.mem_flatMap.mpr ⟨y, hy, mem_blocks_iff.mpr (.inr hd)⟩)
  · exact h.kept_ne_dropped hx hy hk hd

theorem mapRight_iff : MapRight img.nblocks now ↔ ∀ b, b < img.nblocks →
    ((∃ x ∈ w.nodes, Dropped img.fixed x b) ↔ (∃ x ∈ w.nodes, Dangling x b) ∧ ¬ Stays img w b) := by
  refine forall_congr' fun b => imp_congr_right fun hb => ?_
  rw [h.mapBit_iff hb, inUse_iff hw h]
  have hdisj : (∃ x ∈ w.nodes, Dropped img.fixed x b) → ¬ Stays img w b := by
    rintro ⟨y, hy, hd⟩ hs
    exact h.stays_ne_dropped hs hy hd
  generalize Stays img w b = s at hdisj ⊢
  generalize (∃ x ∈ w.nodes, Dropped img.fixed x b) = d at hdisj ⊢
  generalize (∃ x ∈ w.nodes, Dangling x b) = p
  tauto

end Left

/-! ## What a run leaves -/

/-- What a run ends with, where it does. -/
def exitCode : EStateM.Result Halt State Nat → Option Nat
  | .ok code _ => some code
  | .error _ _ => none

theorem eq_ok_of_exitCode {r : EStateM.Result Halt State Nat} {code : Nat} (h : exitCode r = some code) :
    r = .ok code (leaves r) := by
  cases r with
  | ok c t => rw [Option.some.inj h, leaves_ok]
  | error e t => cases h

theorem reaches_iff {img : Image} {depth : Nat} {w : Walk} (hw : img.walk depth = some w) :
    img.Reaches depth x ↔ x ∈ w.nodes := by
  constructor
  · rintro ⟨w', hw', hx⟩
    cases hw.symm.trans hw'
    exact hx
  · intro hx
    exact ⟨w, hw, hx⟩

theorem reaches_of_any (img : Image) (depth : Nat) (p : Node → Bool)
    (h : ((img.walk depth).any fun w => w.nodes.any p) = true) : ∃ x, img.Reaches depth x ∧ p x = true := by
  obtain ⟨w, hw, hany⟩ := (Option.any_eq_true _ _).mp h
  obtain ⟨x, hx, hp⟩ := List.any_eq_true.mp hany
  exact ⟨x, ⟨w, hw, hx⟩, hp⟩

theorem forall_reaches_of_all (img : Image) (depth : Nat) (p : Node → Bool)
    (h : ((img.walk depth).all fun w => w.nodes.all p) = true) (x : Node) (hx : img.Reaches depth x) : p x = true := by
  obtain ⟨w, hw, hmem⟩ := hx
  rw [hw] at h
  exact List.all_eq_true.mp h x hmem

/-- `f` is in the root directory. -/
def oneFile (linkcount : UInt16) (block : Blk) : Image :=
  sample 192 [.link 1 ⟨dot, by decide⟩, .link 1 ⟨dotdot, by decide⟩, .link 4 ⟨[102], by decide⟩]
    (sampleFile linkcount block)

/-- After a run that ends with at most `EXIT_RECOV`, the link counts of the regular files are right exactly when
those of the files that are walked over were 1 already. -/
theorem repaired_links_iff (img : Image) (depth code : Nat) (t : State) (hvol : img.nblocks.toNat ≤ 0x800000)
    (h : main depth img.start = .ok code t) (hcode : code ≤ exitRecov) :
    LinksRight t.disk ↔ ∀ x, img.Reaches depth x → x.inode.type = typeFile → x.inode.linkcount = 1 := by
  obtain ⟨w, hw, hleft⟩ := main_left hvol h hcode
  rw [linksRight_iff hw hleft]
  exact forall_congr' fun x => imp_congr_left (reaches_iff hw).symm

theorem oneFile_exitCode : exitCode (main 3 (oneFile 1 0).start) = some exitClean := by decide +kernel

theorem repaired_links_oneFile : LinksRight (leaves (main 3 (oneFile 1 0).start)).disk := by
  refine (repaired_links_iff (oneFile 1 0) 3 exitClean _ (by decide +kernel)
    (eq_ok_of_exitCode oneFile_exitCode) (by decide)).mpr ?_
  intro x hx _
  have := forall_reaches_of_all (oneFile 1 0) 3 (fun x => x.inode.type ≠ typeFile ∨ x.inode.linkcount = 1)
    (by decide +kernel) x hx
  simpa [*] using this

/-- A file with one entry and a link count of 5 is clean. -/
theorem overcounted_not_linksRight : exitCode (main 3 (oneFile 5 0).start) = some exitClean ∧
    ¬ LinksRight (leaves (main 3 (oneFile 5 0).start)).disk := by
  have hrun : exitCode (main 3 (oneFile 5 0).start) = some exitClean := by decide +kernel
  obtain ⟨w, hw, hleft⟩ := main_left (by decide +kernel) (eq_ok_of_exitCode hrun) (by decide)
  refine ⟨hrun, fun hright => ?_⟩
  obtain ⟨x, hx, hp⟩ := reaches_of_any (oneFile 5 0) 3
    (fun x => x.inode.type = typeFile ∧ x.inode.linkcount = 5) (by decide +kernel)
  obtain ⟨hfile, hcount⟩ := of_decide_eq_true hp
  have := (linksRight_iff hw hleft).mp hright x ((reaches_iff hw).mp hx) hfile
  rw [hcount] at this
  exact absurd this (by decide)

/-- After a run that ends with at most `EXIT_RECOV`, the free map is right exactly when the blocks that were
dropped are those that were left past the end of a file and are not in use otherwise. -/
theorem repaired_map_iff (img : Image) (depth code : Nat) (t : State) (hvalid : img.nblocks.toNat ≤ img.size)
    (h : main depth img.start = .ok code t) (hcode : code ≤ exitRecov) :
    MapRight img.nblocks t.disk ↔ ∀ b, b < img.nblocks →
      ((∃ x, img.Reaches depth x ∧ Dropped img.fixed x b) ↔
        (∃ x, img.Reaches depth x ∧ Dangling x b) ∧
          ¬ (b ∈ reserved img.nblocks ∨ ∃ x, img.Reaches depth x ∧ Kept img.fixed x b)) := by
  have hvol : img.nblocks.toNat ≤ 0x800000 := by
    have hsize := img.small
    simp only [blockSize] at hsize
    omega
  obtain ⟨w, hw, hleft⟩ := main_left hvol h hcode
  rw [mapRight_iff hw hleft]
  simp only [reaches_iff hw, Stays]

/-- Nothing is dropped and nothing dangles. -/
def Node.tight (disk : Blk → Block) (x : Node) : Bool :=
  ((markedPlaces x.inode).all fun r => x.inode.blockAt disk r = 0 ∨ left x.inode disk r ≠ 0) &&
    (List.finRange 15).all fun k => k.val < blocksOf x.inode ∨ x.inode.direct k = 0

theorem Node.tight_spec (h : x.tight disk = true) (b : Blk) :
    ¬ Dropped disk x b ∧ ¬ Dangling x b := by
  simp only [tight, Bool.and_eq_true, List.all_eq_true, decide_eq_true_eq] at h
  constructor
  · rintro ⟨r, hr, hb, h0, hl⟩
    rcases h.1 r hr with hz | hz
    · exact h0 (hb.symm.trans hz)
    · exact hz hl
  · rintro ⟨k, hk, hb, h0⟩
    rcases h.2 k (List.mem_finRange k) with hz | hz
    · omega
    · exact h0 (hb.symm.trans hz)

theorem repaired_map_oneFile : MapRight 4096 (leaves (main 3 (oneFile 1 0).start)).disk := by
  have htight := forall_reaches_of_all (oneFile 1 0) 3 (Node.tight (oneFile 1 0).fixed) (by decide +kernel)
  refine (repaired_map_iff (oneFile 1 0) 3 exitClean _ (by decide +kernel)
    (eq_ok_of_exitCode oneFile_exitCode) (by decide)).mpr ?_
  intro b _
  constructor
  · rintro ⟨x, hx, hdropped⟩
    exact absurd hdropped (Node.tight_spec (htight x hx) b).1
  · rintro ⟨⟨x, hx, hdangling⟩, -⟩
    exact absurd hdangling (Node.tight_spec (htight x hx) b).2

/-- A file without contents keeps the block 5, which is then free. -/
theorem dangling_not_mapRight : exitCode (main 3 (oneFile 1 5).start) = some exitRecov ∧
    ¬ MapRight 4096 (leaves (main 3 (oneFile 1 5).start)).disk := by
  have hrun : exitCode (main 3 (oneFile 1 5).start) = some exitRecov := by decide +kernel
  obtain ⟨w, hw, hleft⟩ := main_left (by decide +kernel) (eq_ok_of_exitCode hrun) (by decide)
  have hblocks := forall_reaches_of_all (oneFile 1 5) 3 (fun x => 5 ∉ x.blocks (oneFile 1 5).fixed)
    (by decide +kernel)
  have hno (x : Node) (hx : x ∈ w.nodes) : ¬ Kept (oneFile 1 5).fixed x 5 ∧ ¬ Dropped (oneFile 1 5).fixed x 5 := by
    have := of_decide_eq_true (hblocks x ((reaches_iff hw).mpr hx))
    rwa [mem_blocks_iff, not_or] at this
  refine ⟨hrun, fun hright => ?_⟩
  obtain ⟨x, hx, hp⟩ := reaches_of_any (oneFile 1 5) 3
    (fun x => blocksOf x.inode = 0 ∧ x.inode.direct 0 = 5) (by decide +kernel)
  obtain ⟨hsize, hdirect⟩ := of_decide_eq_true hp
  have hiff := (mapRight_iff hw hleft).mp hright 5 (by decide +kernel)
  have hfree : ¬ Stays (oneFile 1 5) w 5 := by
    rintro (hreserved | ⟨y, hy, hkept⟩)
    · revert hreserved
      decide +kernel
    · exact (hno y hy).1 hkept
  obtain ⟨y, hy, hdropped⟩ := hiff.mpr ⟨⟨x, (reaches_iff hw).mp hx, 0, hsize.le, hdirect, by decide⟩, hfree⟩
  exact (hno y hy).2 hdropped

end Os161.Sfsck

import Os161.Laws.Sfsck.Steps

/-!
# `sfsck`: whether it ends

`check_dir` calls itself for every subdirectory it comes to. What it does under one bound on the depth it
does under a larger one, until the bound is met, and the bound is met only after as many calls. It ends when no
call is for a directory that `check_dir` has been called with before. The memory of inodes, which should make
sure of that, stays empty: a directory with an entry for itself is followed forever.
-/

namespace Os161.Sfsck

open Os161.Lib Os161.Sfs

variable {m n : Nat} {img : Image}

/-- `x` is `y` under a lower bound on the depth, and running out of it takes `k` calls of `check_dir`. -/
structure Under {α : Type} (k : Nat) (x y : F α) : Prop where
  leads : Leads x
  leads' : Leads y
  below : Below State.entered .depth x y
  deep : Deep State.entered .depth k x

section Rules

variable {α β : Type} {x y : F α} {f g : α → F β} {k : Nat}

theorem Calm.under (h : Calm x) : Under k x x := ⟨h.leads, h.leads, Below.refl x, h.deep k⟩

theorem Leads.under (h : Leads x) : Under 0 x x := by
  refine ⟨h, h, Below.refl x, ?_⟩
  intro s t hx
  have := (h.extends s).length_le
  rwa [hx] at this

theorem Under.bind (hx : Under k x y) (hf : ∀ a, Under k (f a) (g a)) :
    Under k (x >>= f) (y >>= g) where
  leads := hx.leads.bind fun a => (hf a).leads
  leads' := hx.leads'.bind fun a => (hf a).leads'
  below := hx.below.bind (fun a => (hf a).below) fun a => (hf a).leads'.extends
  deep := hx.deep.bind hx.leads.extends fun a => (hf a).deep

theorem Under.ite {c : Prop} [Decidable c] {x' y' : F α} (h : Under k x y) (h' : Under k x' y') :
    Under k (if c then x else x') (if c then y else y') := by
  split
  · exact h
  · exact h'

end Rules

/-! ## Following the entries -/

section Follow

variable {sub sub' : Blk → Blk → F Bool} {k : Nat} (h : ∀ i p, Under k (sub i p) (sub' i p))
include h

theorem followEntry_under (ino : Blk) (d : SfsDir) :
    Under k (followEntry sub ino d) (followEntry sub' ino d) := by
  refine Under.ite (Calm.pure _).under ((diskread_calm _).under.bind fun _ => ?_)
  refine Under.ite ((checkFile_calm _ _).bind fun _ => Calm.pure _).under ?_
  refine Under.ite ((h _ _).bind fun _ => Calm.under ?_) ((setbadness_calm _).bind fun _ => Calm.pure _).under
  exact Calm.ite ((setbadness_calm _).bind fun _ => Calm.pure _) (Calm.pure _)

theorem followEntries_under (ino : Blk) (entries : List SfsDir) :
    Under k (followEntries sub ino entries) (followEntries sub' ino entries) := by
  induction entries with
  | nil => exact (Calm.pure _).under
  | cons d rest ih =>
    exact (followEntry_under h ino d).bind fun _ => ih.bind fun _ => (Calm.pure _).under

theorem checkOnDisk_under (ino : Blk) (n : Inode) (ichanged : Bool) (c : Checked) :
    Under k (checkOnDisk sub ino n ichanged c) (checkOnDisk sub' ino n ichanged c) :=
  (followEntries_under h ino _).bind fun _ =>
    Calm.under ((checkLinkcount_calm _ _).bind fun _ => writeBack_calm _ _ _ _ _ _)

theorem checkNewDir_under (ino parentino : Blk) (n : Inode) :
    Under k (checkNewDir sub ino parentino n) (checkNewDir sub' ino parentino n) := by
  refine (bitmapMark_calm _ _).under.bind fun _ => (checkSize_calm _).under.bind fun _ => ?_
  refine (checkInodeBlocks_calm _ _).under.bind fun _ => (readEntries_calm _).under.bind fun _ => ?_
  exact (checkInMemory_calm _ _ _ _).under.bind fun _ => checkOnDisk_under h _ _ _ _

end Follow

/-! ## `check_dir` under two bounds -/

/-- A call of `check_dir`, after it has been logged. -/
def checkDirBody (sub : Blk → Blk → F Bool) (ino parentino : Blk) : F Bool :=
  diskread ino >>= fun data => rememberDir ino >>= fun remembered =>
    if remembered then pure true
    else checkNewDir sub ino parentino (.ofBlock data) >>= fun _ => pure false

theorem checkDir_succ (depth : Nat) (ino parentino : Blk) :
    checkDir (depth + 1) ino parentino =
      (modify (fun s => { s with entered := ino :: s.entered }) >>= fun _ =>
        checkDirBody (checkDir depth) ino parentino) := rfl

theorem checkDirBody_under {sub sub' : Blk → Blk → F Bool} {k : Nat}
    (h : ∀ i p, Under k (sub i p) (sub' i p)) (ino parentino : Blk) :
    Under k (checkDirBody sub ino parentino) (checkDirBody sub' ino parentino) := by
  refine (diskread_calm _).under.bind fun _ => (rememberDir_calm _).under.bind fun _ => ?_
  exact Under.ite (Calm.pure _).under ((checkNewDir_under h _ _ _).bind fun _ => (Calm.pure _).under)

theorem enter_leads (ino : Blk) : Leads (modify fun s => { s with entered := ino :: s.entered } : F Unit) :=
  fun _ => Triple.modify fun _ hs =>
    hs.trans ⟨⟨le_refl _, List.suffix_cons _ _, rfl, rfl⟩, fun hin => ⟨hin.marked, hin.listed, hin.room⟩⟩

theorem depth_leads {α : Type} : Leads (throw .depth : F α) :=
  fun _ => Triple.throw fun _ hs => hs.halted nofun

theorem checkDir_leads (depth : Nat) (ino parentino : Blk) : Leads (checkDir depth ino parentino) := by
  induction depth generalizing ino parentino with
  | zero => exact depth_leads
  | succ depth ih =>
    rw [checkDir_succ]
    exact (enter_leads ino).bind fun _ => (checkDirBody_under (fun i p => (ih i p).under) _ _).leads

theorem checkDir_under (hmn : m ≤ n) (ino parentino : Blk) :
    Under m (checkDir m ino parentino) (checkDir n ino parentino) := by
  induction m generalizing n ino parentino with
  | zero =>
    have hleads := checkDir_leads n ino parentino
    refine ⟨depth_leads, hleads, Below.throw hleads.extends, ?_⟩
    intro s t h
    cases h
    exact Nat.le_refl _
  | succ m ih =>
    obtain ⟨n, rfl⟩ := Nat.exists_eq_add_of_le' hmn
    have hbody := checkDirBody_under (fun i p => ih (n := n + m) (by omega) i p) ino parentino
    rw [show n + (m + 1) = n + m + 1 from rfl, checkDir_succ, checkDir_succ]
    refine ⟨(enter_leads ino).bind fun _ => hbody.leads, (enter_leads ino).bind fun _ => hbody.leads', ?_,
      Deep.call (fun _ => rfl) hbody.deep⟩
    exact (Below.refl _).bind (fun _ => hbody.below) fun _ => hbody.leads'.extends

theorem main_under (hmn : m ≤ n) : Under m (main m) (main n) := by
  refine checkSb_calm.under.bind fun _ => Under.bind ?_ fun _ => ?_
  · exact (diskread_calm _).under.bind fun _ => (fixRoot_calm _).under.bind fun _ =>
      (checkDir_under hmn _ _).bind fun _ => (Calm.pure _).under
  · exact checkBitmap_calm.under.bind fun _ => adjustFilelinks_calm.under.bind fun _ =>
      (Calm.get fun _ => Calm.pure _).under

/-! ## Images -/

/-- The inodes that `check_dir` is called with, the latest first. -/
def Image.visited (img : Image) (depth : Nat) : List Blk := (leaves (main depth img.start)).entered

/-- The check ends, and `check_dir` visits no directory twice. -/
def Image.VisitsOnce (img : Image) : Prop :=
  ∃ depth, (∀ t, main depth img.start ≠ .error .depth t) ∧ (img.visited depth).Nodup

instance : Fintype Blk := Fintype.ofEquiv (Fin (2 ^ 32)) ⟨UInt32.ofFin, UInt32.toFin, fun _ => rfl, fun _ => rfl⟩

theorem Image.VisitsOnce.nodup (h : img.VisitsOnce) (depth : Nat) : (img.visited depth).Nodup :=
  (ends_iff_nodup (fun _ _ hmn => (main_under hmn).below) (fun _ => (main_under (Nat.le_refl _)).deep) img.start).mp
    h depth

theorem Image.visitsOnce_of_nodup (h : ∀ depth, (img.visited depth).Nodup) : img.VisitsOnce :=
  (ends_iff_nodup (fun _ _ hmn => (main_under hmn).below) (fun _ => (main_under (Nat.le_refl _)).deep) img.start).mpr h

/-- A disk of 4096 blocks: the root directory, with its entries in the block 3, and a file whose inode is the
block 4. -/
def sample (size : UInt32) (entries : List SfsDir) (file : Inode) : Image where
  size := 4096
  disk b :=
    if b = sbLocation then superBlock 4096 []
    else if b = rootLocation then
      { rootInode with size := size, linkcount := 2, direct := fun k => if k = 0 then 3 else 0 }.toBlock
    else if b = 2 then Sfs.mapBlock (fun b => b.toNat < 5) 0
    else if b = 3 then blockOf entries
    else if b = 4 then file.toBlock
    else zeros
  small := by decide

/-- A file without contents, and with a first block. -/
def sampleFile (linkcount : UInt16) (block : Blk) : Inode where
  size := 0
  type := typeFile
  linkcount := linkcount
  direct k := if k = 0 then block else 0
  indirect := 0
  waste _ := 0

/-- The root has an entry `a` for itself. -/
def selfLoop : Image := sample 64 [.link rootLocation ⟨[97], zero_not_mem_a⟩] (sampleFile 1 0)

end Os161.Sfsck

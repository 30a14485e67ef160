import Os161.Lib.Ledger
import Os161.Laws.Sfs.Block

/-!
# One file of the volume

What the operations on one file touch is its inode in memory, the free map and the disk (`FileState`). The
blocks of the file are at places of its block map; `FileOk` says that each of them is at one place, is
marked in the free map and is nobody else's, where the blocks of everybody else are given by a predicate.
A `FileStep` leaves what is of others alone and keeps `FileOk`.

A file is a sequence of bytes, `byteAt`, that goes past its size: what it reads there comes back when the
size grows.
-/

namespace Os161.Sfs

open Os161.Lib Prog

variable {fb pos : Nat} {k : Fin 15} {j : Fin 128}

/-- A place of a file's block map. -/
inductive Place where
  | direct (k : Fin 15)
  | indirect
  | entry (j : Fin 128)
deriving DecidableEq

/-- The block at a place, or 0. -/
def Inode.blockAt (n : Inode) (disk : Blk → Block) : Place → Blk
  | .direct k => n.direct k
  | .indirect => n.indirect
  | .entry j => if n.indirect = 0 then 0 else words (disk n.indirect) j

/-- The place of a file block. -/
def placeOf (fileblock : Nat) : Option Place :=
  if h : fileblock < ndirect then some (.direct ⟨fileblock, h⟩)
  else if h : fileblock - ndirect < dbperidb then some (.entry ⟨fileblock - ndirect, h⟩)
  else none

/-- A byte of a file, past its size too. -/
def Inode.byteAt (n : Inode) (disk : Blk → Block) (pos : Nat) : UInt8 :=
  match placeOf (pos / blockSize) with
  | none => 0
  | some r => if n.blockAt disk r = 0 then 0
    else disk (n.blockAt disk r) ⟨pos % blockSize, Nat.mod_lt _ (by decide)⟩

/-- What the operations on one file touch. -/
structure FileState where
  disk : Blk → Block
  freemap : Blk → Bool
  freemapdirty : Bool
  inode : Inode
  dirty : Bool

/-- The volume with the file of the vnode `v` at `p` as `x` has it. -/
def Core.withFile (c : Core) (p : Ptr) (v : Vnode) (x : FileState) : Core :=
  { c with
    disk := x.disk
    freemap := x.freemap
    freemapdirty := x.freemapdirty
    vnodes := Function.update c.vnodes p (some { v with inode := x.inode, dirty := x.dirty }) }

/-- The file of a vnode. -/
def Core.file (c : Core) (v : Vnode) : FileState where
  disk := c.disk
  freemap := c.freemap
  freemapdirty := c.freemapdirty
  inode := v.inode
  dirty := v.dirty

theorem Core.withFile_file {c : Core} {p : Ptr} {v : Vnode} (h : c.vnodes p = some v) :
    c.withFile p v (c.file v) = c := by
  simp only [Core.withFile, Core.file, ← h, Function.update_eq_self]

namespace FileState

/-- The block at a place, or 0. -/
abbrev blockAt (x : FileState) : Place → Blk := x.inode.blockAt x.disk

/-- A byte of the file, past its size too. -/
abbrev byteAt (x : FileState) : Nat → UInt8 := x.inode.byteAt x.disk

end FileState

/-- The blocks of a file are its own, given those that are not. -/
abbrev FileOk (R : Blk → Prop) (x : FileState) : Prop := Ledger 0 R x.freemap x.blockAt

/-- A step of an operation on one file. -/
structure FileStep (R : Blk → Prop) (x x' : FileState) : Prop where
  ok : FileOk R x'
  frame : ∀ b, R b → x'.disk b = x.disk b
  map : x'.freemap = x.freemap ∧ x'.freemapdirty = x.freemapdirty ∨ x'.freemapdirty = true
  inode : x'.inode = x.inode ∧ x'.dirty = x.dirty ∨ x'.dirty = true
  type : x'.inode.type = x.inode.type
  links : x'.inode.linkcount = x.inode.linkcount

variable {R : Blk → Prop} {x x' y : FileState}

theorem FileStep.refl (h : FileOk R x) : FileStep R x x :=
  ⟨h, fun _ _ => rfl, .inl ⟨rfl, rfl⟩, .inl ⟨rfl, rfl⟩, rfl, rfl⟩

theorem FileStep.trans (h : FileStep R x y) (h' : FileStep R y x') : FileStep R x x' := by
  refine ⟨h'.ok, fun b hb => (h'.frame b hb).trans (h.frame b hb), ?_, ?_, h'.type.trans h.type,
    h'.links.trans h.links⟩
  · rcases h'.map with ⟨h₁, h₂⟩ | h₁
    · rw [h₁, h₂]
      exact h.map
    · exact .inr h₁
  · rcases h'.inode with ⟨h₁, h₂⟩ | h₁
    · rw [h₁, h₂]
      exact h.inode
    · exact .inr h₁

/-! ## What a file reads as -/

variable {r : Place}

theorem placeOf_inj {fb' : Nat} (h : placeOf fb = some r) (h' : placeOf fb' = some r) :
    fb = fb' := by
  unfold placeOf at h h'
  split at h
  · cases h
    split at h'
    · simp only [Option.some.injEq, Place.direct.injEq, Fin.mk.injEq] at h'
      exact h'.symm
    · split at h' <;> cases h'
  · split at h
    · cases h
      split at h'
      · cases h'
      · split at h'
        · simp only [Option.some.injEq, Place.entry.injEq, Fin.mk.injEq] at h'
          omega
        · cases h'
    · cases h

theorem placeOf_direct_eq (h : placeOf fb = some (.direct k)) : fb = k.val := by
  unfold placeOf at h
  split at h
  · cases h
    rfl
  · split at h <;> cases h

theorem placeOf_entry_eq (h : placeOf fb = some (.entry j)) : fb = ndirect + j.val := by
  unfold placeOf at h
  split at h
  · cases h
  split at h
  · cases h
    simp only
    omega
  · cases h

theorem placeOf_ne_indirect : placeOf fb ≠ some .indirect := by
  unfold placeOf
  split
  · nofun
  · split <;> nofun

theorem byteAt_congr (h : ∀ r, r ≠ .indirect →
      (x'.blockAt r = x.blockAt r ∧ x'.disk (x.blockAt r) = x.disk (x.blockAt r)) ∨
      (x.blockAt r = 0 ∧ x'.disk (x'.blockAt r) = zeros)) : x'.byteAt = x.byteAt := by
  funext pos
  simp only [FileState.byteAt, Inode.byteAt]
  cases hr : placeOf (pos / blockSize) with
  | none => rfl
  | some r =>
    have hne : r ≠ .indirect := by
      rintro rfl
      exact placeOf_ne_indirect hr
    rcases h r hne with ⟨hat, hdisk⟩ | ⟨hat, hdisk⟩
    · simp only [FileState.blockAt] at hat hdisk
      simp only [hat, hdisk]
    · simp only [FileState.blockAt] at hat hdisk
      simp only [hat, hdisk, if_true, zeros, ite_self]

theorem byteAt_of_placeOf (hr : placeOf (pos / blockSize) = some r)
    (h0 : x.blockAt r ≠ 0) :
    x.byteAt pos = x.disk (x.blockAt r) ⟨pos % blockSize, Nat.mod_lt _ (by decide)⟩ := by
  simp only [FileState.byteAt, Inode.byteAt, hr, h0, if_false]

theorem byteAt_of_hole (hr : placeOf (pos / blockSize) = some r)
    (h0 : x.blockAt r = 0) : x.byteAt pos = 0 := by
  simp only [FileState.byteAt, Inode.byteAt, hr, h0, if_true]

/-! ## Steps -/

section Alloc

variable (hok : FileOk R x) {b : Blk} (hb : x.freemap b = false)
include hok hb

theorem FileOk.disk_free (r : Place) (z : Block) :
    Function.update x.disk b z (x.blockAt r) = x.disk (x.blockAt r) :=
  Function.update_of_ne (hok.held_ne hb r) _ _

theorem FileOk.frame_free (z : Block) (b' : Blk) (hb' : R b') :
    Function.update x.disk b z b' = x.disk b' := by
  refine Function.update_of_ne ?_ _ _
  rintro rfl
  exact hok.not_others hb hb'

theorem FileOk.allocDirect (hk : x.blockAt (.direct k) = 0) :
    let x' : FileState :=
      { x with
        disk := Function.update x.disk b zeros
        freemap := Function.update x.freemap b true
        freemapdirty := true
        inode := { x.inode with direct := Function.update x.inode.direct k b }
        dirty := true }
    FileStep R x x' ∧ x'.byteAt = x.byteAt ∧
      x'.blockAt = Function.update x.blockAt (.direct k) b := by
  intro x'
  have hat : x'.blockAt = Function.update x.blockAt (.direct k) b := by
    funext r
    cases r with
    | direct k' =>
      by_cases h : k' = k
      · subst h
        simp [FileState.blockAt, Inode.blockAt, x']
      · simp [FileState.blockAt, Inode.blockAt, x', h]
    | indirect => simp [FileState.blockAt, Inode.blockAt, x']
    | entry j =>
      rw [Function.update_of_ne (by simp)]
      simp only [FileState.blockAt, Inode.blockAt, x']
      rw [show Function.update x.disk b zeros x.inode.indirect = x.disk x.inode.indirect from
        hok.disk_free hb .indirect zeros]
  have hself : x'.blockAt (.direct k) = b := by rw [hat, Function.update_self]
  refine ⟨⟨?_, ?_, .inr rfl, .inr rfl, rfl, rfl⟩, byteAt_congr ?_, hat⟩
  · rw [FileOk, hat]
    exact hok.take hb hk
  · exact hok.frame_free hb zeros
  · intro r _
    by_cases hr : r = .direct k
    · subst hr
      refine .inr ⟨hk, ?_⟩
      rw [hself]
      exact Function.update_self ..
    · refine .inl ⟨by rw [hat, Function.update_of_ne hr], hok.disk_free hb r zeros⟩

theorem FileOk.allocIndirect (hi : x.inode.indirect = 0) :
    let x' : FileState :=
      { x with
        disk := Function.update x.disk b zeros
        freemap := Function.update x.freemap b true
        freemapdirty := true
        inode := { x.inode with indirect := b }
        dirty := true }
    FileStep R x x' ∧ x'.byteAt = x.byteAt ∧ x'.blockAt = Function.update x.blockAt .indirect b := by
  intro x'
  have hat : x'.blockAt = Function.update x.blockAt .indirect b := by
    funext r
    cases r with
    | direct k => simp [FileState.blockAt, Inode.blockAt, x']
    | indirect => simp [FileState.blockAt, Inode.blockAt, x']
    | entry j => simp [FileState.blockAt, Inode.blockAt, x', hi]
  refine ⟨⟨?_, ?_, .inr rfl, .inr rfl, rfl, rfl⟩, byteAt_congr ?_, hat⟩
  · rw [FileOk, hat]
    exact hok.take hb hi
  · exact hok.frame_free hb zeros
  · intro r hr
    exact .inl ⟨by rw [hat, Function.update_of_ne hr], hok.disk_free hb r zeros⟩

theorem FileOk.allocEntry (hi : x.inode.indirect ≠ 0) (hj : x.blockAt (.entry j) = 0) :
    let x' : FileState :=
      { x with
        disk := Function.update (Function.update x.disk b zeros) x.inode.indirect
          (ofWords (Function.update (words (x.disk x.inode.indirect)) j b))
        freemap := Function.update x.freemap b true
        freemapdirty := true }
    FileStep R x x' ∧ x'.byteAt = x.byteAt ∧
      x'.blockAt = Function.update x.blockAt (.entry j) b := by
  intro x'
  have hat : x'.blockAt = Function.update x.blockAt (.entry j) b := by
    funext r
    cases r with
    | direct k => simp [FileState.blockAt, Inode.blockAt, x']
    | indirect => simp [FileState.blockAt, Inode.blockAt, x']
    | entry j' =>
      by_cases h : j' = j
      · subst h
        simp [FileState.blockAt, Inode.blockAt, x', hi]
      · simp [FileState.blockAt, Inode.blockAt, x', hi, h]
  have hself : x'.blockAt (.entry j) = b := by rw [hat, Function.update_self]
  refine ⟨⟨?_, ?_, .inr rfl, .inl ⟨rfl, rfl⟩, rfl, rfl⟩, byteAt_congr ?_, hat⟩
  · rw [FileOk, hat]
    exact hok.take hb hj
  · intro b' hb'
    refine (Function.update_of_ne ?_ _ _).trans (hok.frame_free hb zeros b' hb')
    rintro rfl
    exact hok.apart .indirect hi hb'
  · intro r hr
    have hne : x.inode.indirect ≠ b := hok.held_ne hb .indirect
    by_cases hrj : r = .entry j
    · subst hrj
      refine .inr ⟨hj, ?_⟩
      rw [hself]
      exact (Function.update_of_ne hne.symm _ _).trans (Function.update_self ..)
    · refine .inl ⟨by rw [hat, Function.update_of_ne hrj], ?_⟩
      -- A data block is not the indirect block.
      refine (Function.update_of_ne ?_ _ _).trans (hok.disk_free hb r zeros)
      intro heq
      exact hr (hok.inj .indirect r hi heq.symm).symm

end Alloc

theorem FileOk.store (hok : FileOk R x) (hr : r ≠ .indirect) (h0 : x.blockAt r ≠ 0)
    (data : Block) :
    let x' : FileState := { x with disk := Function.update x.disk (x.blockAt r) data }
    FileStep R x x' ∧ x'.blockAt = x.blockAt ∧ ∀ pos, x'.byteAt pos =
      if placeOf (pos / blockSize) = some r then data ⟨pos % blockSize, Nat.mod_lt _ (by decide)⟩
      else x.byteAt pos := by
  intro x'
  have hat : x'.blockAt = x.blockAt := by
    funext q
    cases q with
    | direct k => rfl
    | indirect => rfl
    | entry j =>
      simp only [FileState.blockAt, Inode.blockAt, x']
      by_cases hi : x.inode.indirect = 0
      · simp only [hi, if_true]
      · rw [Function.update_of_ne]
        intro heq
        exact hr (hok.inj .indirect r hi heq).symm
  refine ⟨⟨?_, ?_, .inl ⟨rfl, rfl⟩, .inl ⟨rfl, rfl⟩, rfl, rfl⟩, hat, ?_⟩
  · rw [FileOk, hat]
    exact hok
  · intro b hb
    refine Function.update_of_ne ?_ _ _
    rintro rfl
    exact hok.apart r h0 hb
  · intro pos
    cases hq : placeOf (pos / blockSize) with
    | none => simp [FileState.byteAt, Inode.byteAt, hq]
    | some q =>
      by_cases hqr : q = r
      · subst hqr
        rw [byteAt_of_placeOf hq (by rw [hat]; exact h0), if_pos rfl, hat]
        simp [x']
      · rw [if_neg (by simpa using hqr)]
        by_cases hq0 : x.blockAt q = 0
        · rw [byteAt_of_hole hq hq0, byteAt_of_hole hq (by rw [hat]; exact hq0)]
        · rw [byteAt_of_placeOf hq hq0, byteAt_of_placeOf hq (by rw [hat]; exact hq0), hat]
          simp only [x']
          rw [Function.update_of_ne]
          intro heq
          exact hqr (hok.inj q r hq0 heq)

end Os161.Sfs

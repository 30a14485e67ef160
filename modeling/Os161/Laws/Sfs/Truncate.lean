import Os161.Laws.Sfs.Bmap

/-!
# Truncation

`sfs_truncate` frees the blocks past the new end of the file. Of the direct blocks it frees those from the
first past the end on; of the blocks of the indirect block only those after it, and none of the bytes it
keeps is cleared.
-/

namespace Os161.Sfs

open Os161.Lib Prog Errno

variable {R : Blk → Prop} {c : Core} {p : Ptr} {v : Vnode} {s : State} {x x' y : FileState}
variable {gone gone' : Place → Prop}

/-- The places whose blocks a truncation to `blocklen` blocks frees. -/
def Cut (blocklen : Nat) : Place → Prop
  | .direct k => blocklen ≤ k
  | .indirect => False
  | .entry j => blocklen < ndirect + j

/-- The data blocks at the places `gone` have been freed, and the others are as they were. -/
structure Dropped (R : Blk → Prop) (gone : Place → Prop) (x x' : FileState) : Prop where
  step : FileStep R x x'
  freed : ∀ r, r ≠ .indirect → gone r → x'.blockAt r = 0
  kept : ∀ r, r ≠ .indirect → ¬ gone r → x'.blockAt r = x.blockAt r
  data : ∀ r, r ≠ .indirect → ¬ gone r → x.blockAt r ≠ 0 →
    x'.disk (x.blockAt r) = x.disk (x.blockAt r)

theorem Dropped.of_hole (hok : FileOk R x)
    (h : ∀ r, r ≠ .indirect → gone r → x.blockAt r = 0) : Dropped R gone x x :=
  ⟨.refl hok, h, fun _ _ _ => rfl, fun _ _ _ _ => rfl⟩

theorem Dropped.trans (h : Dropped R gone x y) (h' : Dropped R gone' y x') :
    Dropped R (fun r => gone r ∨ gone' r) x x' := by
  refine ⟨h.step.trans h'.step, ?_, ?_, ?_⟩
  · intro r hr hgone
    by_cases hg : gone' r
    · exact h'.freed r hr hg
    · rw [h'.kept r hr hg]
      exact h.freed r hr (hgone.resolve_right hg)
  · intro r hr hgone
    rw [not_or] at hgone
    rw [h'.kept r hr hgone.2, h.kept r hr hgone.1]
  · intro r hr hgone h0
    rw [not_or] at hgone
    have hkept := h.kept r hr hgone.1
    rw [← h.data r hr hgone.1 h0, ← hkept]
    exact h'.data r hr hgone.2 (by rwa [hkept])

theorem Dropped.congr (h : Dropped R gone x x')
    (heq : ∀ r, r ≠ .indirect → (gone r ↔ gone' r)) : Dropped R gone' x x' :=
  ⟨h.step, fun r hr hg => h.freed r hr ((heq r hr).mpr hg),
    fun r hr hg => h.kept r hr fun hgone => hg ((heq r hr).mp hgone),
    fun r hr hg => h.data r hr fun hgone => hg ((heq r hr).mp hgone)⟩

theorem Dropped.byteAt [DecidablePred gone] (h : Dropped R gone x x') (pos : Nat) :
    x'.byteAt pos = if ∃ r, placeOf (pos / blockSize) = some r ∧ gone r then 0 else x.byteAt pos := by
  cases hr : placeOf (pos / blockSize) with
  | none => simp [FileState.byteAt, Inode.byteAt, hr]
  | some r =>
    have hne : r ≠ .indirect := by
      rintro rfl
      exact placeOf_ne_indirect hr
    by_cases hg : gone r
    · rw [if_pos ⟨r, rfl, hg⟩, byteAt_of_hole hr (h.freed r hne hg)]
    · rw [if_neg (by rintro ⟨q, hq, hgq⟩; cases hq; exact hg hgq)]
      have hkept := h.kept r hne hg
      by_cases h0 : x.blockAt r = 0
      · rw [byteAt_of_hole hr h0, byteAt_of_hole hr (hkept.trans h0)]
      · rw [byteAt_of_placeOf hr h0, byteAt_of_placeOf hr (by rwa [hkept]), hkept,
          h.data r hne hg h0]

/-! ## The direct blocks -/

theorem FileOk.dropDirect (hok : FileOk R x) {k : Fin 15} (h0 : x.blockAt (.direct k) ≠ 0) :
    Dropped R (· = .direct k) x
      { x with
        freemap := Function.update x.freemap (x.inode.direct k) false
        freemapdirty := true
        inode := { x.inode with direct := Function.update x.inode.direct k 0 }
        dirty := true } := by
  have hat : Inode.blockAt { x.inode with direct := Function.update x.inode.direct k 0 } x.disk =
      Function.update x.blockAt (.direct k) 0 := by
    funext r
    cases r with
    | direct k' =>
      by_cases hk : k' = k
      · subst hk
        simp [Inode.blockAt]
      · simp [FileState.blockAt, Inode.blockAt, hk]
    | indirect => simp [FileState.blockAt, Inode.blockAt]
    | entry j => simp [FileState.blockAt, Inode.blockAt]
  refine ⟨⟨?_, fun _ _ => rfl, .inr rfl, .inr rfl, rfl, rfl⟩, ?_, ?_, fun _ _ _ _ => rfl⟩
  · have := hok.release h0
    rw [← hat] at this
    exact this
  · rintro r - rfl
    exact (congrFun hat _).trans (Function.update_self ..)
  · intro r _ hr
    exact (congrFun hat r).trans (Function.update_of_ne hr _ _)

section Truncate

variable (hm : Mounted R c) {E : Stop Errno Panic → State → Prop}
include hm

variable {Q : Unit → State → Prop} {blocklen : Nat} {j : Fin 128} {l : List (Fin 128)}
  {buf buf' : Fin 128 → Blk} {hasnonzero iddirty : Bool} {after : Bool × Bool}

omit hm in
theorem wp_sfsBfree (h : Focus c p v s x) {b : Blk} (hb : b < c.nblocks)
    (hmark : x.freemap b = true)
    (hQ : ∀ t, Focus c p v t
        { x with freemap := Function.update x.freemap b false, freemapdirty := true } →
      SameBuffers s t → Q () t) : wp (sfsBfree b) Q E s := by
  have hrange : b.toNat < s.nbits := by
    refine lt_nbits ?_
    rwa [h.nblocks]
  have hset : s.freemap b = true := by rw [h.freemap, hmark]
  simp only [sfsBfree, wp_bind, wp_read, wp_assert, hrange, decide_true, if_true, hset, wp_modify]
  refine hQ _ ?_ ⟨rfl, rfl, rfl⟩
  have hfocus : s.toCore = c.withFile p v x := h
  show { s.toCore with freemap := Function.update s.freemap b false, freemapdirty := true } = _
  rw [h.freemap, hfocus]
  rfl

theorem wp_truncDirect (blocklen : Nat) (l : List (Fin 15)) :
    ∀ {s : State} {x : FileState} {Q : Unit → State → Prop}, Focus c p v s x → FileOk R x →
      (∀ t x', Focus c p v t x' →
        Dropped R (fun r => ∃ k ∈ l, r = .direct k ∧ blocklen ≤ k.val) x x' →
        x'.inode.indirect = x.inode.indirect → Q () t) →
      wp (truncDirect p blocklen l) Q E s := by
  induction l with
  | nil =>
    intro s x Q h hok hQ
    exact hQ s x h (.of_hole hok (by simp)) rfl
  | cons k rest ih =>
    intro s x Q h hok hQ
    simp only [truncDirect, wp_bind]
    rw [wp_vnode h]
    simp only [wp_ite, wp_bind]
    split
    · rename_i hcut
      have h0 : x.blockAt (.direct k) ≠ 0 := hcut.2
      refine wp_sfsBfree h (hm.lt_nblocks hok h0) (hok.held_marked _ h0) fun t ht _ => ?_
      refine wp_setInode ht _ fun t' ht' _ => ?_
      have hdrop := hok.dropDirect h0
      refine ih ht' hdrop.step.ok fun u x' hu hx' hind => hQ u x' hu ((hdrop.trans hx').congr fun r _ => ?_) hind
      constructor
      · rintro (rfl | ⟨k', hk', rfl, hle⟩)
        · exact ⟨k, List.mem_cons_self .., rfl, hcut.1⟩
        · exact ⟨k', List.mem_cons_of_mem _ hk', rfl, hle⟩
      · rintro ⟨k', hk', rfl, hle⟩
        rcases List.mem_cons.mp hk' with rfl | hk'
        · exact .inl rfl
        · exact .inr ⟨k', hk', rfl, hle⟩
    · rename_i hcut
      refine ih h hok fun u x' hu hx' hind => hQ u x' hu ?_ hind
      -- The block stays: it is not past the end, or there is none.
      have hmore : ∀ r : Place, (∃ j ∈ rest, r = .direct j ∧ blocklen ≤ j.val) →
          ∃ j ∈ k :: rest, r = .direct j ∧ blocklen ≤ j.val := by
        rintro r ⟨k', hk', h⟩
        exact ⟨k', List.mem_cons_of_mem _ hk', h⟩
      refine ⟨hx'.step, ?_, ?_, ?_⟩
      · rintro r hr ⟨k', hk', rfl, hle⟩
        rcases List.mem_cons.mp hk' with rfl | hk'
        · by_cases hgone : ∃ j ∈ rest, Place.direct k' = .direct j ∧ blocklen ≤ j.val
          · exact hx'.freed _ hr hgone
          · rw [hx'.kept _ hr hgone]
            by_contra h0
            exact hcut ⟨hle, h0⟩
        · exact hx'.freed _ hr ⟨k', hk', rfl, hle⟩
      · intro r hr hgone
        exact hx'.kept r hr (hgone ∘ hmore r)
      · intro r hr hgone
        exact hx'.data r hr (hgone ∘ hmore r)

/-! ## The blocks of the indirect block -/

/-- The blocks of the file, those of the indirect block as the buffer has them. -/
def heldWith (x : FileState) (buf : Fin 128 → Blk) : Place → Blk
  | .entry j => buf j
  | r => x.blockAt r

omit hm in
theorem heldWith_update (x : FileState) (buf : Fin 128 → Blk) (j : Fin 128) (b : Blk) :
    heldWith x (Function.update buf j b) = Function.update (heldWith x buf) (.entry j) b := by
  funext r
  cases r with
  | direct k => simp [heldWith]
  | indirect => simp [heldWith]
  | entry j' =>
    by_cases hj : j' = j
    · subst hj
      simp [heldWith]
    · simp [heldWith, hj]

/-- What the loop over the buffer does with the free map, and with the buffer. -/
structure Emptied (R : Blk → Prop) (blocklen : Nat) (x : FileState) (l : List (Fin 128))
    (buf buf' : Fin 128 → Blk) (x' : FileState) : Prop where
  ledger : Ledger 0 R x'.freemap (heldWith x buf')
  state : x' = { x with freemap := x'.freemap, freemapdirty := x'.freemapdirty }
  map : x'.freemap = x.freemap ∧ x'.freemapdirty = x.freemapdirty ∨ x'.freemapdirty = true
  freed : ∀ j ∈ l, blocklen < ndirect + j.val → buf' j = 0
  kept : ∀ j, ¬ (j ∈ l ∧ blocklen < ndirect + j.val) → buf' j = buf j

/-- What the flags `hasnonzero` and `iddirty` say after the loop. -/
structure Flagged (blocklen : Nat) (l : List (Fin 128)) (buf : Fin 128 → Blk) (before after : Bool × Bool) :
    Prop where
  nonzero : after.1 = true ↔ before.1 = true ∨ ∃ j ∈ l, ¬ blocklen < ndirect + j.val ∧ buf j ≠ 0
  dirty : after.2 = true ↔ before.2 = true ∨ ∃ j ∈ l, blocklen < ndirect + j.val ∧ buf j ≠ 0

omit hm in
/-- The loop has freed the block of `j`. -/
theorem Flagged.cons_freed (hcut : blocklen < ndirect + j.val ∧ buf j ≠ 0)
    (h : Flagged blocklen l (Function.update buf j 0) (hasnonzero, true) after) :
    Flagged blocklen (j :: l) buf (hasnonzero, iddirty) after := by
  constructor
  · rw [h.nonzero]
    refine or_congr Iff.rfl ⟨?_, ?_⟩
    · rintro ⟨i, hi, hkeep, hne⟩
      have hij : i ≠ j := by
        rintro rfl
        exact hkeep hcut.1
      rw [Function.update_of_ne hij] at hne
      exact ⟨i, List.mem_cons_of_mem _ hi, hkeep, hne⟩
    · rintro ⟨i, hi, hkeep, hne⟩
      have hij : i ≠ j := by
        rintro rfl
        exact hkeep hcut.1
      refine ⟨i, (List.mem_cons.mp hi).resolve_left hij, hkeep, ?_⟩
      rwa [Function.update_of_ne hij]
  · refine ⟨fun _ => .inr ⟨j, List.mem_cons_self .., hcut⟩, fun _ => ?_⟩
    rw [h.dirty]
    exact .inl rfl

omit hm in
/-- The loop has left the block of `j`. -/
theorem Flagged.cons_kept (hkeep : ¬ (blocklen < ndirect + j.val ∧ buf j ≠ 0))
    (h : Flagged blocklen l buf (hasnonzero || decide (buf j ≠ 0), iddirty) after) :
    Flagged blocklen (j :: l) buf (hasnonzero, iddirty) after := by
  constructor
  · rw [h.nonzero]
    simp only [Bool.or_eq_true, decide_eq_true_eq, List.exists_mem_cons_iff]
    constructor
    · rintro ((h' | hne) | h')
      · exact .inl h'
      · exact .inr (.inl ⟨fun hlt => hkeep ⟨hlt, hne⟩, hne⟩)
      · exact .inr (.inr h')
    · rintro (h' | ⟨-, hne⟩ | h')
      · exact .inl (.inl h')
      · exact .inl (.inr hne)
      · exact .inr h'
  · rw [h.dirty, List.exists_mem_cons_iff]
    exact or_congr Iff.rfl ⟨.inr, fun h' => h'.resolve_left hkeep⟩

theorem wp_truncEntries (blocklen : Nat) (l : List (Fin 128)) :
    ∀ {s : State} {x : FileState} {buf : Fin 128 → Blk} {hasnonzero iddirty : Bool}
      {Q : Bool × Bool → State → Prop}, Focus c p v s x → s.truncIdbuf = buf →
      Ledger 0 R x.freemap (heldWith x buf) →
      (∀ t x' buf' flags, Focus c p v t x' → t.truncIdbuf = buf' → Emptied R blocklen x l buf buf' x' →
        Flagged blocklen l buf (hasnonzero, iddirty) flags →
        (flags.2 = false → iddirty = false ∧ buf' = buf ∧ x' = x) → Q flags t) →
      wp (truncEntries blocklen l hasnonzero iddirty) Q E s := by
  induction l with
  | nil =>
    intro s x buf hasnonzero iddirty Q h hbuf hledger hQ
    exact hQ s x buf _ h hbuf ⟨hledger, rfl, .inl ⟨rfl, rfl⟩, by simp, fun _ _ => rfl⟩
      ⟨by simp, by simp⟩ fun h => ⟨h, rfl, rfl⟩
  | cons j rest ih =>
    intro s x buf hasnonzero iddirty Q h hbuf hledger hQ
    simp only [truncEntries, wp_bind, wp_read, hbuf, wp_ite]
    split
    · rename_i hcut
      have h0 : heldWith x buf (.entry j) ≠ 0 := hcut.2
      have hlt : buf j < c.nblocks := by
        by_contra hle
        exact hledger.apart _ h0 (hm.outside _ (UInt32.not_lt.mp hle))
      refine wp_sfsBfree h hlt (hledger.held_marked _ h0) fun t ht hsame => ?_
      simp only [wp_modify]
      have hrel := hledger.release h0
      rw [← heldWith_update] at hrel
      refine ih (ht.buffers rfl) (by rw [hsame.truncIdbuf, hbuf]) hrel ?_
      intro u x' buf' flags hu hbuf' hemp hflags hid
      have hself : buf' j = 0 := by
        by_cases hj : j ∈ rest
        · exact hemp.freed j hj hcut.1
        · rw [hemp.kept j fun hmem => hj hmem.1]
          exact Function.update_self ..
      refine hQ u x' buf' _ hu hbuf' ⟨hemp.ledger, hemp.state, ?_, ?_, ?_⟩ (hflags.cons_freed hcut) ?_
      · rcases hemp.map with ⟨-, hd⟩ | hd
        · exact .inr hd
        · exact .inr hd
      · intro j' hj' hlt'
        rcases List.mem_cons.mp hj' with rfl | hj'
        · exact hself
        · exact hemp.freed j' hj' hlt'
      · intro j' hj'
        have hne : j' ≠ j := by
          rintro rfl
          exact hj' ⟨List.mem_cons_self .., hcut.1⟩
        rw [hemp.kept j' fun hmem => hj' ⟨List.mem_cons_of_mem _ hmem.1, hmem.2⟩]
        exact Function.update_of_ne hne _ _
      · intro hfalse
        exact absurd (hid hfalse).1 (by simp)
    · rename_i hcut
      refine ih h hbuf hledger ?_
      intro u x' buf' flags hu hbuf' hemp hflags hid
      have hself : blocklen < ndirect + j.val → buf' j = 0 := by
        intro hlt
        by_cases hj : j ∈ rest
        · exact hemp.freed j hj hlt
        · rw [hemp.kept j fun hmem => hj hmem.1]
          by_contra h0
          exact hcut ⟨hlt, h0⟩
      refine hQ u x' buf' _ hu hbuf' ⟨hemp.ledger, hemp.state, hemp.map, ?_, ?_⟩ (hflags.cons_kept hcut) hid
      · intro j' hj' hlt'
        rcases List.mem_cons.mp hj' with rfl | hj'
        · exact hself hlt'
        · exact hemp.freed j' hj' hlt'
      · intro j' hj'
        exact hemp.kept j' fun hmem => hj' ⟨List.mem_cons_of_mem _ hmem.1, hmem.2⟩

omit hm in
/-- The blocks of a file whose indirect block is there. -/
theorem blockAt_eq_heldWith (hi : x.inode.indirect ≠ 0) :
    x.blockAt = heldWith x (words (x.disk x.inode.indirect)) := by
  funext r
  cases r with
  | direct k => rfl
  | indirect => rfl
  | entry j => simp only [heldWith, FileState.blockAt, Inode.blockAt, hi, if_false]

omit hm in
/-- The buffer is written over the indirect block. -/
theorem Emptied.written (hok : FileOk R x)
    (hi : x.inode.indirect ≠ 0)
    (h : Emptied R blocklen x (List.finRange 128) (words (x.disk x.inode.indirect)) buf' x') :
    Dropped R (fun r => ∃ j, r = .entry j ∧ blocklen < ndirect + j.val) x
      { x' with disk := Function.update x'.disk x'.inode.indirect (ofWords buf') } := by
  have hstate := h.state
  have hdisk : x'.disk = x.disk := by rw [hstate]
  have hinode : x'.inode = x.inode := by rw [hstate]
  have hdirty : x'.dirty = x.dirty := by rw [hstate]
  have hold := blockAt_eq_heldWith hi
  have hat : Inode.blockAt x.inode (Function.update x.disk x.inode.indirect (ofWords buf')) =
      heldWith x buf' := by
    funext r
    cases r with
    | direct k => rfl
    | indirect => rfl
    | entry j => simp [heldWith, Inode.blockAt, hi]
  have hnew : FileState.blockAt
      { x' with disk := Function.update x'.disk x'.inode.indirect (ofWords buf') } = heldWith x buf' := by
    simp only [FileState.blockAt, hinode, hdisk]
    exact hat
  refine ⟨⟨?_, ?_, h.map, ?_, by rw [hinode], by rw [hinode]⟩, ?_, ?_, ?_⟩
  · rw [FileOk, hnew]
    exact h.ledger
  · intro b hb
    simp only [hinode, hdisk]
    refine Function.update_of_ne ?_ _ _
    rintro rfl
    exact hok.apart .indirect hi hb
  · simp only [hinode, hdirty]
    exact .inl ⟨trivial, trivial⟩
  · rintro r - ⟨j, rfl, hlt⟩
    rw [hnew]
    exact h.freed j (List.mem_finRange j) hlt
  · intro r hr hgone
    rw [hnew, hold]
    cases r with
    | direct k => rfl
    | indirect => exact absurd rfl hr
    | entry j => exact h.kept j fun hmem => hgone ⟨j, rfl, hmem.2⟩
  · intro r hr _ h0
    simp only [hinode, hdisk]
    refine Function.update_of_ne ?_ _ _
    intro heq
    exact hr (hok.inj .indirect r hi heq.symm).symm

omit hm in
/-- Nothing is left in the indirect block, and it is let go of. -/
theorem Emptied.released (hi : x.inode.indirect ≠ 0)
    (h : Emptied R blocklen x (List.finRange 128) (words (x.disk x.inode.indirect)) buf' x')
    (hnone : ∀ j, buf' j = 0) :
    Dropped R (fun r => ∃ j, r = .entry j ∧ blocklen < ndirect + j.val) x
      { x' with
        freemap := Function.update x'.freemap x.inode.indirect false
        freemapdirty := true
        inode := { x'.inode with indirect := 0 }
        dirty := true } := by
  have hstate := h.state
  have hdisk : x'.disk = x.disk := by rw [hstate]
  have hinode : x'.inode = x.inode := by rw [hstate]
  have hold := blockAt_eq_heldWith hi
  have hat : Inode.blockAt { x.inode with indirect := 0 } x.disk =
      Function.update (heldWith x buf') .indirect 0 := by
    funext r
    cases r with
    | direct k => simp [heldWith, FileState.blockAt, Inode.blockAt]
    | indirect => simp [Inode.blockAt]
    | entry j => simp [heldWith, Inode.blockAt, hnone]
  have hledger := h.ledger.release (i := .indirect) hi
  rw [← hat] at hledger
  refine ⟨⟨?_, ?_, .inr rfl, .inr rfl, by rw [hinode], by rw [hinode]⟩, ?_, ?_, ?_⟩
  · simp only [FileOk, FileState.blockAt, hinode, hdisk]
    exact hledger
  · intro b _
    rw [hdisk]
  · rintro r - ⟨j, rfl, -⟩
    simp [FileState.blockAt, Inode.blockAt]
  · intro r hr hgone
    cases r with
    | direct k => simp [FileState.blockAt, Inode.blockAt, hinode]
    | indirect => exact absurd rfl hr
    | entry j =>
      rw [hold]
      have hkept := h.kept j fun hmem => hgone ⟨j, rfl, hmem.2⟩
      rw [hnone j] at hkept
      simp [FileState.blockAt, Inode.blockAt, heldWith, ← hkept]
  · intro r _ _ _
    rw [hdisk]

/-- The entries past the end are gone from the indirect block, and the block itself if it was looked at and nothing is
left in it. -/
structure Shrunk (R : Blk → Prop) (blocklen : Nat) (x x' : FileState) : Prop where
  dropped : Dropped R (fun r => ∃ j, r = .entry j ∧ blocklen < ndirect + j.val) x x'
  freed : blocklen < ndirect + dbperidb - 1 → (∀ j, x'.blockAt (.entry j) = 0) → x'.inode.indirect = 0
  indirect : x'.inode.indirect = x.inode.indirect ∨
    blocklen < ndirect + dbperidb - 1 ∧ x'.inode.indirect = 0

/-- Some entries of the indirect block are cut and some stay, and the device loses the write of the block. -/
def LostWrite (blocklen : Nat) (x : FileState) (faults : List Bool) : Prop :=
  blocklen < ndirect + dbperidb - 1 ∧ x.inode.indirect ≠ 0 ∧
    (∃ j, blocklen < ndirect + j.val ∧ x.blockAt (.entry j) ≠ 0) ∧
    (∃ j, ¬ blocklen < ndirect + j.val ∧ x.blockAt (.entry j) ≠ 0) ∧
    ∃ rest, afterRead 11 faults = some rest ∧ ¬ Done rest

theorem wp_truncIndirect_any (blocklen : Nat) (h : Focus c p v s x)
    (hok : FileOk R x)
    (hQ : ∀ rest t x', rest <:+ c.faults → ¬ LostWrite blocklen x c.faults → Focus (c.withFaults rest) p v t x' →
      Shrunk R blocklen x x' → Q () t)
    (hlost : ∀ rest t x', LostWrite blocklen x c.faults → Focus (c.withFaults rest) p v t x' →
      x'.disk = x.disk → x'.inode = x.inode → Q () t)
    (hE : ∀ t, x.inode.indirect ≠ 0 → afterRead 11 c.faults = none → E (.err EIO) t) :
    wp (truncIndirect p blocklen) Q E s := by
  simp only [truncIndirect, wp_bind]
  rw [wp_vnode h]
  simp only [wp_ite, wp_bind, wp_pure]
  split
  · rename_i hcond
    have hi := hcond.2
    have hentry : ∀ j, x.blockAt (.entry j) = words (x.disk x.inode.indirect) j := by
      intro j
      rw [blockAt_eq_heldWith hi]
      rfl
    have hlt : x.inode.indirect < c.nblocks := hm.lt_nblocks hok (r := .indirect) hi
    refine wp_rblock_any h hm hlt (fun rest t hread ht _ => ?_) fun t hread _ => hE t hi hread
    have hrest := afterRead_suffix hread
    simp only [wp_modify]
    refine wp_truncEntries (hm.withFaults rest) blocklen _ (ht.buffers ?_)
      (show _ = words (x.disk x.inode.indirect) from rfl) ?_ ?_
    · rfl
    · rw [← blockAt_eq_heldWith hi]
      exact hok
    · intro u x' buf' flags hu hbuf hemp hflags hid
      have hinode : x'.inode = x.inode := by rw [hemp.state]
      have hdisk : x'.disk = x.disk := by rw [hemp.state]
      split
      · rename_i hnonzero
        obtain ⟨j, -, hkeep, hj⟩ := (hflags.nonzero.mp hnonzero).resolve_left (by simp)
        have hj' : buf' j ≠ 0 := by rwa [hemp.kept j fun hmem => hkeep hmem.2]
        split
        · rename_i hdirty
          obtain ⟨i, -, hcut, hi0⟩ := (hflags.dirty.mp hdirty).resolve_left (by simp)
          refine wp_wblock_any hu (hm.withFaults rest) hlt (ofWords buf') ?_ ?_ ?_
          · intro t' hsame
            rw [hsame.truncIdbuf, hbuf]
          · intro t' hdone ht' _
            rw [show x.inode.indirect = x'.inode.indirect by rw [hinode]] at ht'
            refine hQ _ t' _ ((List.tail_suffix _).trans hrest) (fun hl => ?_) ht' ⟨hemp.written hok hi, fun _ hzero => ?_, .inl (by rw [hinode])⟩
            · obtain ⟨-, -, -, -, rest', hread', hndone⟩ := hl
              rw [hread] at hread'
              cases hread'
              exact hndone hdone
            · have := hzero j
              simp only [FileState.blockAt, Inode.blockAt, hinode, hi, if_false, Function.update_self,
                words_ofWords] at this
              exact absurd this hj'
          · intro t' hndone ht' _
            have hi0' : x.blockAt (.entry i) ≠ 0 := fun h0 => hi0 ((hentry i).symm.trans h0)
            have hj0' : x.blockAt (.entry j) ≠ 0 := fun h0 => hj ((hentry j).symm.trans h0)
            exact hlost _ t' x' ⟨hcond.1, hi, ⟨i, hcut, hi0'⟩, ⟨j, hkeep, hj0'⟩, rest, hread, hndone⟩ ht' hdisk
              hinode
        · rename_i hclean
          obtain ⟨-, rfl, rfl⟩ := hid (by simpa using hclean)
          refine hQ _ u x' hrest (fun hl => ?_) hu ⟨.of_hole hok ?_, fun _ hzero => ?_, .inl rfl⟩
          · obtain ⟨-, -, ⟨i, hcut, hi0⟩, -⟩ := hl
            refine hclean (hflags.dirty.mpr (.inr ⟨i, List.mem_finRange i, hcut, ?_⟩))
            rwa [← hentry]
          · rintro r - ⟨j', rfl, hlt'⟩
            rw [hentry]
            exact hemp.freed j' (List.mem_finRange j') hlt'
          · have := hzero j
            rw [hentry] at this
            exact absurd this hj
      · rename_i hzero
        have hnone : ∀ j, buf' j = 0 := by
          intro j
          by_contra hj
          refine hzero (hflags.nonzero.mpr (.inr ⟨j, List.mem_finRange j, fun hcut => ?_, ?_⟩))
          · exact hj (hemp.freed j (List.mem_finRange j) hcut)
          · rwa [← hemp.kept j fun hmem => hj (hemp.freed j hmem.1 hmem.2)]
        have hmark : x'.freemap x.inode.indirect = true := hemp.ledger.held_marked .indirect hi
        refine wp_sfsBfree hu hlt hmark fun t' ht' _ => ?_
        refine wp_setInode ht' _ fun t'' ht'' _ => ?_
        refine hQ _ t'' _ hrest (fun hl => ?_) ht'' ⟨hemp.released hi hnone, fun _ _ => rfl, .inr ⟨hcond.1, rfl⟩⟩
        obtain ⟨-, -, -, ⟨j, hkeep, hj⟩, -⟩ := hl
        refine hzero (hflags.nonzero.mpr (.inr ⟨j, List.mem_finRange j, hkeep, ?_⟩))
        rwa [← hentry]
  · rename_i hcond
    refine hQ c.faults s x List.suffix_rfl (fun hl => hcond ⟨hl.1, hl.2.1⟩) h ⟨.of_hole hok ?_, fun hlt _ => ?_, .inl rfl⟩
    · rintro r - ⟨j, rfl, hlt⟩
      have hi : x.inode.indirect = 0 := by
        by_contra hi
        refine hcond ⟨?_, hi⟩
        simp only [ndirect, dbperidb] at *
        omega
      simp only [FileState.blockAt, Inode.blockAt, hi, if_true]
    · by_contra hi
      exact hcond ⟨hlt, hi⟩

/-- The blocks that a file of `len` bytes has, as `sfs_truncate` counts them. -/
def blocklenOf (len : Nat) : Nat := (len + blockSize - 1) / blockSize % 0x100000000

/-- The size is set. -/
def FileState.resized (x : FileState) (size : UInt32) : FileState :=
  { x with inode := { x.inode with size := size }, dirty := true }

/-- The direct blocks past the end are gone. -/
structure DirectDropped (R : Blk → Prop) (blocklen : Nat) (x y : FileState) : Prop where
  dropped : Dropped R (fun r => ∃ k ∈ List.finRange 15, r = .direct k ∧ blocklen ≤ k.val) x y
  indirect : y.inode.indirect = x.inode.indirect

theorem wp_sfsTruncate_any (len : Nat) (h : Focus c p v s x) (hok : FileOk R x)
    (hQ : ∀ rest t y x', rest <:+ c.faults → DirectDropped R (blocklenOf len) x y →
      ¬ LostWrite (blocklenOf len) y c.faults → Shrunk R (blocklenOf len) y x' →
      Focus (c.withFaults rest) p v t (x'.resized (UInt32.ofNat len)) → Q () t)
    (hlost : ∀ rest t y (x' : FileState), DirectDropped R (blocklenOf len) x y →
      LostWrite (blocklenOf len) y c.faults → x'.disk = y.disk → x'.inode = y.inode →
      Focus (c.withFaults rest) p v t (x'.resized (UInt32.ofNat len)) → Q () t)
    (hE : ∀ t, x.inode.indirect ≠ 0 → afterRead 11 c.faults = none → E (.err EIO) t) :
    wp (sfsTruncate p len) Q E s := by
  simp only [sfsTruncate, wp_bind]
  refine wp_truncDirect hm _ _ h hok fun t y ht hdropped hind => ?_
  have hy : DirectDropped R (blocklenOf len) x y := ⟨hdropped, hind⟩
  refine wp_truncIndirect_any hm _ ht hdropped.step.ok ?_ ?_ (by rwa [hind])
  · intro rest t' x' hrest hl ht' hx'
    exact wp_setInode ht' _ fun t'' ht'' _ => hQ rest t'' y x' hrest hy hl hx' ht''
  · intro rest t' x' hl ht' hdisk hinode
    exact wp_setInode ht' _ fun t'' ht'' _ => hlost rest t'' y x' hy hl hdisk hinode ht''

omit hm in
/-- The two halves together. -/
theorem Shrunk.cut (hy : DirectDropped R blocklen x y) (hx : Shrunk R blocklen y x') :
    Dropped R (Cut blocklen) x x' := by
  refine (hy.dropped.trans hx.dropped).congr fun r hr => ?_
  cases r with
  | direct k => simp [Cut]
  | indirect => exact absurd rfl hr
  | entry j => simp [Cut]

omit hm in
theorem Dropped.resized (h : Dropped R gone x x') (size : UInt32) :
    Dropped R gone x (x'.resized size) :=
  ⟨h.step.trans ⟨h.step.ok, fun _ _ => rfl, .inl ⟨rfl, rfl⟩, .inr rfl, rfl, rfl⟩, h.freed, h.kept, h.data⟩

omit hm in
/-- A file that is cut to nothing has no blocks. -/
theorem Shrunk.empties (hy : DirectDropped R (blocklenOf 0) x y) (hx : Shrunk R (blocklenOf 0) y x') (r : Place) :
    x'.blockAt r = 0 := by
  have hfreed : ∀ r, r ≠ .indirect → x'.blockAt r = 0 := by
    intro r hr
    refine (hx.cut hy).freed r hr ?_
    cases r with
    | direct k => exact Nat.zero_le _
    | indirect => exact absurd rfl hr
    | entry j => exact Nat.lt_of_lt_of_le (by decide : 0 < ndirect) (Nat.le_add_right _ _)
  by_cases hr : r = .indirect
  · subst hr
    exact hx.freed (by decide) fun j => hfreed _ (by simp)
  · exact hfreed r hr

theorem wp_sfsTruncate_empty (h : Focus c p v s x) (hok : FileOk R x)
    (hread : x.inode.indirect = 0 ∨ c.faults = [])
    (hQ : ∀ rest t x', rest <:+ c.faults → Focus (c.withFaults rest) p v t x' → FileStep R x x' →
      (∀ r, x'.blockAt r = 0) → Q () t) : wp (sfsTruncate p 0) Q E s := by
  refine wp_sfsTruncate_any hm 0 h hok ?_ ?_ ?_
  · intro rest t y x' hrest hy _ hx' ht
    exact hQ rest t _ hrest ht ((hx'.cut hy).resized _).step (show ∀ r, x'.blockAt r = 0 from hx'.empties hy)
  · -- nothing stays in the indirect block, so that it is not written
    rintro rest t y x' - ⟨-, -, -, ⟨j, hkeep, -⟩, -⟩
    exact absurd (Nat.lt_of_lt_of_le (by decide : blocklenOf 0 < ndirect) (Nat.le_add_right _ _)) hkeep
  · intro t hi hnone
    rcases hread with h0 | hnil
    · exact absurd h0 hi
    · rw [hnil] at hnone
      cases hnone

omit hm in
/-- `sfs_truncate` frees the blocks at the places cut off, and sets the size; nothing else is lost. -/
theorem wp_sfsTruncate (hw : Working R c) (len : Nat) (h : Focus c p v s x)
    (hok : FileOk R x)
    (hQ : ∀ t x', Focus c p v t x' → Dropped R (Cut (blocklenOf len)) x x' →
      x'.inode.size = UInt32.ofNat len → (x'.inode.indirect ≠ 0 → x.inode.indirect ≠ 0) →
      (len = 0 → ∀ r, x'.blockAt r = 0) → Q () t) : wp (sfsTruncate p len) Q E s := by
  refine wp_sfsTruncate_any hw.mounted len h hok ?_ ?_ ?_
  · intro rest t y x' hrest hy _ hx' ht
    rw [hw.withFaults hrest] at ht
    have hcut := (hx'.cut hy).resized (UInt32.ofNat len)
    refine hQ t _ ht hcut rfl ?_ ?_
    · intro h0
      rcases hx'.indirect with hsame | ⟨-, hzero⟩
      · rw [← hy.indirect, ← hsame]
        exact h0
      · exact absurd hzero h0
    rintro rfl r
    exact show x'.blockAt r = 0 from hx'.empties hy r
  · -- a device that does not fail loses no write
    rintro rest t y x' - ⟨-, -, -, -, rest', hread, hdone⟩
    rw [hw.faults] at hread
    cases hread
    exact absurd (by decide) hdone
  · intro t _ hread
    rw [hw.faults] at hread
    cases hread

end Truncate

end Os161.Sfs

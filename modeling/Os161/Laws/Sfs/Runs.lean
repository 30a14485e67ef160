import Os161.Laws.Sfs.Mount

/-!
# Runs of a volume

Each operation of a mounted volume keeps it sound, also when it returns an error. So every state that is reached from
the image of `mksfs` is sound: the free map is exactly the blocks in use, and the link counts are the numbers of names.
-/

namespace Os161.Sfs

open Os161.Lib Prog

variable {op : Op} {faults : List Bool}

/-- A state that is reached from a new volume of so many blocks, on a device with the given faults. An operation that
panics leads nowhere. -/
inductive Reached (volname : CStr) (size : Nat) (faults : List Bool) : State → Prop
  | mount {disk : Blk → Block} {s t : State} : mksfs volname.val size disk = some s.disk → s.faults = faults →
      size ≤ s.dBlocks → sfsDomount.run s = (.ok (), t) → Reached volname size faults t
  | step {s : State} (op : Op) : Reached volname size faults s → op.Allowed s →
      (∀ e, (op.prog.run s).1 ≠ .error (.panic e)) → Reached volname size faults (op.prog.run s).2

variable {volname : CStr} {size : Nat} {s : State} {p : Ptr} {v : Vnode} {plain : Prop}

/-- The two assertions that the callers of `sfs_rename` have to keep. -/
def RenamePanic (e : Panic) : Prop := e = .renameDirs ∨ e = .renameType

/-! ## One step -/

theorem wp_op_dir {α : Type} {op : P α} {Q : α → State → Prop} (h : Settled plain nobody s.toCore)
    (hp : s.vnodes p = some v) (hop : v.ino = rootLocation → wp op Q (Fails plain nobody RenamePanic) s)
    (hQ : ∀ a t, Q a t → Settled plain nobody t.toCore) :
    wp (do let _ ← dirOp p op) (fun _ t => Settled plain nobody t.toCore) (Fails plain nobody RenamePanic) s := by
  rw [wp_bind]
  exact (wp_dirOp h hp hop).mono hQ fun _ _ he => he

theorem wp_op (h : Settled False nobody s.toCore) (hop : op.Allowed s) :
    wp op.prog (fun _ t => Settled False nobody t.toCore) (Fails False nobody RenamePanic) s := by
  have harg : ∀ p ∈ op.args, ∃ v, s.vnodes p = some v := fun p hp => Option.isSome_iff_exists.mp (hop p hp)
  cases op with
  | getroot =>
    simp only [Op.prog, wp_bind]
    exact (wp_getroot h).mono (fun _ _ ht => ht.1) fun _ _ he => he
  | creat dir name excl =>
    obtain ⟨v, hp⟩ := harg dir (by simp [Op.args])
    exact wp_op_dir h hp (fun hroot => wp_creat h hp hroot excl) fun _ _ ht => ht.1
  | link dir name file =>
    obtain ⟨v, hp⟩ := harg dir (by simp [Op.args])
    obtain ⟨w, hfile⟩ := harg file (by simp [Op.args])
    exact wp_dirOp h hp fun hroot => wp_link h hp hroot hfile (fun hno => by cases hno)
  | remove dir name =>
    obtain ⟨v, hp⟩ := harg dir (by simp [Op.args])
    exact wp_dirOp h hp fun hroot => wp_remove h hp hroot
  | rename d1 n1 d2 n2 =>
    obtain ⟨v, hp⟩ := harg d1 (by simp [Op.args])
    exact wp_dirOp h hp fun hroot => wp_rename h hp hroot (fun _ => .inl rfl) fun _ => .inr rfl
  | lookup dir path =>
    obtain ⟨v, hp⟩ := harg dir (by simp [Op.args])
    exact wp_op_dir h hp (fun hroot => wp_lookup h hp hroot) fun _ _ ht => ht.1
  | lookparent dir path buflen =>
    obtain ⟨v, hp⟩ := harg dir (by simp [Op.args])
    exact wp_op_dir h hp (fun hroot => wp_lookparent h hp hroot buflen) fun _ _ ht => ht.2.1
  | read p off len =>
    obtain ⟨v, hp⟩ := harg p (by simp [Op.args])
    simp only [Op.prog, wp_bind]
    refine wp_fileOp h hp fun _ => (wp_read_file h hp rfl (Nat.le_refl _)).mono (fun _ t ht => ?_) fun _ _ he => he
    show Settled False nobody t.toCore
    rwa [ht]
  | write p off data =>
    obtain ⟨v, hp⟩ := harg p (by simp [Op.args])
    simp only [Op.prog, wp_bind]
    exact wp_fileOp h hp fun hfile => wp_write_file h hp hfile rfl (Nat.le_refl _)
  | truncate p len =>
    obtain ⟨v, hp⟩ := harg p (by simp [Op.args])
    exact wp_fileOp h hp fun hfile => wp_truncate_file h hp hfile len
  | fsync p =>
    obtain ⟨v, hp⟩ := harg p (by simp [Op.args])
    exact wp_syncInode h.volume hp fun _ hvol hslots _ _ _ => h.of_slots hvol hslots
  | decref p =>
    obtain ⟨v, hp⟩ := harg p (by simp [Op.args])
    exact wp_decref h.volume (fun _ => rfl) hp (h.volume.sound.pool.refs p v hp) fun _ hvol hslots => h.of_slots hvol hslots
  | sync => exact wp_sync h.volume fun _ hvol _ _ _ => ⟨hvol, fun hno => (by cases hno)⟩

/-! ## Whole runs -/

theorem Reached.volume (hlarge : 3 ≤ size) (hsmall : size ≤ 131072) (h : Reached volname size [] s) :
    Volume noLeak settled nobody s.toCore := by
  induction h with
  | mount hdisk hfaults hdev hrun =>
    have hwp := wp_domount_fresh (E := fun _ _ => True) hdisk volname.property hlarge hsmall hfaults hdev
    rw [wp, hrun] at hwp
    exact hwp.1
  | @step s op _ hop hpanic ih =>
    have hwp := wp_op ⟨ih, nofun⟩ hop
    rw [wp] at hwp
    cases hrun : op.prog.run s with
    | mk result t =>
      rw [hrun] at hwp hpanic
      cases result with
      | ok _ => exact hwp.volume
      | error e =>
        cases e with
        | err _ => exact Settled.volume hwp
        | panic e => exact absurd rfl (hpanic e)

theorem Reached.no_panic (hlarge : 3 ≤ size) (hsmall : size ≤ 131072) (h : Reached volname size [] s)
    (hop : op.Allowed s) {e : Panic} (he : (op.prog.run s).1 = .error (.panic e)) : RenamePanic e := by
  have hwp := wp_op ⟨h.volume hlarge hsmall, nofun⟩ hop
  rw [wp] at hwp
  generalize op.prog.run s = r at *
  obtain ⟨result, t⟩ := r
  cases he
  exact hwp

theorem Reached.ok (h : Reached volname size faults s) (hop : op.Allowed s)
    (hrun : (op.prog.run s).1 = .ok ()) : Reached volname size faults (op.prog.run s).2 :=
  .step op h hop fun e he => by
    rw [hrun] at he
    cases he

theorem Reached.small (h : Reached volname size faults s) : size ≤ 131072 := by
  induction h with
  | mount hdisk _ _ _ => exact mksfs_small hdisk
  | step _ _ _ _ ih => exact ih

/-! ## A volume of 16 blocks -/

/-- A device of 16 blocks on which `mksfs` has made a volume. -/
def newDevice (faults : List Bool) : State where
  dBlocks := 16
  disk := mkImage [] 16 fun _ => zeros
  faults := faults
  nblocks := 0
  volname := []
  freemap _ := true
  freemapdirty := false
  superdirty := false
  vnodes _ := none
  table := []
  next := 0
  bmapIdbuf _ := 0
  truncIdbuf _ := 0
  iobuf := zeros
  lhBusy := false

/-- The volume on it, mounted. -/
def newVolume (faults : List Bool) : State :=
  { newDevice faults with
    nblocks := 16
    freemap := fun b => decide (b.toNat < 3) || decide (16 ≤ b.toNat) }

theorem mksfs_newDevice (faults : List Bool) : mksfs [] 16 (fun _ => zeros) = some (newDevice faults).disk :=
  mksfs_eq (by decide) (by decide) (by decide) (by decide) (by decide) _

theorem freemap_newVolume (c : Core) (faults : List Bool) :
    (c.mountedWith 16 [] fun b => b.toNat ∈ mkBits 16).freemap = (newVolume faults).freemap := by
  funext b
  have hbits : bitblocks (UInt32.toNat 16) = 1 := rfl
  have hmem : b.toNat ∈ mkBits 16 ↔ b.toNat < 3 ∨ 16 ≤ b.toNat ∧ b.toNat < 4096 := by
    rw [mem_mkBits, show bitblocks 16 = 1 from rfl]
    simp only [mapLocation, blockBits]
    omega
  rw [Bool.eq_iff_iff]
  simp only [Core.mountedWith, newVolume, hbits, blockBits, Bool.or_eq_true, decide_eq_true_eq]
  split
  · rw [decide_eq_true_iff, hmem]
    omega
  · simp only [true_iff]
    omega

theorem domount_newDevice (hdone : AllDone 2 faults) :
    sfsDomount.run (newDevice faults) = (.ok (), newVolume (faults.drop 2)) := by
  have himage : Image (newDevice faults).disk 16 [] _ := (mksfs_image (mksfs_newDevice faults) (by decide) (by decide) (by decide)).1
  refine run_of_wp (wp_domount himage hdone (Nat.le_refl 16) ⟨rfl, ?_⟩)
  have hmap := freemap_newVolume (newDevice faults).toCore (faults.drop 2)
  exact congrArg (fun freemap => ({ newVolume (faults.drop 2) with freemap := freemap } : State)) hmap

theorem reached_newVolume (hdone : AllDone 2 faults) :
    Reached ⟨[], by decide⟩ 16 faults (newVolume (faults.drop 2)) :=
  .mount (mksfs_newDevice faults) rfl (Nat.le_refl 16) (domount_newDevice hdone)

/-- The volume with its root directory in memory. -/
def openedVolume (faults : List Bool) : State := (Op.getroot.prog.run (newVolume faults)).2

/-- The volume with a file `a`. -/
def namedVolume (faults : List Bool) : State :=
  ((Op.creat 0 ⟨[97], zero_not_mem_a⟩ true).prog.run (openedVolume faults)).2

theorem reached_namedVolume : Reached ⟨[], by decide⟩ 16 [] (namedVolume []) := by
  have hopened : Reached ⟨[], by decide⟩ 16 [] (openedVolume []) :=
    (reached_newVolume (.nil 2)).ok (by decide) (by decide +kernel)
  exact hopened.ok (by decide +kernel) (by decide +kernel)

/-! ## The blocks in use -/

/-- An inode refers to the block: it is the block of one that is live, or it is in its map. -/
def Core.Referenced (c : Core) (b : Blk) : Prop :=
  ∃ i, c.Live i ∧ (b = i ∨ ∃ r, (c.inode i).blockAt c.disk r = b)

section Referenced

variable {leaked : Blk → Prop} {owed : Blk → Int} {c : Core} {b : Blk}

theorem Core.referenced_held {k : Blk × Option Place} (hk : c.held k = b) (hb : b ≠ 0) : c.Referenced b := by
  obtain ⟨i, r⟩ := k
  by_cases hi : c.Live i
  · refine ⟨i, hi, ?_⟩
    cases r with
    | none => exact .inl (hk.symm.trans (Core.held_live hi))
    | some r => exact .inr ⟨r, (Core.held_place hi r).symm.trans hk⟩
  · have h0 : c.held (i, r) = 0 := by cases r <;> exact if_neg hi
    exact absurd (hk.symm.trans h0) hb

theorem Core.Referenced.held (h : c.Referenced b) : ∃ k, c.held k = b := by
  obtain ⟨i, hi, rfl | ⟨r, rfl⟩⟩ := h
  · exact ⟨(b, none), Core.held_live hi⟩
  · exact ⟨(i, some r), Core.held_place hi r⟩

theorem Sound.marked_iff (h : Sound leaked owed c) (b : Blk) :
    c.freemap b = true ↔ c.Taken leaked b ∨ c.Referenced b := by
  by_cases hb : b = 0
  · subst hb
    have htaken : c.Taken leaked 0 := .inl (.inl rfl)
    exact iff_of_true (h.ledger.others_marked 0 htaken) (.inl htaken)
  · constructor
    · intro hmark
      rcases h.ledger.complete b hmark with htaken | ⟨k, hk⟩
      · exact .inl htaken
      · exact .inr (Core.referenced_held hk hb)
    · rintro (htaken | href)
      · exact h.ledger.others_marked b htaken
      · obtain ⟨k, rfl⟩ := href.held
        exact h.ledger.held_marked k hb

theorem Sound.not_taken (h : Sound leaked owed c) (href : c.Referenced b) (hb : b ≠ 0) : ¬ c.Taken leaked b := by
  obtain ⟨k, rfl⟩ := href.held
  exact h.ledger.apart k hb

end Referenced

/-- The free map is the blocks in use, and each of these is used once. -/
structure Accounted (c : Core) : Prop where
  marked : ∀ b, c.freemap b = true ↔
    c.Reserved b ∨ ∃ i, c.Live i ∧ (b = i ∨ ∃ r, (c.inode i).blockAt c.disk r = b)
  once : ∀ i j r r', c.Live i → c.Live j → (c.inode i).blockAt c.disk r ≠ 0 →
    (c.inode i).blockAt c.disk r = (c.inode j).blockAt c.disk r' → i = j ∧ r = r'
  apart : ∀ i j r, c.Live i → c.Live j → (c.inode i).blockAt c.disk r ≠ 0 →
    (c.inode i).blockAt c.disk r ≠ j ∧ ¬ c.Reserved ((c.inode i).blockAt c.disk r)
  vnodes : ∀ p q v w, c.vnodes p = some v → c.vnodes q = some w → v.ino = w.ino → p = q

theorem Sound.accounted {owed : Blk → Int} {c : Core} (h : Sound noLeak owed c) : Accounted c := by
  have hledger := h.ledger
  rw [Core.taken_noLeak] at hledger
  refine ⟨fun b => ?_, fun i j r r' hi hj h0 heq => ?_, fun i j r hi hj h0 => ⟨fun heq => ?_, ?_⟩, h.pool.inj⟩
  · rw [h.marked_iff, Core.taken_noLeak]
    exact Iff.rfl
  · have := hledger.inj (i, some r) (j, some r')
    rw [Core.held_place hi, Core.held_place hj] at this
    have := this h0 heq
    exact ⟨congrArg Prod.fst this, Option.some.inj (congrArg Prod.snd this)⟩
  · have := hledger.inj (i, some r) (j, none)
    rw [Core.held_place hi, Core.held_live hj] at this
    cases this h0 heq
  · have := hledger.apart (i, some r)
    rw [Core.held_place hi] at this
    exact this h0

/-- After any operations on a new volume the free map is the blocks in use, each used once, and no operation panics over
a block. -/
theorem blocks_accounted (hlarge : 3 ≤ size) (hsmall : size ≤ 131072) (h : Reached volname size [] s) :
    Accounted s.toCore ∧
      ∀ op : Op, op.Allowed s → ∀ e, (op.prog.run s).1 = .error (.panic e) → RenamePanic e :=
  ⟨(h.volume hlarge hsmall).sound.accounted, fun _ hop _ he => h.no_panic hlarge hsmall hop he⟩

theorem namedVolume_accounted : Accounted (namedVolume []).toCore :=
  (blocks_accounted (by decide) (by decide) reached_namedVolume).1

/-! ## The names -/

/-- The names are distinct, and the link count of a file is the number of its names. -/
structure Counted (c : Core) : Prop where
  names : (c.entries.map SfsDir.str).Nodup
  links : ∀ i, c.Live i → (c.inode i).type = typeFile → (c.inode i).linkcount.toNat = links c.entries i
  whole : (c.inode rootLocation).size.toNat % direntSize = 0

theorem Sound.counted {c : Core} (h : Sound noLeak settled c) : Counted c := by
  refine ⟨h.root.names, fun i hi htype => ?_, h.root.whole⟩
  have hne : i ≠ rootLocation := by
    rintro rfl
    rw [h.root.type] at htype
    cases htype
  have hlinks := h.links i hi
  rw [if_neg hne, settled] at hlinks
  omega

/-- After any operations on a new volume the names are distinct, the link counts right, and no name is found twice. -/
theorem names_counted (hlarge : 3 ≤ size) (hsmall : size ≤ 131072) (h : Reached volname size [] s) :
    Counted s.toCore ∧ ∀ op : Op, op.Allowed s → (op.prog.run s).1 ≠ .error (.panic .nameTwice) := by
  refine ⟨(h.volume hlarge hsmall).sound.counted, fun op hop he => ?_⟩
  rcases h.no_panic hlarge hsmall hop he with he | he <;> cases he

theorem namedVolume_counted : Counted (namedVolume []).toCore :=
  (names_counted (by decide) (by decide) reached_namedVolume).1

end Os161.Sfs

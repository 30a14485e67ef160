import Os161.Laws.Sfs.Sound

/-!
# Slots of a directory

A directory as a list of slots: reading an entry back, writing one over a slot or after the last, and what
that does to the occupied slots.
-/

namespace Os161.Sfs

open Os161.Lib

variable {name : CStr}

/-! ## Entries and their bytes -/

theorem SfsDir.ofBytes_toBytes (d : SfsDir) : ofBytes d.toBytes = d := by
  show SfsDir.mk (wordOf _ _ _ _) d.name = d
  rw [wordOf_byteOf]

/-- The name field has its length. -/
def SfsDir.Ok (d : SfsDir) : Prop := d.name.length = nameLen

theorem SfsDir.Ok.length {d : SfsDir} (h : d.Ok) : d.toBytes.length = direntSize := by
  have h : d.name.length = nameLen := h
  simp only [toBytes, List.length_append, List.length_cons, List.length_nil, h]
  rfl

theorem SfsDir.exists_ne_zero {bytes : List UInt8} (h : (ofBytes bytes).ino ≠ 0) : ∃ b ∈ bytes, b ≠ 0 := by
  by_contra hall
  simp only [not_exists, not_and, not_not] at hall
  apply h
  rcases bytes with _ | ⟨b₀, _ | ⟨b₁, _ | ⟨b₂, _ | ⟨b₃, rest⟩⟩⟩⟩
  · rfl
  · rfl
  · rfl
  · rfl
  · obtain ⟨rfl, rfl, rfl, rfl⟩ : b₀ = 0 ∧ b₁ = 0 ∧ b₂ = 0 ∧ b₃ = 0 :=
      ⟨hall _ (by simp), hall _ (by simp), hall _ (by simp), hall _ (by simp)⟩
    rfl

theorem SfsDir.link_ok (ino : Blk) (h : ¬ name.val.length + 1 > nameLen) :
    (link ino name).Ok := by
  simp only [Ok, link, List.length_append, List.length_replicate]
  omega

theorem SfsDir.empty_ok : empty.Ok := List.length_replicate

theorem SfsDir.str_link (ino : Blk) (h : ¬ name.val.length + 1 > nameLen) :
    (link ino name).str = name.val := by
  have hne : ∀ b ∈ name.val, decide (b ≠ 0) = true := fun b hb =>
    decide_eq_true fun h0 => name.property (h0 ▸ hb)
  have hzero : (List.replicate (nameLen - 1 - name.val.length) (0 : UInt8)).takeWhile (· ≠ 0) = [] := by
    cases nameLen - 1 - name.val.length with
    | zero => rfl
    | succ n => simp [List.replicate_succ]
  simp only [str, link, List.take_append, List.take_replicate]
  rw [List.take_of_length_le (by omega), List.takeWhile_append_of_pos hne, Nat.min_eq_left (by omega), hzero,
    List.append_nil]

/-! ## Writing a slot -/

/-- A slot is written, or one is added at the end. -/
def setSlot (slots : List SfsDir) (k : Nat) (d : SfsDir) : List SfsDir :=
  if k < slots.length then slots.set k d else slots ++ [d]

theorem bytesFrom_overlay_self (f : Nat → UInt8) (off : Nat) (data : List UInt8) :
    bytesFrom (overlay f off data) off data.length = data := by
  apply List.ext_getElem
  · exact length_bytesFrom ..
  · intro i h₁ h₂
    simp only [bytesFrom, List.getElem_map, List.getElem_range, overlay]
    rw [if_pos ⟨by omega, by omega⟩, Nat.add_sub_cancel_left, List.getD_eq_getElem?_getD,
      List.getElem?_eq_getElem h₂, Option.getD_some]

theorem bytesFrom_overlay_ne (f : Nat → UInt8) {off off' len : Nat} {data : List UInt8}
    (h : off + len ≤ off' ∨ off' + data.length ≤ off) :
    bytesFrom (overlay f off' data) off len = bytesFrom f off len := by
  refine List.map_congr_left fun i hi => ?_
  have hi := List.mem_range.mp hi
  exact if_neg (by omega)

@[simp] theorem length_slotsOf (n : Inode) (disk : Blk → Block) :
    (slotsOf n disk).length = n.size.toNat / direntSize := by simp [slotsOf]

theorem getElem_slotsOf (n : Inode) (disk : Blk → Block) {k : Nat} (hk : k < (slotsOf n disk).length) :
    (slotsOf n disk)[k] = .ofBytes (bytesFrom (n.byteAt disk) (k * direntSize) direntSize) := by
  simp [slotsOf]

theorem slotsOf_write {n n' : Inode} {disk disk' : Blk → Block} {k : Nat} {d : SfsDir} (hd : d.Ok)
    (hk : k ≤ (slotsOf n disk).length) (hwhole : n.size.toNat % direntSize = 0)
    (hbytes : n'.byteAt disk' = overlay (n.byteAt disk) (k * direntSize) d.toBytes)
    (hsize : n'.size.toNat = max n.size.toNat ((k + 1) * direntSize)) :
    slotsOf n' disk' = setSlot (slotsOf n disk) k d := by
  rw [length_slotsOf] at hk
  have hother : ∀ j, j ≠ k → bytesFrom (n'.byteAt disk') (j * direntSize) direntSize =
      bytesFrom (n.byteAt disk) (j * direntSize) direntSize := by
    intro j hj
    rw [hbytes]
    refine bytesFrom_overlay_ne _ ?_
    rw [hd.length]
    simp only [direntSize]
    omega
  have hself : SfsDir.ofBytes (bytesFrom (n'.byteAt disk') (k * direntSize) direntSize) = d := by
    have := bytesFrom_overlay_self (n.byteAt disk) (k * direntSize) d.toBytes
    rw [hd.length] at this
    rw [hbytes, this, SfsDir.ofBytes_toBytes]
  apply List.ext_getElem
  · unfold setSlot
    rw [length_slotsOf, hsize]
    split
    · rename_i hlt
      rw [List.length_set]
      rw [length_slotsOf] at hlt ⊢
      simp only [direntSize] at *
      omega
    · rename_i hlt
      rw [List.length_append, List.length_singleton]
      rw [length_slotsOf] at hlt ⊢
      simp only [direntSize] at *
      omega
  · intro j h₁ h₂
    rw [getElem_slotsOf]
    by_cases hj : j = k
    · subst hj
      rw [hself]
      unfold setSlot
      split
      · simp
      · rename_i hlt
        rw [length_slotsOf] at hlt
        have hlen : n.size.toNat / direntSize = j := by omega
        simp [hlen]
    · rw [hother j hj]
      unfold setSlot
      split
      · rw [List.getElem_set_ne (Ne.symm hj), getElem_slotsOf]
      · rename_i hlt
        have hj' : j < (slotsOf n disk).length := by
          rw [length_slotsOf] at *
          rw [hsize] at h₁
          simp only [direntSize] at *
          omega
        rw [List.getElem_append_left hj', getElem_slotsOf]

/-! ## Occupied slots -/

section Occupied

variable {slots : List SfsDir} {k : Nat} {d e : SfsDir}
variable {ino : Blk}

theorem mem_occupied : d ∈ occupied slots ↔ d ∈ slots ∧ d.ino ≠ 0 := by
  simp [occupied]

theorem occupied_split (hk : k < slots.length) :
    occupied slots = occupied (slots.take k) ++ occupied [slots[k]] ++ occupied (slots.drop (k + 1)) := by
  have hslots : slots = slots.take k ++ [slots[k]] ++ slots.drop (k + 1) := by
    rw [List.append_assoc, List.singleton_append, ← List.drop_eq_getElem_cons hk, List.take_append_drop]
  conv_lhs => rw [hslots]
  simp only [occupied, List.filter_append]

theorem occupied_set (hk : k < slots.length) (d : SfsDir) :
    occupied (slots.set k d) = occupied (slots.take k) ++ occupied [d] ++ occupied (slots.drop (k + 1)) := by
  rw [List.set_eq_take_append_cons_drop, if_pos hk, ← List.singleton_append, ← List.append_assoc]
  simp only [occupied, List.filter_append]

theorem occupied_singleton (h : d.ino ≠ 0) : occupied [d] = [d] := by
  simp [occupied, h]

theorem occupied_empty (h : d.ino = 0) : occupied [d] = [] := by
  simp [occupied, h]

theorem occupied_link (hfree : ∀ e, slots[k]? = some e → e.ino = 0) (hd : d.ino ≠ 0) :
    (occupied (setSlot slots k d)).Perm (d :: occupied slots) := by
  unfold setSlot
  split
  · rename_i hk
    have hzero : slots[k].ino = 0 := hfree _ (List.getElem?_eq_getElem hk)
    rw [occupied_split hk, occupied_set hk, occupied_empty hzero, occupied_singleton hd, List.append_nil,
      List.append_assoc]
    exact List.perm_middle
  · rw [show occupied (slots ++ [d]) = occupied slots ++ occupied [d] from List.filter_append ..,
      occupied_singleton hd]
    exact List.perm_append_singleton ..

theorem occupied_unlink (hk : slots[k]? = some e) (he : e.ino ≠ 0) :
    (occupied slots).Perm (e :: occupied (setSlot slots k .empty)) := by
  obtain ⟨hlt, rfl⟩ := List.getElem?_eq_some_iff.mp hk
  unfold setSlot
  rw [if_pos hlt, occupied_split hlt, occupied_set hlt, occupied_singleton he, occupied_empty (d := .empty) rfl,
    List.append_nil, List.append_assoc]
  exact List.perm_middle

/-! ## Names -/

/-- The slot `k` is an entry of `ino` with the name. -/
structure HasName (slots : List SfsDir) (name : CStr) (ino : Blk) (k : Nat) : Prop where
  entry : ∃ d, slots[k]? = some d ∧ d.ino = ino ∧ d.str = name.val
  ino_ne : ino ≠ 0

theorem getElem?_setSlot_self (h : (setSlot slots k d)[k]? = some e) : e = d := by
  unfold setSlot at h
  split at h
  · rename_i hk
    rw [List.getElem?_set_self hk] at h
    exact (Option.some.inj h).symm
  · have hlt := (List.getElem?_eq_some_iff.mp h).1
    rw [List.length_append, List.length_singleton] at hlt
    rw [show k = slots.length by omega, List.getElem?_concat_length] at h
    exact (Option.some.inj h).symm

theorem HasName.mem (h : HasName slots name ino k) :
    ∃ d ∈ occupied slots, d.ino = ino ∧ d.str = name.val := by
  obtain ⟨d, hd, hino, hname⟩ := h.entry
  exact ⟨d, mem_occupied.mpr ⟨List.mem_of_getElem? hd, hino ▸ h.ino_ne⟩, hino, hname⟩

theorem HasName.unique (hnames : ((occupied slots).map SfsDir.str).Nodup) {ino' : Blk}
    {k' : Nat} (h : HasName slots name ino k) (h' : HasName slots name ino' k') : k = k' := by
  obtain ⟨d, hd, hino, hname⟩ := h.entry
  obtain ⟨e, he, hino', hname'⟩ := h'.entry
  have hpair : slots.Pairwise fun a b => a.ino ≠ 0 → b.ino ≠ 0 → a.str ≠ b.str := by
    rw [List.Nodup, List.pairwise_map, occupied, List.pairwise_filter] at hnames
    simpa using hnames
  have hne : d.ino ≠ 0 := hino ▸ h.ino_ne
  have hne' : e.ino ≠ 0 := hino' ▸ h'.ino_ne
  obtain ⟨hlt, rfl⟩ := List.getElem?_eq_some_iff.mp hd
  obtain ⟨hlt', rfl⟩ := List.getElem?_eq_some_iff.mp he
  rcases Nat.lt_trichotomy k k' with hk | hk | hk
  · exact absurd (hname.trans hname'.symm) (List.pairwise_iff_getElem.mp hpair k k' hlt hlt' hk hne hne')
  · exact hk
  · exact absurd (hname'.trans hname.symm) (List.pairwise_iff_getElem.mp hpair k' k hlt' hlt hk hne' hne)

end Occupied

end Os161.Sfs

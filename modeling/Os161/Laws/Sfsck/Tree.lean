import Os161.Laws.Sfsck.Census

/-!
# `sfsck`: the walk is a tree

Each inode of the walk is the one it starts from, or is named by a slot of a directory of the walk; and each slot
of a directory of the walk is empty, is for the directory itself or its parent, or names an inode of the walk.
-/

namespace Os161.Sfsck

open Os161.Lib Os161.Sfs

variable {x : Node}

/-- A directory. -/
def Node.IsDir (x : Node) : Prop := x.inode.type = typeDir

/-- The inodes that the walk has come to, from those of which `top` says where they are named. -/
structure Grown (top : Node → Prop) (nodes : List Node) : Prop where
  types : ∀ x ∈ nodes, x.inode.type = typeFile ∨ x.IsDir
  named : ∀ x ∈ nodes, top x ∨ ∃ p ∈ nodes, p.IsDir ∧ x.parent = p.ino ∧ p.inos[x.slot]? = some x.ino
  slots : ∀ p ∈ nodes, p.IsDir → ∀ k i, p.inos[k]? = some i → i ≠ 0 →
    i = p.ino ∨ i = p.parent ∨ ∃ x ∈ nodes, x.ino = i ∧ x.parent = p.ino ∧ x.slot = k
  reach : ∀ R : Blk → Prop, (∀ p ∈ nodes, p.IsDir → R p.ino → ∀ i ∈ p.inos, i ≠ 0 → R i) →
    (∀ x ∈ nodes, top x → R x.ino) → ∀ x ∈ nodes, R x.ino

section Grown

variable {top top' : Node → Prop} {xs ys : List Node}

theorem Grown.nil : Grown top [] := ⟨nofun, nofun, nofun, fun _ _ _ => nofun⟩

theorem Grown.mono (h : Grown top xs) (htop : ∀ x ∈ xs, top x → top' x) : Grown top' xs :=
  ⟨h.types, fun x hx => (h.named x hx).imp_left (htop x hx), h.slots, fun R hR hx =>
    h.reach R hR fun x hmem ht => hx x hmem (htop x hmem ht)⟩

theorem Grown.append (h : Grown top xs) (h' : Grown top ys) : Grown top (xs ++ ys) := by
  refine ⟨?_, ?_, ?_, ?_⟩
  · intro x hx
    rcases List.mem_append.mp hx with hx | hx
    · exact h.types x hx
    · exact h'.types x hx
  · intro x hx
    rcases List.mem_append.mp hx with hx | hx
    · refine (h.named x hx).imp_right ?_
      rintro ⟨p, hp, hrest⟩
      exact ⟨p, List.mem_append_left _ hp, hrest⟩
    · refine (h'.named x hx).imp_right ?_
      rintro ⟨p, hp, hrest⟩
      exact ⟨p, List.mem_append_right _ hp, hrest⟩
  · intro p hp hdir k i hk h0
    rcases List.mem_append.mp hp with hp | hp
    · refine (h.slots p hp hdir k i hk h0).imp_right (Or.imp_right ?_)
      rintro ⟨x, hx, hrest⟩
      exact ⟨x, List.mem_append_left _ hx, hrest⟩
    · refine (h'.slots p hp hdir k i hk h0).imp_right (Or.imp_right ?_)
      rintro ⟨x, hx, hrest⟩
      exact ⟨x, List.mem_append_right _ hx, hrest⟩
  · intro R hR htop x hx
    rcases List.mem_append.mp hx with hx | hx
    · exact h.reach R (fun p hp => hR p (List.mem_append_left _ hp))
        (fun x hx => htop x (List.mem_append_left _ hx)) x hx
    · exact h'.reach R (fun p hp => hR p (List.mem_append_right _ hp))
        (fun x hx => htop x (List.mem_append_right _ hx)) x hx

theorem Grown.file (h : x.inode.type = typeFile) (htop : top x) : Grown top [x] := by
  have hnot : ¬ x.IsDir := fun hd => absurd (h.symm.trans hd) (by decide)
  refine ⟨?_, ?_, ?_, ?_⟩
  · intro y hy
    rw [List.mem_singleton.mp hy]
    exact .inl h
  · intro y hy
    rw [List.mem_singleton.mp hy]
    exact .inl htop
  · intro p hp hdir
    rw [List.mem_singleton.mp hp] at hdir
    exact absurd hdir hnot
  · intro R _ hR y hy
    rw [List.mem_singleton.mp hy]
    exact hR x (List.mem_singleton_self x) htop

/-- The inodes that the slots of a directory name, from a slot on. -/
def NamedIn (ino : Blk) (slot : Nat) (inos : List Blk) (x : Node) : Prop :=
  x.parent = ino ∧ x.ino ≠ 0 ∧ ∃ k, x.slot = slot + k ∧ inos[k]? = some x.ino

/-- What the slots of a directory name. -/
def SlotsNamed (ino parent : Blk) (slot : Nat) (inos : List Blk) (nodes : List Node) : Prop :=
  ∀ k i, inos[k]? = some i → i ≠ 0 →
    i = ino ∨ i = parent ∨ ∃ x ∈ nodes, x.ino = i ∧ x.parent = ino ∧ x.slot = slot + k

theorem Grown.dir (hdir : x.IsDir) (h : Grown (NamedIn x.ino 0 x.inos) xs)
    (hslots : SlotsNamed x.ino x.parent 0 x.inos xs) : Grown (· = x) (x :: xs) := by
  refine ⟨?_, ?_, ?_, ?_⟩
  · exact List.forall_mem_cons.mpr ⟨.inr hdir, h.types⟩
  · refine List.forall_mem_cons.mpr ⟨.inl rfl, fun y hy => .inr ?_⟩
    rcases h.named y hy with ⟨hparent, -, k, hk, hino⟩ | ⟨p, hp, hrest⟩
    · refine ⟨x, List.mem_cons_self, hdir, hparent, ?_⟩
      rw [hk, Nat.zero_add]
      exact hino
    · exact ⟨p, List.mem_cons_of_mem _ hp, hrest⟩
  · intro p hp hpdir k i hk h0
    rcases List.mem_cons.mp hp with rfl | hp
    · refine (hslots k i hk h0).imp_right (Or.imp_right ?_)
      rintro ⟨y, hy, hino, hparent, hslot⟩
      exact ⟨y, List.mem_cons_of_mem _ hy, hino, hparent, by rw [hslot, Nat.zero_add]⟩
    · refine (h.slots p hp hpdir k i hk h0).imp_right (Or.imp_right ?_)
      rintro ⟨y, hy, hrest⟩
      exact ⟨y, List.mem_cons_of_mem _ hy, hrest⟩
  · intro R hR htop
    have hx : R x.ino := htop x List.mem_cons_self rfl
    refine List.forall_mem_cons.mpr ⟨hx, h.reach R (fun p hp => hR p (List.mem_cons_of_mem _ hp)) ?_⟩
    rintro y - ⟨-, h0, k, -, hino⟩
    exact hR x List.mem_cons_self hdir hx y.ino (List.mem_of_getElem? hino) h0

end Grown

/-! ## The walk -/

section Walk

variable {disk : Blk → Block} {nblocks : Blk}
variable {vis : Blk → Blk → Nat → Walk → Option Walk} {ino parent i : Blk} {slot : Nat} {w w' : Walk}
  {inos : List Blk}

/-- A walk over directories gives trees. -/
def GivesTrees (disk : Blk → Block) (vis : Blk → Blk → Nat → Walk → Option Walk) : Prop :=
  ∀ (ino parent : Blk) (slot : Nat) (w w' : Walk), (Inode.ofBlock (disk ino)).type = typeDir →
    vis ino parent slot w = some w' →
      ∃ x xs, w'.nodes = x :: xs ++ w.nodes ∧ x.ino = ino ∧ x.parent = parent ∧ x.slot = slot ∧ x.IsDir ∧
        Grown (· = x) (x :: xs)

theorem followOne_grown (hvis : GivesTrees disk vis) {d : SfsDir} (hd : DotsRight ino parent d)
    (h : followOne disk nblocks vis ino slot d w = some (w', i)) :
    ∃ xs, w'.nodes = xs ++ w.nodes ∧ Grown (NamedIn ino slot [i]) xs ∧ SlotsNamed ino parent slot [i] xs := by
  -- an entry that adds nothing
  have hnone : w' = w → (i ≠ 0 → i = ino ∨ i = parent) →
      ∃ xs, w'.nodes = xs ++ w.nodes ∧ Grown (NamedIn ino slot [i]) xs ∧ SlotsNamed ino parent slot [i] xs := by
    rintro rfl hi
    refine ⟨[], rfl, .nil, fun k j hk h0 => ?_⟩
    cases k with
    | zero =>
      cases hk
      rcases hi h0 with h | h
      · exact .inl h
      · exact .inr (.inl h)
    | succ k => cases hk
  -- an entry with an inode, and perhaps more below it
  have hsome : ∀ x xs, w'.nodes = x :: xs ++ w.nodes → x.ino = i → i ≠ 0 → x.parent = ino → x.slot = slot →
      Grown (· = x) (x :: xs) →
      ∃ xs, w'.nodes = xs ++ w.nodes ∧ Grown (NamedIn ino slot [i]) xs ∧ SlotsNamed ino parent slot [i] xs := by
    rintro x xs hnodes rfl h0 rfl rfl hgrown
    refine ⟨x :: xs, hnodes, hgrown.mono ?_, fun k j hk _ => ?_⟩
    · rintro y - rfl
      exact ⟨rfl, h0, 0, rfl, rfl⟩
    · cases k with
      | zero =>
        cases hk
        exact .inr (.inr ⟨x, List.mem_cons_self, rfl, rfl, rfl⟩)
      | succ k => cases hk
  unfold followOne at h
  split at h
  · rename_i hskip
    cases h
    refine hnone rfl fun h0 => ?_
    rcases hskip with hdot | hdd | hz
    · exact .inl (hd.dot hdot)
    · exact .inr (hd.dotdot hdd)
    · exact absurd hz h0
  rename_i hskip
  split at h
  · cases h
    exact hnone rfl fun h0 => absurd rfl h0
  have h0 : d.ino ≠ 0 := fun h0 => hskip (.inr (.inr h0))
  dsimp only at h
  split at h
  · rename_i htype
    cases h
    exact hsome _ [] rfl rfl h0 rfl rfl (Grown.file htype rfl)
  split at h
  · rename_i htype
    obtain ⟨w₁, hw₁, heq⟩ := Option.map_eq_some_iff.mp h
    cases heq
    obtain ⟨x, xs, hnodes, hino, hparent, hslot, -, hgrown⟩ := hvis _ _ _ _ _ htype hw₁
    exact hsome x xs hnodes hino h0 hparent hslot hgrown
  · cases h
    exact hnone rfl fun h0 => absurd rfl h0

theorem NamedIn.head (h : NamedIn ino slot [i] x) :
    NamedIn ino slot (i :: inos) x := by
  obtain ⟨hparent, h0, k, hk, hino⟩ := h
  refine ⟨hparent, h0, k, hk, ?_⟩
  cases k with
  | zero => exact hino
  | succ k => cases hino

theorem NamedIn.tail (h : NamedIn ino (slot + 1) inos x) :
    NamedIn ino slot (i :: inos) x := by
  obtain ⟨hparent, h0, k, hk, hino⟩ := h
  exact ⟨hparent, h0, k + 1, by rw [hk, Nat.add_assoc, Nat.add_comm 1 k], hino⟩

theorem followAll_grown (hvis : GivesTrees disk vis) {entries : List SfsDir}
    (hd : ∀ d ∈ entries, DotsRight ino parent d)
    (h : followAll disk nblocks vis ino slot entries w = some (w', inos)) :
    ∃ xs, w'.nodes = xs ++ w.nodes ∧ Grown (NamedIn ino slot inos) xs ∧ SlotsNamed ino parent slot inos xs := by
  induction entries generalizing slot w inos with
  | nil =>
    cases h
    exact ⟨[], rfl, .nil, nofun⟩
  | cons d rest ih =>
    rw [List.forall_mem_cons] at hd
    obtain ⟨⟨w₁, i⟩, hfirst, hmap⟩ := Option.bind_eq_some_iff.mp h
    obtain ⟨⟨w₂, others⟩, hrest, heq⟩ := Option.map_eq_some_iff.mp hmap
    cases heq
    obtain ⟨xs, hxs, hgrown, hslots⟩ := followOne_grown hvis hd.1 hfirst
    obtain ⟨ys, hys, hgrown', hslots'⟩ := ih hd.2 hrest
    refine ⟨ys ++ xs, by rw [hys, hxs, List.append_assoc], ?_, fun k j hk h0 => ?_⟩
    · exact (hgrown'.mono fun _ _ => .tail).append (hgrown.mono fun _ _ => .head)
    · cases k with
      | zero =>
        refine (hslots 0 j hk h0).imp_right (Or.imp_right ?_)
        rintro ⟨x, hx, hrest⟩
        exact ⟨x, List.mem_append_right _ hx, hrest⟩
      | succ k =>
        refine (hslots' k j hk h0).imp_right (Or.imp_right ?_)
        rintro ⟨x, hx, hino, hparent, hslot⟩
        exact ⟨x, List.mem_append_left _ hx, hino, hparent, by rw [hslot]; omega⟩

theorem type_roundSize (n : Inode) : (roundSize n).type = n.type := by
  unfold roundSize
  split
  · rfl
  · rfl

theorem visit_grown (depth : Nat) : GivesTrees disk (visit disk nblocks depth) := by
  induction depth with
  | zero =>
    intro ino parent slot w w' _ h
    cases h
  | succ depth ih =>
    intro ino parent slot w w' htype h
    obtain ⟨⟨c, counter⟩, hentries, hvisit⟩ := Option.bind_eq_some_iff.mp h
    obtain ⟨⟨w₁, inos⟩, hall, heq⟩ := Option.map_eq_some_iff.mp hvisit
    cases heq
    have hre := checkEntries_rechecked (dirEntries_ok _ disk) (by rw [length_dirEntries]; exact entries_le _)
      (drop_dirEntries _ disk) hentries
    obtain ⟨xs, hxs, hgrown, hslots⟩ :=
      followAll_grown ih (fun d hd => hre.right d (List.mem_of_mem_take hd)) hall
    have hdir : Node.IsDir ⟨ino, parent, slot, roundSize (.ofBlock (disk ino)), inos⟩ :=
      (type_roundSize _).trans htype
    refine ⟨_, xs, ?_, rfl, rfl, rfl, hdir, Grown.dir hdir hgrown hslots⟩
    rw [hxs]
    rfl

end Walk

end Os161.Sfsck

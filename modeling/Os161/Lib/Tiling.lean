import Mathlib.Algebra.Ring.Nat
import Mathlib.Data.List.Chain

/-!
# Regions tiled by tagged blocks

A region is cut into blocks that lie next to each other. In front of each block stands a tag that
gives the distance to the next tag, the distance to the previous one, and whether the block is in
use. The lists of this module are such regions; `Chain` says that a memory holds the tags of one.

Distances count units of `w` bytes, and a tag takes one unit.
-/

namespace Os161.Lib.Tiling

variable {a x p : Nat} {d : Nat × Nat}

/-- A block: the units behind its tag, and whether they are in use. -/
structure Block where
  size : Nat
  used : Bool
deriving DecidableEq

/-- The units a block takes, its tag included. -/
def Block.len (b : Block) : Nat := b.size + 1

/-- What a tag holds. -/
structure Tag where
  prev : Nat
  next : Nat
  used : Bool
deriving DecidableEq

/-- The units a list of blocks takes. -/
def extent : List Block → Nat
  | [] => 0
  | b :: bs => b.len + extent bs

@[simp] theorem extent_nil : extent [] = 0 := rfl

@[simp] theorem extent_cons (b : Block) (bs : List Block) : extent (b :: bs) = b.len + extent bs :=
  rfl

@[simp] theorem extent_append (xs ys : List Block) :
    extent (xs ++ ys) = extent xs + extent ys := by
  induction xs with
  | nil => simp
  | cons b xs ih => simp only [List.cons_append, extent_cons, ih, Nat.add_assoc]

theorem length_le_extent (bs : List Block) : bs.length ≤ extent bs := by
  induction bs with
  | nil => exact Nat.le_refl 0
  | cons b bs ih =>
    simp only [List.length_cons, extent_cons, Block.len]
    omega

/-- The length of the last block, or `p` where there is none. -/
def lastLen (p : Nat) : List Block → Nat
  | [] => p
  | b :: bs => lastLen b.len bs

@[simp] theorem lastLen_nil (p : Nat) : lastLen p [] = p := rfl

@[simp] theorem lastLen_cons (p : Nat) (b : Block) (bs : List Block) :
    lastLen p (b :: bs) = lastLen b.len bs := rfl

section Layout

variable (w : Nat)

/-- The addresses of the tags, where the first is at `a`. -/
def headers (a : Nat) : List Block → List Nat
  | [] => []
  | b :: bs => a :: headers (a + w * b.len) bs

/-- The blocks in use: the address behind the tag, and the units there. -/
def usedAt (a : Nat) : List Block → List (Nat × Nat)
  | [] => []
  | b :: bs =>
    if b.used then (a + w, b.size) :: usedAt (a + w * b.len) bs else usedAt (a + w * b.len) bs

/-- The memory read by `read` holds the tags of the list, the first at `a` with `p` as its distance
to the tag before. -/
def Chain (read : Nat → Option Tag) (a p : Nat) : List Block → Prop
  | [] => True
  | b :: bs => read a = some ⟨p, b.len, b.used⟩ ∧ Chain read (a + w * b.len) b.len bs

end Layout

variable {w : Nat} {read read' : Nat → Option Tag}

@[simp] theorem headers_nil (a : Nat) : headers w a [] = [] := rfl

@[simp] theorem headers_cons (a : Nat) (b : Block) (bs : List Block) :
    headers w a (b :: bs) = a :: headers w (a + w * b.len) bs := rfl

@[simp] theorem headers_append (a : Nat) (xs ys : List Block) :
    headers w a (xs ++ ys) = headers w a xs ++ headers w (a + w * extent xs) ys := by
  induction xs generalizing a with
  | nil => simp
  | cons b xs ih =>
    simp only [List.cons_append, headers_cons, ih, extent_cons, Nat.mul_add, Nat.add_assoc]

variable {bs ys : List Block} {b c : Block}

theorem mem_headers_bounds (hx : x ∈ headers w a bs) :
    a ≤ x ∧ x + w ≤ a + w * extent bs := by
  induction bs generalizing a with
  | nil => simp at hx
  | cons b bs ih =>
    simp only [extent_cons, Block.len, Nat.mul_add, Nat.mul_one]
    rcases List.mem_cons.mp hx with rfl | hx
    · omega
    · have hle := ih hx
      simp only [Block.len, Nat.mul_add, Nat.mul_one] at hle
      omega

theorem usedAt_cons (a : Nat) (b : Block) (bs : List Block) :
    usedAt w a (b :: bs) =
      (if b.used then [(a + w, b.size)] else []) ++ usedAt w (a + w * b.len) bs := by
  cases hb : b.used <;> simp [usedAt, hb]

@[simp] theorem usedAt_append (a : Nat) (xs ys : List Block) :
    usedAt w a (xs ++ ys) = usedAt w a xs ++ usedAt w (a + w * extent xs) ys := by
  induction xs generalizing a with
  | nil => simp [usedAt]
  | cons b xs ih =>
    simp only [List.cons_append, usedAt_cons, ih, extent_cons, Nat.mul_add, Nat.add_assoc,
      List.append_assoc]

theorem mem_usedAt_bounds (hd : d ∈ usedAt w a bs) :
    a + w ≤ d.1 ∧ d.1 + w * d.2 ≤ a + w * extent bs := by
  induction bs generalizing a with
  | nil => simp [usedAt] at hd
  | cons b bs ih =>
    simp only [extent_cons, Block.len, Nat.mul_add, Nat.mul_one]
    rw [usedAt_cons, List.mem_append] at hd
    rcases hd with hd | hd
    · split at hd
      · rw [List.mem_singleton] at hd
        subst hd
        simp only
        omega
      · simp at hd
    · have hle := ih hd
      simp only [Block.len, Nat.mul_add, Nat.mul_one] at hle
      omega

theorem exists_of_mem_usedAt (hd : d ∈ usedAt w a bs) :
    ∃ pre b post, bs = pre ++ b :: post ∧ b.used = true ∧ d = (a + w * extent pre + w, b.size) := by
  induction bs generalizing a with
  | nil => simp [usedAt] at hd
  | cons b bs ih =>
    rw [usedAt_cons, List.mem_append] at hd
    rcases hd with hd | hd
    · split at hd
      · exact ⟨[], b, bs, rfl, ‹_›, List.mem_singleton.mp hd⟩
      · simp at hd
    · obtain ⟨pre, c, post, rfl, hc, rfl⟩ := ih hd
      refine ⟨b :: pre, c, post, rfl, hc, ?_⟩
      rw [extent_cons, Nat.mul_add, Nat.add_assoc a]

theorem usedAt_pairwise (a : Nat) (bs : List Block) :
    (usedAt w a bs).Pairwise fun d e => d.1 + w * d.2 + w ≤ e.1 := by
  induction bs generalizing a with
  | nil => exact .nil
  | cons b bs ih =>
    rw [usedAt_cons, List.pairwise_append]
    refine ⟨by split <;> simp, ih _, ?_⟩
    intro d hd e he
    have hle := (mem_usedAt_bounds he).1
    simp only [Block.len, Nat.mul_add, Nat.mul_one] at hle
    split at hd
    · rw [List.mem_singleton] at hd
      subst hd
      simp only
      omega
    · simp at hd

theorem headers_apart_of_used {y : Nat}
    (hd : d ∈ usedAt w a bs) (hlo : d.1 ≤ x) (hhi : x < d.1 + w * d.2) (hy : y ∈ headers w a bs) :
    x < y ∨ y + w ≤ x := by
  induction bs generalizing a with
  | nil => simp [usedAt] at hd
  | cons b bs ih =>
    rw [usedAt_cons, List.mem_append] at hd
    have hlen : w * b.len = w * b.size + w := by rw [Block.len, Nat.mul_add, Nat.mul_one]
    rcases hd with hd | hd
    · split at hd
      · rw [List.mem_singleton] at hd
        subst hd
        simp only at hlo hhi
        rcases List.mem_cons.mp hy with rfl | hy
        · omega
        · have hle := (mem_headers_bounds hy).1
          omega
      · simp at hd
    · rcases List.mem_cons.mp hy with rfl | hy
      · have hle := (mem_usedAt_bounds hd).1
        omega
      · exact ih hd hy

@[simp] theorem chain_nil (a p : Nat) : Chain w read a p [] := trivial

@[simp] theorem chain_cons (a p : Nat) (b : Block) (bs : List Block) :
    Chain w read a p (b :: bs) ↔
      read a = some ⟨p, b.len, b.used⟩ ∧ Chain w read (a + w * b.len) b.len bs := Iff.rfl

@[simp] theorem chain_append (a p : Nat) (xs ys : List Block) :
    Chain w read a p (xs ++ ys) ↔
      Chain w read a p xs ∧ Chain w read (a + w * extent xs) (lastLen p xs) ys := by
  induction xs generalizing a p with
  | nil => simp
  | cons b xs ih =>
    simp only [List.cons_append, chain_cons, ih, extent_cons, lastLen_cons, Nat.mul_add,
      Nat.add_assoc, and_assoc]

theorem Chain.congr (h : Chain w read a p bs)
    (heq : ∀ x ∈ headers w a bs, read' x = read x) : Chain w read' a p bs := by
  induction bs generalizing a p with
  | nil => trivial
  | cons b bs ih =>
    refine ⟨(heq a List.mem_cons_self).trans h.1, ih h.2 ?_⟩
    intro x hx
    exact heq x (List.mem_cons_of_mem _ hx)

theorem Chain.behind {q : Nat} (h : Chain w read a p bs)
    (hfirst : bs ≠ [] → read' a = (read a).map fun t => { t with prev := q })
    (heq : ∀ x ∈ headers w a bs, x ≠ a → read' x = read x) (hw : 0 < w) :
    Chain w read' a q bs := by
  cases bs with
  | nil => trivial
  | cons b bs =>
    refine ⟨?_, h.2.congr ?_⟩
    · rw [hfirst (List.cons_ne_nil _ _), h.1]
      rfl
    · intro x hx
      refine heq x (List.mem_cons_of_mem _ hx) ?_
      have hle := (mem_headers_bounds hx).1
      have hpos : 0 < w * b.len := Nat.mul_pos hw (Nat.succ_pos _)
      omega

/-! ## Neighbours -/

/-- Of two neighbours at least one is in use. -/
def NoFreePair (bs : List Block) : Prop := bs.IsChain fun a b => a.used = true ∨ b.used = true

/-- Two neighbours made one where both are free. -/
def join (a b : Block) : List Block :=
  if a.used || b.used then [a, b] else [⟨a.size + 1 + b.size, false⟩]

theorem extent_join (a b : Block) : extent (join a b) = a.len + b.len := by
  unfold join
  split
  · simp
  · simp only [extent_cons, extent_nil, Block.len]
    omega

theorem usedAt_join (x : Nat) (a b : Block) : usedAt w x (join a b) = usedAt w x [a, b] := by
  unfold join
  split
  · rfl
  · rename_i h
    simp only [Bool.or_eq_true, not_or, Bool.not_eq_true] at h
    simp [usedAt, h.1, h.2]

theorem usedAt_join_append (x : Nat) (a b : Block) (bs : List Block) :
    usedAt w x (join a b ++ bs) = usedAt w x (a :: b :: bs) := by
  rw [usedAt_append, usedAt_join, extent_join, show a :: b :: bs = [a, b] ++ bs from rfl,
    usedAt_append, extent_cons, extent_cons, extent_nil, Nat.add_zero]

theorem headers_join_subset (x : Nat) (a b : Block) (bs : List Block) :
    headers w x (join a b ++ bs) ⊆ headers w x (a :: b :: bs) := by
  unfold join
  split
  · exact List.Subset.refl _
  · have hlen : w * (⟨a.size + 1 + b.size, false⟩ : Block).len = w * a.len + w * b.len := by
      rw [← Nat.mul_add]
      exact congrArg (w * ·) (by simp only [Block.len]; omega)
    simp only [List.cons_append, List.nil_append, headers_cons, hlen, ← Nat.add_assoc]
    exact List.cons_subset_cons _ (List.subset_cons_self _ _)

theorem noFreePair_append {xs : List Block} :
    NoFreePair (xs ++ ys) ↔ NoFreePair xs ∧ NoFreePair ys ∧
      ∀ x ∈ xs.getLast?, ∀ y ∈ ys.head?, x.used = true ∨ y.used = true :=
  List.isChain_append

theorem noFreePair_cons {x : Block} :
    NoFreePair (x :: ys) ↔ (∀ y ∈ ys.head?, x.used = true ∨ y.used = true) ∧ NoFreePair ys :=
  List.isChain_cons

theorem noFreePair_singleton (x : Block) : NoFreePair [x] := List.isChain_singleton x

theorem join_above {post : List Block} (hb : b.used = false)
    (hpost : NoFreePair (c :: post)) :
    ∃ d rest, join b c ++ post = d :: rest ∧ d.used = false ∧
      (∀ y ∈ rest.head?, y.used = true) ∧ NoFreePair rest := by
  unfold join
  cases hc : c.used with
  | true => exact ⟨b, c :: post, by simp, hb, by simp [hc], hpost⟩
  | false =>
    obtain ⟨hhead, hrest⟩ := noFreePair_cons.mp hpost
    refine ⟨⟨b.size + 1 + c.size, false⟩, post, by simp [hb], rfl, ?_, hrest⟩
    intro y hy
    exact (hhead y hy).resolve_left (by simp [hc])

theorem join_below {pre rest : List Block} (hpre : NoFreePair (pre ++ [b]))
    (hc : c.used = false) (hhead : ∀ y ∈ rest.head?, y.used = true) (hrest : NoFreePair rest) :
    NoFreePair (pre ++ join b c ++ rest) := by
  obtain ⟨hp, -, hlast⟩ := noFreePair_append.mp hpre
  have hcr : ∀ d : Block, NoFreePair (d :: rest) := fun d =>
    noFreePair_cons.mpr ⟨fun y hy => .inr (hhead y hy), hrest⟩
  rw [List.append_assoc]
  unfold join
  cases hb : b.used with
  | true =>
    refine noFreePair_append.mpr ⟨hp, ?_, ?_⟩
    · exact noFreePair_cons.mpr ⟨fun _ _ => .inl hb, hcr c⟩
    · intro x _ y hy
      simp only [Bool.true_or, if_true, List.cons_append, List.head?_cons, Option.mem_some_iff]
        at hy
      exact .inr (hy ▸ hb)
  | false =>
    refine noFreePair_append.mpr ⟨hp, ?_, ?_⟩
    · simp only [hc, Bool.or_self, Bool.false_eq_true, if_false]
      exact hcr _
    · intro x hx y _
      exact .inl ((hlast x hx b (by simp)).resolve_right (by simp [hb]))

end Os161.Lib.Tiling

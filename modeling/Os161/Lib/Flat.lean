import Mathlib.Algebra.Ring.Nat
import Mathlib.Data.List.Range
import Mathlib.Logic.Function.Basic
import Mathlib.Tactic.Common

/-!
# Flat memory

Memory as a function from addresses of `w` bits to cells, with the addresses that have been read and written. What
is moved in one go is read before any of it is written. A long move is made of short ones of one length, upwards or
downwards; it amounts to one move if no cell is overwritten before it is read.
-/

namespace Os161.Lib

variable {w : Nat} {β : Type}
variable {a x : BitVec w} {i : Nat}

/-! ## Addresses -/

/-- The address `i` cells behind another. -/
def offset (a : BitVec w) (i : Nat) : BitVec w := a + BitVec.ofNat w i

theorem offset_zero (a : BitVec w) : offset a 0 = a := BitVec.add_zero a

theorem offset_offset (a : BitVec w) (i j : Nat) : offset (offset a i) j = offset a (i + j) := by
  unfold offset
  rw [BitVec.ofNat_add, BitVec.add_assoc]

theorem toNat_offset (h : a.toNat + i < 2 ^ w) : (offset a i).toNat = a.toNat + i := by
  unfold offset
  rw [BitVec.toNat_add, BitVec.toNat_ofNat, Nat.add_mod_mod, Nat.mod_eq_of_lt h]

/-- How far an address is behind another. -/
def distance (a x : BitVec w) : Nat := (x - a).toNat

theorem offset_distance (a x : BitVec w) : offset a (distance a x) = x := by
  unfold offset distance
  rw [BitVec.ofNat_toNat, BitVec.setWidth_eq, BitVec.add_comm, BitVec.sub_add_cancel]

theorem distance_offset (h : i < 2 ^ w) (a : BitVec w) : distance a (offset a i) = i := by
  unfold offset distance
  rw [BitVec.add_comm, BitVec.add_sub_cancel, BitVec.toNat_ofNat, Nat.mod_eq_of_lt h]

theorem offset_inj {j : Nat} (hi : i < 2 ^ w) (hj : j < 2 ^ w) (h : offset a i = offset a j) :
    i = j := by
  rw [← distance_offset hi a, h, distance_offset hj]

/-- `n` addresses from `a` on. -/
def span (a : BitVec w) (n : Nat) : List (BitVec w) := (List.range n).map (offset a)

theorem mem_span {n : Nat} : x ∈ span a n ↔ ∃ i < n, offset a i = x := by
  simp [span]

theorem mem_span_iff_distance {n : Nat} (h : n ≤ 2 ^ w) : x ∈ span a n ↔ distance a x < n := by
  rw [mem_span]
  constructor
  · rintro ⟨i, hi, rfl⟩
    rwa [distance_offset (Nat.lt_of_lt_of_le hi h)]
  · intro hx
    exact ⟨distance a x, hx, offset_distance a x⟩

theorem length_span (a : BitVec w) (n : Nat) : (span a n).length = n := by
  simp [span]

theorem span_add (a : BitVec w) (n k : Nat) : span a (n + k) = span a n ++ span (offset a n) k := by
  simp only [span, List.range_add, List.map_append, List.map_map]
  congr 2
  funext i
  exact (offset_offset a n i).symm

theorem mem_span_add {n k : Nat} :
    x ∈ span a (n + k) ↔ x ∈ span a n ∨ x ∈ span (offset a n) k := by
  rw [span_add, List.mem_append]

/-! ## Memory -/

/-- A memory, with the addresses read and written so far. -/
structure Flat (w : Nat) (β : Type) where
  cells : BitVec w → β
  reads : List (BitVec w)
  writes : List (BitVec w)

namespace Flat

variable {f : BitVec w → β} {bs : List β}

/-- A cell is read. -/
def look (m : Flat w β) (a : BitVec w) : Flat w β := { m with reads := a :: m.reads }

@[simp] theorem cells_look (m : Flat w β) (a : BitVec w) : (m.look a).cells = m.cells := rfl

@[simp] theorem reads_look (m : Flat w β) (a : BitVec w) : (m.look a).reads = a :: m.reads := rfl

@[simp] theorem writes_look (m : Flat w β) (a : BitVec w) : (m.look a).writes = m.writes := rfl

/-- `k` cells are read, and then written elsewhere. -/
def move (k : Nat) (d s : BitVec w) (m : Flat w β) : Flat w β where
  cells a := if distance d a < k then m.cells (offset s (distance d a)) else m.cells a
  reads := span s k ++ m.reads
  writes := span d k ++ m.writes

variable {m : Flat w β} {d s : BitVec w} {k n : Nat}

theorem cells_move_offset (hk : k ≤ 2 ^ w) (hi : i < k) :
    (m.move k d s).cells (offset d i) = m.cells (offset s i) := by
  show (if distance d (offset d i) < k then _ else _) = _
  rw [distance_offset (Nat.lt_of_lt_of_le hi hk), if_pos hi]

theorem cells_move_other (hk : k ≤ 2 ^ w) (h : a ∉ span d k) :
    (m.move k d s).cells a = m.cells a :=
  if_neg fun hlt => h ((mem_span_iff_distance hk).mpr hlt)

theorem eq_cells_move (hk : k ≤ 2 ^ w) (hin : ∀ i < k, f (offset d i) = m.cells (offset s i))
    (hout : ∀ a, a ∉ span d k → f a = m.cells a) : f = (m.move k d s).cells := by
  funext a
  by_cases ha : a ∈ span d k
  · obtain ⟨i, hi, rfl⟩ := mem_span.mp ha
    rw [hin i hi, cells_move_offset hk hi]
  · rw [hout a ha, cells_move_other hk ha]

/-! ## Stores -/

/-- A cell is written. -/
def store (m : Flat w β) (a : BitVec w) (b : β) : Flat w β :=
  { m with cells := Function.update m.cells a b, writes := a :: m.writes }

/-- Cells are written one after another, from an address on. -/
def storeAll (m : Flat w β) (a : BitVec w) : List β → Flat w β
  | [] => m
  | b :: bs => (m.store a b).storeAll (offset a 1) bs

theorem mem_span_succ : x ∈ span a (n + 1) ↔ x = a ∨ x ∈ span (offset a 1) n := by
  rw [Nat.add_comm, mem_span_add]
  simp [span, offset_zero]

theorem cells_storeAll_other (h : x ∉ span a bs.length) :
    (m.storeAll a bs).cells x = m.cells x := by
  induction bs generalizing m a with
  | nil => rfl
  | cons b bs ih =>
    rw [List.length_cons, mem_span_succ, not_or] at h
    rw [storeAll, ih h.2]
    exact Function.update_of_ne h.1 _ _

theorem cells_storeAll_offset (hlen : bs.length ≤ 2 ^ w)
    (hi : i < bs.length) : (m.storeAll a bs).cells (offset a i) = bs[i] := by
  induction bs generalizing m a i with
  | nil => cases hi
  | cons b bs ih =>
    rw [List.length_cons] at hlen hi
    cases i with
    | zero =>
      rw [storeAll, cells_storeAll_other]
      · rw [offset_zero]
        exact Function.update_self _ _ _
      · intro hmem
        obtain ⟨j, hj, heq⟩ := mem_span.mp hmem
        rw [offset_offset] at heq
        have := offset_inj (by omega) (by omega) heq
        omega
    | succ i =>
      have hshift : offset a (i + 1) = offset (offset a 1) i := by rw [offset_offset, Nat.add_comm]
      rw [hshift]
      exact ih (Nat.le_of_succ_le hlen) (Nat.lt_of_succ_lt_succ hi)

theorem storeAll_concat (a : BitVec w) (bs : List β) (b : β) :
    m.storeAll a (bs ++ [b]) = (m.storeAll a bs).store (offset a bs.length) b := by
  induction bs generalizing m a with
  | nil =>
    rw [List.length_nil, offset_zero]
    rfl
  | cons c bs ih =>
    rw [List.cons_append, storeAll, ih, offset_offset, List.length_cons, Nat.add_comm]
    rfl

theorem mem_writes_storeAll : x ∈ (m.storeAll a bs).writes ↔ x ∈ span a bs.length ∨ x ∈ m.writes := by
  induction bs generalizing m a with
  | nil => simp [storeAll, span]
  | cons b bs ih =>
    rw [storeAll, ih, List.length_cons, mem_span_succ]
    change _ ∨ x ∈ a :: m.writes ↔ _
    rw [List.mem_cons]
    tauto

/-! ## Cells one after another -/

/-- Cells are copied one after another, for each pair from the second address to the first. -/
def copyAll (l : List (BitVec w × BitVec w)) (f : BitVec w → β) : BitVec w → β :=
  l.foldl (fun f p => Function.update f p.1 (f p.2)) f

theorem copyAll_append (l l' : List (BitVec w × BitVec w)) (f : BitVec w → β) :
    copyAll (l ++ l') f = copyAll l' (copyAll l f) := List.foldl_append

theorem copyAll_other {l : List (BitVec w × BitVec w)} (h : a ∉ l.map Prod.fst) :
    copyAll l f a = f a := by
  induction l generalizing f with
  | nil => rfl
  | cons p rest ih =>
    rw [List.map_cons, List.mem_cons, not_or] at h
    show copyAll rest (Function.update f p.1 (f p.2)) a = f a
    rw [ih h.2, Function.update_of_ne h.1]

theorem cells_move_eq_copyAll (hk : k ≤ 2 ^ w) (h : ∀ i j, i < j → j < k → offset d i ≠ offset s j) :
    (m.move k d s).cells = copyAll ((span d k).zip (span s k)) m.cells := by
  induction k with
  | zero =>
    funext a
    rfl
  | succ k ih =>
    have hprev := ih (by omega) fun i j hij hj => h i j hij (by omega)
    rw [span_add, span_add, List.zip_append (by rw [length_span, length_span]), copyAll_append, ← hprev]
    simp only [span, List.range_one, List.map_cons, List.map_nil, offset_zero]
    show _ = Function.update (m.move k d s).cells (offset d k) ((m.move k d s).cells (offset s k))
    have hspared : (m.move k d s).cells (offset s k) = m.cells (offset s k) := by
      refine cells_move_other (by omega) fun hmem => ?_
      obtain ⟨i, hi, heq⟩ := mem_span.mp hmem
      exact h i k hi (by omega) heq
    rw [hspared]
    refine (eq_cells_move hk (fun i hi => ?_) fun a ha => ?_).symm
    · rcases Nat.lt_succ_iff_lt_or_eq.mp hi with hlt | rfl
      · have hne : offset d i ≠ offset d k := fun heq => by
          have := offset_inj (by omega) (by omega) heq
          omega
        rw [Function.update_of_ne hne, cells_move_offset (by omega) hlt]
      · rw [Function.update_self]
    · rw [mem_span_add, not_or] at ha
      have hne : a ≠ offset d k := fun heq => ha.2 (mem_span.mpr ⟨0, by omega, by rw [offset_zero, heq]⟩)
      rw [Function.update_of_ne hne, cells_move_other (by omega) ha.1]

/-! ## Moves in pieces -/

/-- `n` moves of `k` cells, upwards. -/
def moveUp (k n : Nat) (d s : BitVec w) (m : Flat w β) : Flat w β :=
  (List.range n).foldl (fun m i => m.move k (offset d (k * i)) (offset s (k * i))) m

/-- `n` moves of `k` cells, downwards. -/
def moveDown (k : Nat) : Nat → BitVec w → BitVec w → Flat w β → Flat w β
  | 0, _, _, m => m
  | n + 1, d, s, m => moveDown k n d s (m.move k (offset d (k * n)) (offset s (k * n)))

theorem moveUp_succ (k n : Nat) (d s : BitVec w) (m : Flat w β) :
    moveUp k (n + 1) d s m = (moveUp k n d s m).move k (offset d (k * n)) (offset s (k * n)) := by
  simp [moveUp, List.range_succ]

theorem mem_reads_moveUp : a ∈ (moveUp k n d s m).reads ↔ a ∈ span s (k * n) ∨ a ∈ m.reads := by
  induction n with
  | zero => simp [moveUp, span]
  | succ n ih =>
    rw [moveUp_succ]
    show a ∈ span (offset s (k * n)) k ++ _ ↔ _
    rw [List.mem_append, ih, Nat.mul_succ, mem_span_add]
    tauto

theorem mem_writes_moveUp : a ∈ (moveUp k n d s m).writes ↔ a ∈ span d (k * n) ∨ a ∈ m.writes := by
  induction n with
  | zero => simp [moveUp, span]
  | succ n ih =>
    rw [moveUp_succ]
    show a ∈ span (offset d (k * n)) k ++ _ ↔ _
    rw [List.mem_append, ih, Nat.mul_succ, mem_span_add]
    tauto

theorem cells_moveUp (hn : k * n ≤ 2 ^ w)
    (h : ∀ i j, i < j → j < k * n → offset d i ≠ offset s j) :
    (moveUp k n d s m).cells = (m.move (k * n) d s).cells := by
  induction n with
  | zero =>
    funext a
    rfl
  | succ n ih =>
    rw [Nat.mul_succ] at hn h ⊢
    have hk : k ≤ 2 ^ w := by omega
    have hkn : k * n ≤ 2 ^ w := by omega
    have hprev := ih hkn fun i j hij hj => h i j hij (by omega)
    rw [moveUp_succ]
    refine eq_cells_move hn (fun i hi => ?_) fun a ha => ?_
    · by_cases hin : i < k * n
      · -- moved before, and not by the last piece
        rw [cells_move_other hk, hprev, cells_move_offset hkn hin]
        intro hmem
        obtain ⟨j, hj, heq⟩ := mem_span.mp hmem
        rw [offset_offset] at heq
        have := offset_inj (by omega) (by omega) heq
        omega
      · -- the last piece, whose cells are as they were
        obtain ⟨j, rfl⟩ := Nat.exists_eq_add_of_le (Nat.le_of_not_lt hin)
        rw [← offset_offset, ← offset_offset, cells_move_offset hk (by omega), hprev, cells_move_other hkn]
        intro hmem
        obtain ⟨i, hi', heq⟩ := mem_span.mp hmem
        rw [offset_offset] at heq
        exact h i (k * n + j) (by omega) hi heq
    · rw [mem_span_add, not_or] at ha
      rw [cells_move_other hk ha.2, hprev, cells_move_other hkn ha.1]

theorem cells_moveDown (hn : k * n ≤ 2 ^ w)
    (h : ∀ i j, j < i → i < k * n → offset d i ≠ offset s j) :
    (moveDown k n d s m).cells = (m.move (k * n) d s).cells := by
  induction n generalizing m with
  | zero =>
    funext a
    rfl
  | succ n ih =>
    rw [Nat.mul_succ] at hn h ⊢
    have hk : k ≤ 2 ^ w := by omega
    have hkn : k * n ≤ 2 ^ w := by omega
    unfold moveDown
    rw [ih hkn fun i j hij hi => h i j hij (by omega)]
    refine eq_cells_move hn (fun i hi => ?_) fun a ha => ?_
    · by_cases hin : i < k * n
      · -- moved later, from a cell the last piece has spared
        rw [cells_move_offset hkn hin, cells_move_other hk]
        intro hmem
        obtain ⟨j, hj, heq⟩ := mem_span.mp hmem
        rw [offset_offset] at heq
        exact h (k * n + j) i (by omega) (by omega) heq
      · obtain ⟨j, rfl⟩ := Nat.exists_eq_add_of_le (Nat.le_of_not_lt hin)
        rw [cells_move_other hkn, ← offset_offset, ← offset_offset, cells_move_offset hk (by omega)]
        intro hmem
        obtain ⟨i, hi', heq⟩ := mem_span.mp hmem
        have := offset_inj (by omega) (by omega) heq
        omega
    · rw [mem_span_add, not_or] at ha
      rw [cells_move_other hkn ha.1, cells_move_other hk ha.2]

end Flat

end Os161.Lib

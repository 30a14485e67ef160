import Mathlib.Data.List.Chain
import Mathlib.Data.List.Nodup
import Mathlib.Logic.Function.Basic

/-!
# Doubly linked lists

Every node has a cell for the node behind it and one for the node in front of it. A list of nodes is doubly linked if
each two neighbours name each other. Putting a node in between two neighbours, and taking one out, change four cells.
-/

namespace Os161.Lib

variable {ι : Type}

/-- What the cells of the nodes hold. -/
structure Cells (ι : Type) where
  next : ι → Option ι
  prev : ι → Option ι

namespace Cells

variable {c : Cells ι} {a b x : ι} {l l₁ l₂ : List ι}

/-- Two nodes name each other. -/
def Linked (c : Cells ι) (a b : ι) : Prop := c.next a = some b ∧ c.prev b = some a

/-- The nodes met from a node on, in `n` steps at most. -/
def follow (f : ι → Option ι) : Nat → ι → List ι
  | 0, _ => []
  | n + 1, a =>
    match f a with
    | none => []
    | some b => b :: follow f n b

theorem follow_eq {f : ι → Option ι} (h : (a :: l).IsChain fun u v => f u = some v)
    (hlast : f ((a :: l).getLast (List.cons_ne_nil a l)) = none) {n : Nat} (hn : l.length ≤ n) : follow f n a = l := by
  induction l generalizing a n with
  | nil =>
    cases n with
    | zero => rfl
    | succ n => simp only [follow, show f a = none from hlast]
  | cons b l ih =>
    cases n with
    | zero => cases hn
    | succ n =>
      obtain ⟨hab, hrest⟩ := List.isChain_cons_cons.mp h
      simp only [follow, hab]
      rw [ih hrest (by rwa [List.getLast_cons_cons] at hlast) (Nat.le_of_succ_le_succ hn)]

theorem isChain_congr {c' : Cells ι} (h : l.IsChain c.Linked) (hnext : ∀ a ∈ l, c'.next a = c.next a)
    (hprev : ∀ a ∈ l, c'.prev a = c.prev a) : l.IsChain c'.Linked :=
  h.imp_of_mem_imp fun a b ha hb hab => ⟨(hnext a ha).trans hab.1, (hprev b hb).trans hab.2⟩

variable [DecidableEq ι]

/-- `x` is put in between `a` and `b`. -/
def insert (c : Cells ι) (a x b : ι) : Cells ι where
  next := Function.update (Function.update c.next x (some b)) a (some x)
  prev := Function.update (Function.update c.prev x (some a)) b (some x)

/-- `x` is taken out from in between `a` and `b`. -/
def remove (c : Cells ι) (a x b : ι) : Cells ι where
  next := Function.update (Function.update c.next a (some b)) x none
  prev := Function.update (Function.update c.prev b (some a)) x none

theorem isChain_insert (h : (l₁ ++ l₂).IsChain c.Linked) (hnodup : (l₁ ++ l₂).Nodup) (hx : x ∉ l₁ ++ l₂)
    (ha : a ∈ l₁.getLast?) (hb : b ∈ l₂.head?) : (l₁ ++ x :: l₂).IsChain (c.insert a x b).Linked := by
  obtain ⟨h₁, h₂, hab⟩ := List.isChain_append.mp h
  obtain ⟨-, -, hapart⟩ := List.nodup_append.mp hnodup
  have hab := hab a ha b hb
  have ha₁ := List.mem_of_getLast? ha
  have hb₂ := List.mem_of_head? hb
  rw [List.mem_append, not_or] at hx
  have hax : a ≠ x := fun heq => hx.1 (heq ▸ ha₁)
  have hbx : b ≠ x := fun heq => hx.2 (heq ▸ hb₂)
  -- A pair of neighbours other than `a` and `b` is the same in the new cells.
  have hkeep {l : List ι} (hl : l.IsChain c.Linked) (hxl : x ∉ l)
      (hne : ∀ u ∈ l, ∀ v ∈ l, ¬ (u = a ∧ v = b)) : l.IsChain (c.insert a x b).Linked := by
    refine hl.imp_of_mem_imp fun u v hu hv huv => ⟨?_, ?_⟩
    · have hua : u ≠ a := by
        rintro rfl
        exact hne u hu v hv ⟨rfl, Option.some.inj (huv.1.symm.trans hab.1)⟩
      have hux : u ≠ x := fun heq => hxl (heq ▸ hu)
      simp only [insert, Function.update_of_ne hua, Function.update_of_ne hux, huv.1]
    · have hvb : v ≠ b := by
        rintro rfl
        exact hne u hu v hv ⟨Option.some.inj (huv.2.symm.trans hab.2), rfl⟩
      have hvx : v ≠ x := fun heq => hxl (heq ▸ hv)
      simp only [insert, Function.update_of_ne hvb, Function.update_of_ne hvx, huv.2]
  refine List.isChain_append.mpr ⟨hkeep h₁ hx.1 ?_, List.isChain_cons.mpr ⟨?_, hkeep h₂ hx.2 ?_⟩, ?_⟩
  · rintro u - v hv ⟨-, rfl⟩
    exact hapart v hv v hb₂ rfl
  · intro v hv
    obtain rfl := Option.mem_unique hb hv
    exact ⟨by simp [insert, hax.symm], by simp [insert]⟩
  · rintro u hu v - ⟨rfl, -⟩
    exact hapart u ha₁ u hu rfl
  · intro u hu v hv
    obtain rfl := Option.mem_unique ha hu
    cases Option.some.inj hv
    exact ⟨by simp [insert], by simp [insert, hbx.symm]⟩

theorem isChain_remove (h : (l₁ ++ x :: l₂).IsChain c.Linked) (hnodup : (l₁ ++ x :: l₂).Nodup)
    (ha : a ∈ l₁.getLast?) (hb : b ∈ l₂.head?) : (l₁ ++ l₂).IsChain (c.remove a x b).Linked := by
  obtain ⟨h₁, h₂, hax⟩ := List.isChain_append.mp h
  obtain ⟨hxb, h₂⟩ := List.isChain_cons.mp h₂
  obtain ⟨-, hnodup₂, hapart⟩ := List.nodup_append.mp hnodup
  have hax := hax a ha x rfl
  have hxb := hxb b hb
  have ha₁ := List.mem_of_getLast? ha
  have hb₂ := List.mem_of_head? hb
  have hx₁ : x ∉ l₁ := fun hx => hapart x hx x List.mem_cons_self rfl
  have hx₂ : x ∉ l₂ := (List.nodup_cons.mp hnodup₂).1
  have hkeep {l : List ι} (hl : l.IsChain c.Linked) (hxl : x ∉ l) : l.IsChain (c.remove a x b).Linked := by
    refine hl.imp_of_mem_imp fun u v hu hv huv => ⟨?_, ?_⟩
    · have hua : u ≠ a := by
        rintro rfl
        exact hxl (Option.some.inj (huv.1.symm.trans hax.1) ▸ hv)
      have hux : u ≠ x := fun heq => hxl (heq ▸ hu)
      simp only [remove, Function.update_of_ne hux, Function.update_of_ne hua, huv.1]
    · have hvb : v ≠ b := by
        rintro rfl
        exact hxl (Option.some.inj (huv.2.symm.trans hxb.2) ▸ hu)
      have hvx : v ≠ x := fun heq => hxl (heq ▸ hv)
      simp only [remove, Function.update_of_ne hvx, Function.update_of_ne hvb, huv.2]
  refine List.isChain_append.mpr ⟨hkeep h₁ hx₁, hkeep h₂ hx₂, fun u hu v hv => ?_⟩
  obtain rfl := Option.mem_unique ha hu
  obtain rfl := Option.mem_unique hb hv
  have hne₁ : a ≠ x := fun heq => hx₁ (heq ▸ ha₁)
  have hne₂ : b ≠ x := fun heq => hx₂ (heq ▸ hb₂)
  exact ⟨by simp [remove, hne₁], by simp [remove, hne₂]⟩

end Cells

end Os161.Lib

import Mathlib.Data.List.Perm.Basic
import Mathlib.Data.List.Nodup
import Mathlib.Logic.Function.Basic

/-!
# Things in places

A family of lists is a placement of things: `place l` are the things at the place `l`. It is a proper
one when no thing is listed twice, at one place or at two; then `loc` gives the place of each thing.
-/

namespace Os161.Lib

variable {ι α : Type}
variable {l l' : ι}

/-- No thing is listed twice, and `loc` says where a thing is. -/
structure Placed (place : ι → List α) (loc : α → Option ι) : Prop where
  nodup : ∀ l, (place l).Nodup
  mem : ∀ x l, x ∈ place l ↔ loc x = some l

variable {place place' : ι → List α} {loc : α → Option ι}

theorem Placed.unique (h : Placed place loc) {x : α} (hl : x ∈ place l)
    (hl' : x ∈ place l') : l = l' :=
  Option.some.inj (((h.mem x l).mp hl).symm.trans ((h.mem x l').mp hl'))

variable [DecidableEq α]

theorem Placed.move (h : Placed place loc) (hne : l ≠ l') (xs : List α)
    (hfrom : (place l).Perm (xs ++ place' l)) (hto : (place' l').Perm (xs ++ place l'))
    (hrest : ∀ m, m ≠ l → m ≠ l' → place' m = place m) :
    Placed place' fun x => if x ∈ xs then some l' else loc x := by
  have hsplit : (xs ++ place' l).Nodup := hfrom.nodup_iff.mp (h.nodup l)
  obtain ⟨hxs, hleft, hdisj⟩ := List.nodup_append.mp hsplit
  have hloc : ∀ x ∈ xs, loc x = some l := fun x hx =>
    (h.mem x l).mp (hfrom.mem_iff.mpr (List.mem_append_left _ hx))
  have hapart : ∀ m, m ≠ l → ∀ x ∈ xs, x ∉ place m := by
    intro m hm x hx hin
    exact hm (Option.some.inj (((h.mem x m).mp hin).symm.trans (hloc x hx)))
  refine ⟨fun m => ?_, fun x m => ?_⟩
  · by_cases hml : m = l
    · exact hml ▸ hleft
    · by_cases hml' : m = l'
      · subst hml'
        refine hto.nodup_iff.mpr (List.nodup_append.mpr ⟨hxs, h.nodup m, ?_⟩)
        rintro x hx y hy rfl
        exact hapart m hml x hx hy
      · rw [hrest m hml hml']
        exact h.nodup m
  · by_cases hx : x ∈ xs
    · rw [if_pos hx, Option.some.injEq]
      constructor
      · intro hin
        by_contra hne'
        by_cases hml : m = l
        · subst hml
          exact hdisj x hx x hin rfl
        · rw [hrest m hml (Ne.symm hne')] at hin
          exact hapart m hml x hx hin
      · rintro rfl
        exact hto.mem_iff.mpr (List.mem_append_left _ hx)
    · rw [if_neg hx, ← h.mem x m]
      by_cases hml : m = l
      · subst hml
        rw [hfrom.mem_iff, List.mem_append]
        exact ⟨.inr, fun hin => hin.resolve_left hx⟩
      · by_cases hml' : m = l'
        · subst hml'
          rw [hto.mem_iff, List.mem_append]
          exact ⟨fun hin => hin.resolve_left hx, .inr⟩
        · rw [hrest m hml hml']

theorem Placed.insert (h : Placed place loc) {x : α} (hx : loc x = none)
    (hto : (place' l).Perm (x :: place l)) (hrest : ∀ m, m ≠ l → place' m = place m) :
    Placed place' (Function.update loc x (some l)) := by
  have hnot : ∀ m, x ∉ place m := by
    intro m hin
    rw [h.mem, hx] at hin
    cases hin
  refine ⟨fun m => ?_, fun y m => ?_⟩
  · by_cases hm : m = l
    · subst hm
      exact hto.nodup_iff.mpr (List.nodup_cons.mpr ⟨hnot m, h.nodup m⟩)
    · rw [hrest m hm]
      exact h.nodup m
  · by_cases hy : y = x
    · subst hy
      rw [Function.update_self, Option.some.injEq]
      constructor
      · intro hin
        by_contra hm
        rw [hrest m (Ne.symm hm)] at hin
        exact hnot m hin
      · rintro rfl
        exact hto.mem_iff.mpr List.mem_cons_self
    · rw [Function.update_of_ne hy, ← h.mem y m]
      by_cases hm : m = l
      · subst hm
        rw [hto.mem_iff, List.mem_cons]
        exact ⟨fun hin => hin.resolve_left hy, .inr⟩
      · rw [hrest m hm]

theorem Placed.remove (h : Placed place loc) {x : α} (hfrom : (place l).Perm (x :: place' l))
    (hrest : ∀ m, m ≠ l → place' m = place m) :
    Placed place' (Function.update loc x none) := by
  have hsplit := List.nodup_cons.mp (hfrom.nodup_iff.mp (h.nodup l))
  have hloc : loc x = some l := (h.mem x l).mp (hfrom.mem_iff.mpr List.mem_cons_self)
  refine ⟨fun m => ?_, fun y m => ?_⟩
  · by_cases hm : m = l
    · exact hm ▸ hsplit.2
    · rw [hrest m hm]
      exact h.nodup m
  · by_cases hy : y = x
    · subst hy
      rw [Function.update_self]
      refine ⟨fun hin => ?_, nofun⟩
      by_cases hm : m = l
      · subst hm
        exact absurd hin hsplit.1
      · rw [hrest m hm, h.mem, hloc] at hin
        exact absurd (Option.some.inj hin).symm hm
    · rw [Function.update_of_ne hy, ← h.mem y m]
      by_cases hm : m = l
      · subst hm
        rw [hfrom.mem_iff, List.mem_cons]
        exact ⟨.inr, fun hin => hin.resolve_left hy⟩
      · rw [hrest m hm]

end Os161.Lib

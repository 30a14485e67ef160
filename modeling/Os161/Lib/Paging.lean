import Mathlib.Logic.Function.Basic

/-!
# Paged stores

A set of keys is kept in fewer frames than there are keys. `map` says at which address a key is
stored, `owner` says which key a frame stores; `addr` is the address of a frame. `ReverseMap` says
that the two tables describe one relation. The keys without a frame have their contents in a
backing store, in the slot `slot` gives them.

The three moves of paging are to drop a key from its frame, to give a free frame to a key, and to
drop every key of a set. Each restores the reverse map, and the first two keep the contents of
every key, provided that writing a key out does not overwrite the slot of another key that is out.
-/

namespace Os161.Lib

variable {K A F C S : Type}
variable {a : A}

/-- The forward table and the owners of the frames agree. -/
structure ReverseMap (map : K → Option A) (addr : F → A) (owner : F → Option K) : Prop where
  forward : ∀ k a, map k = some a → ∃ f, addr f = a ∧ owner f = some k
  backward : ∀ f k, owner f = some k → map k = some (addr f)

namespace ReverseMap

variable {map : K → Option A} {addr : F → A} {owner : F → Option K}

theorem injective (h : ReverseMap map addr owner) (haddr : Function.Injective addr) {k k' : K} (hk : map k = some a) (hk' : map k' = some a) : k = k' := by
  obtain ⟨f, hf, hkf⟩ := h.forward k a hk
  obtain ⟨f', hf', hkf'⟩ := h.forward k' a hk'
  obtain rfl := haddr (hf.trans hf'.symm)
  exact Option.some.inj (hkf.symm.trans hkf')

variable [DecidableEq K] [DecidableEq F]

theorem evict (h : ReverseMap map addr owner) (haddr : Function.Injective addr) {f : F} {k : K}
    (hf : owner f = some k) :
    ReverseMap (Function.update map k none) addr (Function.update owner f none) where
  forward k' a hk' := by
    by_cases hkk : k' = k
    · rw [hkk, Function.update_self] at hk'
      cases hk'
    · rw [Function.update_of_ne hkk] at hk'
      obtain ⟨f', hf', hkf'⟩ := h.forward k' a hk'
      have hne : f' ≠ f := by
        rintro rfl
        exact hkk (Option.some.inj (hkf'.symm.trans hf))
      exact ⟨f', hf', by rw [Function.update_of_ne hne, hkf']⟩
  backward f' k' hf' := by
    by_cases hff : f' = f
    · rw [hff, Function.update_self] at hf'
      cases hf'
    · rw [Function.update_of_ne hff] at hf'
      have hmap := h.backward f' k' hf'
      have hne : k' ≠ k := by
        rintro rfl
        exact hff (haddr (Option.some.inj (hmap.symm.trans (h.backward f k' hf))))
      rw [Function.update_of_ne hne, hmap]

theorem install (h : ReverseMap map addr owner) {f : F} {k : K} (hf : owner f = none)
    (hk : map k = none) :
    ReverseMap (Function.update map k (some (addr f))) addr (Function.update owner f (some k)) where
  forward k' a hk' := by
    by_cases hkk : k' = k
    · rw [hkk, Function.update_self] at hk'
      exact ⟨f, Option.some.inj hk', by rw [Function.update_self, hkk]⟩
    · rw [Function.update_of_ne hkk] at hk'
      obtain ⟨f', hf', hkf'⟩ := h.forward k' a hk'
      have hne : f' ≠ f := by
        rintro rfl
        rw [hf] at hkf'
        cases hkf'
      exact ⟨f', hf', by rw [Function.update_of_ne hne, hkf']⟩
  backward f' k' hf' := by
    by_cases hff : f' = f
    · rw [hff, Function.update_self] at hf'
      rw [hff, Option.some.inj hf', Function.update_self]
    · rw [Function.update_of_ne hff] at hf'
      have hmap := h.backward f' k' hf'
      have hne : k' ≠ k := by
        rintro rfl
        rw [hk] at hmap
        cases hmap
      rw [Function.update_of_ne hne, hmap]

omit [DecidableEq K] [DecidableEq F] in
/-- Every key of a set loses its frame. -/
theorem drop (h : ReverseMap map addr owner) (P : K → Prop) [DecidablePred P] :
    ReverseMap (fun k => if P k then none else map k) addr
      fun f => (owner f).filter fun k => !decide (P k) where
  forward k a hk := by
    split at hk
    · cases hk
    · rename_i hP
      obtain ⟨f, hf, hkf⟩ := h.forward k a hk
      exact ⟨f, hf, by rw [hkf]; simp [hP]⟩
  backward f k hf := by
    obtain ⟨hkf, hP⟩ := Option.filter_eq_some_iff.mp hf
    rw [if_neg (by simpa using hP), h.backward f k hkf]

end ReverseMap

/-! ## Contents -/

/-- What a key holds: the memory at its address, or its slot of the backing store. -/
def contents (map : K → Option A) (mem : A → C) (slot : K → S) (back : S → C) (k : K) : C :=
  match map k with
  | some a => mem a
  | none => back (slot k)

section Contents

variable {map : K → Option A} {mem mem' : A → C} {slot : K → S} {back back' : S → C}

theorem contents_in {k : K} (h : map k = some a) : contents map mem slot back k = mem a := by
  rw [contents, h]

theorem contents_out {k : K} (h : map k = none) :
    contents map mem slot back k = back (slot k) := by
  rw [contents, h]

theorem contents_mem {k : K} (h : ∀ a, map k = some a → mem' a = mem a) :
    contents map mem' slot back k = contents map mem slot back k := by
  unfold contents
  cases hk : map k with
  | some a => exact h a hk
  | none => rfl

variable [DecidableEq K]

theorem contents_evict {k : K} (hk : map k = some a) (hback : back' (slot k) = mem a)
    {k' : K} (hother : k' ≠ k → map k' = none → back' (slot k') = back (slot k')) :
    contents (Function.update map k none) mem slot back' k' = contents map mem slot back k' := by
  by_cases hkk : k' = k
  · rw [hkk, contents_out (Function.update_self ..), hback, contents_in hk]
  · unfold contents
    rw [Function.update_of_ne hkk]
    cases hm : map k' with
    | some a' => rfl
    | none => exact hother hkk hm

theorem contents_install {k : K} (hk : map k = none) (hmem : mem' a = back (slot k))
    {k' : K} (hother : ∀ a', map k' = some a' → mem' a' = mem a') :
    contents (Function.update map k (some a)) mem' slot back k' = contents map mem slot back k' := by
  by_cases hkk : k' = k
  · rw [hkk, contents_in (Function.update_self ..), hmem, contents_out hk]
  · unfold contents
    rw [Function.update_of_ne hkk]
    cases hm : map k' with
    | some a' => exact hother a' hm
    | none => rfl

end Contents

end Os161.Lib

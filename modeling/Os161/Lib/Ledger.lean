import Mathlib.Logic.Function.Basic

/-!
# A ledger of what is taken

Things are marked as taken or not. Some are taken by others; the rest of the marked ones are held, each
in exactly one position, and a position that holds nothing holds `null`. A ledger stays right when a
position takes a thing that is not marked, or lets go of what it holds.

A ledger can be cut to some of its positions: what the other positions hold is then taken by others. What
is done with these positions, with the marks and with nothing that others have, is done on the whole
ledger.
-/

namespace Os161.Lib

variable {ι κ β : Type}

/-- What is marked is taken by others or held in one position, and never both. -/
structure Ledger (null : β) (others : β → Prop) (marked : β → Bool) (held : ι → β) : Prop where
  null_taken : others null
  others_marked : ∀ b, others b → marked b = true
  held_marked : ∀ i, held i ≠ null → marked (held i) = true
  apart : ∀ i, held i ≠ null → ¬ others (held i)
  inj : ∀ i j, held i ≠ null → held i = held j → i = j
  complete : ∀ b, marked b = true → others b ∨ ∃ i, held i = b

namespace Ledger

variable {null : β} {others : β → Prop} {marked : β → Bool} {held : ι → β}

theorem held_ne (h : Ledger null others marked held) {b : β} (hb : marked b = false) (i : ι) :
    held i ≠ b := by
  rintro rfl
  by_cases hi : held i = null
  · rw [hi, h.others_marked _ h.null_taken] at hb
    cases hb
  · rw [h.held_marked i hi] at hb
    cases hb

theorem not_others (h : Ledger null others marked held) {b : β} (hb : marked b = false) :
    ¬ others b := by
  intro ho
  rw [h.others_marked b ho] at hb
  cases hb

theorem ne_null (h : Ledger null others marked held) {b : β} (hb : marked b = false) : b ≠ null := by
  rintro rfl
  exact h.not_others hb h.null_taken

/-! ## Some of the positions -/

/-- What is taken by others, when only the positions `e` are looked at. -/
def Outside (others : β → Prop) (held : ι → β) (e : κ → ι) (b : β) : Prop :=
  others b ∨ ∃ i, (∀ k, e k ≠ i) ∧ held i = b

theorem focus (h : Ledger null others marked held) {e : κ → ι} (he : Function.Injective e) :
    Ledger null (Outside others held e) marked fun k => held (e k) := by
  refine ⟨.inl h.null_taken, ?_, fun k => h.held_marked (e k), ?_, ?_, ?_⟩
  · rintro b (hb | ⟨i, -, rfl⟩)
    · exact h.others_marked b hb
    · by_cases hi : held i = null
      · rw [hi]
        exact h.others_marked _ h.null_taken
      · exact h.held_marked i hi
  · rintro k hk (hb | ⟨i, hi, heq⟩)
    · exact h.apart _ hk hb
    · exact hi k (h.inj (e k) i hk heq.symm)
  · intro k k' hk heq
    exact he (h.inj _ _ hk heq)
  · intro b hb
    rcases h.complete b hb with ho | ⟨i, hi⟩
    · exact .inl (.inl ho)
    · by_cases hin : ∃ k, e k = i
      · obtain ⟨k, rfl⟩ := hin
        exact .inr ⟨k, hi⟩
      · exact .inl (.inr ⟨i, fun k hk => hin ⟨k, hk⟩, hi⟩)

theorem unfocus (h : Ledger null others marked held) {e : κ → ι} {marked' : β → Bool} {held' : κ → β}
    (hcut : Ledger null (Outside others held e) marked' held') {new : ι → β}
    (hin : ∀ k, new (e k) = held' k) (hout : ∀ i, (∀ k, e k ≠ i) → new i = held i) :
    Ledger null others marked' new := by
  have hsplit : ∀ i, (∃ k, e k = i) ∨ ∀ k, e k ≠ i := fun i => by
    by_cases hi : ∃ k, e k = i
    · exact .inl hi
    · exact .inr fun k hk => hi ⟨k, hk⟩
  refine ⟨h.null_taken, fun b hb => hcut.others_marked b (.inl hb), ?_, ?_, ?_, ?_⟩
  · intro i hi
    rcases hsplit i with ⟨k, rfl⟩ | hk
    · rw [hin] at hi ⊢
      exact hcut.held_marked k hi
    · rw [hout i hk]
      exact hcut.others_marked _ (.inr ⟨i, hk, rfl⟩)
  · intro i hi
    rcases hsplit i with ⟨k, rfl⟩ | hk
    · rw [hin] at hi ⊢
      exact fun ho => hcut.apart k hi (.inl ho)
    · rw [hout i hk] at hi ⊢
      exact h.apart i hi
  · intro i j hi heq
    rcases hsplit i with ⟨k, rfl⟩ | hk
    · rw [hin] at hi heq
      rcases hsplit j with ⟨k', rfl⟩ | hk'
      · rw [hin] at heq
        rw [hcut.inj k k' hi heq]
      · rw [hout j hk'] at heq
        exact (hcut.apart k hi (.inr ⟨j, hk', heq.symm⟩)).elim
    · rw [hout i hk] at hi heq
      rcases hsplit j with ⟨k', rfl⟩ | hk'
      · rw [hin] at heq
        exact (hcut.apart k' (heq ▸ hi) (.inr ⟨i, hk, heq⟩)).elim
      · rw [hout j hk'] at heq
        exact h.inj i j hi heq
  · intro b hb
    rcases hcut.complete b hb with (ho | ⟨i, hi, rfl⟩) | ⟨k, rfl⟩
    · exact .inl ho
    · exact .inr ⟨i, hout i hi⟩
    · exact .inr ⟨e k, hin k⟩

/-! ## Taking and letting go -/

variable [DecidableEq ι] [DecidableEq β]

theorem take (h : Ledger null others marked held) {b : β} (hb : marked b = false) {i : ι}
    (hi : held i = null) :
    Ledger null others (Function.update marked b true) (Function.update held i b) := by
  have hother : ∀ j, j ≠ i → Function.update held i b j = held j := fun j hj =>
    Function.update_of_ne hj _ _
  refine ⟨h.null_taken, ?_, ?_, ?_, ?_, ?_⟩
  · intro b' hb'
    by_cases heq : b' = b
    · subst heq
      exact Function.update_self ..
    · rw [Function.update_of_ne heq]
      exact h.others_marked b' hb'
  · intro j hj
    by_cases hji : j = i
    · subst hji
      rw [Function.update_self, Function.update_self]
    · rw [hother j hji] at hj ⊢
      rw [Function.update_of_ne (h.held_ne hb j)]
      exact h.held_marked j hj
  · intro j hj
    by_cases hji : j = i
    · subst hji
      rw [Function.update_self]
      exact h.not_others hb
    · rw [hother j hji] at hj ⊢
      exact h.apart j hj
  · intro j k hj hjk
    by_cases hji : j = i
    · subst hji
      by_cases hkj : k = j
      · exact hkj.symm
      · rw [Function.update_self, hother k hkj] at hjk
        exact absurd hjk.symm (h.held_ne hb k)
    · rw [hother j hji] at hj hjk
      by_cases hki : k = i
      · subst hki
        rw [Function.update_self] at hjk
        exact absurd hjk (h.held_ne hb j)
      · rw [hother k hki] at hjk
        exact h.inj j k hj hjk
  · intro b' hb'
    by_cases heq : b' = b
    · subst heq
      exact .inr ⟨i, Function.update_self ..⟩
    · rw [Function.update_of_ne heq] at hb'
      rcases h.complete b' hb' with ho | ⟨j, hj⟩
      · exact .inl ho
      · by_cases hji : j = i
        · subst hji
          rw [← hj, hi]
          exact .inl h.null_taken
        · exact .inr ⟨j, (hother j hji).trans hj⟩

omit [DecidableEq ι] in
/-- Others take what is not marked. -/
theorem takenByOthers (h : Ledger null others marked held) {b : β} (hb : marked b = false) :
    Ledger null (fun b' => others b' ∨ b' = b) (Function.update marked b true) held := by
  have hmarked : ∀ b', marked b' = true → Function.update marked b true b' = true := by
    intro b' hb'
    rw [Function.update_apply]
    split
    · rfl
    · exact hb'
  refine ⟨.inl h.null_taken, ?_, fun i hi => hmarked _ (h.held_marked i hi), ?_, h.inj, ?_⟩
  · rintro b' (hb' | rfl)
    · exact hmarked b' (h.others_marked b' hb')
    · exact Function.update_self ..
  · rintro i hi (ho | heq)
    · exact h.apart i hi ho
    · exact h.held_ne hb i heq
  · intro b' hb'
    by_cases heq : b' = b
    · exact .inl (.inr heq)
    · rw [Function.update_of_ne heq] at hb'
      exact (h.complete b' hb').imp .inl id

theorem release (h : Ledger null others marked held) {i : ι} (hi : held i ≠ null) :
    Ledger null others (Function.update marked (held i) false) (Function.update held i null) := by
  have hother : ∀ j, j ≠ i → Function.update held i null j = held j := fun j hj =>
    Function.update_of_ne hj _ _
  refine ⟨h.null_taken, ?_, ?_, ?_, ?_, ?_⟩
  · intro b hb
    have hne : b ≠ held i := by
      rintro rfl
      exact h.apart i hi hb
    rw [Function.update_of_ne hne]
    exact h.others_marked b hb
  · intro j hj
    by_cases hji : j = i
    · subst hji
      rw [Function.update_self] at hj
      exact absurd rfl hj
    · rw [hother j hji] at hj ⊢
      rw [Function.update_of_ne fun heq => hji (h.inj j i hj heq)]
      exact h.held_marked j hj
  · intro j hj
    by_cases hji : j = i
    · subst hji
      rw [Function.update_self] at hj
      exact absurd rfl hj
    · rw [hother j hji] at hj ⊢
      exact h.apart j hj
  · intro j k hj hjk
    by_cases hji : j = i
    · subst hji
      rw [Function.update_self] at hj
      exact absurd rfl hj
    · rw [hother j hji] at hj hjk
      by_cases hki : k = i
      · subst hki
        rw [Function.update_self] at hjk
        exact absurd hjk hj
      · rw [hother k hki] at hjk
        exact h.inj j k hj hjk
  · intro b hb
    by_cases heq : b = held i
    · subst heq
      rw [Function.update_self] at hb
      cases hb
    · rw [Function.update_of_ne heq] at hb
      rcases h.complete b hb with ho | ⟨j, hj⟩
      · exact .inl ho
      · refine .inr ⟨j, ?_⟩
        rw [hother j]
        · exact hj
        · rintro rfl
          exact heq hj.symm

end Ledger

end Os161.Lib

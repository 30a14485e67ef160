import Mathlib.Data.Fintype.Card
import Os161.Lib.Program

/-!
# Programs with a bound on their recursion

A recursive program is given how deep it may call itself, and where that is not enough it stops with the
fault `stop`. It keeps a log of its calls. `Below` compares the program under two bounds, and `Deep` says that
it runs out only after that many calls. If the calls are of finitely many kinds, a program that makes none of
them twice ends.
-/

namespace Os161.Lib

section Bounded

variable {ε σ α β γ : Type} (log : σ → List γ) (stop : ε)
variable {c : Prop} {x' : EStateM ε σ α}

/-- The program only adds to the log. -/
def Extends (x : EStateM ε σ α) : Prop := ∀ s, log s <:+ log (leaves (x s))

/-- `x` does what `y` does, or runs out of depth on the way. -/
def Below (x y : EStateM ε σ α) : Prop :=
  ∀ s, x s = y s ∨ ∃ t, x s = .error stop t ∧ log t <:+ log (leaves (y s))

/-- Where the program runs out of depth, it has made `k` calls. -/
def Deep (k : Nat) (x : EStateM ε σ α) : Prop :=
  ∀ s t, x s = .error stop t → (log s).length + k ≤ (log t).length

variable {log stop} {x y : EStateM ε σ α} {f g : α → EStateM ε σ β} {k : Nat}

/-! ## Two bounds -/

theorem Below.refl (x : EStateM ε σ α) : Below log stop x x := fun _ => .inl rfl

theorem Below.throw (hy : Extends log y) : Below log stop (throw stop) y :=
  fun s => .inr ⟨s, rfl, hy s⟩

theorem Below.bind (hx : Below log stop x y) (hf : ∀ a, Below log stop (f a) (g a))
    (hg : ∀ a, Extends log (g a)) : Below log stop (x >>= f) (y >>= g) := by
  intro s
  rw [bind_apply, bind_apply]
  rcases hx s with hxy | ⟨t, hxt, hlog⟩
  · rw [hxy]
    cases y s with
    | error e t => exact .inl rfl
    | ok a t => exact hf a t
  · rw [hxt]
    refine .inr ⟨t, rfl, ?_⟩
    cases hy : y s with
    | error e u => rwa [hy] at hlog
    | ok a u =>
      rw [hy] at hlog
      exact hlog.trans (hg a u)

/-! ## The number of calls -/

theorem Deep.of_ne (h : ∀ s t, x s ≠ .error stop t) : Deep log stop k x :=
  fun s t hx => absurd hx (h s t)

theorem Deep.bind (hx : Deep log stop k x) (hlog : Extends log x) (hf : ∀ a, Deep log stop k (f a)) :
    Deep log stop k (x >>= f) := by
  intro s t h
  rw [bind_apply] at h
  cases hxs : x s with
  | error e u =>
    rw [hxs] at h
    cases h
    exact hx s t hxs
  | ok a u =>
    rw [hxs] at h
    have hle := (hlog s).length_le
    rw [hxs] at hle
    have := hf a u t h
    exact Nat.le_trans (Nat.add_le_add_right hle k) this

theorem Deep.call {enter : σ → σ} {c : σ → γ} (hlog : ∀ s, log (enter s) = c s :: log s)
    (h : Deep log stop k y) : Deep log stop (k + 1) (modify enter >>= fun _ => y) := by
  intro s t hy
  have := h (enter s) t hy
  rw [hlog, List.length_cons] at this
  omega

/-! ## Programs that end -/

theorem ends_iff_nodup [Fintype γ] {p : Nat → EStateM ε σ α}
    (hbelow : ∀ m n, m ≤ n → Below log stop (p m) (p n)) (hdeep : ∀ n, Deep log stop n (p n)) (s : σ) :
    (∃ n, (∀ t, p n s ≠ .error stop t) ∧ (log (leaves (p n s))).Nodup) ↔
      ∀ n, (log (leaves (p n s))).Nodup := by
  constructor
  · rintro ⟨n, hends, hnodup⟩ m
    rcases Nat.le_total m n with hmn | hnm
    · rcases hbelow m n hmn s with heq | ⟨t, heq, hsuffix⟩
      · rwa [heq]
      · rw [heq]
        exact hnodup.sublist hsuffix.sublist
    · rcases hbelow n m hnm s with heq | ⟨t, heq, _⟩
      · rwa [← heq]
      · exact absurd heq (hends t)
  · intro hnodup
    refine ⟨Fintype.card γ + 1, ?_, hnodup _⟩
    intro t ht
    have hlen := hdeep _ s t ht
    have hcard := (hnodup (Fintype.card γ + 1)).length_le_card
    rw [ht, leaves_error] at hcard
    omega

end Bounded

end Os161.Lib

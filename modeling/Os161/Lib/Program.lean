import Mathlib.Algebra.Ring.Nat
import Mathlib.Tactic.Common

/-!
# Programs that stop with their state

A program over a state `σ` ends with a value or stops with a fault, and either way it leaves the
state it reached (`EStateM`). Stopping keeps the state because a property of every state a system
goes through has to be read at the state a failed assertion or a wild access leaves behind, not
only at the states normal returns leave.

`Triple P x Q E` is the one judgement: from `P` the program either returns with `Q` or stops with
`E`. `Keeps I x` is the case of an invariant, kept by both endings. The rules follow the shape of
the program: one per monad operation, one per control structure, and the rule of consequence.
-/

namespace Os161.Lib

variable {ε σ α β : Type}

/-- The state a program leaves, whichever way it ends. -/
def leaves : EStateM.Result ε σ α → σ
  | .ok _ s => s
  | .error _ s => s

@[simp] theorem leaves_ok (a : α) (s : σ) : leaves (.ok a s : EStateM.Result ε σ α) = s := rfl

@[simp] theorem leaves_error (e : ε) (s : σ) :
    leaves (.error e s : EStateM.Result ε σ α) = s := rfl

/-- How a program ends. -/
def answer : EStateM.Result ε σ α → Except ε α
  | .ok a _ => .ok a
  | .error e _ => .error e

theorem eq_ok_of_answer {x : EStateM.Result ε σ α} {a : α} (h : answer x = .ok a) : x = .ok a (leaves x) := by
  cases x with
  | ok b s =>
    cases h
    rfl
  | error e s => cases h

theorem eq_error_of_answer {x : EStateM.Result ε σ α} {e : ε} (h : answer x = .error e) : x = .error e (leaves x) := by
  cases x with
  | ok b s => cases h
  | error e s =>
    cases h
    rfl

/-! ## Running a program step by step -/

@[simp] theorem pure_apply (a : α) (s : σ) : (pure a : EStateM ε σ α) s = .ok a s := rfl

@[simp] theorem get_apply (s : σ) : (get : EStateM ε σ σ) s = .ok s s := rfl

@[simp] theorem modify_apply (f : σ → σ) (s : σ) :
    (modify f : EStateM ε σ PUnit) s = .ok ⟨⟩ (f s) := rfl

@[simp] theorem throw_apply (e : ε) (s : σ) : (throw e : EStateM ε σ α) s = .error e s := rfl

theorem bind_apply (x : EStateM ε σ α) (f : α → EStateM ε σ β) (s : σ) :
    (x >>= f) s = match x s with
      | .ok a s' => f a s'
      | .error e s' => .error e s' := rfl

theorem bind_ok {x : EStateM ε σ α} {f : α → EStateM ε σ β} {s s' : σ} {a : α}
    (h : x s = .ok a s') : (x >>= f) s = f a s' := by
  rw [bind_apply, h]

theorem bind_error {x : EStateM ε σ α} {f : α → EStateM ε σ β} {s s' : σ} {e : ε}
    (h : x s = .error e s') : (x >>= f) s = .error e s' := by
  rw [bind_apply, h]

theorem of_bind_ok {x : EStateM ε σ α} {f : α → EStateM ε σ β} {s s' : σ} {b : β}
    (h : (x >>= f) s = .ok b s') : ∃ a t, x s = .ok a t ∧ f a t = .ok b s' := by
  rw [bind_apply] at h
  cases hx : x s with
  | ok a t => rw [hx] at h; exact ⟨a, t, rfl, h⟩
  | error e t => rw [hx] at h; cases h

theorem forM_cons_ok {g : α → EStateM ε σ PUnit} {c : α} {l : List α} {s s' : σ} {u : PUnit}
    (h : g c s = .ok u s') : (c :: l).forM g s = l.forM g s' :=
  bind_ok h

theorem leaves_bind_pure (x : EStateM ε σ α) (b : β) (s : σ) :
    leaves ((x >>= fun _ => pure b) s) = leaves (x s) := by
  rw [bind_apply]
  cases x s <;> rfl

/-! ## The judgement -/

/-- From `P` the program returns with `Q` or stops with `E`. -/
def Triple (P : σ → Prop) (x : EStateM ε σ α) (Q : α → σ → Prop) (E : ε → σ → Prop) : Prop :=
  ∀ s, P s → match x s with
    | .ok a s' => Q a s'
    | .error e s' => E e s'

section Rules

variable {P P' R : σ → Prop} {x : EStateM ε σ α} {f : α → EStateM ε σ β}
  {Q Q' : α → σ → Prop} {S : β → σ → Prop} {E E' : ε → σ → Prop}

theorem Triple.of_ok (h : Triple P x Q E) {s s' : σ} {a : α} (hs : P s) (hx : x s = .ok a s') :
    Q a s' := by
  have := h s hs
  rw [hx] at this
  exact this

theorem Triple.of_error (h : Triple P x Q E) {s s' : σ} {e : ε} (hs : P s)
    (hx : x s = .error e s') : E e s' := by
  have := h s hs
  rw [hx] at this
  exact this

theorem Triple.any (x : EStateM ε σ α) :
    Triple (fun _ => True) x (fun _ _ => True) fun _ _ => True := by
  intro s _
  cases x s <;> trivial

theorem Triple.pure {a : α} (h : ∀ s, P s → Q a s) : Triple P (pure a : EStateM ε σ α) Q E :=
  fun s hs => h s hs

theorem Triple.bind (hx : Triple P x Q E) (hf : ∀ a, Triple (Q a) (f a) S E) :
    Triple P (x >>= f) S E := by
  intro s hs
  rw [bind_apply]
  cases hxs : x s with
  | ok a t => exact hf a t (hx.of_ok hs hxs)
  | error e t => exact hx.of_error hs hxs

theorem Triple.get {f : σ → EStateM ε σ β} (h : ∀ s, Triple (fun t => t = s ∧ P s) (f s) S E) :
    Triple P ((get : EStateM ε σ σ) >>= f) S E := by
  intro s hs
  exact h s s ⟨rfl, hs⟩

theorem Triple.modify {g : σ → σ} {Q : PUnit → σ → Prop} (h : ∀ s, P s → Q ⟨⟩ (g s)) :
    Triple P (modify g : EStateM ε σ PUnit) Q E :=
  fun s hs => h s hs

theorem Triple.throw {e : ε} (h : ∀ s, P s → E e s) : Triple P (throw e : EStateM ε σ α) Q E :=
  fun s hs => h s hs

theorem Triple.ite {c : Prop} [Decidable c] {y : EStateM ε σ α}
    (hx : c → Triple P x Q E) (hy : ¬ c → Triple P y Q E) :
    Triple P (if c then x else y) Q E := by
  split
  · exact hx ‹_›
  · exact hy ‹_›

theorem Triple.conseq (h : Triple P' x Q' E') (hP : ∀ s, P s → P' s)
    (hQ : ∀ a s, Q' a s → Q a s) (hE : ∀ e s, E' e s → E e s) : Triple P x Q E := by
  intro s hs
  have := h s (hP s hs)
  cases hx : x s with
  | ok a t => rw [hx] at this; exact hQ a t this
  | error e t => rw [hx] at this; exact hE e t this

end Rules

/-! ## Invariants -/

/-- `I` survives the program, whether it returns or stops, and it stops only with a fault in `E`. -/
def Safe (I : σ → Prop) (E : ε → Prop) (x : EStateM ε σ α) : Prop :=
  Triple I x (fun _ => I) (fun e s => I s ∧ E e)

/-- `I` survives the program, however it stops. -/
abbrev Keeps (I : σ → Prop) (x : EStateM ε σ α) : Prop := Safe I (fun _ => True) x

section Invariants

variable {I J : σ → Prop} {E : ε → Prop} {x : EStateM ε σ α} {f : α → EStateM ε σ β}

theorem Safe.leaves_of {P : σ → Prop} (h : Triple P x (fun _ => I) fun e s => I s ∧ E e) {s : σ}
    (hs : P s) : I (leaves (x s)) := by
  cases hx : x s with
  | ok a t => exact h.of_ok hs hx
  | error e t => exact (h.of_error hs hx).1

theorem Safe.leaves (h : Safe I E x) {s : σ} (hs : I s) : I (leaves (x s)) := Safe.leaves_of h hs

theorem Safe.fault (h : Safe I E x) {s t : σ} {e : ε} (hs : I s) (hx : x s = .error e t) : E e :=
  (Triple.of_error h hs hx).2

theorem Safe.pure (a : α) : Safe I E (pure a : EStateM ε σ α) := Triple.pure fun _ h => h

theorem Safe.throw {e : ε} (he : E e) : Safe I E (throw e : EStateM ε σ α) :=
  Triple.throw fun _ h => ⟨h, he⟩

theorem Safe.get : Safe I E (get : EStateM ε σ σ) := fun _ h => h

theorem Safe.modify {g : σ → σ} (h : ∀ s, I s → I (g s)) :
    Safe I E (modify g : EStateM ε σ PUnit) := Triple.modify h

theorem Safe.bind (hx : Safe I E x) (hf : ∀ a, Safe I E (f a)) : Safe I E (x >>= f) :=
  Triple.bind hx hf

theorem Safe.get_bind {f : σ → EStateM ε σ β}
    (h : ∀ s, I s → Triple (fun t => t = s) (f s) (fun _ => I) (fun e s => I s ∧ E e)) :
    Safe I E ((MonadState.get : EStateM ε σ σ) >>= f) :=
  Triple.get fun s t ht => h s ht.2 t ht.1

theorem Safe.ite {c : Prop} [Decidable c] {y : EStateM ε σ α} (hx : c → Safe I E x)
    (hy : ¬ c → Safe I E y) : Safe I E (if c then x else y) :=
  Triple.ite hx hy

theorem Safe.forM {γ : Type} {g : γ → EStateM ε σ PUnit} (l : List γ)
    (h : ∀ c ∈ l, Safe I E (g c)) : Safe I E (l.forM g) := by
  induction l with
  | nil => exact Safe.pure _
  | cons c l ih =>
    exact Safe.bind (h c List.mem_cons_self) fun _ =>
      ih fun d hd => h d (List.mem_cons_of_mem _ hd)

end Invariants

end Os161.Lib

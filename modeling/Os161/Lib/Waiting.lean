import Mathlib.Algebra.Ring.Nat
import Mathlib.Tactic.Common

/-!
# Programs that wait

A program over a state `σ` that may wait for other programs: between two waits it runs alone. It ends
with a value, with an error it returns to its caller, or with a panic that stops the system; an error
leaves the state as it is, and the caller may go on from there (`attempt`).

`run` is what a program does when nobody else runs, and `wp` what is known of that: `wp x Q E s` says
that from `s` the program returns with `Q` or stops with `E`. Each operation has its rule for `wp` as an
equivalence, so that a program is gone through by rewriting.
-/

namespace Os161.Lib

/-- How a program stops: with an error for its caller, or with a panic. -/
inductive Stop (ε π : Type) where
  | err (e : ε)
  | panic (p : π)
deriving DecidableEq

/-- A program that reads and writes the state, stops, or waits until something holds of the state. -/
inductive Prog (σ ε π α : Type) where
  | pure (a : α)
  | stop (e : Stop ε π)
  | get (k : σ → Prog σ ε π α)
  | set (s : σ) (k : Prog σ ε π α)
  | await (ready : σ → Bool) (k : Prog σ ε π α)

namespace Prog

variable {σ ε π α β : Type}
variable {a : α} {R : β → σ → Prop} {c : Prop} {y : Prog σ ε π α} {t : σ}

/-- One program after the other. -/
def bind : Prog σ ε π α → (α → Prog σ ε π β) → Prog σ ε π β
  | .pure a, f => f a
  | .stop e, _ => .stop e
  | .get k, f => .get fun s => (k s).bind f
  | .set s k, f => .set s (k.bind f)
  | .await ready k, f => .await ready (k.bind f)

instance : Monad (Prog σ ε π) where
  pure := .pure
  bind := bind

/-- The state. -/
def read : Prog σ ε π σ := .get .pure

/-- Changing the state. -/
def modify (f : σ → σ) : Prog σ ε π Unit := .get fun s => .set (f s) (.pure ())

/-- Returning an error. -/
def err (e : ε) : Prog σ ε π α := .stop (.err e)

/-- Stopping the system. -/
def panic (p : π) : Prog σ ε π α := .stop (.panic p)

/-- Waiting until something holds. -/
def waitUntil (ready : σ → Bool) : Prog σ ε π Unit := .await ready (.pure ())

/-- An assertion. -/
def assert (p : π) (c : Bool) : Prog σ ε π Unit := if c then .pure () else .stop (.panic p)

/-- The error a program returns, as a value. -/
def attempt : Prog σ ε π α → Prog σ ε π (Except ε α)
  | .pure a => .pure (.ok a)
  | .stop (.err e) => .pure (.error e)
  | .stop (.panic p) => .stop (.panic p)
  | .get k => .get fun s => (k s).attempt
  | .set s k => .set s k.attempt
  | .await ready k => .await ready k.attempt

/-! ## Running alone -/

/-- What a program does when no other runs: what it waits for comes. -/
def run : Prog σ ε π α → σ → Except (Stop ε π) α × σ
  | .pure a, s => (.ok a, s)
  | .stop e, s => (.error e, s)
  | .get k, s => (k s).run s
  | .set s k, _ => k.run s
  | .await _ k, s => k.run s

theorem run_bind (x : Prog σ ε π α) (f : α → Prog σ ε π β) (s : σ) :
    (x >>= f).run s = match x.run s with
      | (.ok a, t) => (f a).run t
      | (.error e, t) => (.error e, t) := by
  show (x.bind f).run s = _
  induction x generalizing s with
  | pure a => rfl
  | stop e => rfl
  | get k ih => exact ih s s
  | set t k ih => exact ih t
  | await ready k ih => exact ih s

theorem run_attempt (x : Prog σ ε π α) (s : σ) :
    x.attempt.run s = match x.run s with
      | (.ok a, t) => (.ok (.ok a), t)
      | (.error (.err e), t) => (.ok (.error e), t)
      | (.error (.panic p), t) => (.error (.panic p), t) := by
  induction x generalizing s with
  | pure a => rfl
  | stop e => cases e <;> rfl
  | get k ih => exact ih s s
  | set t k ih => exact ih t
  | await ready k ih => exact ih s

theorem run_eq_ok {x : Prog σ ε π α} {s : σ} (h : (x.run s).1 = .ok a) :
    x.run s = (.ok a, (x.run s).2) := Prod.ext h rfl

/-! ## What is known of a run -/

/-- From `s` the program returns with `Q` or stops with `E`. -/
def wp (x : Prog σ ε π α) (Q : α → σ → Prop) (E : Stop ε π → σ → Prop) (s : σ) : Prop :=
  match x.run s with
  | (.ok a, t) => Q a t
  | (.error e, t) => E e t

variable {Q Q' : α → σ → Prop} {E E' : Stop ε π → σ → Prop} {s : σ} {x : Prog σ ε π α}

theorem wp.mono (h : wp x Q E s) (hQ : ∀ a t, Q a t → Q' a t) (hE : ∀ e t, E e t → E' e t) :
    wp x Q' E' s := by
  unfold wp at *
  split at h
  · exact hQ _ _ h
  · exact hE _ _ h

@[simp] theorem wp_pure (a : α) : wp (Pure.pure a : Prog σ ε π α) Q E s ↔ Q a s := Iff.rfl

@[simp] theorem wp_bind (f : α → Prog σ ε π β) :
    wp (x >>= f) R E s ↔ wp x (fun a t => wp (f a) R E t) E s := by
  unfold wp
  rw [run_bind]
  rcases x.run s with ⟨_ | _, t⟩ <;> exact Iff.rfl

@[simp] theorem wp_read {Q : σ → σ → Prop} : wp (read : Prog σ ε π σ) Q E s ↔ Q s s := Iff.rfl

@[simp] theorem wp_modify {Q : Unit → σ → Prop} (f : σ → σ) :
    wp (modify f : Prog σ ε π Unit) Q E s ↔ Q () (f s) := Iff.rfl

@[simp] theorem wp_err (e : ε) : wp (err e : Prog σ ε π α) Q E s ↔ E (.err e) s := Iff.rfl

@[simp] theorem wp_panic (p : π) : wp (panic p : Prog σ ε π α) Q E s ↔ E (.panic p) s := Iff.rfl

@[simp] theorem wp_waitUntil {Q : Unit → σ → Prop} (ready : σ → Bool) :
    wp (waitUntil ready : Prog σ ε π Unit) Q E s ↔ Q () s := Iff.rfl

@[simp] theorem wp_assert {Q : Unit → σ → Prop} (p : π) (c : Bool) :
    wp (assert p c : Prog σ ε π Unit) Q E s ↔ if c then Q () s else E (.panic p) s := by
  cases c <;> exact Iff.rfl

@[simp] theorem wp_attempt {R : Except ε α → σ → Prop} :
    wp x.attempt R E s ↔ wp x (fun a t => R (.ok a) t)
      (fun e t => match e with
        | .err n => R (.error n) t
        | .panic p => E (.panic p) t) s := by
  unfold wp
  rw [run_attempt]
  rcases x.run s with ⟨(_ | _) | _, t⟩ <;> exact Iff.rfl

@[simp] theorem wp_ite [Decidable c] :
    wp (if c then x else y) Q E s ↔ if c then wp x Q E s else wp y Q E s := by
  split <;> exact Iff.rfl

theorem wp.of_run (h : wp x Q E s) (hrun : x.run s = (.ok a, t)) : Q a t := by
  unfold wp at h
  rw [hrun] at h
  exact h

theorem wp.returns (h : wp x Q (fun _ _ => False) s) : ∃ a t, x.run s = (.ok a, t) ∧ Q a t := by
  unfold wp at h
  split at h
  · exact ⟨_, _, ‹_›, h⟩
  · exact h.elim

theorem run_of_wp (h : wp x (fun b u => b = a ∧ u = t) (fun _ _ => False) s) : x.run s = (.ok a, t) := by
  obtain ⟨_, _, hrun, rfl, rfl⟩ := h.returns
  exact hrun

/-! ## Runs whose steps are of one kind -/

/-- Each change of the state by the program's run from `s` is one of `r`. -/
def Along (r : σ → σ → Prop) : Prog σ ε π α → σ → Prop
  | .pure _, _ => True
  | .stop _, _ => True
  | .get k, s => (k s).Along r s
  | .set t k, s => r s t ∧ k.Along r t
  | .await _ k, s => k.Along r s

instance Along.decidable (r : σ → σ → Prop) [DecidableRel r] : ∀ (x : Prog σ ε π α) (s : σ), Decidable (Along r x s)
  | .pure _, _ => .isTrue trivial
  | .stop _, _ => .isTrue trivial
  | .get k, s => Along.decidable r (k s) s
  | .set t k, s => @instDecidableAnd _ _ (inferInstanceAs (Decidable (r s t))) (Along.decidable r k t)
  | .await _ k, s => Along.decidable r k s

section Along

variable {r : σ → σ → Prop}

theorem along_bind (f : α → Prog σ ε π β) :
    Along r (x >>= f) s ↔ Along r x s ∧ wp x (fun a t => Along r (f a) t) (fun _ _ => True) s := by
  show Along r (x.bind f) s ↔ _
  induction x generalizing s with
  | pure a => exact (and_iff_right trivial).symm
  | stop e => exact (and_self_iff (a := True)).symm
  | get k ih => exact ih s
  | set t k ih => exact (and_congr_right fun _ => ih).trans (and_assoc (b := k.Along r t)).symm
  | await ready k ih => exact ih

theorem along_attempt : Along r x.attempt s ↔ Along r x s := by
  induction x generalizing s with
  | pure a => exact Iff.rfl
  | stop e => cases e <;> exact Iff.rfl
  | get k ih => exact ih s
  | set t k ih => exact and_congr_right fun _ => ih
  | await ready k ih => exact ih

theorem along_of_forall (h : ∀ s t, r s t) (x : Prog σ ε π α) (s : σ) : Along r x s := by
  induction x generalizing s with
  | pure a => trivial
  | stop e => trivial
  | get k ih => exact ih s s
  | set t k ih => exact ⟨h s t, ih t⟩
  | await ready k ih => exact ih s

/-- From `s` the program returns with `Q` or stops with `E`, if the steps of its run are of `r`. -/
def wpAlong (r : σ → σ → Prop) (x : Prog σ ε π α) (Q : α → σ → Prop) (E : Stop ε π → σ → Prop) (s : σ) : Prop :=
  Along r x s → wp x Q E s

theorem wp.along (h : wp x Q E s) : wpAlong r x Q E s := fun _ => h

theorem wpAlong.mono (h : wpAlong r x Q E s) (hQ : ∀ a t, Q a t → Q' a t) (hE : ∀ e t, E e t → E' e t) :
    wpAlong r x Q' E' s := fun halong => (h halong).mono hQ hE

theorem wpAlong.wp (h : wpAlong (fun _ _ => True) x Q E s) : wp x Q E s := h (along_of_forall (fun _ _ => trivial) x s)

@[simp] theorem wpAlong_pure (a : α) : wpAlong r (Pure.pure a : Prog σ ε π α) Q E s ↔ Q a s :=
  ⟨fun h => h trivial, fun h _ => h⟩

@[simp] theorem wpAlong_err (e : ε) : wpAlong r (err e : Prog σ ε π α) Q E s ↔ E (.err e) s :=
  ⟨fun h => h trivial, fun h _ => h⟩

@[simp] theorem wpAlong_panic (p : π) : wpAlong r (panic p : Prog σ ε π α) Q E s ↔ E (.panic p) s :=
  ⟨fun h => h trivial, fun h _ => h⟩

@[simp] theorem wpAlong_read {Q : σ → σ → Prop} : wpAlong r (read : Prog σ ε π σ) Q E s ↔ Q s s :=
  ⟨fun h => h trivial, fun h _ => h⟩

@[simp] theorem wpAlong_modify {Q : Unit → σ → Prop} (f : σ → σ) :
    wpAlong r (modify f : Prog σ ε π Unit) Q E s ↔ (r s (f s) → Q () (f s)) :=
  ⟨fun h hr => h ⟨hr, trivial⟩, fun h hr => h hr.1⟩

@[simp] theorem wpAlong_waitUntil {Q : Unit → σ → Prop} (ready : σ → Bool) :
    wpAlong r (waitUntil ready : Prog σ ε π Unit) Q E s ↔ Q () s :=
  ⟨fun h => h trivial, fun h _ => h⟩

@[simp] theorem wpAlong_assert {Q : Unit → σ → Prop} (p : π) (c : Bool) :
    wpAlong r (assert p c : Prog σ ε π Unit) Q E s ↔ if c then Q () s else E (.panic p) s := by
  cases c
  · exact wpAlong_panic p
  · exact wpAlong_pure ()

@[simp] theorem wpAlong_bind (f : α → Prog σ ε π β) :
    wpAlong r (x >>= f) R E s ↔ wpAlong r x (fun a t => wpAlong r (f a) R E t) E s := by
  unfold wpAlong
  rw [along_bind]
  unfold wp
  rw [run_bind]
  rcases x.run s with ⟨_ | a, t⟩
  · exact imp_congr_left (and_iff_left trivial)
  · exact and_imp

@[simp] theorem wpAlong_attempt {R : Except ε α → σ → Prop} :
    wpAlong r x.attempt R E s ↔ wpAlong r x (fun a t => R (.ok a) t)
      (fun e t => match e with
        | .err n => R (.error n) t
        | .panic p => E (.panic p) t) s := by
  unfold wpAlong
  rw [along_attempt, wp_attempt]

@[simp] theorem wpAlong_ite [Decidable c] :
    wpAlong r (if c then x else y) Q E s ↔ if c then wpAlong r x Q E s else wpAlong r y Q E s := by
  split <;> exact Iff.rfl

end Along

end Prog

end Os161.Lib

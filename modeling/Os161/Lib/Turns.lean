import Mathlib.Logic.Function.Basic
import Os161.Lib.Waiting

/-!
# Programs that take turns

Several programs over one state. A turn takes one of them from where it is to its next wait or to its end, and nobody
else runs meanwhile. A sequence of turns is given by who takes them, so that what holds of every sequence holds of every
way in which control passes from one program to another where it waits.

Two rules say what comes of it. A program that keeps an invariant at its waits, and goes on from any state with the
invariant, ends as it does alone, whatever the others do that keep it too (`Team.turns_steady`). Two programs of which
none takes a turn while the other is under way do what they do one after the other (`Team.turns_apart`).
-/

namespace Os161.Lib

variable {ι σ ε π α β : Type}
variable {r : Except (Stop ε π) α}

/-! ## Turns -/

/-- Where a program is: it has not begun, it waits, or it has ended. -/
inductive Thread (σ ε π α : Type) where
  | idle (x : Prog σ ε π α)
  | waiting (ready : σ → Bool) (k : Prog σ ε π α)
  | done (r : Except (Stop ε π) α)

variable {th : Thread σ ε π α}

namespace Thread

/-- The program is under way. -/
def Underway : Thread σ ε π α → Prop
  | .waiting _ _ => True
  | _ => False

/-- What is left of the program. -/
def rest : Thread σ ε π α → Prog σ ε π α
  | .idle x => x
  | .waiting _ k => k
  | .done (.ok a) => .pure a
  | .done (.error e) => .stop e

/-- The result, once there is one. -/
def result : Thread σ ε π α → Option (Except (Stop ε π) α)
  | .done r => some r
  | _ => none

theorem eq_done (h : th.result = some r) : th = .done r := by
  cases th with
  | done r' => exact congrArg _ (Option.some.inj h)
  | idle x => cases h
  | waiting ready k => cases h

end Thread

/-- A program up to its next wait. -/
def Prog.advance : Prog σ ε π α → σ → Thread σ ε π α × σ
  | .pure a, s => (.done (.ok a), s)
  | .stop e, s => (.done (.error e), s)
  | .get k, s => (k s).advance s
  | .set t k, _ => k.advance t
  | .await ready k, s => (.waiting ready k, s)

theorem Prog.run_advance (x : Prog σ ε π α) (s : σ) : (x.advance s).1.rest.run (x.advance s).2 = x.run s := by
  induction x generalizing s with
  | pure a => rfl
  | stop e => rfl
  | get k ih => exact ih s s
  | set t k ih => exact ih t
  | await ready k ih => rfl

theorem Prog.advance_ne_idle (x : Prog σ ε π α) (s : σ) (y : Prog σ ε π α) : (x.advance s).1 ≠ .idle y := by
  induction x generalizing s with
  | pure a => exact nofun
  | stop e => exact nofun
  | get k ih => exact ih s s
  | set t k ih => exact ih t
  | await ready k ih => exact nofun

/-- A turn of a program, if it can go on. -/
def Thread.turn : Thread σ ε π α → σ → Option (Thread σ ε π α × σ)
  | .idle x, s => some (x.advance s)
  | .waiting ready k, s => if ready s then some (k.advance s) else none
  | .done _, _ => none

theorem Thread.turn_eq {s : σ} {r : Thread σ ε π α × σ} (h : th.turn s = some r) :
    r = th.rest.advance s ∧ ∀ a, th ≠ .done a := by
  cases th with
  | idle x => exact ⟨(Option.some.inj h).symm, nofun⟩
  | waiting ready k =>
    simp only [Thread.turn] at h
    split at h
    · exact ⟨(Option.some.inj h).symm, nofun⟩
    · cases h
  | done a => cases h

/-- Programs that take turns. -/
structure Team (ι σ ε π α : Type) where
  threads : ι → Thread σ ε π α
  state : σ

namespace Team

/-- What a turn of `i` does. -/
structure Turned (i : ι) (d d' : Team ι σ ε π α) : Prop where
  notDone : ∀ a, d.threads i ≠ .done a
  self : d'.threads i = ((d.threads i).rest.advance d.state).1
  others : ∀ j, j ≠ i → d'.threads j = d.threads j
  state : d'.state = ((d.threads i).rest.advance d.state).2

theorem Turned.run {i : ι} {d d' : Team ι σ ε π α} (h : Turned i d d') :
    (d'.threads i).rest.run d'.state = (d.threads i).rest.run d.state := by
  rw [h.self, h.state]
  exact Prog.run_advance _ _

theorem Turned.begun {i : ι} {d d' : Team ι σ ε π α} (h : Turned i d d') (x : Prog σ ε π α) :
    d'.threads i ≠ .idle x := by
  rw [h.self]
  exact Prog.advance_ne_idle _ _ x

variable [DecidableEq ι]

/-- No program has begun. -/
def start (progs : ι → Prog σ ε π α) (s : σ) : Team ι σ ε π α := ⟨fun i => .idle (progs i), s⟩

/-- A turn of `i`. -/
def turn (i : ι) (d : Team ι σ ε π α) : Option (Team ι σ ε π α) :=
  ((d.threads i).turn d.state).map fun r => ⟨Function.update d.threads i r.1, r.2⟩

/-- Turns of these, one after the other. -/
def turns : List ι → Team ι σ ε π α → Option (Team ι σ ε π α)
  | [], d => some d
  | i :: rest, d => (d.turn i).bind (turns rest)

/-- Each turn is taken as `P` says. -/
def Each (P : Team ι σ ε π α → ι → Prop) : List ι → Team ι σ ε π α → Prop
  | [], _ => True
  | i :: rest, d => P d i ∧ ∀ d', d.turn i = some d' → Each P rest d'

theorem turned {i : ι} {d d' : Team ι σ ε π α} (h : d.turn i = some d') : Turned i d d' := by
  obtain ⟨r, hr, rfl⟩ := Option.map_eq_some_iff.mp h
  obtain ⟨rfl, hnot⟩ := Thread.turn_eq hr
  exact ⟨hnot, Function.update_self .., fun _ hj => Function.update_of_ne hj _ _, rfl⟩

theorem turns_induction {P : Team ι σ ε π α → ι → Prop} {J : Team ι σ ε π α → Prop}
    (hstep : ∀ d i d', J d → P d i → d.turn i = some d' → J d') (sched : List ι) {d d' : Team ι σ ε π α}
    (h : J d) (heach : Each P sched d) (hturns : turns sched d = some d') : J d' := by
  induction sched generalizing d with
  | nil =>
    cases hturns
    exact h
  | cons i rest ih =>
    obtain ⟨d₁, hturn, hrest⟩ := Option.bind_eq_some_iff.mp hturns
    exact ih (hstep d i d₁ h heach.1 hturn) (heach.2 d₁ hturn) hrest

theorem each_of_forall {P : Team ι σ ε π α → ι → Prop} (h : ∀ d i, P d i) (sched : List ι) (d : Team ι σ ε π α) :
    Each P sched d := by
  induction sched generalizing d with
  | nil => trivial
  | cons i rest ih => exact ⟨h d i, fun d' _ => ih d'⟩

theorem Each.mono {P P' : Team ι σ ε π α → ι → Prop} (h : ∀ d i, P d i → P' d i) {sched : List ι}
    {d : Team ι σ ε π α} (heach : Each P sched d) : Each P' sched d := by
  induction sched generalizing d with
  | nil => trivial
  | cons i rest ih => exact ⟨h d i heach.1, fun d' hd' => ih (heach.2 d' hd')⟩

end Team

/-! ## Among others -/

namespace Prog

/-- From `s` the program returns with `Q` or stops with `E`, among others that keep `I`: it has `I` where it waits, and
goes on from any state with `I`. -/
def wpAmong (I : σ → Prop) : Prog σ ε π α → (α → σ → Prop) → (Stop ε π → σ → Prop) → σ → Prop
  | .pure a, Q, _, s => Q a s
  | .stop e, _, E, s => E e s
  | .get k, Q, E, s => (k s).wpAmong I Q E s
  | .set t k, Q, E, _ => k.wpAmong I Q E t
  | .await _ k, Q, E, s => I s ∧ ∀ t, I t → k.wpAmong I Q E t

section Rules

variable {I : σ → Prop} {x : Prog σ ε π α} {Q Q' : α → σ → Prop} {E E' : Stop ε π → σ → Prop} {s : σ}

theorem wpAmong.mono (h : wpAmong I x Q E s) (hQ : ∀ a t, Q a t → Q' a t) (hE : ∀ e t, E e t → E' e t) :
    wpAmong I x Q' E' s := by
  induction x generalizing s with
  | pure a => exact hQ a s h
  | stop e => exact hE e s h
  | get k ih => exact ih s h
  | set t k ih => exact ih h
  | await ready k ih => exact ⟨h.1, fun t ht => ih (h.2 t ht)⟩

theorem wpAmong.wp (h : wpAmong I x Q E s) : wp x Q E s := by
  induction x generalizing s with
  | pure a => exact h
  | stop e => exact h
  | get k ih => exact ih s h
  | set t k ih => exact ih h
  | await ready k ih => exact ih (h.2 s h.1)

theorem wpAmong_bind {R : β → σ → Prop} (f : α → Prog σ ε π β) :
    wpAmong I (x >>= f) R E s ↔ wpAmong I x (fun a t => wpAmong I (f a) R E t) E s := by
  show wpAmong I (x.bind f) R E s ↔ _
  induction x generalizing s with
  | pure a => exact Iff.rfl
  | stop e => exact Iff.rfl
  | get k ih => exact ih s
  | set t k ih => exact ih
  | await ready k ih => exact and_congr_right fun _ => forall₂_congr fun _ _ => ih

theorem wpAmong_attempt {R : Except ε α → σ → Prop} :
    wpAmong I x.attempt R E s ↔ wpAmong I x (fun a t => R (.ok a) t)
      (fun e t => match e with
        | .err n => R (.error n) t
        | .panic p => E (.panic p) t) s := by
  induction x generalizing s with
  | pure a => exact Iff.rfl
  | stop e => cases e <;> exact Iff.rfl
  | get k ih => exact ih s
  | set t k ih => exact ih
  | await ready k ih => exact and_congr_right fun _ => forall₂_congr fun _ _ => ih

end Rules

/-! ## Programs that end in one way -/

/-- Among others that keep `I` the program keeps it, and ends with `r`. -/
def Delivers (I : σ → Prop) (r : Except (Stop ε π) α) (x : Prog σ ε π α) : Prop :=
  ∀ s, I s → wpAmong I x (fun a t => I t ∧ r = .ok a) (fun e t => I t ∧ r = .error e) s

/-- The program keeps `I`, and how it ends does not depend on the state beyond it; a value it returns has `P`. -/
def Steady (I : σ → Prop) (P : α → Prop) (x : Prog σ ε π α) : Prop := ∃ r, Delivers I r x ∧ ∀ a, r = .ok a → P a

theorem Delivers.run {I : σ → Prop} {x : Prog σ ε π α} (h : Delivers I r x) {s : σ} (hs : I s) :
    (x.run s).1 = r ∧ I (x.run s).2 := by
  have hwp := (h s hs).wp
  unfold wp at hwp
  rcases hrun : x.run s with ⟨e | a, t⟩ <;> rw [hrun] at hwp <;> exact ⟨hwp.2.symm, hwp.1⟩

namespace Steady

variable {I : σ → Prop} {x y : Prog σ ε π α} {P : α → Prop} {R : β → Prop}
variable {f : σ → σ} {k : σ → Prog σ ε π α}

theorem pure {a : α} (h : P a) : Steady I P (Pure.pure a : Prog σ ε π α) :=
  ⟨.ok a, fun _ hs => ⟨hs, rfl⟩, fun _ hb => Except.ok.inj hb ▸ h⟩

theorem stop (e : Stop ε π) : Steady I P (.stop e : Prog σ ε π α) := ⟨.error e, fun _ hs => ⟨hs, rfl⟩, nofun⟩

theorem assert (p : π) (c : Bool) : Steady I (fun _ => c = true) (Prog.assert p c : Prog σ ε π Unit) := by
  cases c
  · exact stop _
  · exact pure rfl

theorem modify (h : ∀ s, I s → I (f s)) : Steady I (fun _ => True) (Prog.modify f : Prog σ ε π Unit) :=
  ⟨.ok (), fun s hs => ⟨h s hs, rfl⟩, fun _ _ => trivial⟩

theorem waitUntil (ready : σ → Bool) : Steady I (fun _ => True) (Prog.waitUntil ready : Prog σ ε π Unit) :=
  ⟨.ok (), fun _ hs => ⟨hs, fun _ ht => ⟨ht, rfl⟩⟩, fun _ _ => trivial⟩

theorem bind (hx : Steady I P x) {f : α → Prog σ ε π β} (hf : ∀ a, P a → Steady I R (f a)) : Steady I R (x >>= f) := by
  obtain ⟨r, hr, hP⟩ := hx
  cases r with
  | error e =>
    refine ⟨.error e, fun s hs => (wpAmong_bind f).mpr ((hr s hs).mono (fun a t ht => ?_) fun e' t ht => ?_), nofun⟩
    · cases ht.2
    · cases ht.2
      exact ⟨ht.1, rfl⟩
  | ok a =>
    obtain ⟨r', hr', hR⟩ := hf a (hP a rfl)
    refine ⟨r', fun s hs => (wpAmong_bind f).mpr ((hr s hs).mono (fun b t ht => ?_) fun e t ht => ?_), hR⟩
    · cases ht.2
      exact hr' t ht.1
    · cases ht.2

theorem attempt (hx : Steady I P x) : Steady I (fun r => ∀ a, r = .ok a → P a) x.attempt := by
  obtain ⟨r, hr, hP⟩ := hx
  match r with
  | .ok a =>
    refine ⟨.ok (.ok a), fun s hs => wpAmong_attempt.mpr ((hr s hs).mono (fun b t ht => ?_) fun e t ht => ?_), ?_⟩
    · cases ht.2
      exact ⟨ht.1, rfl⟩
    · cases ht.2
    · intro _ hend b hb
      cases hend
      cases hb
      exact hP a rfl
  | .error (.err n) =>
    refine ⟨.ok (.error n), fun s hs => wpAmong_attempt.mpr ((hr s hs).mono (fun b t ht => ?_) fun e t ht => ?_), ?_⟩
    · cases ht.2
    · cases ht.2
      exact ⟨ht.1, rfl⟩
    · intro _ hend b hb
      cases hend
      cases hb
  | .error (.panic p) =>
    refine ⟨.error (.panic p), fun s hs => wpAmong_attempt.mpr ((hr s hs).mono (fun b t ht => ?_) fun e t ht => ?_), nofun⟩
    · cases ht.2
    · cases ht.2
      exact ⟨ht.1, rfl⟩

theorem read_bind (t : σ) (heq : ∀ s, I s → k s = k t) (hk : Steady I P (k t)) :
    Steady I P (Prog.read >>= k) := by
  obtain ⟨r, hr, hP⟩ := hk
  refine ⟨r, fun s hs => ?_, hP⟩
  show wpAmong I (k s) _ _ s
  rw [heq s hs]
  exact hr s hs

theorem modify_read (t : σ) (hf : ∀ s, I s → I (f s))
    (heq : ∀ s, I s → k (f s) = k (f t)) (hk : Steady I P (k (f t))) :
    Steady I P (Prog.modify f >>= fun _ => Prog.read >>= k) := by
  obtain ⟨r, hr, hP⟩ := hk
  refine ⟨r, fun s hs => ?_, hP⟩
  show wpAmong I (k (f s)) _ _ (f s)
  rw [heq s hs]
  exact hr (f s) (hf s hs)

theorem ite {c : Prop} [Decidable c] (hx : c → Steady I P x) (hy : ¬ c → Steady I P y) :
    Steady I P (if c then x else y) := by
  split
  · exact hx ‹_›
  · exact hy ‹_›

end Steady

end Prog

open Prog

namespace Team

variable [DecidableEq ι]
variable {progs : Bool → Prog σ ε π α} {d : Team Bool σ ε π α}

/-- What is left of the program still delivers `r`, or it has done so. -/
def Keeps (I : σ → Prop) (r : Except (Stop ε π) α) : Thread σ ε π α → Prop
  | .done r' => r' = r
  | th => Delivers I r th.rest

theorem keeps_advance {I : σ → Prop} {x : Prog σ ε π α} {s : σ}
    (h : wpAmong I x (fun a t => I t ∧ r = .ok a) (fun e t => I t ∧ r = .error e) s) :
    I (x.advance s).2 ∧ Keeps I r (x.advance s).1 := by
  induction x generalizing s with
  | pure a => exact ⟨h.1, h.2.symm⟩
  | stop e => exact ⟨h.1, h.2.symm⟩
  | get k ih => exact ih s h
  | set t k ih => exact ih h
  | await ready k ih => exact h

theorem turns_steady {I : σ → Prop} {r : ι → Except (Stop ε π) α} {progs : ι → Prog σ ε π α}
    (h : ∀ i, Delivers I (r i) (progs i)) {s : σ} (hs : I s) {sched : List ι} {d : Team ι σ ε π α}
    (hturns : turns sched (start progs s) = some d) : I d.state ∧ ∀ i a, d.threads i = .done a → a = r i := by
  have hinv : I d.state ∧ ∀ i, Keeps I (r i) (d.threads i) := by
    refine turns_induction (P := fun _ _ => True) (J := fun d => I d.state ∧ ∀ i, Keeps I (r i) (d.threads i))
      (fun d i d' hd _ hturn => ?_) sched (d := start progs s) ⟨hs, h⟩ (each_of_forall (fun _ _ => trivial) _ _) hturns
    obtain ⟨hI, hkeeps⟩ := hd
    have hturned := turned hturn
    have hleft : Delivers I (r i) (d.threads i).rest := by
      have hi := hkeeps i
      cases hth : d.threads i with
      | done a => exact absurd hth (hturned.notDone a)
      | idle x => rwa [hth] at hi
      | waiting ready k => rwa [hth] at hi
    obtain ⟨hI', hi'⟩ := keeps_advance (hleft d.state hI)
    rw [← hturned.state] at hI'
    rw [← hturned.self] at hi'
    refine ⟨hI', fun j => ?_⟩
    by_cases hj : j = i
    · rwa [hj]
    · rw [hturned.others j hj]
      exact hkeeps j
  refine ⟨hinv.1, fun i a ha => ?_⟩
  have := hinv.2 i
  rwa [ha] at this

/-! ## One after the other -/

/-- The two programs one after the other: how they end, and the state. -/
def serial (progs : Bool → Prog σ ε π α) (first : Bool) (s : σ) : (Bool → Except (Stop ε π) α) × σ :=
  let r := (progs first).run s
  let r' := (progs !first).run r.2
  (fun i => if i = first then r.1 else r'.1, r'.2)

/-- The other program is not under way. -/
def Apart (d : Team Bool σ ε π α) (i : Bool) : Prop := ¬ (d.threads !i).Underway

/-- One of two programs is first: it is under way and the other has not begun, or it has ended. -/
inductive InOrder (progs : Bool → Prog σ ε π α) (s : σ) (d : Team Bool σ ε π α) : Prop
  | start : d = .start progs s → InOrder progs s d
  | first (i : Bool) : d.threads (!i) = .idle (progs !i) → (∀ x, d.threads i ≠ .idle x) →
      (d.threads i).rest.run d.state = (progs i).run s → InOrder progs s d
  | second (i : Bool) {a : Except (Stop ε π) α} {t : σ} : d.threads i = .done a → (progs i).run s = (a, t) →
      (d.threads !i).rest.run d.state = (progs !i).run t → InOrder progs s d

theorem run_rest_done (a : Except (Stop ε π) α) (s : σ) : (Thread.done a : Thread σ ε π α).rest.run s = (a, s) := by
  cases a <;> rfl

theorem InOrder.step {s : σ} {d' : Team Bool σ ε π α} {j : Bool}
    (h : InOrder progs s d) (hapart : Apart d j) (hturn : d.turn j = some d') : InOrder progs s d' := by
  have hturned := turned hturn
  have hother := hturned.others (!j) (by simp)
  cases h with
  | start h =>
    subst h
    exact .first j hother hturned.begun hturned.run
  | first i hidle hbegun hrun =>
    by_cases hj : j = i
    · subst hj
      exact .first j (hother.trans hidle) hturned.begun (hturned.run.trans hrun)
    · -- the first program has ended, and the other begins
      obtain rfl : j = !i := by
        cases i <;> cases j <;> simp at hj ⊢
      rw [Apart, Bool.not_not] at hapart
      rw [Bool.not_not] at hother
      cases hth : d.threads i with
      | idle x => exact absurd hth (hbegun x)
      | waiting ready k =>
        rw [hth] at hapart
        exact absurd trivial hapart
      | done a =>
        rw [hth, run_rest_done] at hrun
        refine .second i (hother.trans hth) hrun.symm (hturned.run.trans ?_)
        rw [hidle]
        rfl
  | second i hdone hrun hrest =>
    obtain rfl : j = !i := by
      by_contra hj
      obtain rfl : j = i := by
        cases i <;> cases j <;> simp at hj ⊢
      exact hturned.notDone _ hdone
    rw [Bool.not_not] at hother
    exact .second i (hother.trans hdone) hrun (hturned.run.trans hrest)

theorem turns_apart {s : σ} {sched : List Bool}
    {r : Bool → Except (Stop ε π) α} (hturns : turns sched (start progs s) = some d)
    (hapart : Each Apart sched (start progs s)) (hdone : ∀ i, d.threads i = .done (r i)) :
    ∃ first, serial progs first s = (r, d.state) := by
  have hinv : InOrder progs s d :=
    turns_induction (fun _ _ _ hd hP hturn => hd.step hP hturn) sched (.start rfl) hapart hturns
  cases hinv with
  | start h =>
    have hidle := hdone true
    rw [h] at hidle
    cases hidle
  | first i hidle _ _ => cases hidle.symm.trans (hdone _)
  | @second i a t hend hrun hrest =>
    rw [hdone, run_rest_done] at hrest
    cases hend.symm.trans (hdone i)
    refine ⟨i, ?_⟩
    simp only [serial, hrun, ← hrest, Prod.mk.injEq, and_true]
    funext j
    split
    · rename_i hj
      rw [hj]
    · rename_i hj
      obtain rfl : j = !i := by
        cases i <;> cases j <;> simp at hj ⊢
      rfl

end Team

end Os161.Lib

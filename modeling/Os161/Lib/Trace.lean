import Os161.Lib.Program

/-!
# Runs of a system

A system executes operations one after the other. `Reach` is the states it comes to between
operations, `Visits` adds the states in which an operation stopped. Both are relative to a
condition `ok` on the operation and the state it starts in: a run in which every step meets the
condition.
-/

namespace Os161.Lib

variable {ε σ ι α : Type}
variable {t : σ}

section Runs

variable (exec : ι → EStateM ε σ Unit) (ok : σ → ι → Prop)

/-- The states between operations, from `s` on. -/
inductive Reach (s : σ) : σ → Prop
  | refl : Reach s s
  | step {t u : σ} {i : ι} : Reach s t → ok t i → exec i t = .ok () u → Reach s u

/-- The states a run goes through: between operations, and where an operation stopped. -/
def Visits (s u : σ) : Prop :=
  Reach exec ok s u ∨ ∃ t i e, Reach exec ok s t ∧ ok t i ∧ exec i t = .error e u

end Runs

variable {exec : ι → EStateM ε σ Unit} {ok ok' : σ → ι → Prop} {I : σ → Prop} {s u : σ}

theorem Reach.invariant_ok (hinit : I s)
    (hstep : ∀ t i u, I t → ok t i → exec i t = .ok () u → I u) (h : Reach exec ok s u) : I u := by
  induction h with
  | refl => exact hinit
  | step _ hok hexec ih => exact hstep _ _ _ ih hok hexec

theorem Reach.invariant (hinit : I s) (hstep : ∀ t i, I t → ok t i → I (leaves (exec i t)))
    (h : Reach exec ok s u) : I u := by
  apply h.invariant_ok hinit
  intro t i u ht hok hexec
  have := hstep t i ht hok
  rwa [hexec] at this

theorem Visits.invariant (hinit : I s) (hstep : ∀ t i, I t → ok t i → I (leaves (exec i t)))
    (h : Visits exec ok s u) : I u := by
  rcases h with h | ⟨t, i, e, ht, hok, hexec⟩
  · exact h.invariant hinit hstep
  · have := hstep t i (ht.invariant hinit hstep) hok
    rwa [hexec] at this

/-! ## Programs made of operations -/

section MadeOf

variable (exec : ι → EStateM ε σ Unit) (ok : σ → ι → Prop) (E : ε → Prop)

/-- How a program made of operations stops: inside one of them, or between two with a fault of its
own. -/
def Stops (s : σ) (e : ε) (u : σ) : Prop :=
  (E e ∧ Reach exec ok s u) ∨ ∃ t i, Reach exec ok s t ∧ ok t i ∧ exec i t = .error e u

/-- Whatever run led to the state a program starts in, the program goes on with that run. -/
def MadeOf (x : EStateM ε σ α) : Prop :=
  ∀ s, Triple (Reach exec ok s) x (fun _ => Reach exec ok s) (Stops exec ok E s)

end MadeOf

section MadeOfRules

variable {E : ε → Prop} {β : Type} {x : EStateM ε σ α} {f : α → EStateM ε σ β}

theorem MadeOf.pure (a : α) : MadeOf exec ok E (pure a : EStateM ε σ α) :=
  fun _ => Triple.pure fun _ h => h

theorem MadeOf.bind (hx : MadeOf exec ok E x) (hf : ∀ a, MadeOf exec ok E (f a)) :
    MadeOf exec ok E (x >>= f) :=
  fun s => Triple.bind (hx s) fun a => hf a s

theorem MadeOf.of_exec {i : ι} (hi : exec i = x >>= fun _ => Pure.pure ()) (hok : ∀ t, ok t i) :
    MadeOf exec ok E x := by
  intro s t ht
  have hexec : exec i t = (x >>= fun _ => Pure.pure ()) t := by rw [hi]
  cases hx : x t with
  | ok a u => exact .step ht (hok t) (hexec.trans (bind_ok hx))
  | error e u => exact .inr ⟨t, i, ht, hok t, hexec.trans (bind_error hx)⟩

end MadeOfRules

/-! ## Runs on given operations -/

/-- Whether a program returned. -/
def returns : EStateM.Result ε σ α → Bool
  | .ok _ _ => true
  | .error _ _ => false

/-- What a program returned. -/
def value? : EStateM.Result ε σ α → Option α
  | .ok a _ => some a
  | .error _ _ => none

theorem eq_ok_of_value {r : EStateM.Result ε σ α} {a : α} (h : value? r = some a) :
    r = .ok a (leaves r) := by
  cases r with
  | ok b t => cases h; rfl
  | error e t => cases h

/-- The fault a program stopped with. -/
def fault? : EStateM.Result ε σ α → Option ε
  | .ok _ _ => none
  | .error e _ => some e

theorem Reach.next (h : Reach exec ok s t) (i : ι) (hok : ok t i)
    (hret : returns (exec i t) = true) : Reach exec ok s (leaves (exec i t)) := by
  cases hx : exec i t with
  | ok a u => exact .step h hok hx
  | error e u => rw [hx] at hret; cases hret

theorem Reach.visits_next (h : Reach exec ok s t) (i : ι) (hok : ok t i) :
    Visits exec ok s (leaves (exec i t)) := by
  cases hx : exec i t with
  | ok a u => exact .inl (.step h hok hx)
  | error e u => exact .inr ⟨t, i, e, h, hok, hx⟩

theorem reach_forM (ops : List ι) (hok : ∀ i ∈ ops, ∀ t, ok t i) (h : Reach exec ok s t)
    (hret : returns (ops.forM exec t) = true) : Reach exec ok s (leaves (ops.forM exec t)) := by
  induction ops generalizing t with
  | nil => exact h
  | cons i ops ih =>
    cases hx : exec i t with
    | ok a u =>
      rw [forM_cons_ok hx] at hret ⊢
      exact ih (fun j hj => hok j (List.mem_cons_of_mem _ hj))
        (.step h (hok i List.mem_cons_self t) hx) hret
    | error e u =>
      have hstop : (i :: ops).forM exec t = .error e u := bind_error hx
      rw [hstop] at hret
      cases hret

theorem visits_forM (ops : List ι) (h : Reach exec (fun _ _ => True) s t) :
    Visits exec (fun _ _ => True) s (leaves (ops.forM exec t)) := by
  induction ops generalizing t with
  | nil => exact .inl h
  | cons i ops ih =>
    show Visits _ _ s (leaves ((exec i >>= fun _ => ops.forM exec) t))
    rw [bind_apply]
    cases hx : exec i t with
    | ok a u => exact ih (.step h trivial hx)
    | error e u => exact .inr ⟨t, i, e, h, trivial, hx⟩

end Os161.Lib

import Os161.Laws.Thread.Steps

/-!
# Runs of the thread system

Whatever the processors do and in whatever order, every step returns and every thread stays in exactly
one place.
-/

namespace Os161.Threads

open Os161.Lib

variable {n : Nat} {ok : Loc n → ThreadState → Prop} {s : State n} {loc : Tid → Option (Loc n)}

theorem Inv.exec (hpol : Policy ok) (hzombie : ∀ c st, ok (.zombies c) st → st = .zombie)
    (h : Inv ok s loc) (e : Event n) (he : e.Allowed s)
    (hwoken : ∀ k, e = .wakeupNext k → s.wakeups k ≠ [] →
      ∀ c st, ok (.wakeup k) st → ok (.runqueue c) st) :
    ∃ u loc', e.exec s = .ok () u ∧ Inv ok u loc' := by
  cases e with
  | fork c t => exact h.threadFork hpol c he.2
  | yield c => exact h.switchBegin he .ready nofun 0
  | sleep c wc => exact h.switchBegin he .sleep nofun wc
  | exit c => exact h.switchBegin he .zombie nofun 0
  | switchEnd c => exact h.switchEnd hpol c
  | unidle c => exact h.unidle hpol he
  | exorcise c => exact h.exorcise hzombie he
  | wakeone k wc =>
    obtain ⟨loc', hinv⟩ := h.wake hpol he wc (s.wchans wc).head?.toList (s.wchans wc).tail (by
      cases s.wchans wc <;> simp)
    exact ⟨_, loc', rfl, hinv⟩
  | wakeall k wc =>
    obtain ⟨loc', hinv⟩ := h.wake hpol he wc (s.wchans wc) [] (by simp)
    exact ⟨_, loc', rfl, hinv⟩
  | wakeupNext k => exact h.wakeupNext (hwoken k rfl) he
  | migrate c => exact h.migrate hpol he.1

/-- The weakest policy: what is on a zombie list is a zombie. -/
def DeadOnly : Loc n → ThreadState → Prop
  | .zombies _, st => st = .zombie
  | _, _ => True

theorem deadOnly_policy : Policy (DeadOnly (n := n)) where
  run _ := trivial
  ready _ := trivial
  parked c st l h := by
    cases l with
    | zombies d =>
      cases st with
      | run => exact h.elim
      | ready => cases h
      | sleep => rcases h with ⟨_, h⟩ | ⟨_, h⟩ <;> cases h
      | zombie => rfl
    | _ => trivial
  taken _ _ _ := trivial
  sent _ _ _ _ := trivial
  woken _ _ _ _ := trivial

theorem State.IsBoot.inv (h : s.IsBoot) :
    Inv DeadOnly s fun t => if ht : t < n then some (.executing ⟨t, ht⟩) else none := by
  have hexec : ∀ c, (s.cpus c).executed = [(c : Nat)] := by
    intro c
    simp [h.cpu c, Cpu.executed]
  refine ⟨⟨?_, ?_⟩, ?_, ?_, ?_, ?_, ?_, ?_⟩
  · intro l
    cases l with
    | executing c => simp [State.at, hexec]
    | _ => simp [State.at, h.cpu, h.wchans, h.wakeups, Migration.victims]
  · intro t l
    cases l with
    | executing c =>
      simp only [State.at, hexec, List.mem_singleton]
      constructor
      · rintro rfl
        simp [c.isLt]
      · intro ht
        split at ht
        · simp only [Option.some.injEq, Loc.executing.injEq] at ht
          rw [← ht]
        · cases ht
    | _ =>
      simp only [State.at, h.cpu, h.wchans, h.wakeups, Migration.victims, List.not_mem_nil, false_iff]
      split <;> simp
  · intro t
    by_cases ht : t < n
    · simp [ht, h.thread ⟨t, ht⟩]
    · simp [ht, h.noOther t (Nat.le_of_not_lt ht)]
  · intro t l c th hl hc hth
    split at hl
    · rename_i ht
      cases hl
      cases hc
      rw [show s.threads t = _ from h.thread ⟨t, ht⟩] at hth
      cases hth
      rfl
    · cases hl
  · intro c
    exact ⟨_, by rw [h.cpu c]; exact h.thread c, rfl⟩
  · intro t l th hl _
    split at hl
    · cases hl
      exact .inl trivial
    · cases hl
  · intro c st hst
    rw [h.cpu c] at hst
    cases hst
  · intro c
    rw [h.cpu c]
    trivial

theorem State.IsBoot.inv_of_reach {u : State n} (hboot : s.IsBoot)
    (hrun : Reach Event.exec Event.Allowed s u) : ∃ loc, Inv DeadOnly u loc := by
  refine hrun.invariant_ok (I := fun s => ∃ loc, Inv DeadOnly s loc) ⟨_, hboot.inv⟩ ?_
  rintro t e v ⟨loc, h⟩ he hexec
  obtain ⟨u, loc', hu, hinv⟩ := h.exec deadOnly_policy (fun _ _ => id) e he (fun _ _ _ _ _ _ => trivial)
  rw [hu] at hexec
  cases hexec
  exact ⟨loc', hinv⟩

/-- The system `n` processors boot into. -/
def bootState (n : Nat) : State n where
  threads t := if h : t < n then some { state := .ready, cpu := ⟨t, h⟩ } else none
  cpus c :=
    { curthread := c, isidle := false, runqueue := [], zombies := [], switching := none,
      migration := .none }
  wchans _ := []
  wakeups _ := []

theorem bootState_isBoot (n : Nat) : (bootState n).IsBoot where
  cpu _ := rfl
  thread c := dif_pos c.isLt
  noOther _ h := dif_neg (Nat.not_lt.mpr h)
  wchans _ := rfl
  wakeups _ := rfl

end Os161.Threads

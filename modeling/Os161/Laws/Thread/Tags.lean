import Os161.Laws.Thread.Run

/-!
# What the state of a thread says

`thread_switch` and `thread_startup` set a thread's state to go with its place. `thread_make_runnable`
does not: a thread that a wakeup puts on a run queue keeps the state `S_SLEEP` until it runs. And the
threads the processors boot with run in the state `S_READY` until their first switch.
-/

namespace Os161.Threads

open Os161.Lib

variable {n : Nat} {s : State n} {loc : Tid → Option (Loc n)}

/-- No switch, wakeup or migration is in progress. -/
structure State.Quiet (s : State n) : Prop where
  unlocked : ∀ c, (s.cpus c).Unlocked
  notMigrating : ∀ c, ¬ (s.cpus c).Migrating
  wakeups : ∀ k, s.wakeups k = []

/-- The states of threads say where they are. -/
def State.TagsTrue (s : State n) : Prop :=
  ∀ t th, s.threads t = some th →
    (th.state = .ready ↔ ∃ c, t ∈ (s.cpus c).runqueue) ∧
    (th.state = .sleep ↔ ∃ wc, t ∈ s.wchans wc) ∧
    (th.state = .zombie ↔ ∃ c, t ∈ (s.cpus c).zombies) ∧
    (th.state = .run ↔ ∃ c, (s.cpus c).isidle = false ∧ t = (s.cpus c).curthread)

/-- The state of a thread at a place. -/
def Loc.tag : Loc n → ThreadState
  | .runqueue _ | .victims _ => .ready
  | .wchan _ | .wakeup _ => .sleep
  | .zombies _ => .zombie
  | .executing _ => .run

/-- Threads have the state that goes with their place. -/
def Tagged (l : Loc n) (st : ThreadState) : Prop := st = l.tag

theorem tagged_policy : Policy (Tagged (n := n)) where
  run _ := rfl
  ready _ := rfl
  parked c st l h := by
    cases st with
    | run => exact h.elim
    | ready | zombie =>
      cases h
      rfl
    | sleep => rcases h with ⟨_, h⟩ | ⟨_, h⟩ <;> cases h <;> rfl
  taken _ _ h := h
  sent _ _ _ h := h
  woken _ _ _ h := h

theorem Inv.tagsTrue (h : Inv Tagged s loc) (hquiet : s.Quiet) : s.TagsTrue := by
  intro t th hth
  obtain ⟨l, hl⟩ := Option.isSome_iff_exists.mp ((h.exist t).symm.trans (by rw [hth]; rfl))
  have htag : th.state = l.tag := by
    rcases h.tag t l th hl hth with htag | ⟨c, hc, -⟩
    · exact htag
    · exact absurd (hquiet.unlocked c) hc
  have hmem : ∀ l', t ∈ s.at l' ↔ l = l' := by
    intro l'
    rw [h.placed.mem, hl, Option.some.injEq]
  have hrun : ∀ c, (s.cpus c).isidle = false ∧ t = (s.cpus c).curthread ↔ l = .executing c := by
    intro c
    rw [← hmem]
    simp only [State.at, Cpu.executed, show (s.cpus c).switching = none from hquiet.unlocked c,
      and_true]
    split <;> simp_all
  have hqueue : ∀ c, t ∈ (s.cpus c).runqueue ↔ l = .runqueue c := fun c => hmem (.runqueue c)
  have hwchan : ∀ wc, t ∈ s.wchans wc ↔ l = .wchan wc := fun wc => hmem (.wchan wc)
  have hzombies : ∀ c, t ∈ (s.cpus c).zombies ↔ l = .zombies c := fun c => hmem (.zombies c)
  simp only [hrun, hqueue, hwchan, hzombies, htag]
  cases l with
  | wakeup k =>
    have := (hmem (.wakeup k)).mpr rfl
    rw [State.at, hquiet.wakeups k] at this
    cases this
  | victims c =>
    have := (hmem (.victims c)).mpr rfl
    have hmig := hquiet.notMigrating c
    simp only [State.at] at this
    cases hm : (s.cpus c).migration <;> simp_all [Migration.victims, Cpu.Migrating]
  | _ => simp [Loc.tag]

theorem Inv.tagged (h : Inv DeadOnly s loc) (hquiet : s.Quiet) (htags : s.TagsTrue) :
    Inv Tagged s loc := by
  refine ⟨h.placed, h.exist, h.home, h.cur, ?_, h.switching, h.migration⟩
  intro t l th hl hth
  refine .inl ?_
  obtain ⟨hready, hsleep, hzombie, hrun⟩ := htags t th hth
  have hin := (h.placed.mem t l).mpr hl
  cases l with
  | runqueue c => exact hready.mpr ⟨c, hin⟩
  | wchan wc => exact hsleep.mpr ⟨wc, hin⟩
  | zombies c => exact hzombie.mpr ⟨c, hin⟩
  | wakeup k =>
    rw [State.at, hquiet.wakeups k] at hin
    cases hin
  | victims c =>
    have hmig := hquiet.notMigrating c
    simp only [State.at] at hin
    cases hm : (s.cpus c).migration <;> simp_all [Migration.victims, Cpu.Migrating]
  | executing c =>
    simp only [State.at, Cpu.executed] at hin
    split at hin
    · rename_i hc
      exact hrun.mpr ⟨c, hc.1, List.mem_singleton.mp hin⟩
    · cases hin

/-- A step that can happen, and in which no wakeup makes a thread runnable. -/
def Event.Calm (s : State n) (e : Event n) : Prop :=
  e.Allowed s ∧ ∀ k, e = .wakeupNext k → s.wakeups k = []

theorem Inv.not_tagsTrue_of_wakeupNext (h : Inv Tagged s loc) {k : Nat} {u : State n}
    (hk : s.wakeups k ≠ []) (hlock : (Event.wakeupNext k).Allowed s)
    (hexec : Threads.wakeupNext k s = .ok () u) : ¬ u.TagsTrue := by
  intro htags
  cases hw : s.wakeups k with
  | nil => exact hk hw
  | cons t rest =>
    have hloc : loc t = some (.wakeup k) := by
      refine (h.placed.mem _ _).mp ?_
      simp [State.at, hw]
    obtain ⟨th, hth⟩ := h.thread hloc
    have hfree : (s.cpus th.cpu).Unlocked := hlock t (by rw [hw]; rfl) th hth
    have hsleep : th.state = .sleep :=
      (h.tag t _ th hloc hth).resolve_right (h.not_lagging hth hfree)
    have hrun := threadMakeRunnable_eq
      (s := { s with wakeups := Function.update s.wakeups k rest }) hth
    simp only [Threads.wakeupNext, bind_apply, get_apply, hw, modify_apply, hrun] at hexec
    cases hexec
    have hready := (htags t th hth).1.mpr ⟨th.cpu, by simp⟩
    rw [hsleep] at hready
    cases hready

/-- From any quiet state the system comes to and in which the states of threads are right, they are
right in every quiet state of a run in which no wakeup makes a thread runnable; and the first step of a
wakeup that does leaves a wrong one. -/
theorem tags_true_in_calm_run {s₀ s u : State n} (hboot : s₀.IsBoot)
    (hreach : Reach Event.exec Event.Allowed s₀ s) (hquiet : s.Quiet) (htags : s.TagsTrue)
    (hrun : Reach Event.exec Event.Calm s u) :
    (u.Quiet → u.TagsTrue) ∧
    ∀ k v, u.wakeups k ≠ [] → (Event.wakeupNext k).Allowed u →
      (Event.wakeupNext k).exec u = .ok () v → ¬ v.TagsTrue := by
  obtain ⟨loc, h⟩ := hboot.inv_of_reach hreach
  have hinv : ∃ loc, Inv Tagged u loc := by
    refine hrun.invariant_ok (I := fun s => ∃ loc, Inv Tagged s loc)
      ⟨loc, h.tagged hquiet htags⟩ ?_
    rintro t e v ⟨loc, h⟩ he hexec
    obtain ⟨u, loc', hu, hinv⟩ := h.exec tagged_policy (fun _ _ => id) e he.1
      fun k hk hne => absurd (he.2 k hk) hne
    rw [hu] at hexec
    cases hexec
    exact ⟨loc', hinv⟩
  obtain ⟨loc', hinv⟩ := hinv
  exact ⟨hinv.tagsTrue, fun k v hk hlock hexec => hinv.not_tagsTrue_of_wakeupNext hk hlock hexec⟩

/-- One processor: the boot thread forks and goes to sleep, the new thread wakes it, and it waits on the
run queue as a sleeper. -/
theorem tags_wrong_after_wakeup :
    ∃ u : State 1, Reach Event.exec Event.Allowed (bootState 1) u ∧ u.Quiet ∧
      (u.cpus 0).runqueue = [0] ∧ (u.threads 0).map Thread.state = some .sleep ∧ ¬ u.TagsTrue := by
  have hstart : Reach Event.exec Event.Allowed (bootState 1) (bootState 1) := .refl
  have h₁ := hstart.next (.fork 0 1) ⟨⟨rfl, rfl, id⟩, rfl⟩ rfl
  have h₂ := h₁.next (.sleep 0 0) ⟨rfl, rfl, id⟩ rfl
  have h₃ := h₂.next (.switchEnd 0) trivial rfl
  have h₄ := h₃.next (.wakeone 0 0) rfl rfl
  have h₅ := h₄.next (.wakeupNext 0) (fun _ _ _ _ => by rw [Fin.fin_one_eq_zero (Thread.cpu _)]; rfl) rfl
  refine ⟨_, h₅, ⟨fun c => ?_, fun c => ?_, fun k => ?_⟩, rfl, rfl, fun htags => ?_⟩
  · rw [Fin.fin_one_eq_zero c]
    rfl
  · rw [Fin.fin_one_eq_zero c]
    exact id
  · by_cases hk : k = 0
    · subst hk
      rfl
    · exact (Function.update_of_ne hk _ _).trans (Function.update_of_ne hk _ _)
  · have hready := (htags 0 ⟨.sleep, 0⟩ rfl).1.mpr ⟨0, List.mem_singleton.mpr rfl⟩
    cases hready

/-- One processor: the boot thread forks and yields, so that every state is right; then the new thread
goes to sleep. -/
theorem tags_true_after_sleep :
    ∃ s u : State 1, Reach Event.exec Event.Allowed (bootState 1) s ∧ s.Quiet ∧ s.TagsTrue ∧
      Reach Event.exec Event.Calm s u ∧ u.wchans 0 = [1] ∧ u.TagsTrue := by
  have hstart : Reach Event.exec Event.Allowed (bootState 1) (bootState 1) := .refl
  have h₁ := hstart.next (.fork 0 1) ⟨⟨rfl, rfl, id⟩, rfl⟩ rfl
  have h₂ := h₁.next (.yield 0) ⟨rfl, rfl, id⟩ rfl
  have h₃ := h₂.next (.switchEnd 0) trivial rfl
  let s : State 1 := leaves ((Event.switchEnd 0).exec (leaves ((Event.yield 0).exec
    (leaves ((Event.fork 0 1).exec (bootState 1))))))
  have hquiet : s.Quiet := by
    refine ⟨fun c => ?_, fun c => ?_, fun _ => rfl⟩
    · rw [Fin.fin_one_eq_zero c]
      rfl
    · rw [Fin.fin_one_eq_zero c]
      exact id
  have htags : s.TagsTrue := by
    intro t th hth
    have hqueue : (s.cpus 0).runqueue = [0] := rfl
    have hzombies : (s.cpus 0).zombies = [] := rfl
    have hidle : (s.cpus 0).isidle = false := rfl
    have hcur : (s.cpus 0).curthread = 1 := rfl
    have hwchans : ∀ wc, s.wchans wc = [] := fun _ => rfl
    simp only [Fin.exists_fin_one, hqueue, hzombies, hidle, hcur, hwchans, List.not_mem_nil,
      List.mem_singleton, exists_const, iff_false, true_and]
    match t, hth with
    | 0, hth =>
      cases (show s.threads 0 = some ⟨.ready, 0⟩ from rfl).symm.trans hth
      simp
    | 1, hth =>
      cases (show s.threads 1 = some ⟨.run, 0⟩ from rfl).symm.trans hth
      simp
    | t + 2, hth => cases (show s.threads (t + 2) = none from rfl).symm.trans hth
  have hcalm : Reach Event.exec Event.Calm s s := .refl
  have h₄ := hcalm.next (.sleep 0 0) ⟨⟨rfl, rfl, id⟩, nofun⟩ rfl
  have h₅ := h₄.next (.switchEnd 0) ⟨trivial, nofun⟩ rfl
  have hend := (tags_true_in_calm_run (bootState_isBoot 1) h₃ hquiet htags h₅).1
  refine ⟨s, _, h₃, hquiet, htags, h₅, rfl, hend ⟨fun c => ?_, fun c => ?_, fun _ => rfl⟩⟩
  · rw [Fin.fin_one_eq_zero c]
    rfl
  · rw [Fin.fin_one_eq_zero c]
    exact id

end Os161.Threads

import Os161.Lib.Placement
import Os161.Lib.Trace
import Os161.Thread.State

/-!
# Every thread is in one place

The places of a thread are the lists of the thread system, the local lists of wakeups and migrations,
and being executed by a processor. `Inv` says that a thread is in exactly one of them, and where the
places of a processor's own threads are; every step moves threads from place to place and keeps it.
-/

namespace Os161.Threads

open Os161.Lib

variable {n : Nat}
variable {p : Cpu} {t : Tid} {c d : Fin n} {xs : List Tid} {st : ThreadState} {w j : Nat → List Tid}

/-- A place. -/
inductive Loc (n : Nat) where
  | runqueue (c : Fin n)
  | wchan (wc : Nat)
  | zombies (c : Fin n)
  | wakeup (k : Nat)
  | victims (c : Fin n)
  | executing (c : Fin n)
deriving DecidableEq

/-- The threads a migration carries. -/
def Migration.victims : Migration → List Tid
  | .none | .counting _ _ _ => []
  | .sending _ _ _ victims => victims

/-- The thread a processor executes. An idle processor executes none, and a processor in the middle of
a switch is about to execute another one. -/
def Cpu.executed (p : Cpu) : List Tid :=
  if p.isidle = false ∧ p.switching = none then [p.curthread] else []

/-- The threads at a place. -/
def State.at (s : State n) : Loc n → List Tid
  | .runqueue c => (s.cpus c).runqueue
  | .wchan wc => s.wchans wc
  | .zombies c => (s.cpus c).zombies
  | .wakeup k => s.wakeups k
  | .victims c => (s.cpus c).migration.victims
  | .executing c => (s.cpus c).executed

/-- The processor a place belongs to. -/
def Loc.home : Loc n → Option (Fin n)
  | .runqueue c | .zombies c | .victims c | .executing c => some c
  | .wchan _ | .wakeup _ => none

/-- Where the first half of `thread_switch` has put the thread. A sleeper may be on its way back. -/
def Parked (c : Fin n) : ThreadState → Option (Loc n) → Prop
  | .run, _ => False
  | .ready, l => l = some (.runqueue c)
  | .sleep, l => (∃ wc, l = some (.wchan wc)) ∨ ∃ k, l = some (.wakeup k)
  | .zombie, l => l = some (.zombies c)

/-- What a migration relies on: its processor's run queue has not become shorter since it was counted,
and there is a victim for each thread still to be sent. -/
def Cpu.MigrationOk (p : Cpu) : Prop :=
  match p.migration with
  | .none => True
  | .counting _ myCount _ => myCount ≤ p.runqueue.length
  | .sending _ toSend _ victims => toSend ≤ victims.length

theorem Cpu.MigrationOk.grow {q : Cpu} (h : p.MigrationOk) (hm : q.migration = p.migration)
    (hle : p.runqueue.length ≤ q.runqueue.length) : q.MigrationOk := by
  unfold Cpu.MigrationOk at *
  rw [hm]
  split <;> rename_i heq <;> rw [heq] at h
  · trivial
  · exact Nat.le_trans h hle
  · exact h

/-- The thread is the current one of a processor in the middle of a switch: it has a new place, and its
state is not set yet. -/
def Lagging (q : Fin n → Cpu) (t : Tid) : Prop :=
  ∃ c, ¬ (q c).Unlocked ∧ t = (q c).curthread

/-- What the states of threads may be at each place, as far as the steps other than a wakeup's second
half keep it. -/
structure Policy (ok : Loc n → ThreadState → Prop) : Prop where
  run : ∀ c, ok (.executing c) .run
  ready : ∀ c, ok (.runqueue c) .ready
  parked : ∀ c st l, Parked c st (some l) → ok l st
  taken : ∀ c st, ok (.runqueue c) st → ok (.victims c) st
  sent : ∀ c d st, ok (.victims c) st → ok (.runqueue d) st
  woken : ∀ wc k st, ok (.wchan wc) st → ok (.wakeup k) st

/-- Every thread is at one place, the places of a processor hold threads of that processor, and the
states of the threads are as the places allow. -/
structure Inv (ok : Loc n → ThreadState → Prop) (s : State n) (loc : Tid → Option (Loc n)) :
    Prop where
  placed : Placed s.at loc
  exist : ∀ t, (s.threads t).isSome = (loc t).isSome
  home : ∀ t l c th, loc t = some l → l.home = some c → s.threads t = some th → th.cpu = c
  cur : ∀ c, ∃ th, s.threads (s.cpus c).curthread = some th ∧ th.cpu = c
  tag : ∀ t l th, loc t = some l → s.threads t = some th → ok l th.state ∨ Lagging s.cpus t
  switching : ∀ c st, (s.cpus c).switching = some st →
    ((s.cpus c).isidle = false ∧ ¬ (s.cpus c).Migrating) ∧ Parked c st (loc (s.cpus c).curthread)
  migration : ∀ c, (s.cpus c).MigrationOk

variable {ok : Loc n → ThreadState → Prop} {s : State n} {loc : Tid → Option (Loc n)}

variable {l m : Loc n}

theorem Inv.thread (h : Inv ok s loc) (hl : loc t = some l) :
    ∃ th, s.threads t = some th := by
  have := h.exist t
  rw [hl] at this
  exact Option.isSome_iff_exists.mp this

theorem Inv.curthread_injective (h : Inv ok s loc)
    (heq : (s.cpus c).curthread = (s.cpus d).curthread) : c = d := by
  obtain ⟨th, hth, hc⟩ := h.cur c
  obtain ⟨th', hth', hd⟩ := h.cur d
  rw [heq, hth'] at hth
  cases hth
  exact hc.symm.trans hd

theorem Inv.loc_curthread (h : Inv ok s loc) (hc : (s.cpus c).Executing) :
    loc (s.cpus c).curthread = some (.executing c) := by
  refine (h.placed.mem _ _).mp ?_
  simp [State.at, Cpu.executed, hc.awake, show (s.cpus c).switching = none from hc.unlocked]

theorem Inv.curthread_ne (h : Inv ok s loc)
    (hl : loc t = some l) (hhome : l.home = some c) (hcd : c ≠ d) : t ≠ (s.cpus d).curthread := by
  rintro rfl
  obtain ⟨th, hth, hd⟩ := h.cur d
  exact hcd ((h.home _ l c th hl hhome hth).symm.trans hd)

/-! ## Moving threads -/

/-- The places after threads `xs` went to `l`. -/
def moved (loc : Tid → Option (Loc n)) (xs : List Tid) (l : Loc n) : Tid → Option (Loc n) :=
  fun t => if t ∈ xs then some l else loc t

theorem moved_of_mem (h : t ∈ xs) :
    moved loc xs l t = some l := if_pos h

theorem moved_of_not_mem (h : t ∉ xs) :
    moved loc xs l t = loc t := if_neg h

@[simp] theorem moved_nil (l : Loc n) : moved loc [] l = loc := by
  funext t
  simp [moved]

theorem Inv.update (h : Inv ok s loc) {u : State n} (hne : l ≠ m) (xs : List Tid)
    (hfrom : (s.at l).Perm (xs ++ u.at l)) (hto : (u.at m).Perm (xs ++ s.at m))
    (hrest : ∀ k, k ≠ l → k ≠ m → u.at k = s.at k)
    (hsome : ∀ t, (u.threads t).isSome = (s.threads t).isSome)
    (hcpu : ∀ t, t ∉ xs → (u.threads t).map Thread.cpu = (s.threads t).map Thread.cpu)
    (hhome : ∀ t ∈ xs, ∀ d th, m.home = some d → u.threads t = some th → th.cpu = d)
    (hcur : ∀ d, ∃ th, u.threads (u.cpus d).curthread = some th ∧ th.cpu = d)
    (htag : ∀ t k th, moved loc xs m t = some k → u.threads t = some th →
      ok k th.state ∨ Lagging u.cpus t)
    (hswitching : ∀ d st, (u.cpus d).switching = some st →
      ((u.cpus d).isidle = false ∧ ¬ (u.cpus d).Migrating) ∧
        Parked d st (moved loc xs m (u.cpus d).curthread))
    (hmigration : ∀ d, (u.cpus d).MigrationOk) :
    Inv ok u (moved loc xs m) := by
  have hloc : ∀ t ∈ xs, loc t = some l := fun t ht =>
    (h.placed.mem t l).mp (hfrom.mem_iff.mpr (List.mem_append_left _ ht))
  refine ⟨h.placed.move hne xs hfrom hto hrest, ?_, ?_, hcur, htag, hswitching, hmigration⟩
  · intro t
    rw [hsome t, h.exist t]
    by_cases ht : t ∈ xs
    · rw [moved_of_mem ht, hloc t ht]
      rfl
    · rw [moved_of_not_mem ht]
  · intro t k d th hk hd hth
    by_cases ht : t ∈ xs
    · rw [moved_of_mem ht] at hk
      cases hk
      exact hhome t ht d th hd hth
    · rw [moved_of_not_mem ht] at hk
      have hsame := hcpu t ht
      rw [hth] at hsame
      obtain ⟨th', hth', heq⟩ := Option.map_eq_some_iff.mp hsame.symm
      exact heq.symm.trans (h.home t k d th' hk hd hth')

theorem Inv.parked_moved (h : Inv ok s loc) (hst : (s.cpus d).switching = some st)
    (hparked : (s.cpus d).curthread ∈ xs → Parked d st (some m)) :
    ((s.cpus d).isidle = false ∧ ¬ (s.cpus d).Migrating) ∧
      Parked d st (moved loc xs m (s.cpus d).curthread) := by
  obtain ⟨hidle, hpark⟩ := h.switching d st hst
  refine ⟨hidle, ?_⟩
  by_cases ht : (s.cpus d).curthread ∈ xs
  · rw [moved_of_mem ht]
    exact hparked ht
  · rw [moved_of_not_mem ht]
    exact hpark

theorem Lagging.update {q : Fin n → Cpu} (h : Lagging q t)
    (hp : ¬ (q c).Unlocked → ¬ p.Unlocked ∧ p.curthread = (q c).curthread) :
    Lagging (Function.update q c p) t := by
  obtain ⟨d, hd, rfl⟩ := h
  refine ⟨d, ?_⟩
  by_cases hdc : d = c
  · subst hdc
    rw [Function.update_self]
    exact ⟨(hp hd).1, (hp hd).2.symm⟩
  · rw [Function.update_of_ne hdc]
    exact ⟨hd, rfl⟩

theorem Inv.move (h : Inv ok s loc)
    (hne : l ≠ m) (xs : List Tid)
    (hfrom : (s.at l).Perm
      (xs ++ State.at ⟨s.threads, Function.update s.cpus c p, w, j⟩ l))
    (hto : (State.at ⟨s.threads, Function.update s.cpus c p, w, j⟩ m).Perm (xs ++ s.at m))
    (hrest : ∀ k, k ≠ l → k ≠ m →
      State.at ⟨s.threads, Function.update s.cpus c p, w, j⟩ k = s.at k)
    (hhome : ∀ t ∈ xs, ∀ d th, m.home = some d → s.threads t = some th → th.cpu = d)
    (hcur : p.curthread = (s.cpus c).curthread)
    (htag : ∀ t ∈ xs, ∀ th, s.threads t = some th →
      ok m th.state ∨ Lagging (Function.update s.cpus c p) t)
    (hlag : ¬ (s.cpus c).Unlocked → ¬ p.Unlocked)
    (hswitching : ∀ st, p.switching = some st →
      (p.isidle = false ∧ ¬ p.Migrating) ∧ Parked c st (moved loc xs m p.curthread))
    (hparked : ∀ d, d ≠ c → ∀ st, (s.cpus d).switching = some st → (s.cpus d).curthread ∈ xs →
      Parked d st (some m))
    (hmigration : p.MigrationOk) :
    Inv ok ⟨s.threads, Function.update s.cpus c p, w, j⟩ (moved loc xs m) := by
  refine h.update hne xs hfrom hto hrest (fun _ => rfl) (fun _ _ => rfl) hhome ?_ ?_ ?_ ?_
  · refine (Function.forall_update_iff s.cpus fun d (q : Cpu) =>
      ∃ th, s.threads q.curthread = some th ∧ th.cpu = d).mpr ⟨?_, fun d _ => h.cur d⟩
    rw [hcur]
    exact h.cur c
  · intro t k th hk hth
    by_cases ht : t ∈ xs
    · rw [moved_of_mem ht] at hk
      cases hk
      exact htag t ht th hth
    · rw [moved_of_not_mem ht] at hk
      rcases h.tag t k th hk hth with hok | hlagging
      · exact .inl hok
      · exact .inr (hlagging.update fun hc => ⟨hlag hc, hcur⟩)
  · intro d st hst
    by_cases hd : d = c
    · subst hd
      simp only [Function.update_self] at hst ⊢
      exact hswitching st hst
    · simp only [Function.update_of_ne hd] at hst ⊢
      exact h.parked_moved hst (hparked d hd st hst)
  · exact (Function.forall_update_iff s.cpus fun _ (q : Cpu) => q.MigrationOk).mpr
      ⟨hmigration, fun d _ => h.migration d⟩

theorem Inv.stay (h : Inv ok s loc)
    (hat : ∀ k, (s.at k).Perm
      (State.at ⟨s.threads, Function.update s.cpus c p, s.wchans, s.wakeups⟩ k))
    (hcur : p.curthread = (s.cpus c).curthread) (hc : (s.cpus c).Unlocked) (hp : p.Unlocked)
    (hmigration : p.MigrationOk) :
    Inv ok ⟨s.threads, Function.update s.cpus c p, s.wchans, s.wakeups⟩ loc := by
  refine ⟨?_, h.exist, h.home, ?_, ?_, ?_, ?_⟩
  · exact ⟨fun l => (hat l).nodup_iff.mp (h.placed.nodup l), fun t l =>
      (hat l).mem_iff.symm.trans (h.placed.mem t l)⟩
  · refine (Function.forall_update_iff s.cpus fun d (q : Cpu) =>
      ∃ th, s.threads q.curthread = some th ∧ th.cpu = d).mpr ⟨?_, fun d _ => h.cur d⟩
    rw [hcur]
    exact h.cur c
  · intro t l th hl hth
    exact (h.tag t l th hl hth).imp_right fun hlag => hlag.update fun hl => absurd hc hl
  · intro d st hst
    by_cases hd : d = c
    · subst hd
      simp only [Function.update_self] at hst
      rw [show p.switching = none from hp] at hst
      cases hst
    · simp only [Function.update_of_ne hd] at hst ⊢
      exact h.switching d st hst
  · exact (Function.forall_update_iff s.cpus fun _ (q : Cpu) => q.MigrationOk).mpr
      ⟨hmigration, fun d _ => h.migration d⟩

theorem Inv.pass (h : Inv ok s loc) (hne : l ≠ m)
    (xs : List Tid) (hfrom : (s.at l).Perm (xs ++ State.at ⟨s.threads, s.cpus, w, j⟩ l))
    (hto : (State.at ⟨s.threads, s.cpus, w, j⟩ m).Perm (xs ++ s.at m))
    (hrest : ∀ k, k ≠ l → k ≠ m → State.at ⟨s.threads, s.cpus, w, j⟩ k = s.at k)
    (hhome : m.home = none)
    (htag : ∀ st, ok l st → ok m st)
    (hparked : ∀ d st, Parked d st (some l) → Parked d st (some m)) :
    Inv ok ⟨s.threads, s.cpus, w, j⟩ (moved loc xs m) := by
  have hloc : ∀ t ∈ xs, loc t = some l := fun t ht =>
    (h.placed.mem t l).mp (hfrom.mem_iff.mpr (List.mem_append_left _ ht))
  refine h.update hne xs hfrom hto hrest (fun _ => rfl) (fun _ _ => rfl) ?_ h.cur ?_ ?_ h.migration
  · intro _ _ d _ hd
    rw [hhome] at hd
    cases hd
  · intro t k th hk hth
    by_cases ht : t ∈ xs
    · rw [moved_of_mem ht] at hk
      cases hk
      exact (h.tag t l th (hloc t ht) hth).imp_left (htag _)
    · rw [moved_of_not_mem ht] at hk
      exact h.tag t k th hk hth
  · intro d st hst
    refine h.parked_moved hst fun ht => hparked d st ?_
    rw [← hloc _ ht]
    exact (h.switching d st hst).2

theorem Inv.retag (h : Inv ok s loc) (t : Tid)
    (hst : ∀ l, loc t = some l → ok l st) :
    Inv ok
      { s with
        threads := Function.update s.threads t ((s.threads t).map fun th =>
          { th with state := st }) } loc := by
  have hmap : ∀ t', (Function.update s.threads t ((s.threads t).map fun th =>
      { th with state := st }) t').map Thread.cpu = (s.threads t').map Thread.cpu := by
    intro t'
    by_cases ht : t' = t
    · subst ht
      rw [Function.update_self, Option.map_map]
      rfl
    · rw [Function.update_of_ne ht]
  have hmoved := h.update (u := { s with
        threads := Function.update s.threads t ((s.threads t).map fun th =>
          { th with state := st }) }) (l := .wchan 0) (m := .wakeup 0) nofun []
    (by simp [State.at]) (by simp [State.at]) (fun k _ _ => by cases k <;> rfl) ?_
    (fun t' _ => hmap t') nofun ?_ ?_ ?_ h.migration
  · rw [moved_nil] at hmoved
    exact hmoved
  · intro t'
    rw [← Option.isSome_map (f := Thread.cpu), hmap t', Option.isSome_map]
  · intro d
    obtain ⟨th, hth, hd⟩ := h.cur d
    have hsame := hmap (s.cpus d).curthread
    rw [hth, Option.map_some] at hsame
    obtain ⟨th', hth', heq⟩ := Option.map_eq_some_iff.mp hsame
    exact ⟨th', hth', heq.trans hd⟩
  · intro t' k th hk hth
    rw [moved_nil] at hk
    by_cases ht : t' = t
    · subst ht
      simp only [Function.update_self, Option.map_eq_some_iff] at hth
      obtain ⟨_, -, rfl⟩ := hth
      exact .inl (hst k hk)
    · simp only [Function.update_of_ne ht] at hth
      exact h.tag t' k th hk hth
  · intro d st' hd
    rw [moved_nil]
    exact h.switching d st' hd

/-! ## Leaving the processor -/

theorem threadMakeRunnable_eq {th : Thread n} (h : s.threads t = some th) :
    threadMakeRunnable t s = .ok ()
      { s with
        cpus := Function.update s.cpus th.cpu
          { s.cpus th.cpu with runqueue := (s.cpus th.cpu).runqueue ++ [t] } } := by
  simp only [threadMakeRunnable, cpuOf, bind_apply, get_apply, h, pure_apply, setCpu, modify_apply]

theorem Inv.leave (h : Inv ok s loc) (hc : (s.cpus c).Executing) (hm : Loc.executing c ≠ m)
    (hhome : ∀ d, m.home = some d → d = c) (hst : p.switching = some st)
    (hcur : p.curthread = (s.cpus c).curthread) (hidle : p.isidle = false ∧ ¬ p.Migrating)
    (hmig : p.MigrationOk) (hpark : Parked c st (some m))
    (hto : (State.at ⟨s.threads, Function.update s.cpus c p, w, s.wakeups⟩ m).Perm
      ([(s.cpus c).curthread] ++ s.at m))
    (hrest : ∀ k, k ≠ .executing c → k ≠ m →
      State.at ⟨s.threads, Function.update s.cpus c p, w, s.wakeups⟩ k = s.at k) :
    Inv ok ⟨s.threads, Function.update s.cpus c p, w, s.wakeups⟩
      (moved loc [(s.cpus c).curthread] m) := by
  obtain ⟨th, hth, hcpu⟩ := h.cur c
  have hsw : (s.cpus c).switching = none := hc.unlocked
  have hin : (s.cpus c).curthread ∈ [(s.cpus c).curthread] := List.mem_singleton.mpr rfl
  have hlocked : ¬ p.Unlocked := by
    intro hp
    rw [Cpu.Unlocked, hst] at hp
    cases hp
  refine h.move hm [(s.cpus c).curthread] ?_ hto hrest ?_ hcur ?_ (fun _ => hlocked) ?_ ?_ hmig
  · simp [State.at, Cpu.executed, hc.awake, hsw, hst]
  · intro t ht d th' hd hth'
    rw [List.mem_singleton.mp ht, hth] at hth'
    cases hth'
    exact hcpu.trans (hhome d hd).symm
  · intro t ht th' _
    refine .inr ⟨c, ?_⟩
    rw [Function.update_self, hcur]
    exact ⟨hlocked, List.mem_singleton.mp ht⟩
  · intro st' hst'
    rw [hst] at hst'
    cases hst'
    rw [hcur, moved_of_mem hin]
    exact ⟨hidle, hpark⟩
  · intro d hd st' _ ht
    exact absurd (h.curthread_injective (List.mem_singleton.mp ht)) hd

theorem Inv.switchBegin (h : Inv ok s loc) (hc : (s.cpus c).Executing)
    (st : ThreadState) (hst : st ≠ .run) (wc : Nat) :
    ∃ t loc', Threads.switchBegin c st wc s = .ok () t ∧ Inv ok t loc' := by
  have hidle := hc.awake
  have hawake := And.intro hc.awake hc.notMigrating
  obtain ⟨th, hth, hcpu⟩ := h.cur c
  cases st with
  | run => exact absurd rfl hst
  | ready =>
    by_cases hempty : (s.cpus c).runqueue.isEmpty = true
    · refine ⟨s, loc, ?_, h⟩
      simp only [Threads.switchBegin, bind_apply, get_apply, hidle, Bool.false_eq_true, if_false,
        hempty, if_true, pure_apply]
    · let p : Cpu :=
        { s.cpus c with
          runqueue := (s.cpus c).runqueue ++ [(s.cpus c).curthread], switching := some .ready }
      refine ⟨⟨s.threads, Function.update s.cpus c p, s.wchans, s.wakeups⟩, _, ?_,
        h.leave hc (m := .runqueue c) nofun ?_ rfl rfl hawake ?_ rfl ?_ ?_⟩
      · have hrun := threadMakeRunnable_eq hth
        rw [hcpu] at hrun
        simp only [Threads.switchBegin, bind_apply, get_apply, hidle, Bool.false_eq_true, if_false,
          hempty, hrun, setCpu, modify_apply, Function.update_self, Function.update_idem, p]
      · intro d hd
        exact (Option.some.inj hd).symm
      · exact (h.migration c).grow rfl (by simp [p])
      · simp [State.at, p]
      · intro k h₁ h₂
        cases k <;> grind [State.at, Function.update_apply, Cpu.executed]
  | sleep =>
    let p : Cpu := { s.cpus c with switching := some .sleep }
    refine ⟨⟨s.threads, Function.update s.cpus c p,
      Function.update s.wchans wc (s.wchans wc ++ [(s.cpus c).curthread]), s.wakeups⟩, _, ?_,
      h.leave hc (m := .wchan wc) nofun nofun rfl rfl hawake ((h.migration c).grow rfl (Nat.le_refl _))
        (.inl ⟨wc, rfl⟩) ?_ ?_⟩
    · simp only [Threads.switchBegin, bind_apply, get_apply, hidle, Bool.false_eq_true, if_false,
        setCpu, modify_apply, p]
    · simp [State.at]
    · intro k h₁ h₂
      cases k <;> grind [State.at, Function.update_apply, Cpu.executed]
  | zombie =>
    let p : Cpu :=
      { s.cpus c with
        zombies := (s.cpus c).zombies ++ [(s.cpus c).curthread], switching := some .zombie }
    refine ⟨⟨s.threads, Function.update s.cpus c p, s.wchans, s.wakeups⟩, _, ?_,
      h.leave hc (m := .zombies c) nofun ?_ rfl rfl hawake ((h.migration c).grow rfl (Nat.le_refl _))
        rfl ?_ ?_⟩
    · simp only [Threads.switchBegin, bind_apply, get_apply, hidle, Bool.false_eq_true, if_false,
        setCpu, modify_apply, p]
    · intro d hd
      exact (Option.some.inj hd).symm
    · simp [State.at, p]
    · intro k h₁ h₂
      cases k <;> grind [State.at, Function.update_apply, Cpu.executed]

end Os161.Threads

import Os161.Laws.Thread.Places

/-!
# The steps of the thread system

Each step that can happen returns, and leaves every thread in one place. Where a step takes several
threads, or sends them one by one, the lemma is about one of them and the step is an induction.
-/

namespace Os161.Threads

open Os161.Lib

variable {n : Nat} {ok : Loc n → ThreadState → Prop} {s : State n} {loc : Tid → Option (Loc n)}
variable {c d : Fin n} {p : Cpu} {t z : Tid} {th : Thread n} {k i : Nat}

/-- Two processors differ in their lists only. -/
structure Cpu.SameRun (p q : Cpu) : Prop where
  curthread : p.curthread = q.curthread
  switching : p.switching = q.switching
  isidle : p.isidle = q.isidle
  migration : p.migration = q.migration

theorem sameRun_update (hp : p.SameRun (s.cpus c)) (d : Fin n) :
    (Function.update s.cpus c p d).SameRun (s.cpus d) :=
  (Function.forall_update_iff s.cpus fun d (q : Cpu) => q.SameRun (s.cpus d)).mpr
    ⟨hp, fun _ _ => ⟨rfl, rfl, rfl, rfl⟩⟩ d

/-! ## Taking the next thread -/

theorem Inv.tag_update (h : Inv ok s loc)
    (hcur : ∀ l th, loc (s.cpus c).curthread = some l →
      s.threads (s.cpus c).curthread = some th → ok l th.state) {l : Loc n} (hl : loc t = some l) (hth : s.threads t = some th) :
    ok l th.state ∨ Lagging (Function.update s.cpus c p) t := by
  rcases h.tag t l th hl hth with hok | ⟨d, hd, rfl⟩
  · exact .inl hok
  · by_cases hdc : d = c
    · subst hdc
      exact .inl (hcur l th hl hth)
    · refine .inr ⟨d, ?_⟩
      rw [Function.update_of_ne hdc]
      exact ⟨hd, rfl⟩

theorem Inv.pickNext (hpol : Policy ok) (h : Inv ok s loc)
    (hcur : ∀ l th, loc (s.cpus c).curthread = some l →
      s.threads (s.cpus c).curthread = some th → ok l th.state)
    (hexec : (s.cpus c).executed = []) (hmig : ¬ (s.cpus c).Migrating) :
    ∃ t loc', Threads.pickNext c s = .ok () t ∧ Inv ok t loc' := by
  have hmigok : ∀ p : Cpu, p.migration = (s.cpus c).migration → p.MigrationOk := by
    intro p hp
    simp only [Cpu.Migrating] at hmig
    simp only [Cpu.MigrationOk, hp]
    split <;> simp_all
  have hmigall : ∀ p : Cpu, p.migration = (s.cpus c).migration →
      ∀ d, (Function.update s.cpus c p d).MigrationOk := fun p hp =>
    (Function.forall_update_iff s.cpus fun _ (q : Cpu) => q.MigrationOk).mpr
      ⟨hmigok p hp, fun d _ => h.migration d⟩
  cases hq : (s.cpus c).runqueue with
  | nil =>
    let p : Cpu := { s.cpus c with isidle := true, switching := none }
    refine ⟨⟨s.threads, Function.update s.cpus c p, s.wchans, s.wakeups⟩, moved loc [] (.wakeup 0),
      ?_, h.update (l := .wchan 0) (m := .wakeup 0) (by simp) [] ?_ ?_ ?_ (fun _ => rfl) (fun _ _ => rfl) (by simp) ?_ ?_ ?_
        (hmigall p rfl)⟩
    · simp only [Threads.pickNext, bind_apply, get_apply, hq, setCpu, modify_apply, p]
    · simp [State.at]
    · simp [State.at]
    · intro k _ _
      cases k <;> grind [State.at, Function.update_apply, Cpu.executed]
    · exact (Function.forall_update_iff s.cpus fun d (q : Cpu) =>
        ∃ th, s.threads q.curthread = some th ∧ th.cpu = d).mpr ⟨h.cur c, fun d _ => h.cur d⟩
    · intro t k th hk hth
      rw [moved_nil] at hk
      exact h.tag_update hcur hk hth
    · intro d st hst
      rw [moved_nil]
      by_cases hd : d = c
      · subst hd
        simp only [Function.update_self] at hst
        cases hst
      · simp only [Function.update_of_ne hd] at hst ⊢
        exact h.switching d st hst
  | cons next rest =>
    let p : Cpu :=
      { s.cpus c with runqueue := rest, isidle := false, curthread := next, switching := none }
    have hloc : loc next = some (.runqueue c) := by
      refine (h.placed.mem _ _).mp ?_
      simp [State.at, hq]
    obtain ⟨th, hth⟩ := h.thread hloc
    have hcpu := h.home next _ c th hloc rfl hth
    let threads := Function.update s.threads next ((s.threads next).map fun th =>
      { th with state := .run })
    have hnext : threads next = some { th with state := .run } := by
      simp only [threads, Function.update_self, hth, Option.map_some]
    have hother : ∀ t, t ∉ [next] → threads t = s.threads t := fun t ht =>
      Function.update_of_ne (fun heq => ht (List.mem_singleton.mpr heq)) _ _
    -- The thread taken is of this processor, so no other processor has it as its current one.
    have hnot : ∀ d, d ≠ c → (s.cpus d).curthread ∉ [next] := fun d hd ht =>
      h.curthread_ne hloc rfl (Ne.symm hd) (List.mem_singleton.mp ht).symm
    refine ⟨⟨threads, Function.update s.cpus c p, s.wchans, s.wakeups⟩,
      moved loc [next] (.executing c), ?_, h.update (l := .runqueue c) (m := .executing c) (by simp) [next] ?_ ?_ ?_ ?_ ?_ ?_ ?_ ?_ ?_ (hmigall p rfl)⟩
    · simp only [Threads.pickNext, bind_apply, get_apply, hq, setCpu, modify_apply, setState, p,
        threads]
    · simp [State.at, hq, p]
    · rw [show s.at (.executing c) = [] from hexec]
      simp [State.at, p, Cpu.executed]
    · intro k h₁ h₂
      cases k <;> grind [State.at, Function.update_apply]
    · intro t
      by_cases ht : t ∈ [next]
      · rw [List.mem_singleton.mp ht, hth]
        simp only [hnext, Option.isSome_some]
      · simp only [hother t ht]
    · intro t ht
      simp only [hother t ht]
    · intro t ht d th' hd hth'
      rw [List.mem_singleton.mp ht] at hth'
      simp only [hnext, Option.some.injEq] at hth'
      rw [← hth']
      exact hcpu.trans (Option.some.inj hd)
    · intro d
      by_cases hd : d = c
      · subst hd
        simp only [Function.update_self]
        exact ⟨_, hnext, hcpu⟩
      · simp only [Function.update_of_ne hd, hother _ (hnot d hd)]
        exact h.cur d
    · intro t k th' hk hth'
      by_cases ht : t ∈ [next]
      · rw [moved_of_mem ht, Option.some.injEq] at hk
        rw [List.mem_singleton.mp ht] at hth'
        simp only [hnext, Option.some.injEq] at hth'
        subst hk hth'
        exact .inl (hpol.run c)
      · rw [moved_of_not_mem ht] at hk
        simp only [hother t ht] at hth'
        exact h.tag_update hcur hk hth'
    · intro d st hst
      by_cases hd : d = c
      · subst hd
        simp only [Function.update_self] at hst
        cases hst
      · simp only [Function.update_of_ne hd] at hst ⊢
        exact h.parked_moved hst fun ht => absurd ht (hnot d hd)

theorem Inv.switchEnd (hpol : Policy ok) (h : Inv ok s loc) (c : Fin n) :
    ∃ t loc', Threads.switchEnd c s = .ok () t ∧ Inv ok t loc' := by
  cases hst : (s.cpus c).switching with
  | none =>
    refine ⟨s, loc, ?_, h⟩
    simp only [Threads.switchEnd, bind_apply, get_apply, hst, pure_apply]
  | some st =>
    obtain ⟨⟨-, hmig⟩, hparked⟩ := h.switching c st hst
    -- The thread's new state goes with the place it has been put at.
    have hplace : ∀ l, loc (s.cpus c).curthread = some l → ok l st := by
      intro l hl
      rw [hl] at hparked
      exact hpol.parked c st l hparked
    have htagged := h.retag (s.cpus c).curthread hplace
    obtain ⟨t, loc', hrun, hinv⟩ := htagged.pickNext hpol (c := c) (by
      intro l th hl hth
      simp only [Function.update_self, Option.map_eq_some_iff] at hth
      obtain ⟨_, -, rfl⟩ := hth
      exact hplace l hl) (by simp [Cpu.executed, hst]) hmig
    refine ⟨t, loc', ?_, hinv⟩
    simp only [Threads.switchEnd, bind_apply, get_apply, hst, setState, modify_apply]
    exact hrun

theorem Inv.unidle (hpol : Policy ok) (h : Inv ok s loc)
    (hmig : ¬ (s.cpus c).Migrating) :
    ∃ t loc', Threads.unidle c s = .ok () t ∧ Inv ok t loc' := by
  cases hidle : (s.cpus c).isidle with
  | false =>
    refine ⟨s, loc, ?_, h⟩
    simp only [Threads.unidle, bind_apply, get_apply, hidle, Bool.false_eq_true, if_false, pure_apply]
  | true =>
    have hcur : ∀ l th, loc (s.cpus c).curthread = some l →
        s.threads (s.cpus c).curthread = some th → ok l th.state := by
      intro l th hl hth
      rcases h.tag _ l th hl hth with hok | ⟨d, hd, heq⟩
      · exact hok
      · -- An idle processor is not in the middle of a switch.
        have hdc := h.curthread_injective heq
        subst hdc
        obtain ⟨st, hst⟩ := Option.ne_none_iff_exists'.mp hd
        rw [(h.switching c st hst).1.1] at hidle
        cases hidle
    obtain ⟨t, loc', hrun, hinv⟩ := h.pickNext hpol hcur (by simp [Cpu.executed, hidle]) hmig
    refine ⟨t, loc', ?_, hinv⟩
    simp only [Threads.unidle, bind_apply, get_apply, hidle, if_true]
    exact hrun

/-! ## New and dead threads -/

theorem Inv.threadFork (hpol : Policy ok) (h : Inv ok s loc) (c : Fin n)
    (ht : s.threads t = none) :
    ∃ u loc', Threads.threadFork c t s = .ok () u ∧ Inv ok u loc' := by
  obtain ⟨th, hth, hcpu⟩ := h.cur c
  have hloc : loc t = none := by
    have := h.exist t
    rw [ht] at this
    exact Option.isNone_iff_eq_none.mp (by simpa using this.symm)
  have hne : ∀ d, (s.cpus d).curthread ≠ t := by
    rintro d rfl
    obtain ⟨_, hd, -⟩ := h.cur d
    rw [ht] at hd
    cases hd
  let threads := Function.update s.threads t (some { state := .ready, cpu := c })
  let p : Cpu := { s.cpus c with runqueue := (s.cpus c).runqueue ++ [t] }
  have hq := sameRun_update (s := s) (c := c) (p := p) ⟨rfl, rfl, rfl, rfl⟩
  refine ⟨⟨threads, Function.update s.cpus c p, s.wchans, s.wakeups⟩,
    Function.update loc t (some (.runqueue c)), ?_, ?_, ?_, ?_, ?_, ?_, ?_, ?_⟩
  · have hnew : threads t = some { state := .ready, cpu := c } := Function.update_self ..
    have hrun := threadMakeRunnable_eq (s := { s with threads := threads }) hnew
    simp only [Threads.threadFork, bind_apply, get_apply, cpuOf, hth, pure_apply, modify_apply, hcpu]
    exact hrun
  · refine h.placed.insert hloc (l := .runqueue c) ?_ ?_
    · simp [State.at, p, List.perm_append_singleton]
    · intro k hk
      cases k <;> grind [State.at, Function.update_apply, Cpu.executed]
  · intro t'
    by_cases heq : t' = t
    · subst heq
      simp [threads]
    · simp only [threads, Function.update_of_ne heq, h.exist t']
  · intro t' l d th' hl hd hth'
    by_cases heq : t' = t
    · subst heq
      simp only [threads, Function.update_self, Option.some.injEq] at hl hth'
      subst hl hth'
      exact Option.some.inj hd
    · simp only [threads, Function.update_of_ne heq] at hl hth'
      exact h.home t' l d th' hl hd hth'
  · intro d
    simp only [(hq d).curthread, threads, Function.update_of_ne (hne d)]
    exact h.cur d
  · intro t' l th' hl hth'
    by_cases heq : t' = t
    · subst heq
      simp only [threads, Function.update_self, Option.some.injEq] at hl hth'
      subst hl hth'
      exact .inl (hpol.ready c)
    · simp only [threads, Function.update_of_ne heq] at hl hth'
      exact (h.tag t' l th' hl hth').imp_right fun hlag => hlag.update fun hl => ⟨hl, rfl⟩
  · intro d st hst
    have hst' := (hq d).switching ▸ hst
    simp only [Cpu.Migrating, (hq d).curthread, (hq d).isidle, (hq d).migration, Function.update_of_ne (hne d)]
    exact h.switching d st hst'
  · exact (Function.forall_update_iff s.cpus fun _ (q : Cpu) => q.MigrationOk).mpr
      ⟨(h.migration c).grow rfl (by simp [p]), fun d _ => h.migration d⟩

theorem Inv.curthread_ne_zombie (h : Inv ok s loc) (hc : (s.cpus c).Executing)
    (hz : z ∈ (s.cpus c).zombies) (d : Fin n) : (s.cpus d).curthread ≠ z := by
  intro heq
  have hloc : loc z = some (.zombies c) := (h.placed.mem z (.zombies c)).mp hz
  by_cases hd : c = d
  · subst hd
    rw [← heq, h.loc_curthread hc] at hloc
    cases hloc
  · exact h.curthread_ne hloc rfl hd heq.symm

theorem Inv.zombie_state (hzombie : ∀ c st, ok (.zombies c) st → st = .zombie) (h : Inv ok s loc) (hc : (s.cpus c).Executing) (hz : z ∈ (s.cpus c).zombies) :
    ∃ th, s.threads z = some th ∧ th.state = .zombie := by
  have hloc : loc z = some (.zombies c) := (h.placed.mem z (.zombies c)).mp hz
  obtain ⟨th, hth⟩ := h.thread hloc
  refine ⟨th, hth, ?_⟩
  rcases h.tag z _ th hloc hth with hok | ⟨d, -, heq⟩
  · exact hzombie c _ hok
  · exact absurd heq.symm (h.curthread_ne_zombie hc hz d)

theorem Inv.exorcise (hzombie : ∀ c st, ok (.zombies c) st → st = .zombie) (h : Inv ok s loc) (hc : (s.cpus c).Executing) :
    ∃ u loc', Threads.exorcise c s = .ok () u ∧ Inv ok u loc' := by
  cases hz : (s.cpus c).zombies with
  | nil =>
    refine ⟨s, loc, ?_, h⟩
    simp only [Threads.exorcise, bind_apply, get_apply, hz, pure_apply]
  | cons z rest =>
    have hin : z ∈ (s.cpus c).zombies := by simp [hz]
    have hne := h.curthread_ne_zombie hc hin
    obtain ⟨th, hth, hstate⟩ := h.zombie_state hzombie hc hin
    let p : Cpu := { s.cpus c with zombies := rest }
    have hq := sameRun_update (s := s) (c := c) (p := p) ⟨rfl, rfl, rfl, rfl⟩
    refine ⟨⟨Function.update s.threads z none, Function.update s.cpus c p, s.wchans, s.wakeups⟩,
      Function.update loc z none, ?_, ?_, ?_, ?_, ?_, ?_, ?_, ?_⟩
    · simp only [Threads.exorcise, bind_apply, get_apply, hz, setCpu, modify_apply, hth,
        (hne c).symm, if_false, hstate, ne_eq, not_true_eq_false, p]
    · refine h.placed.remove (l := .zombies c) ?_ ?_
      · simp [State.at, p, hz]
      · intro k hk
        cases k <;> grind [State.at, Function.update_apply, Cpu.executed]
    · intro t
      by_cases ht : t = z
      · subst ht
        simp
      · simp only [Function.update_of_ne ht, h.exist t]
    · intro t l d th' hl hd hth'
      by_cases ht : t = z
      · subst ht
        simp only [Function.update_self] at hl
        cases hl
      · simp only [Function.update_of_ne ht] at hl hth'
        exact h.home t l d th' hl hd hth'
    · intro d
      simp only [(hq d).curthread, Function.update_of_ne (hne d)]
      exact h.cur d
    · intro t l th' hl hth'
      by_cases ht : t = z
      · subst ht
        simp only [Function.update_self] at hl
        cases hl
      · simp only [Function.update_of_ne ht] at hl hth'
        exact (h.tag t l th' hl hth').imp_right fun hlag => hlag.update fun hl => ⟨hl, rfl⟩
    · intro d st hst
      have hst' := (hq d).switching ▸ hst
      simp only [Cpu.Migrating, (hq d).curthread, (hq d).isidle, (hq d).migration, Function.update_of_ne (hne d)]
      exact h.switching d st hst'
    · exact (Function.forall_update_iff s.cpus fun _ (q : Cpu) => q.MigrationOk).mpr
        ⟨(h.migration c).grow rfl (Nat.le_refl _), fun d _ => h.migration d⟩

/-! ## Wakeups -/

theorem Inv.wake (hpol : Policy ok) (h : Inv ok s loc) (hk : s.wakeups k = []) (wc : Nat)
    (xs rest : List Tid) (hxs : (s.wchans wc).Perm (xs ++ rest)) :
    ∃ loc', Inv ok
      ⟨s.threads, s.cpus, Function.update s.wchans wc rest, Function.update s.wakeups k xs⟩ loc' := by
  refine ⟨_, h.pass (l := .wchan wc) (m := .wakeup k) nofun xs ?_ ?_ ?_ rfl (hpol.woken wc k) ?_⟩
  · simpa [State.at] using hxs
  · simp [State.at, hk]
  · intro l h₁ h₂
    cases l <;> grind [State.at, Function.update_apply]
  · intro d st hparked
    cases st with
    | run => exact hparked
    | ready | zombie => cases hparked
    | sleep => exact .inr ⟨k, rfl⟩

theorem Inv.not_lagging (h : Inv ok s loc) (hth : s.threads t = some th)
    (hfree : (s.cpus th.cpu).Unlocked) : ¬ Lagging s.cpus t := by
  rintro ⟨d, hd, rfl⟩
  obtain ⟨th', hth', hcpu⟩ := h.cur d
  rw [hth] at hth'
  cases hth'
  rw [hcpu] at hfree
  exact hd hfree

theorem Inv.wakeupNext (h : Inv ok s loc)
    (hwoken : s.wakeups k ≠ [] → ∀ c st, ok (.wakeup k) st → ok (.runqueue c) st)
    (hlock : ∀ t ∈ (s.wakeups k).head?, ∀ th, s.threads t = some th → (s.cpus th.cpu).Unlocked) :
    ∃ u loc', Threads.wakeupNext k s = .ok () u ∧ Inv ok u loc' := by
  cases hk : s.wakeups k with
  | nil =>
    refine ⟨s, loc, ?_, h⟩
    simp only [Threads.wakeupNext, bind_apply, get_apply, hk, pure_apply]
  | cons t rest =>
    have hloc : loc t = some (.wakeup k) := by
      refine (h.placed.mem _ _).mp ?_
      simp [State.at, hk]
    obtain ⟨th, hth⟩ := h.thread hloc
    have hfree : (s.cpus th.cpu).Unlocked := hlock t (by rw [hk]; rfl) th hth
    let p : Cpu := { s.cpus th.cpu with runqueue := (s.cpus th.cpu).runqueue ++ [t] }
    refine ⟨⟨s.threads, Function.update s.cpus th.cpu p, s.wchans, Function.update s.wakeups k rest⟩,
      _, ?_, h.move (l := .wakeup k) (m := .runqueue th.cpu) (by simp) [t] ?_ ?_ ?_ ?_ rfl ?_
        (fun hl => hl) ?_ ?_ ((h.migration th.cpu).grow rfl (by simp [p]))⟩
    · have hrun := threadMakeRunnable_eq
        (s := { s with wakeups := Function.update s.wakeups k rest }) hth
      simp only [Threads.wakeupNext, bind_apply, get_apply, hk, modify_apply]
      exact hrun
    · simp [State.at, hk]
    · simp [State.at, p, List.perm_append_singleton]
    · intro l h₁ h₂
      cases l <;> grind [State.at, Function.update_apply, Cpu.executed]
    · intro t' ht d th' hd hth'
      rw [List.mem_singleton.mp ht, hth] at hth'
      cases hth'
      exact Option.some.inj hd
    · intro t' ht th' hth'
      rw [List.mem_singleton.mp ht] at hth'
      rcases h.tag t _ th' hloc hth' with hok | hlag
      · exact .inl (hwoken (by simp [hk]) _ _ hok)
      · exact absurd hlag (h.not_lagging hth hfree)
    · intro st hst
      rw [show p.switching = none from hfree] at hst
      cases hst
    · intro d _ st hst ht
      refine absurd ⟨d, ?_, (List.mem_singleton.mp ht).symm⟩ (h.not_lagging hth hfree)
      intro hd
      rw [show (s.cpus d).switching = none from hd] at hst
      cases hst

/-! ## Migration -/

/-- The state as it is when the victims in the migration's own list are `victims`. -/
def State.carrying (s : State n) (c : Fin n) (m : Migration) : State n :=
  { s with cpus := Function.update s.cpus c { s.cpus c with migration := m } }

theorem Inv.advance (h : Inv ok s loc) (hc : (s.cpus c).Unlocked) {m : Migration}
    (hvictims : m.victims = (s.cpus c).migration.victims)
    (hm : Cpu.MigrationOk { s.cpus c with migration := m }) : Inv ok (s.carrying c m) loc := by
  refine h.stay (p := { s.cpus c with migration := m }) ?_ rfl hc hc hm
  intro k
  cases k <;> grind [State.at, Function.update_apply, Cpu.executed]

theorem Inv.takeVictims (hpol : Policy ok) (h : Inv ok s loc)
    (hc : (s.cpus c).Unlocked) {myCount totalCount : Nat}
    (hm : (s.cpus c).migration = .counting i myCount totalCount) :
    ∃ u loc', Threads.takeVictims c myCount totalCount s = .ok () u ∧ Inv ok u loc' := by
  by_cases hshare : myCount < (totalCount + n - 1) / n
  · refine ⟨s.carrying c .none, loc, ?_, h.advance hc ?_ trivial⟩
    · simp only [Threads.takeVictims, bind_apply, get_apply, hshare, if_true, setCpu, modify_apply,
        State.carrying]
    · rw [hm]
      rfl
  · -- The run queue is at least as long as it was counted.
    have hcount : myCount ≤ (s.cpus c).runqueue.length := by
      have := h.migration c
      rwa [Cpu.MigrationOk, hm] at this
    let toSend := myCount - (totalCount + n - 1) / n
    have hle : toSend ≤ (s.cpus c).runqueue.length := Nat.le_trans (Nat.sub_le _ _) hcount
    let keep := (s.cpus c).runqueue.length - toSend
    let p : Cpu :=
      { s.cpus c with
        runqueue := (s.cpus c).runqueue.take keep
        migration := .sending 0 toSend ((totalCount + n - 1) / n) ((s.cpus c).runqueue.drop keep) }
    have hloc : ∀ t ∈ (s.cpus c).runqueue.drop keep, loc t = some (.runqueue c) := fun t ht =>
      (h.placed.mem _ _).mp (List.mem_of_mem_drop ht)
    refine ⟨⟨s.threads, Function.update s.cpus c p, s.wchans, s.wakeups⟩, _, ?_,
      h.move (l := .runqueue c) (m := .victims c) (by simp) ((s.cpus c).runqueue.drop keep) ?_ ?_ ?_ ?_
        rfl ?_ (fun hl => hl) ?_ ?_ ?_⟩
    · simp only [Threads.takeVictims, bind_apply, get_apply, hshare, if_false, setCpu, p, keep]
      rw [if_neg (Nat.not_lt.mpr hle)]
      rfl
    · simp only [State.at, Function.update_self, p]
      refine List.Perm.trans ?_ List.perm_append_comm
      rw [List.take_append_drop]
    · simp [State.at, p, Migration.victims, hm]
    · intro k h₁ h₂
      cases k <;> grind [State.at, Function.update_apply, Cpu.executed]
    · intro t ht d th hd hth
      rw [h.home t _ c th (hloc t ht) rfl hth]
      exact Option.some.inj hd
    · intro t ht th hth
      rcases h.tag t _ th (hloc t ht) hth with hok | hlag
      · exact .inl (hpol.taken c _ hok)
      · exact .inr (hlag.update fun hl => ⟨hl, rfl⟩)
    · intro st hst
      rw [show p.switching = none from hc] at hst
      cases hst
    · intro d hd st _ ht
      exact absurd rfl (h.curthread_ne (hloc _ ht) rfl (Ne.symm hd))
    · show toSend ≤ ((s.cpus c).runqueue.drop keep).length
      rw [List.length_drop]
      simp only [keep]
      omega

theorem Inv.sendOne (hpol : Policy ok) (hdc : d ≠ c) {toSend oneShare : Nat} {victims : List Tid}
    (h : Inv ok (s.carrying c (.sending i (toSend + 1) oneShare (t :: victims))) loc)
    (hcur : t ≠ (s.cpus c).curthread) :
    ∃ loc', Inv ok
      (State.carrying
        { s with
          threads := Function.update s.threads t ((s.threads t).map fun th => { th with cpu := d })
          cpus := Function.update s.cpus d
            { s.cpus d with runqueue := (s.cpus d).runqueue ++ [t] } }
        c (.sending i toSend oneShare victims)) loc' := by
  have hloc : loc t = some (.victims c) := by
    refine (h.placed.mem _ _).mp ?_
    simp [State.at, State.carrying, Migration.victims]
  obtain ⟨th, hth⟩ := h.thread hloc
  have hcurs : ∀ e, ((s.carrying c (.sending i (toSend + 1) oneShare (t :: victims))).cpus e).curthread
      ≠ t := by
    intro e heq
    by_cases he : c = e
    · subst he
      simp only [State.carrying, Function.update_self] at heq
      exact hcur heq.symm
    · exact h.curthread_ne hloc rfl he heq.symm
  let threads := Function.update s.threads t ((s.threads t).map fun th => { th with cpu := d })
  have hnew : threads t = some { th with cpu := d } := by
    simp only [threads, Function.update_self]
    rw [show s.threads t = some th from hth]
    rfl
  have hold : ∀ t', t' ≠ t → threads t' = s.threads t' := fun t' ht => Function.update_of_ne ht _ _
  let v := s.carrying c (.sending i (toSend + 1) oneShare (t :: victims))
  let u := State.carrying
    { s with
      threads := threads
      cpus := Function.update s.cpus d { s.cpus d with runqueue := (s.cpus d).runqueue ++ [t] } }
    c (.sending i toSend oneShare victims)
  have hsame : ∀ e, (u.cpus e).curthread = (v.cpus e).curthread ∧
      (u.cpus e).switching = (v.cpus e).switching ∧ (u.cpus e).isidle = (v.cpus e).isidle ∧
      ((u.cpus e).Migrating ↔ (v.cpus e).Migrating) := by
    intro e
    by_cases hec : e = c
    · subst hec
      simp [u, v, State.carrying, Function.update_of_ne (Ne.symm hdc), Cpu.Migrating]
    · by_cases hed : e = d
      · subst hed
        simp [u, v, State.carrying, Function.update_of_ne hdc, Cpu.Migrating]
      · simp [u, v, State.carrying, hec, hed]
  have hlag : ∀ t', Lagging v.cpus t' → Lagging u.cpus t' := by
    rintro t' ⟨e, he, heq⟩
    exact ⟨e, by rwa [Cpu.Unlocked, (hsame e).2.1], by rw [(hsame e).1]; exact heq⟩
  refine ⟨_, h.update (u := u) (l := .victims c) (m := .runqueue d) (by simp) [t] ?_ ?_ ?_ ?_ ?_ ?_ ?_ ?_
    ?_ ?_⟩
  · simp [State.at, State.carrying, Migration.victims, u]
  · simp [State.at, State.carrying, u, Function.update_of_ne hdc, List.perm_append_singleton]
  · intro k h₁ h₂
    simp only [u, State.carrying]
    cases k <;> grind [State.at, Function.update_apply, Cpu.executed]
  · intro t'
    by_cases ht : t' = t
    · subst ht
      exact (congrArg Option.isSome hnew).trans (congrArg Option.isSome hth).symm
    · exact congrArg Option.isSome (hold t' ht)
  · intro t' ht
    exact congrArg _ (hold t' fun heq => ht (List.mem_singleton.mpr heq))
  · intro t' ht e th' he hth'
    rw [List.mem_singleton.mp ht] at hth'
    cases hnew.symm.trans hth'
    exact Option.some.inj he
  · intro e
    obtain ⟨th', hth', hcpu⟩ := h.cur e
    refine ⟨th', ?_, hcpu⟩
    rw [(hsame e).1]
    exact (hold _ (hcurs e)).trans hth'
  · intro t' k th' hk hth'
    by_cases ht : t' = t
    · subst ht
      rw [moved_of_mem (List.mem_singleton.mpr rfl), Option.some.injEq] at hk
      subst hk
      cases hnew.symm.trans hth'
      exact (h.tag _ _ th hloc hth).imp (hpol.sent c d _) (hlag _)
    · rw [moved_of_not_mem fun hin => ht (List.mem_singleton.mp hin)] at hk
      exact (h.tag t' k th' hk ((hold t' ht).symm.trans hth')).imp_right (hlag _)
  · intro e st hst
    obtain ⟨hcur', hsw, hidle, hmig⟩ := hsame e
    rw [hsw] at hst
    rw [hcur', hidle, hmig]
    exact h.parked_moved hst fun hin => absurd (List.mem_singleton.mp hin) (hcurs e)
  · intro e
    by_cases hec : e = c
    · subst hec
      have := h.migration e
      simp only [State.carrying, Function.update_self, Cpu.MigrationOk, List.length_cons] at this
      simp only [State.carrying, Function.update_self, Cpu.MigrationOk, u]
      omega
    · have := h.migration e
      simp only [State.carrying, Function.update_of_ne hec] at this
      simp only [State.carrying, Function.update_of_ne hec, u]
      by_cases hed : e = d
      · subst hed
        rw [Function.update_self]
        exact this.grow rfl (by simp)
      · rw [Function.update_of_ne hed]
        exact this

theorem Inv.sendTo (hpol : Policy ok) (hdc : d ≠ c) (i oneShare : Nat) :
    ∀ (toSend : Nat) (victims : List Tid) (s : State n) (loc : Tid → Option (Loc n)),
      (s.cpus c).Unlocked → Inv ok (s.carrying c (.sending i toSend oneShare victims)) loc →
      ∃ toSend' victims' u loc',
        Threads.sendTo c d oneShare toSend victims s = .ok (toSend', victims') u ∧
        (u.cpus c).Unlocked ∧ Inv ok (u.carrying c (.sending i toSend' oneShare victims')) loc' := by
  intro toSend
  induction toSend with
  | zero =>
    intro victims s loc hc h
    exact ⟨0, victims, s, loc, rfl, hc, h⟩
  | succ toSend ih =>
    intro victims s loc hc h
    by_cases hshort : (s.cpus d).runqueue.length < oneShare
    · have hvictims := h.migration c
      simp only [State.carrying, Function.update_self, Cpu.MigrationOk] at hvictims
      cases victims with
      | nil => simp at hvictims
      | cons t victims =>
        by_cases ht : t = (s.cpus c).curthread
        · have hskip : Inv ok (s.carrying c (.sending i toSend oneShare (victims ++ [t]))) loc := by
            have := h.stay (c := c)
              (p := { s.cpus c with migration := .sending i toSend oneShare (victims ++ [t]) })
              ?_ (by simp [State.carrying]) (by simpa [State.carrying, Cpu.Unlocked] using hc) hc ?_
            · simpa only [State.carrying, Function.update_idem] using this
            · intro k
              cases k with
              | victims e =>
                by_cases he : e = c
                · subst he
                  simp [State.at, State.carrying, Migration.victims, List.perm_append_singleton,
                    List.Perm.symm]
                · simp [State.at, State.carrying, he]
              | _ =>
                simp only [State.carrying]
                grind [State.at, Function.update_apply, Cpu.executed]
            · simp only [Cpu.MigrationOk, List.length_append, List.length_cons, List.length_nil]
              simp only [List.length_cons] at hvictims
              omega
          obtain ⟨toSend', victims', u, loc', hrun, hu, hinv⟩ := ih _ s loc hc hskip
          refine ⟨toSend', victims', u, loc', ?_, hu, hinv⟩
          simp only [Threads.sendTo, bind_apply, get_apply, hshort, if_true]
          rw [if_pos ht]
          exact hrun
        · obtain ⟨loc₁, hone⟩ := h.sendOne hpol hdc ht
          obtain ⟨toSend', victims', u, loc', hrun, hu, hinv⟩ := ih _ _ loc₁ (by
            simpa only [Function.update_of_ne (Ne.symm hdc)] using hc) hone
          refine ⟨toSend', victims', u, loc', ?_, hu, hinv⟩
          simp only [Threads.sendTo, bind_apply, get_apply, hshort, if_true, ht, if_false,
            modify_apply, setCpu]
          exact hrun
    · refine ⟨toSend + 1, victims, s, loc, ?_, hc, h⟩
      simp only [Threads.sendTo, bind_apply, get_apply, hshort, if_false, pure_apply]

theorem Inv.migrate (hpol : Policy ok) (h : Inv ok s loc) (hc : (s.cpus c).Unlocked) :
    ∃ u loc', Threads.migrate c s = .ok () u ∧ Inv ok u loc' := by
  cases hm : (s.cpus c).migration with
  | none =>
    refine ⟨s.carrying c (.counting 0 0 0), loc, ?_, h.advance hc ?_ (Nat.zero_le _)⟩
    · simp only [Threads.migrate, bind_apply, get_apply, hm, setCpu, modify_apply, State.carrying]
    · rw [hm]
      rfl
  | counting i myCount totalCount =>
    by_cases hi : i < n
    · refine ⟨s.carrying c (.counting (i + 1) (if i = c then (s.cpus ⟨i, hi⟩).runqueue.length
        else myCount) (totalCount + (s.cpus ⟨i, hi⟩).runqueue.length)), loc, ?_, h.advance hc ?_ ?_⟩
      · simp only [Threads.migrate, bind_apply, get_apply, hm, hi, dite_true, setCpu, modify_apply,
          State.carrying]
      · rw [hm]
        rfl
      · have hcount := h.migration c
        rw [Cpu.MigrationOk, hm] at hcount
        show (if i = c then _ else _) ≤ (s.cpus c).runqueue.length
        split
        · rename_i heq
          exact Nat.le_of_eq (by rw [show (⟨i, hi⟩ : Fin n) = c from Fin.ext heq])
        · exact hcount
    · obtain ⟨u, loc', hrun, hinv⟩ := h.takeVictims hpol hc hm
      refine ⟨u, loc', ?_, hinv⟩
      simp only [Threads.migrate, bind_apply, get_apply, hm, hi, dite_false]
      exact hrun
  | sending i toSend oneShare victims =>
    have hsend := h.migration c
    rw [Cpu.MigrationOk, hm] at hsend
    by_cases hi : i < n ∧ 0 < toSend
    · by_cases hic : i = c
      · refine ⟨s.carrying c (.sending (i + 1) toSend oneShare victims), loc, ?_, h.advance hc ?_ hsend⟩
        · simp only [Threads.migrate, bind_apply, get_apply, hm]
          rw [dif_pos hi, if_pos hic]
          rfl
        · rw [hm]
          rfl
      · have hvirtual : Inv ok (s.carrying c (.sending (i + 1) toSend oneShare victims)) loc :=
          h.advance hc (by rw [hm]; rfl) hsend
        obtain ⟨toSend', victims', u, loc', hrun, -, hinv⟩ :=
          Inv.sendTo hpol (c := c) (d := ⟨i, hi.1⟩) (fun heq => hic (congrArg Fin.val heq)) (i + 1)
            oneShare toSend victims s loc hc hvirtual
        refine ⟨_, loc', ?_, hinv⟩
        simp only [Threads.migrate, bind_apply, get_apply, hm, hi, and_self, dite_true, hic, if_false,
          hrun, setCpu, modify_apply, State.carrying]
    · -- What is left of the victims goes back to the processor's own run queue.
      let p : Cpu := { s.cpus c with runqueue := (s.cpus c).runqueue ++ victims, migration := .none }
      have hloc : ∀ t ∈ victims, loc t = some (.victims c) := by
        intro t ht
        refine (h.placed.mem _ _).mp ?_
        simpa [State.at, hm, Migration.victims] using ht
      refine ⟨⟨s.threads, Function.update s.cpus c p, s.wchans, s.wakeups⟩, _, ?_,
        h.move (l := .victims c) (m := .runqueue c) (by simp) victims ?_ ?_ ?_ ?_ rfl ?_ (fun hl => hl) ?_
          ?_ trivial⟩
      · simp only [Threads.migrate, bind_apply, get_apply, hm, hi, dite_false, setCpu, modify_apply, p]
      · simp [State.at, hm, Migration.victims, p]
      · simp only [State.at, Function.update_self, p]
        exact List.perm_append_comm
      · intro k h₁ h₂
        cases k <;> grind [State.at, Function.update_apply, Cpu.executed]
      · intro t ht d th hd hth
        rw [h.home t _ c th (hloc t ht) rfl hth]
        exact Option.some.inj hd
      · intro t ht th hth
        rcases h.tag t _ th (hloc t ht) hth with hok | hlag
        · exact .inl (hpol.sent c c _ hok)
        · exact .inr (hlag.update fun hl => ⟨hl, rfl⟩)
      · intro st hst
        rw [show p.switching = none from hc] at hst
        cases hst
      · intro d hd st _ ht
        exact absurd rfl (h.curthread_ne (hloc _ ht) rfl (Ne.symm hd))

end Os161.Threads

import Os161.Laws.Thread.Run

/-!
# A call of `thread_consider_migration`

The sections of a call are steps of the thread system, and others come in between: wakeups and the migrations of other
processors add to run queues, and a processor takes threads off its own. From the outside a call only adds to the run
queues of other processors, and what was on its own run queue is there, among the victims, or on the run queue of
another processor, unless that processor has taken it.
-/

namespace Os161.Threads

open Os161.Lib

variable {n : Nat}
variable {p : Cpu}

/-! ## What a step does to the other processors -/

/-- The processor a step is made by. The sections of a wakeup are not made by one in particular. -/
def Event.actor : Event n → Option (Fin n)
  | .fork c _ | .yield c | .sleep c _ | .exit c | .switchEnd c | .unidle c | .exorcise c | .migrate c => some c
  | .wakeone _ _ | .wakeall _ _ | .wakeupNext _ => none

/-- At most the run queue has got longer, at its end. -/
structure Cpu.Fed (p q : Cpu) : Prop where
  curthread : q.curthread = p.curthread
  switching : q.switching = p.switching
  migration : q.migration = p.migration
  runqueue : p.runqueue <+: q.runqueue

theorem Cpu.Fed.refl (p : Cpu) : p.Fed p := ⟨rfl, rfl, rfl, List.prefix_refl _⟩

theorem Cpu.Fed.trans {q r : Cpu} (h : p.Fed q) (h' : q.Fed r) : p.Fed r :=
  ⟨h'.curthread.trans h.curthread, h'.switching.trans h.switching, h'.migration.trans h.migration,
    h.runqueue.trans h'.runqueue⟩

theorem Cpu.Fed.append (p : Cpu) (l : List Tid) : p.Fed { p with runqueue := p.runqueue ++ l } :=
  ⟨rfl, rfl, rfl, List.prefix_append _ _⟩

/-- The section does no more to the processor `d` than to add to its run queue. -/
def Feeds {α : Type} (d : Fin n) (x : K n α) : Prop := ∀ p, Keeps (fun s => Cpu.Fed p (s.cpus d)) x

section Feeds

variable {α β : Type} {d : Fin n} {x : K n α} {f : α → K n β}
variable {g : State n → State n}

theorem Feeds.pure (a : α) : Feeds d (pure a : K n α) := fun _ => Safe.pure a

theorem Feeds.throw (e : Fault) : Feeds d (throw e : K n α) := fun _ => Safe.throw trivial

theorem Feeds.bind (hx : Feeds d x) (hf : ∀ a, Feeds d (f a)) : Feeds d (x >>= f) :=
  fun p => (hx p).bind fun a => hf a p

theorem Feeds.get {f : State n → K n β} (hf : ∀ s, Feeds d (f s)) : Feeds d (get >>= f) :=
  fun p => Safe.bind Safe.get fun s => hf s p

theorem Feeds.ite {c : Prop} [Decidable c] {y : K n α} (hx : Feeds d x) (hy : Feeds d y) :
    Feeds d (if c then x else y) := by
  split
  · exact hx
  · exact hy

theorem Feeds.aside (h : ∀ s, (g s).cpus = s.cpus) : Feeds d (modify g : K n PUnit) :=
  fun _ => Safe.modify fun s hs => by rwa [h]

theorem Feeds.modify (h : ∀ s : State n, (s.cpus d).Fed ((g s).cpus d)) :
    Feeds d (modify g : K n PUnit) := fun _ => Safe.modify fun s hs => hs.trans (h s)

theorem Feeds.setCpu {c : Fin n} {g : Cpu → Cpu} (h : c = d → ∀ p : Cpu, p.Fed (g p)) : Feeds d (setCpu c g) := by
  refine Feeds.modify fun s => ?_
  by_cases hcd : d = c
  · subst hcd
    dsimp only
    rw [Function.update_self]
    exact h rfl _
  · dsimp only
    rw [Function.update_of_ne hcd]
    exact Cpu.Fed.refl _

theorem Feeds.setCpu_ne {c : Fin n} (hcd : c ≠ d) (g : Cpu → Cpu) : Feeds d (Threads.setCpu c g) :=
  Feeds.setCpu fun h => absurd h hcd

theorem Feeds.fed (h : Feeds d x) {s u : State n} {a : α} (hx : x s = .ok a u) : (s.cpus d).Fed (u.cpus d) :=
  Triple.of_ok (h _) (Cpu.Fed.refl _) hx

end Feeds

theorem cpuOf_feeds (d : Fin n) (t : Tid) : Feeds d (cpuOf t) := by
  refine Feeds.get fun s => ?_
  cases s.threads t with
  | none => exact Feeds.throw _
  | some th => exact Feeds.pure _

theorem setState_feeds (d : Fin n) (t : Tid) (st : ThreadState) : Feeds d (setState t st) :=
  Feeds.aside fun _ => rfl

theorem threadMakeRunnable_feeds (d : Fin n) (t : Tid) : Feeds d (threadMakeRunnable t) :=
  (cpuOf_feeds d t).bind fun _ => Feeds.setCpu fun _ p => .append p _

theorem threadFork_feeds (d c : Fin n) (t : Tid) : Feeds d (threadFork c t) :=
  Feeds.get fun _ => (cpuOf_feeds d _).bind fun _ =>
    Feeds.bind (Feeds.aside fun _ => rfl) fun _ => threadMakeRunnable_feeds d t

section Others

variable {c d : Fin n} (hcd : c ≠ d)
include hcd

theorem switchBegin_feeds (st : ThreadState) (wc : Nat) : Feeds d (switchBegin c st wc) := by
  refine Feeds.get fun s => Feeds.ite (Feeds.pure _) ?_
  cases st with
  | run => exact Feeds.throw _
  | ready =>
    exact Feeds.ite (Feeds.pure _) ((threadMakeRunnable_feeds d _).bind fun _ => Feeds.setCpu_ne hcd _)
  | sleep => exact Feeds.bind (Feeds.aside fun _ => rfl) fun _ => Feeds.setCpu_ne hcd _
  | zombie => exact Feeds.setCpu_ne hcd _

theorem pickNext_feeds : Feeds d (pickNext c) := by
  refine Feeds.get fun s => ?_
  cases (s.cpus c).runqueue with
  | nil => exact Feeds.setCpu_ne hcd _
  | cons next rest => exact (Feeds.setCpu_ne hcd _).bind fun _ => setState_feeds d _ _

theorem switchEnd_feeds : Feeds d (switchEnd c) := by
  refine Feeds.get fun s => ?_
  cases (s.cpus c).switching with
  | none => exact Feeds.pure _
  | some st => exact (setState_feeds d _ _).bind fun _ => pickNext_feeds hcd

theorem unidle_feeds : Feeds d (unidle c) :=
  Feeds.get fun _ => Feeds.ite (pickNext_feeds hcd) (Feeds.pure _)

theorem exorcise_feeds : Feeds d (exorcise c) := by
  refine Feeds.get fun s => ?_
  cases (s.cpus c).zombies with
  | nil => exact Feeds.pure _
  | cons z rest =>
    refine (Feeds.setCpu_ne hcd _).bind fun _ => Feeds.ite (Feeds.throw _) ?_
    cases s.threads z with
    | none => exact Feeds.throw _
    | some th => exact Feeds.ite (Feeds.throw _) (Feeds.aside fun _ => rfl)

end Others

theorem wakeupNext_feeds (d : Fin n) (k : Nat) : Feeds d (wakeupNext k) := by
  refine Feeds.get fun s => ?_
  cases s.wakeups k with
  | nil => exact Feeds.pure _
  | cons target rest => exact Feeds.bind (Feeds.aside fun _ => rfl) fun _ => threadMakeRunnable_feeds d _

theorem sendTo_feeds (e c d : Fin n) (oneShare toSend : Nat) (victims : List Tid) :
    Feeds e (sendTo c d oneShare toSend victims) := by
  induction toSend generalizing victims with
  | zero => exact Feeds.pure _
  | succ toSend ih =>
    refine Feeds.get fun s => Feeds.ite ?_ (Feeds.pure _)
    cases victims with
    | nil => exact Feeds.throw _
    | cons t victims =>
      refine Feeds.ite (ih _) ?_
      exact Feeds.bind (Feeds.aside fun _ => rfl) fun _ =>
        Feeds.bind (Feeds.setCpu fun _ p => .append p _) fun _ => ih _

theorem takeVictims_feeds {c d : Fin n} (hcd : c ≠ d) (myCount totalCount : Nat) :
    Feeds d (takeVictims c myCount totalCount) :=
  Feeds.get fun _ => Feeds.ite (Feeds.setCpu_ne hcd _) (Feeds.ite (Feeds.throw _) (Feeds.setCpu_ne hcd _))

theorem migrate_feeds {c d : Fin n} (hcd : c ≠ d) : Feeds d (migrate c) := by
  refine Feeds.get fun s => ?_
  cases (s.cpus c).migration with
  | none => exact Feeds.setCpu_ne hcd _
  | counting i myCount totalCount =>
    dsimp only
    split
    · exact Feeds.setCpu_ne hcd _
    · exact takeVictims_feeds hcd _ _
  | sending i toSend oneShare victims =>
    dsimp only
    split
    · exact Feeds.ite (Feeds.setCpu_ne hcd _) ((sendTo_feeds d _ _ _ _ _).bind fun _ => Feeds.setCpu_ne hcd _)
    · exact Feeds.setCpu_ne hcd _

theorem Event.exec_feeds (e : Event n) {d : Fin n} (hd : e.actor ≠ some d) : Feeds d e.exec := by
  have hne : ∀ {c : Fin n}, some c ≠ some d → c ≠ d := fun h h' => h (congrArg some h')
  cases e with
  | fork c t => exact threadFork_feeds d c t
  | yield c => exact switchBegin_feeds (hne hd) .ready 0
  | sleep c wc => exact switchBegin_feeds (hne hd) .sleep wc
  | exit c => exact switchBegin_feeds (hne hd) .zombie 0
  | switchEnd c => exact switchEnd_feeds (hne hd)
  | unidle c => exact unidle_feeds (hne hd)
  | exorcise c => exact exorcise_feeds (hne hd)
  | wakeone k wc => exact Feeds.aside fun _ => rfl
  | wakeall k wc => exact Feeds.aside fun _ => rfl
  | wakeupNext k => exact wakeupNext_feeds d k
  | migrate c => exact migrate_feeds (hne hd)

/-! ## The sections of a call -/

/-- `one_share`, once it is computed. -/
def Migration.share : Migration → Nat
  | .none | .counting _ _ _ => 0
  | .sending _ _ oneShare _ => oneShare

/-- A bound on the sections still to come, on `n` processors. -/
def Migration.left (n : Nat) : Migration → Nat
  | .none => 0
  | .counting i _ _ => (n - i) + n + 2
  | .sending i _ _ _ => (n - i) + 1

/-- The thread is on a run queue or carried by the call on `c`. -/
def State.Holds (s : State n) (c : Fin n) (t : Tid) : Prop :=
  t ∈ (s.cpus c).migration.victims ∨ ∃ d, t ∈ (s.cpus d).runqueue

/-- What a section of the call on `c` does. -/
structure Section (c : Fin n) (s u : State n) : Prop where
  curthread : (u.cpus c).curthread = (s.cpus c).curthread
  switching : (u.cpus c).switching = (s.cpus c).switching
  holds : ∀ t, s.Holds c t → u.Holds c t
  short : ∀ d, d ≠ c →
    (u.cpus d).runqueue.length ≤ max (s.cpus d).runqueue.length (s.cpus c).migration.share
  left : (s.cpus c).Migrating → (u.cpus c).migration.left n < (s.cpus c).migration.left n

theorem sendTo_sent {c d : Fin n} {oneShare toSend : Nat} {victims : List Tid} {s u : State n}
    {r : Nat × List Tid} (h : sendTo c d oneShare toSend victims s = .ok r u) :
    (∀ e, e ≠ d → u.cpus e = s.cpus e) ∧
      (u.cpus d).runqueue.length ≤ max (s.cpus d).runqueue.length oneShare ∧
        ∀ t ∈ victims, t ∈ r.2 ∨ t ∈ (u.cpus d).runqueue := by
  induction toSend generalizing victims s with
  | zero =>
    cases h
    exact ⟨fun _ _ => rfl, Nat.le_max_left _ _, fun _ ht => .inl ht⟩
  | succ toSend ih =>
    obtain ⟨_, _, hget, h⟩ := of_bind_ok h
    cases hget
    split at h
    · rename_i hshort
      cases victims with
      | nil => cases h
      | cons v victims =>
        dsimp only at h
        split at h
        · obtain ⟨hothers, hlen, hsent⟩ := ih h
          refine ⟨hothers, hlen, fun t ht => hsent t ?_⟩
          rw [List.mem_append, List.mem_singleton, or_comm]
          exact List.mem_cons.mp ht
        · obtain ⟨_, s₁, hset, h⟩ := of_bind_ok h
          cases hset
          obtain ⟨_, s₂, hset, h⟩ := of_bind_ok h
          have hs₂ : s₂.cpus = Function.update s.cpus d
              { s.cpus d with runqueue := (s.cpus d).runqueue ++ [v] } := by
            cases hset
            rfl
          have hqueue : (s₂.cpus d).runqueue = (s.cpus d).runqueue ++ [v] := by
            rw [hs₂, Function.update_self]
          have hfed : (s₂.cpus d).Fed (u.cpus d) := (sendTo_feeds d c d oneShare toSend victims).fed h
          obtain ⟨hothers, hlen, hsent⟩ := ih h
          refine ⟨fun e he => ?_, ?_, fun t ht => ?_⟩
          · rw [hothers e he, hs₂, Function.update_of_ne he]
          · rw [hqueue, List.length_append, List.length_singleton] at hlen
            omega
          · rcases List.mem_cons.mp ht with rfl | ht
            · refine .inr (hfed.runqueue.subset ?_)
              rw [hqueue]
              exact List.mem_append_right _ (List.mem_singleton_self _)
            · exact hsent t ht
    · cases h
      exact ⟨fun _ _ => rfl, Nat.le_max_left _ _, fun _ ht => .inl ht⟩

theorem Section.own {c : Fin n} {s u : State n} (hu : u.cpus = Function.update s.cpus c p)
    (hcur : p.curthread = (s.cpus c).curthread) (hswitching : p.switching = (s.cpus c).switching)
    (hholds : ∀ t, t ∈ (s.cpus c).migration.victims ∨ t ∈ (s.cpus c).runqueue →
      t ∈ p.migration.victims ∨ t ∈ p.runqueue)
    (hleft : (s.cpus c).Migrating → p.migration.left n < (s.cpus c).migration.left n) : Section c s u := by
  have hc : u.cpus c = p := by rw [hu, Function.update_self]
  have hd : ∀ d, d ≠ c → u.cpus d = s.cpus d := fun d hne => by rw [hu, Function.update_of_ne hne]
  refine ⟨by rw [hc, hcur], by rw [hc, hswitching], fun t ht => ?_, fun d hne => ?_, by rwa [hc]⟩
  · have hown : ∀ {t}, t ∈ p.migration.victims ∨ t ∈ p.runqueue → u.Holds c t := fun h =>
      h.imp (by rw [hc]; exact id) fun h => ⟨c, by rwa [hc]⟩
    rcases ht with ht | ⟨d, ht⟩
    · exact hown (hholds t (.inl ht))
    · by_cases hne : d = c
      · subst hne
        exact hown (hholds t (.inr ht))
      · exact .inr ⟨d, by rwa [hd d hne]⟩
  · rw [hd d hne]
    exact Nat.le_max_left _ _

theorem takeVictims_section {c : Fin n} {i myCount totalCount : Nat} {s u : State n}
    (hm : (s.cpus c).migration = .counting i myCount totalCount) (h : takeVictims c myCount totalCount s = .ok () u) :
    Section c s u := by
  have hleft : (s.cpus c).migration.left n = (n - i) + n + 2 := by
    rw [hm]
    rfl
  obtain ⟨_, _, hget, h⟩ := of_bind_ok h
  cases hget
  dsimp only at h
  split at h
  · cases h
    refine Section.own rfl rfl rfl (fun t ht => ?_) fun _ => ?_
    · rw [hm] at ht
      exact ht.imp_left nofun
    · rw [hleft]
      exact Nat.succ_pos _
  split at h
  · cases h
  · cases h
    refine Section.own rfl rfl rfl (fun t ht => ?_) fun _ => ?_
    · rw [hm] at ht
      have ht : t ∈ (s.cpus c).runqueue := ht.resolve_left nofun
      rw [← List.take_append_drop ((s.cpus c).runqueue.length - (myCount - (totalCount + n - 1) / n))
        (s.cpus c).runqueue, List.mem_append] at ht
      exact ht.symm
    · rw [hleft]
      show n - 0 + 1 < _
      omega

theorem migrate_section {c : Fin n} {s u : State n} (h : migrate c s = .ok () u) : Section c s u := by
  obtain ⟨_, _, hget, h⟩ := of_bind_ok h
  cases hget
  cases hm : (s.cpus c).migration with
  | none =>
    rw [hm] at h
    cases h
    refine Section.own rfl rfl rfl (fun t ht => ?_) fun hmig => ?_
    · rw [hm] at ht
      exact ht
    · rw [Cpu.Migrating, hm] at hmig
      exact hmig.elim
  | counting i myCount totalCount =>
    rw [hm] at h
    dsimp only at h
    split at h
    · rename_i hi
      cases h
      refine Section.own rfl rfl rfl (fun t ht => ?_) fun _ => ?_
      · rw [hm] at ht
        exact ht
      · rw [hm]
        show (n - (i + 1)) + n + 2 < (n - i) + n + 2
        omega
    · exact takeVictims_section hm h
  | sending i toSend oneShare victims =>
    have hleft : (s.cpus c).migration.left n = (n - i) + 1 := by
      rw [hm]
      rfl
    rw [hm] at h
    dsimp only at h
    split at h
    · rename_i hi
      split at h
      · cases h
        refine Section.own rfl rfl rfl (fun t ht => ?_) fun _ => ?_
        · rw [hm] at ht
          exact ht
        · rw [hleft]
          show (n - (i + 1)) + 1 < _
          omega
      · rename_i hic
        have hne : (⟨i, hi.1⟩ : Fin n) ≠ c := fun heq => hic (congrArg Fin.val heq)
        obtain ⟨r, v, hsend, hset⟩ := of_bind_ok h
        obtain ⟨hothers, hlen, hsent⟩ := sendTo_sent hsend
        have hu : u.cpus = Function.update v.cpus c
            { v.cpus c with migration := .sending (i + 1) r.1 oneShare r.2 } := by
          cases hset
          rfl
        have hc : u.cpus c = { s.cpus c with migration := .sending (i + 1) r.1 oneShare r.2 } := by
          rw [hu, Function.update_self, hothers c (Ne.symm hne)]
        have hd : ∀ d, d ≠ c → u.cpus d = v.cpus d := fun d hdc => by rw [hu, Function.update_of_ne hdc]
        refine ⟨by rw [hc], by rw [hc], fun t ht => ?_, fun d hdc => ?_, fun _ => ?_⟩
        · rcases ht with ht | ⟨d, ht⟩
          · rw [hm] at ht
            rcases hsent t ht with ht | ht
            · exact .inl (by rw [hc]; exact ht)
            · exact .inr ⟨_, by rw [hd _ hne]; exact ht⟩
          · refine .inr ⟨d, ?_⟩
            by_cases hdc : d = c
            · subst hdc
              rw [hc]
              exact ht
            · rw [hd d hdc]
              exact ((sendTo_feeds d _ _ _ _ _).fed hsend).runqueue.subset ht
        · rw [hd d hdc, hm]
          by_cases hdi : d = ⟨i, hi.1⟩
          · subst hdi
            exact hlen
          · rw [hothers d hdi]
            exact Nat.le_max_left _ _
        · rw [hc, hleft]
          show (n - (i + 1)) + 1 < _
          omega
    · cases h
      refine Section.own rfl rfl rfl (fun t ht => ?_) fun _ => ?_
      · rw [hm] at ht
        exact .inr (List.mem_append.mpr ht.symm)
      · rw [hleft]
        exact Nat.succ_pos _

/-! ## A call among other steps -/

/-- In this step a processor other than `c` takes the thread off its own run queue. -/
def Took (c : Fin n) (e : Event n) (s u : State n) (t : Tid) : Prop :=
  ∃ d, d ≠ c ∧ e.actor = some d ∧ t ∈ (s.cpus d).runqueue ∧ t ∉ (u.cpus d).runqueue

/-- A call of `thread_consider_migration` on `c` that begins in `s`: the states it comes to, with the threads that
other processors have taken off their run queues since. Any steps can come between its sections. -/
inductive Call (c : Fin n) (s : State n) : State n → (Tid → Prop) → Prop
  | enter {u : State n} : (s.cpus c).migration = .none → (Event.migrate c).Allowed s → migrate c s = .ok () u →
      Call c s u fun _ => False
  | step {u v : State n} {taken : Tid → Prop} (e : Event n) : Call c s u taken → (u.cpus c).Migrating → e.Allowed u →
      e.exec u = .ok () v → Call c s v fun t => taken t ∨ Took c e u v t

section Call

variable {c : Fin n} {s u : State n} {taken : Tid → Prop} {loc : Tid → Option (Loc n)}
variable {e : Event n} {v : State n}

theorem Event.eq_of_migrating (hmig : (u.cpus c).Migrating)
    (hunlocked : (u.cpus c).Unlocked) (hactor : e.actor = some c) (he : e.Allowed u) (hexec : e.exec u = .ok () v) :
    e = .migrate c ∨ v = u := by
  cases e with
  | migrate d =>
    cases hactor
    exact .inl rfl
  | switchEnd d =>
    cases hactor
    have hidle : Threads.switchEnd c u = .ok () u := by
      simp only [Threads.switchEnd, bind_apply, get_apply, show (u.cpus c).switching = none from hunlocked, pure_apply]
    cases hidle.symm.trans hexec
    exact .inr rfl
  | unidle d =>
    cases hactor
    exact absurd hmig he
  | fork d t =>
    cases hactor
    exact absurd hmig he.1.notMigrating
  | yield d | sleep d wc | exit d | exorcise d =>
    cases hactor
    exact absurd hmig (Cpu.Executing.notMigrating he)
  | wakeone k wc | wakeall k wc | wakeupNext k => cases hactor

/-- What holds all through a call. -/
structure Going (c : Fin n) (s u : State n) (taken : Tid → Prop) : Prop where
  inv : ∃ loc, Inv DeadOnly u loc
  unlocked : (u.cpus c).Unlocked
  curthread : (u.cpus c).curthread = (s.cpus c).curthread
  holds : ∀ t ∈ (s.cpus c).runqueue, taken t ∨ u.Holds c t

theorem Going.after (h : Going c s u taken) (hinv : ∃ loc, Inv DeadOnly v loc) (hsec : Section c u v) :
    Going c s v taken where
  inv := hinv
  unlocked := hsec.switching.trans h.unlocked
  curthread := hsec.curthread.trans h.curthread
  holds t ht := (h.holds t ht).imp_right (hsec.holds t)

theorem Going.step (h : Going c s u taken) (hmig : (u.cpus c).Migrating)
    (he : e.Allowed u) (hexec : e.exec u = .ok () v) : Going c s v fun t => taken t ∨ Took c e u v t := by
  have hinv : ∃ loc, Inv DeadOnly v loc := by
    obtain ⟨loc, hinv⟩ := h.inv
    obtain ⟨w, loc', hw, hinv'⟩ :=
      hinv.exec deadOnly_policy (fun _ _ => id) e he (fun _ _ _ _ _ _ => trivial)
    cases hw.symm.trans hexec
    exact ⟨loc', hinv'⟩
  have hmono : ∀ {w : State n}, Going c s w taken → Going c s w fun t => taken t ∨ Took c e u v t := fun hw =>
    ⟨hw.inv, hw.unlocked, hw.curthread, fun t ht => (hw.holds t ht).imp_left .inl⟩
  by_cases hactor : e.actor = some c
  · rcases Event.eq_of_migrating hmig h.unlocked hactor he hexec with rfl | rfl
    · exact hmono (h.after hinv (migrate_section hexec))
    · exact hmono h
  have hfed := (Event.exec_feeds e hactor).fed hexec
  refine ⟨hinv, hfed.switching.trans h.unlocked, hfed.curthread.trans h.curthread, fun t ht => ?_⟩
  rcases h.holds t ht with htaken | hvictim | ⟨d, hd⟩
  · exact .inl (.inl htaken)
  · exact .inr (.inl (by rwa [hfed.migration]))
  · -- off a run queue only by its own processor, which is not the one of the call
    by_cases hown : e.actor = some d
    · by_cases hstay : t ∈ (v.cpus d).runqueue
      · exact .inr (.inr ⟨d, hstay⟩)
      · exact .inl (.inr ⟨d, fun hdc => hactor (hdc ▸ hown), hown, hd, hstay⟩)
    · exact .inr (.inr ⟨d, ((Event.exec_feeds e hown).fed hexec).runqueue.subset hd⟩)

theorem Call.going (h : Inv DeadOnly s loc) (hcall : Call c s u taken) : Going c s u taken := by
  induction hcall with
  | enter hnone hallowed hrun =>
    obtain ⟨w, loc', hw, hinv⟩ := h.migrate deadOnly_policy hallowed.1
    cases hw.symm.trans hrun
    have hstart : Going c s s fun _ => False :=
      ⟨⟨loc, h⟩, hallowed.1, rfl, fun t ht => .inr (.inr ⟨c, ht⟩)⟩
    exact hstart.after ⟨loc', hinv⟩ (migrate_section hrun)
  | step e _ hmig he hexec ih => exact ih.step hmig he hexec

/-- The thread is on exactly one run queue, once, and that is the one of its processor. -/
def State.Queued (s : State n) (t : Tid) : Prop :=
  ∃ d, (s.cpus d).runqueue.count t = 1 ∧ (s.threads t).map Thread.cpu = some d ∧
    ∀ e, t ∈ (s.cpus e).runqueue → e = d

theorem Inv.queued {ok : Loc n → ThreadState → Prop} (h : Inv ok s loc) {d : Fin n} {t : Tid}
    (ht : t ∈ (s.cpus d).runqueue) : s.Queued t := by
  have hloc : loc t = some (.runqueue d) := (h.placed.mem t (.runqueue d)).mp ht
  obtain ⟨th, hth⟩ := h.thread hloc
  refine ⟨d, List.count_eq_one_of_mem (h.placed.nodup (.runqueue d)) ht, ?_, fun e he => ?_⟩
  · rw [hth, Option.map_some, h.home t _ d th hloc rfl hth]
  · have hloc' : loc t = some (.runqueue e) := (h.placed.mem t (.runqueue e)).mp he
    cases hloc.symm.trans hloc'
    rfl

/-- A call of `thread_consider_migration`, whatever steps come between its sections: no section of it removes from an
empty list, it comes closer to its end with each, and none makes the run queue of another processor longer than
`one_share`. The current thread stays the processor's own and on no other run queue. At the end no victim is left, and
each thread that was on the run queue is on exactly one, that of its processor, or has been taken from its new run
queue by that processor. -/
theorem migration_conserves (h : Inv DeadOnly s loc) (hcall : Call c s u taken) :
    ((Event.migrate c).Allowed u → ∃ v, migrate c u = .ok () v ∧
      ((u.cpus c).Migrating → (v.cpus c).migration.left n < (u.cpus c).migration.left n) ∧
      ∀ d, d ≠ c → (v.cpus d).runqueue.length ≤ max (u.cpus d).runqueue.length (u.cpus c).migration.share) ∧
    ((u.cpus c).curthread = (s.cpus c).curthread ∧
      (u.threads (s.cpus c).curthread).map Thread.cpu = some c ∧
      ∀ d, d ≠ c → (s.cpus c).curthread ∉ (u.cpus d).runqueue) ∧
    (¬ (u.cpus c).Migrating → (u.cpus c).migration.victims = [] ∧
      ∀ t ∈ (s.cpus c).runqueue, taken t ∨ u.Queued t) := by
  have hgoing := hcall.going h
  obtain ⟨loc', hinv⟩ := hgoing.inv
  refine ⟨fun hallowed => ?_, ⟨hgoing.curthread, ?_, fun d hdc hd => ?_⟩, fun hdone => ?_⟩
  · obtain ⟨v, -, hrun, -⟩ := hinv.migrate deadOnly_policy hallowed.1
    exact ⟨v, hrun, (migrate_section hrun).left, (migrate_section hrun).short⟩
  · obtain ⟨th, hth, hcpu⟩ := hinv.cur c
    rw [← hgoing.curthread, hth, Option.map_some, hcpu]
  · have hloc : loc' (s.cpus c).curthread = some (.runqueue d) := (hinv.placed.mem _ (.runqueue d)).mp hd
    exact hinv.curthread_ne hloc rfl hdc hgoing.curthread.symm
  · have hnone : (u.cpus c).migration.victims = [] := by
      cases hm : (u.cpus c).migration with
      | none => rfl
      | counting i k m => rfl
      | sending i k m vs => exact absurd (by rw [Cpu.Migrating, hm]; trivial) hdone
    refine ⟨hnone, fun t ht => (hgoing.holds t ht).imp_right ?_⟩
    rintro (hvictim | ⟨d, hd⟩)
    · rw [hnone] at hvictim
      exact absurd hvictim List.not_mem_nil
    · exact hinv.queued hd

end Call

/-- Two processors, and two new threads on the run queue of the first. -/
def twoForked : State 2 := leaves (threadFork 0 3 (leaves (threadFork 0 2 (bootState 2))))

theorem twoForked_inv : ∃ loc, Inv DeadOnly twoForked loc := by
  have hstart : Reach Event.exec Event.Allowed (bootState 2) (bootState 2) := .refl
  have h₁ := hstart.next (.fork 0 2) ⟨⟨rfl, rfl, id⟩, rfl⟩ rfl
  have h₂ : Reach Event.exec Event.Allowed (bootState 2) twoForked := h₁.next (.fork 0 3) ⟨⟨rfl, rfl, id⟩, rfl⟩ rfl
  exact (bootState_isBoot 2).inv_of_reach h₂

/-- The first processor sends one of the threads to the second, which yields to it before the call is over. -/
theorem migration_to_second :
    ∃ (u : State 2) (taken : Tid → Prop), (twoForked.cpus 0).runqueue = [2, 3] ∧ Call 0 twoForked u taken ∧
      (u.cpus 0).runqueue = [2] ∧ (u.cpus 1).curthread = 3 ∧
        ∀ t ∈ (twoForked.cpus 0).runqueue, taken t ∨ u.Queued t := by
  obtain ⟨loc, hinv⟩ := twoForked_inv
  have hallowed : ∀ u : State 2, (u.cpus 0).switching = none ∧ (u.cpus 1).switching = none →
      (Event.migrate 0).Allowed u := fun u h => ⟨h.1, fun d _ => match d with
    | 0 => h.1
    | 1 => h.2⟩
  -- counting, taking a victim, and sending it
  have hcall := Call.enter (s := twoForked) rfl (hallowed _ ⟨rfl, rfl⟩) rfl
  have hcall := hcall.step (.migrate 0) trivial (hallowed _ ⟨rfl, rfl⟩) rfl
  have hcall := hcall.step (.migrate 0) trivial (hallowed _ ⟨rfl, rfl⟩) rfl
  have hcall := hcall.step (.migrate 0) trivial (hallowed _ ⟨rfl, rfl⟩) rfl
  have hcall := hcall.step (.migrate 0) trivial (hallowed _ ⟨rfl, rfl⟩) rfl
  have hcall := hcall.step (.migrate 0) trivial (hallowed _ ⟨rfl, rfl⟩) rfl
  have hcall := hcall.step (.yield 1) trivial ⟨rfl, rfl, id⟩ rfl
  have hcall := hcall.step (.switchEnd 1) trivial trivial rfl
  have hcall := hcall.step (.migrate 0) trivial (hallowed _ ⟨rfl, rfl⟩) rfl
  obtain ⟨-, -, hdone⟩ := migration_conserves hinv hcall
  exact ⟨_, _, rfl, hcall, rfl, rfl, (hdone id).2⟩

end Os161.Threads

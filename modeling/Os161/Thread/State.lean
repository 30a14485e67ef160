import Mathlib.Logic.Function.Basic
import Os161.Lib.Program

/-!
# Threads, processors and wait channels

The thread system of `kern/thread/thread.c`: `thread_fork`, `thread_switch` with its callers
`thread_yield`, `wchan_sleep` and `thread_exit`, the idle loop, `exorcise`, the wakeups, and
`thread_consider_migration`, on any number of processors.

A step is what one processor does while it holds a run queue's lock or a wait channel's lock.
`thread_switch` is two steps, because a sleeper gives up the channel's lock before it gives up the run
queue's. A wakeup and a migration let go of the locks in between; what they carry then in local
variables is part of the state. A migration is done in the timer interrupt, so its processor does not
switch before it is over. The lists of threads are lists of thread names.
-/

namespace Os161.Threads

open Os161.Lib

/-- A thread, by name. -/
abbrev Tid := Nat

/-- `threadstate_t`. -/
inductive ThreadState where
  | run | ready | sleep | zombie
deriving DecidableEq

/-- `struct thread`, as far as the scheduler goes: `t_state` and `t_cpu`. -/
structure Thread (n : Nat) where
  state : ThreadState
  cpu : Fin n

/-- Where a processor stands in `thread_consider_migration`: not in it; counting, with the next
processor to look at, `my_count` and `total_count`; sending, with the next processor, `to_send`,
`one_share` and `victims`. -/
inductive Migration where
  | none
  | counting (i myCount totalCount : Nat)
  | sending (i toSend oneShare : Nat) (victims : List Tid)

/-- `struct cpu`. `switching` is set while the processor is in the middle of `thread_switch`, with its
run queue locked, and holds the state the switch is for. -/
structure Cpu where
  curthread : Tid
  isidle : Bool
  runqueue : List Tid
  zombies : List Tid
  switching : Option ThreadState
  migration : Migration

/-- The threads, the processors, the threads on each wait channel, and the threads a wakeup has taken
off a channel and not yet made runnable, by wakeup. -/
structure State (n : Nat) where
  threads : Tid → Option (Thread n)
  cpus : Fin n → Cpu
  wchans : Nat → List Tid
  wakeups : Nat → List Tid

/-- The panic of `thread_switch`, the `KASSERT`s of `exorcise` (those of `thread_destroy` follow from
them), and the use of a `NULL` thread pointer. -/
inductive Fault where
  | illegalRun | zombieIsCurrent | notZombie | nullThread
deriving DecidableEq

variable {n : Nat}

/-- A section of the thread system's code. -/
abbrev K (n : Nat) := EStateM Fault (State n)

/-- Updating a processor's data in place. -/
def setCpu (c : Fin n) (f : Cpu → Cpu) : K n Unit :=
  modify fun s => { s with cpus := Function.update s.cpus c (f (s.cpus c)) }

/-- `t->t_state = st`. -/
def setState (t : Tid) (st : ThreadState) : K n Unit :=
  modify fun s =>
    { s with threads := Function.update s.threads t ((s.threads t).map fun th =>
        { th with state := st }) }

/-- `t->t_cpu`. -/
def cpuOf (t : Tid) : K n (Fin n) := do
  let s ← get
  match s.threads t with
  | none => throw .nullThread
  | some th => pure th.cpu

/-! ## Running threads -/

/-- `thread_make_runnable`. -/
def threadMakeRunnable (target : Tid) : K n Unit := do
  let c ← cpuOf target
  setCpu c fun p => { p with runqueue := p.runqueue ++ [target] }

/-- `thread_fork` by the thread on `c`: the new thread has the name `t`. -/
def threadFork (c : Fin n) (t : Tid) : K n Unit := do
  let s ← get
  let targetcpu ← cpuOf (s.cpus c).curthread
  modify fun s =>
    { s with threads := Function.update s.threads t (some { state := .ready, cpu := targetcpu }) }
  threadMakeRunnable t

/-- The first half of `thread_switch` on `c`: the current thread is put in the right place. -/
def switchBegin (c : Fin n) (newstate : ThreadState) (wc : Nat) : K n Unit := do
  let s ← get
  if (s.cpus c).isidle then pure ()
  else
    let cur := (s.cpus c).curthread
    match newstate with
    | .run => throw .illegalRun
    | .ready =>
      if (s.cpus c).runqueue.isEmpty then pure ()
      else
        threadMakeRunnable cur
        setCpu c fun p => { p with switching := some .ready }
    | .sleep =>
      modify fun s => { s with wchans := Function.update s.wchans wc (s.wchans wc ++ [cur]) }
      setCpu c fun p => { p with switching := some .sleep }
    | .zombie =>
      setCpu c fun p => { p with zombies := p.zombies ++ [cur], switching := some .zombie }

/-- The loop of `thread_switch` that takes the next thread, up to where that thread has set its state
and unlocked the run queue. Without a next thread the processor goes idle. -/
def pickNext (c : Fin n) : K n Unit := do
  let s ← get
  match (s.cpus c).runqueue with
  | [] => setCpu c fun p => { p with isidle := true, switching := none }
  | next :: rest =>
    setCpu c fun p =>
      { p with runqueue := rest, isidle := false, curthread := next, switching := none }
    setState next .run

/-- The second half of `thread_switch`. -/
def switchEnd (c : Fin n) : K n Unit := do
  let s ← get
  match (s.cpus c).switching with
  | none => pure ()
  | some newstate =>
    setState (s.cpus c).curthread newstate
    pickNext c

/-- The idle loop comes round: interrupted, it locks the run queue and looks again. -/
def unidle (c : Fin n) : K n Unit := do
  let s ← get
  if (s.cpus c).isidle then pickNext c else pure ()

/-- One round of `exorcise`, with `thread_destroy`. -/
def exorcise (c : Fin n) : K n Unit := do
  let s ← get
  match (s.cpus c).zombies with
  | [] => pure ()
  | z :: rest =>
    setCpu c fun p => { p with zombies := rest }
    if z = (s.cpus c).curthread then throw .zombieIsCurrent
    else
      match s.threads z with
      | none => throw .nullThread
      | some th =>
        if th.state ≠ .zombie then throw .notZombie
        else modify fun s => { s with threads := Function.update s.threads z none }

/-! ## Wakeups -/

/-- The first section of `wchan_wakeone`, as the wakeup `k`. -/
def wchanWakeone (k wc : Nat) : K n Unit :=
  modify fun s =>
    { s with
      wchans := Function.update s.wchans wc (s.wchans wc).tail
      wakeups := Function.update s.wakeups k (s.wchans wc).head?.toList }

/-- The first section of `wchan_wakeall`, as the wakeup `k`. -/
def wchanWakeall (k wc : Nat) : K n Unit :=
  modify fun s =>
    { s with
      wchans := Function.update s.wchans wc []
      wakeups := Function.update s.wakeups k (s.wchans wc) }

/-- A wakeup makes the next of its threads runnable. -/
def wakeupNext (k : Nat) : K n Unit := do
  let s ← get
  match s.wakeups k with
  | [] => pure ()
  | target :: rest =>
    modify fun s => { s with wakeups := Function.update s.wakeups k rest }
    threadMakeRunnable target

/-! ## Migration -/

/-- The loop over one processor `d` that is not the migrating one: threads are sent to it while its run
queue is short of `oneShare`. What is left of `toSend` and of the victims. -/
def sendTo (c d : Fin n) (oneShare : Nat) : Nat → List Tid → K n (Nat × List Tid)
  | 0, victims => pure (0, victims)
  | toSend + 1, victims => do
    let s ← get
    if (s.cpus d).runqueue.length < oneShare then
      match victims with
      | [] => throw .nullThread
      | t :: victims =>
        if t = (s.cpus c).curthread then sendTo c d oneShare toSend (victims ++ [t])
        else
          modify fun s =>
            { s with threads := Function.update s.threads t ((s.threads t).map fun th =>
                { th with cpu := d }) }
          setCpu d fun p => { p with runqueue := p.runqueue ++ [t] }
          sendTo c d oneShare toSend victims
    else pure (toSend + 1, victims)

/-- The end of the counting: `to_send` is computed, and so many threads are taken off the tail of the
processor's own run queue. -/
def takeVictims (c : Fin n) (myCount totalCount : Nat) : K n Unit := do
  let s ← get
  let oneShare := (totalCount + n - 1) / n
  if myCount < oneShare then setCpu c fun p => { p with migration := .none }
  else
    let toSend := myCount - oneShare
    let queue := (s.cpus c).runqueue
    if queue.length < toSend then throw .nullThread
    else
      setCpu c fun p =>
        { p with
          runqueue := queue.take (queue.length - toSend)
          migration := .sending 0 toSend oneShare (queue.drop (queue.length - toSend)) }

/-- A locked section of `thread_consider_migration` on `c`. -/
def migrate (c : Fin n) : K n Unit := do
  let s ← get
  match (s.cpus c).migration with
  | .none => setCpu c fun p => { p with migration := .counting 0 0 0 }
  | .counting i myCount totalCount =>
    if h : i < n then
      let len := (s.cpus ⟨i, h⟩).runqueue.length
      let myCount := if i = c then len else myCount
      setCpu c fun p => { p with migration := .counting (i + 1) myCount (totalCount + len) }
    else takeVictims c myCount totalCount
  | .sending i toSend oneShare victims =>
    if h : i < n ∧ 0 < toSend then
      if i = c then
        setCpu c fun p => { p with migration := .sending (i + 1) toSend oneShare victims }
      else
        let (toSend, victims) ← sendTo c ⟨i, h.1⟩ oneShare toSend victims
        setCpu c fun p => { p with migration := .sending (i + 1) toSend oneShare victims }
    else
      setCpu c fun p => { p with runqueue := p.runqueue ++ victims, migration := .none }

/-! ## Steps -/

/-- A step of the system. -/
inductive Event (n : Nat) where
  | fork (c : Fin n) (t : Tid)
  | yield (c : Fin n)
  | sleep (c : Fin n) (wc : Nat)
  | exit (c : Fin n)
  | switchEnd (c : Fin n)
  | unidle (c : Fin n)
  | exorcise (c : Fin n)
  | wakeone (k wc : Nat)
  | wakeall (k wc : Nat)
  | wakeupNext (k : Nat)
  | migrate (c : Fin n)

/-- What a step does. -/
def Event.exec : Event n → K n Unit
  | .fork c t => threadFork c t
  | .yield c => switchBegin c .ready 0
  | .sleep c wc => switchBegin c .sleep wc
  | .exit c => switchBegin c .zombie 0
  | .switchEnd c => Threads.switchEnd c
  | .unidle c => Threads.unidle c
  | .exorcise c => Threads.exorcise c
  | .wakeone k wc => wchanWakeone k wc
  | .wakeall k wc => wchanWakeall k wc
  | .wakeupNext k => Threads.wakeupNext k
  | .migrate c => Threads.migrate c

/-- The run queue's lock is free. -/
def Cpu.Unlocked (p : Cpu) : Prop := p.switching = none

/-- A migration is going on. -/
def Cpu.Migrating (p : Cpu) : Prop :=
  match p.migration with
  | .none => False
  | _ => True

/-- The processor is executing its current thread. -/
structure Cpu.Executing (p : Cpu) : Prop where
  awake : p.isidle = false
  unlocked : p.Unlocked
  notMigrating : ¬ p.Migrating

/-- The run queue a step of a migration locks. -/
def State.migrateTarget (s : State n) (c d : Fin n) : Prop :=
  match (s.cpus c).migration with
  | .none => False
  | .counting i _ _ => i = d
  | .sending i toSend _ _ => i = d ∧ 0 < toSend

/-- When a step can happen: thread code runs on a processor that executes a thread, a new thread has a
new name, a section waits for the lock it needs, and a wakeup that begins is a new one. -/
def Event.Allowed (s : State n) : Event n → Prop
  | .fork c t => (s.cpus c).Executing ∧ s.threads t = none
  | .yield c | .sleep c _ | .exit c => (s.cpus c).Executing
  | .switchEnd _ => True
  | .unidle c => ¬ (s.cpus c).Migrating
  | .exorcise c => (s.cpus c).Executing
  | .wakeone k _ | .wakeall k _ => s.wakeups k = []
  | .wakeupNext k => ∀ t ∈ (s.wakeups k).head?, ∀ th, s.threads t = some th →
      (s.cpus th.cpu).Unlocked
  | .migrate c => (s.cpus c).Unlocked ∧ ∀ d, s.migrateTarget c d → (s.cpus d).Unlocked

/-- The system after `thread_bootstrap` and `cpu_create`: each processor executes a thread of its own,
and there are no others. `thread_create` has left them in the state `S_READY`. -/
structure State.IsBoot (s : State n) : Prop where
  cpu : ∀ c, s.cpus c =
    { curthread := c, isidle := false, runqueue := [], zombies := [], switching := none,
      migration := .none }
  thread : ∀ c : Fin n, s.threads c = some { state := .ready, cpu := c }
  noOther : ∀ t, n ≤ t → s.threads t = none
  wchans : ∀ wc, s.wchans wc = []
  wakeups : ∀ k, s.wakeups k = []

end Os161.Threads

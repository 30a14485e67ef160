import Mathlib.Data.Finset.Filter
import Mathlib.Data.Fintype.Defs
import Os161.Lib.Program

/-!
# Semaphores

`P` and `V` of `kern/thread/synch.c` with the parts of `thread_switch` and `wchan_wakeone` they go
through, on any number of threads. A step is what a thread does between two operations on the
semaphore's lock and the wait channel's lock; a thread that finds a lock taken spins, which is a step
that changes nothing. An interrupt handler that calls `V` is a thread of its own here.

`sem_count` is a C `int`. What the scheduler does with a thread that has been made runnable is left
out, but that it runs again only then is not.
-/

namespace Os161.Synch

open Os161.Lib

/-- Where a thread stands. In `P`: at the acquisition of `sem_lock`, for the first time or after it
was taken off the channel; about to look at the count; having seen 0, at `wchan_lock`; with both
locks; in `thread_switch` with the channel's lock, before and after it is put on the channel; off the
processor, on the channel or taken off it and not yet made runnable; past the decrement. In `V`: at
`sem_lock`; about to increment; in `wchan_wakeone` at the channel's lock, with it, past the removal
with the thread that was taken off, and past the release; past the wakeup. -/
inductive Pc (ι : Type) where
  | idle
  | pAcquire (woken : Bool)
  | pTest (woken : Bool)
  | pBridge
  | pDrop
  | pEnqueue
  | pUnlock
  | asleep
  | removed
  | pTook
  | vAcquire
  | vAdd
  | vLock
  | vTake
  | vUnlock (target : Option ι)
  | vWake (target : Option ι)
  | vRelease
deriving DecidableEq

/-- A semaphore with its wait channel, and where each thread stands. `ups` and `downs` count the
increments and decrements so far. -/
structure Semaphore (ι : Type) where
  count : BitVec 32
  semLock : Option ι
  chanLock : Option ι
  sleepers : List ι
  pc : ι → Pc ι
  ups : Nat
  downs : Nat

/-- The `KASSERT`s: of `spinlock_release`, and of `P` and `V` on the count. -/
inductive Fault where
  | notHeld | notPositive
deriving DecidableEq

/-- Which of the two a thread calls. -/
inductive Call where
  | P | V

/-- A section of code. -/
abbrev K (ι : Type) := EStateM Fault (Semaphore ι)

/-- `sem_create`. -/
def semCreate (ι : Type) (initialCount : BitVec 32) : Semaphore ι where
  count := initialCount
  semLock := none
  chanLock := none
  sleepers := []
  pc := fun _ => .idle
  ups := 0
  downs := 0

variable {ι : Type} [DecidableEq ι]

/-- The thread goes on to another place. -/
def goto (t : ι) (p : Pc ι) : K ι Unit :=
  modify fun s => { s with pc := Function.update s.pc t p }

/-- `spinlock_acquire(&sem->sem_lock)`, one time round its loop. -/
def acquireSem (t : ι) (next : Pc ι) : K ι Unit := do
  if (← get).semLock.isNone then
    modify fun s => { s with semLock := some t }
    goto t next

/-- `spinlock_release(&sem->sem_lock)`. -/
def releaseSem (t : ι) (next : Pc ι) : K ι Unit := do
  unless (← get).semLock = some t do throw .notHeld
  modify fun s => { s with semLock := none }
  goto t next

/-- `wchan_lock`, one time round the loop of `spinlock_acquire`. -/
def wchanLock (t : ι) (next : Pc ι) : K ι Unit := do
  if (← get).chanLock.isNone then
    modify fun s => { s with chanLock := some t }
    goto t next

/-- `wchan_unlock`. -/
def wchanUnlock (t : ι) (next : Pc ι) : K ι Unit := do
  unless (← get).chanLock = some t do throw .notHeld
  modify fun s => { s with chanLock := none }
  goto t next

/-- The test of `P`'s loop, and the decrement after it. -/
def testCount (t : ι) : K ι Unit := do
  if (← get).count = 0 then
    goto t .pBridge
  else
    unless 0 < (← get).count.toInt do throw .notPositive
    modify fun s => { s with count := s.count - 1, downs := s.downs + 1 }
    goto t .pTook

/-- The increment of `V`. -/
def addCount (t : ι) : K ι Unit := do
  modify fun s => { s with count := s.count + 1, ups := s.ups + 1 }
  unless 0 < (← get).count.toInt do throw .notPositive
  goto t .vLock

/-- `threadlist_addtail` in `thread_switch`. -/
def enqueue (t : ι) : K ι Unit := do
  modify fun s => { s with sleepers := s.sleepers ++ [t] }
  goto t .pUnlock

/-- `threadlist_remhead` in `wchan_wakeone`. -/
def takeHead (t : ι) : K ι Unit := do
  match (← get).sleepers with
  | [] => goto t (.vUnlock none)
  | q :: rest =>
    modify fun s => { s with sleepers := rest }
    goto q .removed
    goto t (.vUnlock (some q))

/-- `thread_make_runnable`, where a thread was taken off. -/
def wake (t : ι) : Option ι → K ι Unit
  | none => goto t .vRelease
  | some q => do
    goto q (.pAcquire true)
    goto t .vRelease

/-- A thread's next step, from where it stands. An idle thread makes a call; a thread that is off the
processor does nothing. -/
def stepFrom (t : ι) (call : Call) : Pc ι → K ι Unit
  | .idle => goto t (match call with | .P => .pAcquire false | .V => .vAcquire)
  | .pAcquire woken => acquireSem t (.pTest woken)
  | .pTest _ => testCount t
  | .pBridge => wchanLock t .pDrop
  | .pDrop => releaseSem t .pEnqueue
  | .pEnqueue => enqueue t
  | .pUnlock => wchanUnlock t .asleep
  | .asleep | .removed => pure ()
  | .pTook => releaseSem t .idle
  | .vAcquire => acquireSem t .vAdd
  | .vAdd => addCount t
  | .vLock => wchanLock t .vTake
  | .vTake => takeHead t
  | .vUnlock target => wchanUnlock t (.vWake target)
  | .vWake target => wake t target
  | .vRelease => releaseSem t .idle

/-- One step of one thread. -/
def exec (e : ι × Call) : K ι Unit := do
  stepFrom e.1 e.2 ((← get).pc e.1)

/-! ## What the places mean -/

/-- `sem_lock` is held there. -/
def Pc.holdsSem : Pc ι → Bool
  | .pTest _ | .pBridge | .pDrop | .pTook => true
  | .vAdd | .vLock | .vTake | .vUnlock _ | .vWake _ | .vRelease => true
  | _ => false

/-- The channel's lock is held there. -/
def Pc.holdsChan : Pc ι → Bool
  | .pDrop | .pEnqueue | .pUnlock | .vTake | .vUnlock _ => true
  | _ => false

/-- A thread there is on the channel. -/
def Pc.onChannel : Pc ι → Bool
  | .pUnlock | .asleep => true
  | _ => false

/-- A thread there is inside `V`, past `spinlock_acquire`. -/
def Pc.inV : Pc ι → Bool
  | .vAdd | .vLock | .vTake | .vUnlock _ | .vWake _ | .vRelease => true
  | _ => false

/-- A thread there was taken off the channel and has not looked at the count since. -/
def Pc.onItsWay : Pc ι → Bool
  | .removed | .pAcquire true | .pTest true => true
  | _ => false

/-- The threads that were taken off the channel by a `V` and have not looked at the count since. -/
def Semaphore.onTheirWay [Fintype ι] (s : Semaphore ι) : Finset ι :=
  Finset.univ.filter fun t => (s.pc t).onItsWay

end Os161.Synch

import Os161.Lib.Doubly
import Os161.Lib.Program

/-!
# Thread lists

`kern/thread/threadlist.c`, for any number of lists and threads. `DEBUGASSERT`s are compiled out. A count that
reached 2^32 would need as many threads.
-/

namespace Os161.Threadlist

open Os161.Lib

/-- A list. -/
abbrev ListId := Nat

/-- A thread. -/
abbrev ThreadId := Nat

/-- A `struct threadlistnode`: the two ends of a list, and the node of a thread. -/
inductive Node where
  | head (tl : ListId)
  | tail (tl : ListId)
  | thread (t : ThreadId)
deriving DecidableEq

/-- `tln_self`. -/
def Node.self : Node → Option ThreadId
  | .head _ => none
  | .tail _ => none
  | .thread t => some t

/-- The nodes, and `tl_count`. `queue` is a history variable: what is on a list, as a deque has it. No function reads
it. -/
structure State where
  cells : Cells Node
  count : ListId → Nat
  queue : ListId → List ThreadId

/-- What stops a thread: it follows a `NULL`. -/
inductive Fault where
  | null

/-- A function of `threadlist.c`. -/
abbrev T := EStateM Fault State

/-- Following a pointer. -/
def deref : Option Node → T Node
  | some n => pure n
  | none => throw .null

/-- Reading `tln_next`. -/
def next (n : Node) : T (Option Node) := do return (← get).cells.next n

/-- Reading `tln_prev`. -/
def prev (n : Node) : T (Option Node) := do return (← get).cells.prev n

/-- Storing to `tln_next`. -/
def setNext (n : Node) (p : Option Node) : T Unit :=
  modify fun s => { s with cells := { s.cells with next := Function.update s.cells.next n p } }

/-- Storing to `tln_prev`. -/
def setPrev (n : Node) (p : Option Node) : T Unit :=
  modify fun s => { s with cells := { s.cells with prev := Function.update s.cells.prev n p } }

/-- `threadlist_insertafternode`. -/
def insertafternode (onlist : Node) (t : ThreadId) : T Unit := do
  let addee := Node.thread t
  setPrev addee (some onlist)
  setNext addee (← next onlist)
  setNext (← deref (← prev addee)) (some addee)
  setPrev (← deref (← next addee)) (some addee)

/-- `threadlist_insertbeforenode`. -/
def insertbeforenode (t : ThreadId) (onlist : Node) : T Unit := do
  let addee := Node.thread t
  setPrev addee (← prev onlist)
  setNext addee (some onlist)
  setNext (← deref (← prev addee)) (some addee)
  setPrev (← deref (← next addee)) (some addee)

/-- `threadlist_removenode`. -/
def removenode (tln : Node) : T Unit := do
  setNext (← deref (← prev tln)) (← next tln)
  setPrev (← deref (← next tln)) (← prev tln)
  setPrev tln none
  setNext tln none

/-- `tl_count++` and `tl_count--`. -/
def addCount (tl : ListId) (f : Nat → Nat) : T Unit :=
  modify fun s => { s with count := Function.update s.count tl (f (s.count tl)) }

/-- `threadlist_addhead`. -/
def threadlistAddhead (tl : ListId) (t : ThreadId) : T Unit := do
  insertafternode (.head tl) t
  addCount tl (· + 1)

/-- `threadlist_addtail`. -/
def threadlistAddtail (tl : ListId) (t : ThreadId) : T Unit := do
  insertbeforenode t (.tail tl)
  addCount tl (· + 1)

/-- `threadlist_remhead`. -/
def threadlistRemhead (tl : ListId) : T (Option ThreadId) := do
  let tln ← deref (← next (.head tl))
  if (← next tln) = none then return none
  removenode tln
  addCount tl (· - 1)
  return tln.self

/-- `threadlist_remtail`. -/
def threadlistRemtail (tl : ListId) : T (Option ThreadId) := do
  let tln ← deref (← prev (.tail tl))
  if (← prev tln) = none then return none
  removenode tln
  addCount tl (· - 1)
  return tln.self

/-- `threadlist_insertafter`. -/
def threadlistInsertafter (tl : ListId) (onlist addee : ThreadId) : T Unit := do
  insertafternode (.thread onlist) addee
  addCount tl (· + 1)

/-- `threadlist_insertbefore`. -/
def threadlistInsertbefore (tl : ListId) (addee onlist : ThreadId) : T Unit := do
  insertbeforenode addee (.thread onlist)
  addCount tl (· + 1)

/-- `threadlist_remove`. -/
def threadlistRemove (tl : ListId) (t : ThreadId) : T Unit := do
  removenode (.thread t)
  addCount tl (· - 1)

/-! ## Runs -/

/-- A call. -/
inductive Op where
  | addhead (tl : ListId) (t : ThreadId)
  | addtail (tl : ListId) (t : ThreadId)
  | remhead (tl : ListId)
  | remtail (tl : ListId)
  | insertafter (tl : ListId) (onlist addee : ThreadId)
  | insertbefore (tl : ListId) (addee onlist : ThreadId)
  | remove (tl : ListId) (t : ThreadId)

/-- Callers add threads that are on no list, next to threads that are on the list, and remove threads that are. -/
def Op.Allowed (s : State) : Op → Prop
  | .addhead _ t => ∀ tl, t ∉ s.queue tl
  | .addtail _ t => ∀ tl, t ∉ s.queue tl
  | .remhead _ => True
  | .remtail _ => True
  | .insertafter tl onlist addee => onlist ∈ s.queue tl ∧ ∀ tl, addee ∉ s.queue tl
  | .insertbefore tl addee onlist => onlist ∈ s.queue tl ∧ ∀ tl, addee ∉ s.queue tl
  | .remove tl t => t ∈ s.queue tl

/-- What a call does to a deque. -/
def Op.abstract : Op → List ThreadId → List ThreadId
  | .addhead _ t, q => t :: q
  | .addtail _ t, q => q ++ [t]
  | .remhead _, q => q.tail
  | .remtail _, q => q.dropLast
  | .insertafter _ onlist addee, q => q.insertIdx (q.idxOf onlist + 1) addee
  | .insertbefore _ addee onlist, q => q.insertIdx (q.idxOf onlist) addee
  | .remove _ t, q => q.erase t

/-- What a call returns, if it returns a thread. -/
def Op.answer : Op → List ThreadId → Option ThreadId
  | .remhead _, q => q.head?
  | .remtail _, q => q.getLast?
  | _, _ => none

/-- The list a call is about. -/
def Op.list : Op → ListId
  | .addhead tl _ | .addtail tl _ | .remhead tl | .remtail tl => tl
  | .insertafter tl _ _ | .insertbefore tl _ _ | .remove tl _ => tl

/-- A call, and what it returns. -/
def Op.call : Op → T (Option ThreadId)
  | .addhead tl t => do threadlistAddhead tl t; return none
  | .addtail tl t => do threadlistAddtail tl t; return none
  | .remhead tl => threadlistRemhead tl
  | .remtail tl => threadlistRemtail tl
  | .insertafter tl onlist addee => do threadlistInsertafter tl onlist addee; return none
  | .insertbefore tl addee onlist => do threadlistInsertbefore tl addee onlist; return none
  | .remove tl t => do threadlistRemove tl t; return none

/-- A call in a run. -/
def Op.exec (op : Op) : T Unit := do
  let _ ← op.call
  modify fun s => { s with queue := Function.update s.queue op.list (op.abstract (s.queue op.list)) }

/-- All lists and all threads have been initialised, and no thread is on a list. -/
structure State.IsInit (s : State) : Prop where
  head : ∀ tl, s.cells.next (.head tl) = some (.tail tl) ∧ s.cells.prev (.head tl) = none
  tail : ∀ tl, s.cells.next (.tail tl) = none ∧ s.cells.prev (.tail tl) = some (.head tl)
  thread : ∀ t, s.cells.next (.thread t) = none ∧ s.cells.prev (.thread t) = none
  count : ∀ tl, s.count tl = 0
  queue : ∀ tl, s.queue tl = []

end Os161.Threadlist

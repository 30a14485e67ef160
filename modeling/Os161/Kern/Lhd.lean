import Mathlib.Logic.Function.Basic
import Os161.Kern.Memory

/-!
# The disk driver

`kern/dev/lamebus/lhd.c`: first `lhd_io` as its caller sees it, then the driver at work, with any number of threads
in `lhd_io`, the interrupt handler and the card. A step there is one access to what they share: a semaphore, a
register, the on-card buffer or `lh_result`. `P` and `V` are the decrement and the increment of `sem_count` under
the semaphore's lock; a thread that waits does not step. All device interrupts go to the boot processor, with
interrupts off, so that there is one run of the handler at a time.
-/

namespace Os161.Kern

/-! ## The arguments -/

/-- `LHD_SECTSIZE`. -/
abbrev lhdSectsize : Nat := 512

/-- The errors of `lhd_io`. `EFAULT` is `uiomove`'s. -/
inductive IoError where
  | EINVAL
  | EIO
  | EAGAIN
  | EFAULT
deriving DecidableEq

/-- The checks of `lhd_io`, on a disk of `blocks` sectors: the values of `sector` and `len`. -/
def lhdCheck (blocks : Word) (offset : BitVec 64) (resid : Word) : Except IoError (Word × Word) :=
  let sector := BitVec.ofInt 32 (offset.toInt.tdiv lhdSectsize)
  let sectoff := BitVec.ofInt 32 (offset.toInt.tmod lhdSectsize)
  let len := resid / 512#32
  let lenoff := resid % 512#32
  if sectoff ≠ 0 ∨ lenoff ≠ 0 then .error .EINVAL
  else if blocks < sector + len then .error .EINVAL
  else .ok (sector, len)

/-- How a round of `lhd_io` ends: well, in `uiomove` before the operation, or with an operation or a later
`uiomove` that failed. -/
inductive RoundEnd where
  | fine
  | notStarted (e : IoError)
  | failed (e : IoError)

/-- The loop of `lhd_io` from round `i` on, with `n` rounds to go: what it returns, 0 as `none`, and the sectors it
gives the device. -/
def lhdRounds (ends : Nat → RoundEnd) (sector : Word) : Nat → Nat → Option IoError × List Word
  | 0, _ => (none, [])
  | n + 1, i =>
    match ends i with
    | .notStarted e => (some e, [])
    | .failed e => (some e, [sector + BitVec.ofNat 32 i])
    | .fine =>
      let (result, sectors) := lhdRounds ends sector n (i + 1)
      (result, (sector + BitVec.ofNat 32 i) :: sectors)

/-- `lhd_io`. -/
def lhdIo (blocks : Word) (ends : Nat → RoundEnd) (offset : BitVec 64) (resid : Word) :
    Option IoError × List Word :=
  match lhdCheck blocks offset resid with
  | .error e => (some e, [])
  | .ok (sector, len) => lhdRounds ends sector len.toNat 0

/-! ## The driver at work -/

/-- `LHD_IDLE`, `LHD_WORKING`, `LHD_OK`, `LHD_INVSECT`, `LHD_MEDIA`, `LHD_ISWRITE` and `LHD_STATEMASK`. -/
def lhdIdle : Word := 0

@[inherit_doc lhdIdle]
def lhdWorking : Word := 1

@[inherit_doc lhdIdle]
def lhdOk : Word := 4

@[inherit_doc lhdIdle]
def lhdInvsect : Word := 12

@[inherit_doc lhdIdle]
def lhdMedia : Word := 20

@[inherit_doc lhdIdle]
def lhdIswrite : Word := 2

@[inherit_doc lhdIdle]
def lhdStatemask : Word := 0x1d

/-- `lhd_code_to_errno`. -/
def lhdCodeToErrno (code : Word) : Option IoError :=
  if code &&& lhdStatemask = lhdOk then none
  else if code &&& lhdStatemask = lhdInvsect then some .EINVAL
  else if code &&& lhdStatemask = lhdMedia then some IoError.EIO
  else some .EAGAIN

/-- The status of an operation that is over. -/
def LhdEnded (stat : Word) : Prop :=
  stat &&& lhdStatemask = lhdOk ∨ stat &&& lhdStatemask = lhdInvsect ∨ stat &&& lhdStatemask = lhdMedia

/-- A call of `lhd_io` that has passed the checks. -/
structure LhdCall where
  sector : Word
  len : Word
  write : Bool

/-- `statval`. -/
def LhdCall.statval (c : LhdCall) : Word := if c.write then lhdWorking ||| lhdIswrite else lhdWorking

/-- Where a thread stands in round `i` of a call: at `P(lh_clear)`; in the first `uiomove`, or past it if the call
reads; past its failure; at `LHD_REG_SECT`; at `LHD_REG_STAT`; at `P(lh_done)`; at `lh_result`; in the second
`uiomove`, or past it; at `V(lh_clear)`. From the operation on, the number it has among all operations is noted. -/
inductive LhdPc where
  | outside
  | claim (c : LhdCall) (i : Word)
  | fill (c : LhdCall) (i : Word)
  | abandon
  | seek (c : LhdCall) (i : Word)
  | start (c : LhdCall) (i : Word)
  | await (c : LhdCall) (i : Word) (op : Nat)
  | collect (c : LhdCall) (i : Word) (op : Nat)
  | drain (c : LhdCall) (i : Word) (op : Nat) (result : Option IoError)
  | release (c : LhdCall) (i : Word) (result : Option IoError)

/-- Where the interrupt handler stands, with the operation whose completion it has seen: outside; at the write of
`LHD_REG_STAT`; at that of `lh_result`; at `V(lh_done)`. -/
inductive IrqPc where
  | outside
  | clear (val : Word) (op : Nat)
  | report (result : Option IoError) (op : Nat)
  | signal (op : Nat)

/-- The driver and its card, for threads `ι` and buffers with contents in `D`. `ops` counts the operations started,
`current` is the one the card was last given, and `outcome` says how the card ended them. `signalled` lists the
operations `V(lh_done)` was called for and `taken` those `P(lh_done)` was called for, the first first. -/
structure Lhd (ι D : Type) where
  lhClear : Nat
  lhDone : Nat
  lhResult : Option IoError
  stat : Word
  sect : Word
  buf : D
  irq : IrqPc
  thread : ι → LhdPc
  ops : Nat
  current : Nat
  outcome : Nat → Word
  signalled : List Nat
  taken : List Nat

variable {ι D : Type} [DecidableEq ι]

/-- A thread goes on to another place. -/
def Lhd.goto (s : Lhd ι D) (t : ι) (pc : LhdPc) : Lhd ι D := { s with thread := Function.update s.thread t pc }

/-- The head of the loop. -/
def LhdCall.round (c : LhdCall) (i : Word) : LhdPc := if i < c.len then .claim c i else .outside

/-- The end of a round. -/
def LhdCall.after (c : LhdCall) (i : Word) : Option IoError → LhdPc
  | some _ => .outside
  | none => c.round (i + 1)

/-- Who steps. -/
inductive Actor (ι : Type) where
  | thread (t : ι)
  | irq
  | card

/-- A step of the driver, on a disk of `blocks` sectors. -/
inductive LhdStep (blocks : Word) : Lhd ι D → Actor ι → Lhd ι D → Prop
  | call {s : Lhd ι D} {t : ι} {offset : BitVec 64} {resid sector len : Word} {write : Bool}
      (hpc : s.thread t = .outside) (hcheck : lhdCheck blocks offset resid = .ok (sector, len)) :
      LhdStep blocks s (.thread t) (s.goto t (LhdCall.round { sector := sector, len := len, write := write } 0))
  | claim {s : Lhd ι D} {t : ι} {c : LhdCall} {i : Word} (hpc : s.thread t = .claim c i) (hclear : 0 < s.lhClear) :
      LhdStep blocks s (.thread t) { s.goto t (.fill c i) with lhClear := s.lhClear - 1 }
  -- `uiomove` may write the buffer many times, and fail after any of them
  | fill {s : Lhd ι D} {t : ι} {c : LhdCall} {i : Word} {d : D} (hpc : s.thread t = .fill c i)
      (hwrite : c.write = true) : LhdStep blocks s (.thread t) { s with buf := d }
  | filled {s : Lhd ι D} {t : ι} {c : LhdCall} {i : Word} (hpc : s.thread t = .fill c i) :
      LhdStep blocks s (.thread t) (s.goto t (.seek c i))
  | fillFailed {s : Lhd ι D} {t : ι} {c : LhdCall} {i : Word} (hpc : s.thread t = .fill c i)
      (hwrite : c.write = true) : LhdStep blocks s (.thread t) (s.goto t .abandon)
  | abandon {s : Lhd ι D} {t : ι} (hpc : s.thread t = .abandon) :
      LhdStep blocks s (.thread t) { s.goto t .outside with lhClear := s.lhClear + 1 }
  | seek {s : Lhd ι D} {t : ι} {c : LhdCall} {i : Word} (hpc : s.thread t = .seek c i) :
      LhdStep blocks s (.thread t) { s.goto t (.start c i) with sect := c.sector + i }
  | start {s : Lhd ι D} {t : ι} {c : LhdCall} {i : Word} (hpc : s.thread t = .start c i) :
      LhdStep blocks s (.thread t)
        { s.goto t (.await c i s.ops) with stat := c.statval, ops := s.ops + 1, current := s.ops }
  | await {s : Lhd ι D} {t : ι} {c : LhdCall} {i : Word} {op : Nat} (hpc : s.thread t = .await c i op)
      (hdone : 0 < s.lhDone) :
      LhdStep blocks s (.thread t)
        { s.goto t (.collect c i op) with lhDone := s.lhDone - 1, taken := s.taken ++ [op] }
  | collect {s : Lhd ι D} {t : ι} {c : LhdCall} {i : Word} {op : Nat} (hpc : s.thread t = .collect c i op) :
      LhdStep blocks s (.thread t) (s.goto t (.drain c i op s.lhResult))
  | drained {s : Lhd ι D} {t : ι} {c : LhdCall} {i : Word} {op : Nat} {result : Option IoError}
      (hpc : s.thread t = .drain c i op result) : LhdStep blocks s (.thread t) (s.goto t (.release c i result))
  | drainFailed {s : Lhd ι D} {t : ι} {c : LhdCall} {i : Word} {op : Nat} {e : IoError}
      (hpc : s.thread t = .drain c i op none) (hread : c.write = false) :
      LhdStep blocks s (.thread t) (s.goto t (.release c i (some e)))
  | release {s : Lhd ι D} {t : ι} {c : LhdCall} {i : Word} {result : Option IoError}
      (hpc : s.thread t = .release c i result) :
      LhdStep blocks s (.thread t) { s.goto t (c.after i result) with lhClear := s.lhClear + 1 }
  -- the card ends an operation once, and has filled the buffer if it was a read
  | complete {s : Lhd ι D} {code : Word} {d : D} (hstat : s.stat &&& lhdStatemask = lhdWorking)
      (hcode : code = lhdOk ∨ code = lhdInvsect ∨ code = lhdMedia) :
      LhdStep blocks s .card
        { s with
          stat := code ||| (s.stat &&& lhdIswrite)
          buf := if s.stat &&& lhdIswrite = 0 then d else s.buf
          outcome := Function.update s.outcome s.current (code ||| (s.stat &&& lhdIswrite)) }
  -- among others, with `LHD_IDLE` or `LHD_WORKING`
  | irqSpurious {s : Lhd ι D} (hpc : s.irq = .outside) (hstat : ¬ LhdEnded s.stat) : LhdStep blocks s .irq s
  | irqSeen {s : Lhd ι D} (hpc : s.irq = .outside) (hstat : LhdEnded s.stat) :
      LhdStep blocks s .irq { s with irq := .clear s.stat s.current }
  | irqClear {s : Lhd ι D} {val : Word} {op : Nat} (hpc : s.irq = .clear val op) :
      LhdStep blocks s .irq { s with stat := 0, irq := .report (lhdCodeToErrno val) op }
  | irqReport {s : Lhd ι D} {result : Option IoError} {op : Nat} (hpc : s.irq = .report result op) :
      LhdStep blocks s .irq { s with lhResult := result, irq := .signal op }
  | irqSignal {s : Lhd ι D} {op : Nat} (hpc : s.irq = .signal op) :
      LhdStep blocks s .irq { s with lhDone := s.lhDone + 1, signalled := s.signalled ++ [op], irq := .outside }

/-- The driver after `config_lhd`. -/
def configLhd (ι : Type) {D : Type} (result : Option IoError) (sect : Word) (buf : D) : Lhd ι D where
  lhClear := 1
  lhDone := 0
  lhResult := result
  stat := lhdIdle
  sect := sect
  buf := buf
  irq := .outside
  thread := fun _ => .outside
  ops := 0
  current := 0
  outcome := fun _ => 0
  signalled := []
  taken := []

end Os161.Kern

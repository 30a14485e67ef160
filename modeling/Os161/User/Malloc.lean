import Os161.Lib.Program

/-!
# The user-level heap

`malloc` and `free` of `user/lib/libc/stdlib/malloc.c`, as compiled for the 32-bit machine, over the
memory of one process. Addresses and sizes are natural numbers; where the code's `size_t` can wrap,
the wrap is written out.

The code touches memory in units of eight bytes: a header, or a pair of words of `0xdeadbeef`. The
model's memory therefore gives the eight bytes at an address as the header they read as; on this
machine the first bit field is the high end of the first word, so every unit is such a header.
-/

namespace Os161.User

open Os161.Lib

/-! ## Headers -/

/-- `struct mheader`. -/
structure MHeader where
  prevblock : BitVec 29
  pad : BitVec 1
  magic1 : BitVec 2
  nextblock : BitVec 29
  inuse : Bool
  magic2 : BitVec 2
deriving DecidableEq, Inhabited

/-- `MBLOCKSIZE`. -/
abbrev mblocksize : Nat := 8

/-- `MMAGIC`. -/
abbrev mmagic : BitVec 2 := 2#2

/-- A sum as a `size_t` or `uintptr_t`. -/
def wrap (n : Nat) : Nat := n % 0x100000000

/-- A difference as a `size_t` or `uintptr_t`. -/
def wrapSub (a b : Nat) : Nat := if b ≤ a then a - b else 0x100000000 - (b - a)

/-- Two words of memory, read as a header. -/
def MHeader.ofWords (hi lo : BitVec 32) : MHeader where
  prevblock := hi.extractLsb' 3 29
  pad := hi.extractLsb' 2 1
  magic1 := hi.extractLsb' 0 2
  nextblock := lo.extractLsb' 3 29
  inuse := lo.getLsbD 2
  magic2 := lo.extractLsb' 0 2

/-- `M_NEXTOFF`. -/
def MHeader.nextoff (mh : MHeader) : Nat := mh.nextblock.toNat * mblocksize

/-- `M_PREVOFF`. -/
def MHeader.prevoff (mh : MHeader) : Nat := mh.prevblock.toNat * mblocksize

/-- `M_NEXT`, of a header and its address. -/
def mNext (a : Nat) (mh : MHeader) : Nat := wrap (a + mh.nextoff)

/-- `M_PREV`. -/
def mPrev (a : Nat) (mh : MHeader) : Nat := wrapSub a mh.prevoff

/-- `M_DATA`. -/
def mData (a : Nat) : Nat := wrap (a + mblocksize)

/-- `M_SIZE`. -/
def mSize (mh : MHeader) : Nat := wrapSub mh.nextoff mblocksize

/-- `M_OK`. -/
def MHeader.ok (mh : MHeader) : Bool := mh.magic1 == mmagic && mh.magic2 == mmagic

/-- `M_MKFIELD`, stored into a bit field. -/
def mkField (off : Nat) : BitVec 29 := BitVec.ofNat 29 (off / mblocksize)

/-! ## The process -/

/-- How `malloc` and `free` exit the process: the calls of `err` and `errx`, in the order of the
file. `livelock` is a search that never leaves the heap. -/
inductive Exit where
  | badInitCall | initialSbrkFailed | heapBeganAtZero | aligningSbrkFailed | heapBaseMoved
  | heapTopMoved | splitSize | splitScrewedUp | mallocLocalData | badMagicBits | badPreviousBlock
  | ranOffEnd | mergeInconsistent | freeLocalData | freedOutOfRange | freedCorruptHeader
  | freedAlreadyFree | livelock
deriving DecidableEq

/-- A process: its memory, the heap's bounds, the break, the one it started with, and the kernel's
answers to `sbrk`. `live` is a history variable, the blocks the program holds and the sizes it asked
for; no function reads it. -/
structure Process where
  mem : Nat → MHeader
  heapbase : Nat
  heaptop : Nat
  brk : Nat
  initbrk : Nat
  grants : Nat → Bool
  sbrkCalls : Nat
  live : Nat → Option Nat

/-- The code of a user program. -/
abbrev Prog := EStateM Exit Process

/-- Updating the header at an address in place. -/
def setHeader (a : Nat) (f : MHeader → MHeader) : Prog Unit :=
  modify fun s => { s with mem := Function.update s.mem a (f (s.mem a)) }

/-- A `size_t` passed as an `intptr_t`. -/
def intptr (size : Nat) : Int := if size < 0x80000000 then size else (size : Int) - 0x100000000

/-- `sbrk`: it fails, or it moves the break by the amount it is given, to `USERSPACETOP` at most and
never below the initial break, and gives the old break. Which of the two is the kernel's choice. -/
def sbrk (size : Nat) : Prog (Option Nat) := do
  let s ← get
  modify fun s => { s with sbrkCalls := s.sbrkCalls + 1 }
  let target := s.brk + intptr size
  if s.grants s.sbrkCalls && decide (s.initbrk ≤ target ∧ target ≤ 0x80000000) then
    modify fun s => { s with brk := target.toNat }
    pure (some s.brk)
  else pure none

/-! ## malloc -/

/-- `__malloc_init`. The checks of the header's size are checks of constants and are left out. -/
def mallocInit : Prog Unit := do
  let s ← get
  if s.heapbase ≠ 0 ∨ s.heaptop ≠ 0 then throw .badInitCall
  else
    match ← sbrk 0 with
    | none => throw .initialSbrkFailed
    | some x =>
      if x = 0 then throw .heapBeganAtZero
      else
        modify fun s => { s with heapbase := x, heaptop := x }
        if x % mblocksize ≠ 0 then
          let adjust := mblocksize - x % mblocksize
          match ← sbrk adjust with
          | none => throw .aligningSbrkFailed
          | some y =>
            if y ≠ x then throw .heapBaseMoved
            else modify fun s => { s with heapbase := x + adjust, heaptop := x + adjust }
        else pure ()

/-- `__malloc_sbrk`. -/
def mallocSbrk (size : Nat) : Prog (Option Nat) := do
  match ← sbrk size with
  | none => pure none
  | some x =>
    let s ← get
    if x ≠ s.heaptop then throw .heapTopMoved
    else
      modify fun s => { s with heaptop := wrap (s.heaptop + size) }
      pure (some x)

/-- `__malloc_split`. -/
def mallocSplit (mh size : Nat) : Prog Unit := do
  let s ← get
  if size % mblocksize ≠ 0 then throw .splitSize
  else if wrapSub (mSize (s.mem mh)) size < 2 * mblocksize then pure ()
  else
    let mhnext := mNext mh (s.mem mh)
    let oldsize := mSize (s.mem mh)
    setHeader mh fun h => { h with nextblock := mkField (wrap (size + mblocksize)) }
    let s ← get
    let mhnew := mNext mh (s.mem mh)
    if mhnew = mhnext then throw .splitScrewedUp
    else
      setHeader mhnew fun _ =>
        { prevblock := mkField (wrap (size + mblocksize)), pad := 0, magic1 := mmagic,
          nextblock := mkField (wrapSub oldsize size), inuse := false, magic2 := mmagic }
      if mhnext ≠ s.heaptop then
        let s ← get
        setHeader mhnext fun h => { h with prevblock := (s.mem mhnew).nextblock }
      else pure ()

/-- The first-fit search of `malloc`: the header it allocated at, or where the loop ended and
`rightprevblock` there. -/
def mallocSearch (size : Nat) : Nat → Nat → BitVec 29 → Prog (Nat ⊕ Nat × BitVec 29)
  | 0, _, _ => throw .livelock
  | fuel + 1, i, rightprevblock => do
    let s ← get
    if i < s.heaptop then
      let mh := s.mem i
      if ¬ mh.ok then throw .badMagicBits
      else if mh.prevblock ≠ rightprevblock then throw .badPreviousBlock
      else if mh.inuse ∨ mSize mh < size then
        mallocSearch size fuel (mNext i mh) mh.nextblock
      else
        mallocSplit i size
        setHeader i fun h => { h with inuse := true }
        pure (.inl i)
    else pure (.inr (i, rightprevblock))

/-- The end of `malloc`: no block was found, so the heap is expanded. -/
def mallocGrow (size : Nat) (rightprevblock : BitVec 29) : Prog (Option Nat) := do
  match ← mallocSbrk (wrap (size + mblocksize)) with
  | none => pure none
  | some mh =>
    setHeader mh fun _ =>
      { prevblock := rightprevblock, pad := 0, magic1 := mmagic,
        nextblock := mkField (wrap (size + mblocksize)), inuse := true, magic2 := mmagic }
    pure (some (mData mh))

/-- `malloc` once the heap's bounds are set. A round of the search goes up by at least one unit or
stays where it is for ever, so as many rounds as the heap has bytes are enough. -/
def mallocFrom (n : Nat) : Prog (Option Nat) := do
  let s ← get
  if s.heapbase = 0 ∨ s.heaptop = 0 ∨ s.heapbase > s.heaptop then throw .mallocLocalData
  else
    let size := wrap (n + mblocksize - 1) / mblocksize * mblocksize
    match ← mallocSearch size (s.heaptop + 1) s.heapbase 0#29 with
    | .inl mh => pure (some (mData mh))
    | .inr (i, rightprevblock) =>
      if i ≠ s.heaptop then throw .ranOffEnd else mallocGrow size rightprevblock

/-- `malloc`, with `NULL` as `none`. -/
def malloc (n : Nat) : Prog (Option Nat) := do
  let s ← get
  if s.heapbase = 0 then
    mallocInit
    mallocFrom n
  else mallocFrom n

/-! ## free -/

/-- `__malloc_deadbeef`, on whole units. -/
def mallocDeadbeef (ptr size : Nat) : Prog Unit :=
  modify fun s => { s with
    mem := fun a =>
      if ptr ≤ a ∧ a < ptr + size then .ofWords 0xdeadbeef#32 0xdeadbeef#32 else s.mem a }

/-- `__malloc_trymerge`. -/
def mallocTrymerge (mh mhnext : Nat) : Prog Unit := do
  let s ← get
  if (s.mem mh).nextblock ≠ (s.mem mhnext).prevblock then throw .mergeInconsistent
  else if (s.mem mh).inuse ∨ (s.mem mhnext).inuse then pure ()
  else
    let mhnextnext := mNext mhnext (s.mem mhnext)
    setHeader mh fun h =>
      { h with
        nextblock := mkField
          (wrap (mblocksize + mSize (s.mem mh) + mblocksize + mSize (s.mem mhnext))) }
    if mhnextnext ≠ s.heaptop then
      let s ← get
      setHeader mhnextnext fun h => { h with prevblock := (s.mem mh).nextblock }
      mallocDeadbeef mhnext mblocksize
    else mallocDeadbeef mhnext mblocksize

/-- The end of `free`: merging with the block below, unless at the bottom. -/
def mergeBelow (mh : Nat) : Prog Unit := do
  let s ← get
  if mh ≠ s.heapbase then mallocTrymerge (mPrev mh (s.mem mh)) mh else pure ()

/-- `free`, with `NULL` as 0. -/
def free (x : Nat) : Prog Unit := do
  if x = 0 then pure ()
  else
    let s ← get
    if s.heapbase = 0 ∨ s.heaptop = 0 ∨ s.heapbase > s.heaptop then throw .freeLocalData
    else if x < s.heapbase ∨ x ≥ s.heaptop then throw .freedOutOfRange
    else
      let mh := wrapSub x mblocksize
      if ¬ (s.mem mh).ok then throw .freedCorruptHeader
      else if ¬ (s.mem mh).inuse then throw .freedAlreadyFree
      else
        setHeader mh fun h => { h with inuse := false }
        mallocDeadbeef (mData mh) (mSize (s.mem mh))
        let s ← get
        let mhnext := mNext mh (s.mem mh)
        if mhnext ≠ s.heaptop then
          mallocTrymerge mh mhnext
          mergeBelow mh
        else mergeBelow mh

/-! ## The program's side -/

/-- What the program does with its heap: it calls `malloc` or `free`, or it stores to a unit. -/
inductive Event where
  | malloc (n : Nat)
  | free (x : Nat)
  | store (a : Nat) (v : MHeader)

/-- A call, with the program's own record of the blocks it holds; or a store. -/
def Event.exec : Event → Prog Unit
  | .malloc n => do
    match ← User.malloc n with
    | none => pure ()
    | some p => modify fun s => { s with live := Function.update s.live p (some n) }
  | .free x => do
    User.free x
    modify fun s => { s with live := Function.update s.live x none }
  | .store a v => setHeader a fun _ => v

/-- The program keeps to the interface: sizes up to `2^31`, `free` of a block it holds or of `NULL`,
and stores to units that hold a byte of a block it asked for. -/
def Event.Allowed (s : Process) : Event → Prop
  | .malloc n => n ≤ 0x80000000
  | .free x => x = 0 ∨ (s.live x).isSome
  | .store a _ => a % mblocksize = 0 ∧ ∃ p n, s.live p = some n ∧ p ≤ a ∧ a < p + n

/-- A process that has not called `malloc` yet. Its image takes up the first units of memory, so no
size up to `2^31` is an amount by which the kernel would lower the break. -/
structure Process.IsNew (s : Process) : Prop where
  heapbase : s.heapbase = 0
  heaptop : s.heaptop = 0
  live : ∀ p, s.live p = none
  brk : s.brk ≤ 0x80000000
  image : mblocksize < s.initbrk

end Os161.User

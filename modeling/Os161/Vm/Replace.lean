import Os161.Vm.State

/-!
# Page replacement

The policies at the end of `kern/vm/addrspace.c`. `replace_page` uses the two-handed clock: the
eviction hand stops at the first row whose reference bit is clear, while the reference hand,
`CLOCK_ANGLE` rows ahead of it at boot, clears the bits it passes. The other policies are compiled
but not called.
-/

namespace Os161.Vm

open Os161.Lib

/-- The scan of `second_chance_replace`: at most `fuel` more steps of both hands. -/
def secondChanceScan : Nat → Kernel Unit
  | 0 => pure ()
  | fuel + 1 => do
    let s ← get
    let row ← rowAt s.epHand
    if row.refBit = false then
      pure ()
    else
      updateRow s.rpHand fun r => { r with refBit := false }
      modify fun s =>
        { s with epHand := (s.epHand + 1) % maxPmSize, rpHand := (s.rpHand + 1) % maxPmSize }
      secondChanceScan fuel

/-- `second_chance_replace`. The scan takes `CLOCK_ANGLE + 2` looks. -/
def secondChanceReplace : Kernel Paddr := do
  secondChanceScan (clockAngle + 2)
  let s ← get
  let row ← rowAt (s.epHand % maxPmSize)
  modify fun s =>
    { s with epHand := (s.epHand + 1) % maxPmSize, rpHand := (s.rpHand + 1) % maxPmSize }
  pure row.physicalAddr

/-- `replace_page`. -/
def replacePage : Kernel Paddr := do
  modify fun s => { s with cntPageRepl := s.cntPageRepl + 1 }
  secondChanceReplace

/-- The sweep of `one_handed_replace`: at most `fuel` more looks. -/
def oneHandedScan : Nat → Kernel Unit
  | 0 => pure ()
  | fuel + 1 => do
    let s ← get
    let row ← rowAt s.clockHand
    if row.refBit = false then
      modify fun s => { s with clockHand := s.clockHand + 1 }
    else
      updateRow s.clockHand fun r => { r with refBit := false }
      modify fun s => { s with clockHand := (s.clockHand + 1) % maxPmSize }
      oneHandedScan fuel

/-- `one_handed_replace`. -/
def oneHandedReplace : Kernel Paddr := do
  oneHandedScan (maxPmSize + 2)
  let s ← get
  let row ← rowAt (s.clockHand % maxPmSize)
  modify fun s => { s with clockHand := (s.clockHand + 1) % maxPmSize }
  pure row.physicalAddr

/-- `random_replace`, on the value `random()` returned. -/
def randomReplace (random : BitVec 32) : Kernel Paddr := do
  let row ← rowAt (random.toNat % maxPmSize)
  pure row.physicalAddr

/-- The first row at or after `i` whose reference bit is clear. -/
def lruScan (pft : Fin maxPmSize → PageTableEntry) : Option (Fin maxPmSize) :=
  (List.finRange maxPmSize).find? fun i => !(pft i).refBit

/-- `lru_replace`: the first row whose reference bit is clear, and otherwise the row whose index is
the address `random_replace` answers with. -/
def lruReplace (random : BitVec 32) : Kernel Paddr := do
  let s ← get
  let selectedPageIndex ←
    match lruScan s.pft with
    | some i => pure i.val
    | none => do
      let p ← randomReplace random
      pure p.toNat
  let row ← rowAt selectedPageIndex
  pure row.physicalAddr

end Os161.Vm

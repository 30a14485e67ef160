import Os161.Sfs.Vnode

/-!
# `sfsck`: the entries of a directory in memory

What `check_dir` does to the entries it has read before it follows them: `check_dir_entry`, the sorting, the
duplicates, and the entries `.` and `..`. Where an entry is changed the source also calls
`setbadness(EXIT_RECOV)`; that is left to the caller, which is told whether anything was changed. An
assertion that fails gives `none`.
-/

namespace Os161.Sfsck

open Os161.Sfs

/-! ## Names -/

/-- The string in an array of characters. -/
def cstr (name : List UInt8) : List UInt8 := name.takeWhile (· ≠ 0)

/-- A string written to the front of an array, with its 0. -/
def putStr (str name : List UInt8) : List UInt8 := str ++ 0 :: name.drop (str.length + 1)

/-- `"."`. -/
def dot : List UInt8 := [46]

/-- `".."`. -/
def dotdot : List UInt8 := [46, 46]

/-- `%lu`. -/
def decimal (n : UInt32) : List UInt8 := (Nat.toDigits 10 n.toNat).map fun ch => UInt8.ofNat ch.toNat

/-- `"FSCK.%lu.%lu"`. -/
def fsckName (ino uniquecounter : UInt32) : List UInt8 :=
  [70, 83, 67, 75, 46] ++ decimal ino ++ [46] ++ decimal uniquecounter

/-- `checknullstring`, for a name of a directory entry. -/
def checknullstring (buf : List UInt8) : List UInt8 × Bool :=
  if 0 ∈ buf then (buf, false) else (buf.set (nameLen - 1) 0, true)

/-- `:` and `/` become `_`. -/
def goodChar (ch : UInt8) : UInt8 := if ch = 58 ∨ ch = 47 then 95 else ch

/-- `checkbadstring`. -/
def checkbadstring (buf : List UInt8) : List UInt8 × Bool :=
  ((cstr buf).map goodChar ++ buf.drop (cstr buf).length, (cstr buf).any fun ch => ch = 58 ∨ ch = 47)

/-! ## Single entries -/

/-- An entry that is in use and has no name gets one. -/
def nameEntry (uniquecounter : UInt32) (d : SfsDir) : SfsDir × Bool × UInt32 :=
  if d.name.headD 0 = 0 then
    (⟨d.ino, putStr (fsckName d.ino uniquecounter) d.name⟩, true, uniquecounter + 1)
  else (d, false, uniquecounter)

/-- `check_dir_entry`: the entry, whether it has changed, and the counter. -/
def checkDirEntry (uniquecounter : UInt32) (d : SfsDir) : SfsDir × Bool × UInt32 :=
  if d.ino = 0 then
    if d.name.headD 0 ≠ 0 then (⟨d.ino, d.name.set 0 0⟩, true, uniquecounter)
    else (d, false, uniquecounter)
  else
    let named := nameEntry uniquecounter d
    let ended := checknullstring named.1.name
    let good := checkbadstring ended.1
    (⟨d.ino, good.1⟩, named.2.1 || ended.2 || good.2, named.2.2)

/-- The loop over the entries. -/
def checkDirEntries : UInt32 → List SfsDir → List SfsDir × Bool × UInt32
  | uniquecounter, [] => ([], false, uniquecounter)
  | uniquecounter, d :: rest =>
    let first := checkDirEntry uniquecounter d
    let others := checkDirEntries first.2.2 rest
    (first.1 :: others.1, first.2.1 || others.2.1, others.2.2)

/-! ## Duplicates -/

/-- Characters are compared as unsigned ones. -/
def charLt (a b : UInt8) : Bool := a < b

/-- `strcmp(a, b) < 0`. -/
def strcmpNeg : List UInt8 → List UInt8 → Bool
  | [], [] => false
  | [], b :: _ => charLt 0 b
  | a :: _, [] => charLt a 0
  | a :: as, b :: bs => if a = b then strcmpNeg as bs else charLt a b

/-- The entry at a position. -/
def entryAt (entries : List SfsDir) (i : Nat) : SfsDir := entries.getD i ⟨0, []⟩

/-- A round of `qsort`. -/
def exchange (entries : List SfsDir) (data : List Nat) (i j : Nat) : List Nat :=
  let a := data.getD i 0
  let b := data.getD j 0
  if strcmpNeg (cstr (entryAt entries a).name) (cstr (entryAt entries b).name) then
    (data.set i b).set j a
  else data

/-- `sortdir`, with the `qsort` of the source, which sorts in descending order. -/
def sortdir (entries : List SfsDir) (nd : Nat) : List Nat :=
  (List.range (nd - 1)).foldl
    (fun data i => (List.range' (i + 1) (nd - 1 - i)).foldl (fun data j => exchange entries data i j) data)
    (List.range nd)

/-- The entries on the way through a directory, whether any has changed, and the counter. -/
structure Progress where
  entries : List SfsDir
  changed : Bool
  uniquecounter : UInt32

/-- The round of `check_dir` for two neighbours in the sorted order. -/
def mergeNext (data : List Nat) (p : Progress) (i : Nat) : Option Progress :=
  let a := data.getD i 0
  let b := data.getD (i + 1) 0
  let d1 := entryAt p.entries a
  let d2 := entryAt p.entries b
  if a = b then none
  else if d1.ino = 0 then some p
  else if cstr d1.name ≠ cstr d2.name then some p
  else if d1.ino = d2.ino then some ⟨p.entries.set a ⟨0, d1.name.set 0 0⟩, true, p.uniquecounter⟩
  else
    some ⟨p.entries.set a ⟨d1.ino, putStr (fsckName d1.ino p.uniquecounter) d1.name⟩, true,
      p.uniquecounter + 1⟩

/-- The loop over the sorted entries. -/
def mergeNames (data : List Nat) : List Nat → Progress → Option Progress
  | [], p => some p
  | i :: rest, p => (mergeNext data p i).bind (mergeNames data rest)

/-! ## `.` and `..` -/

/-- What is known after the loop over `.` and `..`. -/
structure Dots where
  entries : List SfsDir
  dotseen : Bool
  dotdotseen : Bool
  changed : Bool

/-- The loop over `.` and `..`. -/
def fixDots (ino parentino : Blk) : List SfsDir → Bool → Bool → Option Dots
  | [], dotseen, dotdotseen => some ⟨[], dotseen, dotdotseen, false⟩
  | d :: rest, dotseen, dotdotseen =>
    if cstr d.name = dot then
      if dotseen then none
      else
        (fixDots ino parentino rest true dotdotseen).map fun r =>
          { r with entries := ⟨ino, d.name⟩ :: r.entries, changed := d.ino ≠ ino || r.changed }
    else if cstr d.name = dotdot then
      if dotdotseen then none
      else
        (fixDots ino parentino rest dotseen true).map fun r =>
          { r with entries := ⟨parentino, d.name⟩ :: r.entries, changed := d.ino ≠ parentino || r.changed }
    else
      (fixDots ino parentino rest dotseen dotdotseen).map fun r =>
        { r with entries := d :: r.entries }

/-- `dir_tryadd`. -/
def dirTryadd (entries : List SfsDir) (nd : Nat) (name : List UInt8) (ino : Blk) :
    Option (List SfsDir) :=
  ((entries.take nd).findIdx? (·.ino = 0)).map fun i =>
    entries.set i ⟨ino, putStr name (entryAt entries i).name⟩

/-- The entries of a directory with their number, as the check leaves them. -/
structure Checked where
  entries : List SfsDir
  nd : Nat
  changed : Bool
  full : Bool

/-- An entry `.` or `..` that was not there is added: to a free slot, or at the end of the last block.
`full` says that there was no room. -/
def addDot (seen : Bool) (name : List UInt8) (ino : Blk) (c : Checked) : Checked :=
  if seen then c
  else
    match dirTryadd c.entries c.nd name ino with
    | some entries => { c with entries := entries, changed := true }
    | none =>
      match dirTryadd c.entries c.entries.length name ino with
      | some entries => { c with entries := entries, nd := c.nd + 1, changed := true }
      | none => { c with full := true }

/-- All of it: `entries` are the entries of the directory's blocks, of which the first `nd` are its own.
The answer comes with the counter. -/
def checkEntries (uniquecounter : UInt32) (ino parentino : Blk) (entries : List SfsDir) (nd : Nat) :
    Option (Checked × UInt32) :=
  let single := checkDirEntries uniquecounter (entries.take nd)
  let data := sortdir single.1 nd
  (mergeNames data (List.range (nd - 1)) ⟨single.1, single.2.1, single.2.2⟩).bind fun merged =>
    (fixDots ino parentino merged.entries false false).map fun dots =>
      let c : Checked := ⟨dots.entries ++ entries.drop nd, nd, merged.changed || dots.changed, false⟩
      (addDot dots.dotdotseen dotdot parentino (addDot dots.dotseen dot ino c), merged.uniquecounter)

end Os161.Sfsck

import Os161.Lib.Bits

/-!
# Bitmaps

`kern/lib/bitmap.c`. Numbers of bits and words are `unsigned`, words are bytes.
-/

namespace Os161.Kern

/-- `BITS_PER_WORD`. -/
abbrev bitsPerWord : Nat := 8

/-- `WORD_ALLBITS`. -/
def wordAllbits : BitVec 8 := 0xff

/-- `struct bitmap`. -/
structure Bitmap where
  nbits : BitVec 32
  v : List (BitVec 8)

/-- The `KASSERT`s of `bitmap.c`, in the order of the file, and an access behind the words. -/
inductive BitmapFault where
  | createWords
  | createOverbits
  | allocIndex
  | allocWord
  | markRange
  | markSet
  | unmarkRange
  | unmarkClear
  | wild
deriving DecidableEq

/-- `DIVROUNDUP(nbits, BITS_PER_WORD)`. -/
def bitmapWords (nbits : BitVec 32) : BitVec 32 := (nbits + 8#32 - 1#32) / 8#32

/-- `b->v[ix]`. -/
def Bitmap.word (b : Bitmap) (ix : Nat) : Except BitmapFault (BitVec 8) :=
  match b.v[ix]? with
  | some word => .ok word
  | none => .error .wild

/-- `b->v[ix] = word`. -/
def Bitmap.setWord (b : Bitmap) (ix : Nat) (word : BitVec 8) : Bitmap := { b with v := b.v.set ix word }

/-- The loop of `bitmap_create` over the leftover bits `j` to 7 of word `ix`, with `n` of them to go. -/
def markLeftover (ix : Nat) : Nat → Nat → Bitmap → Except BitmapFault Bitmap
  | 0, _, b => .ok b
  | n + 1, j, b => do
    let word ← b.word ix
    markLeftover ix n (j + 1) (b.setWord ix (word ||| 1#8 <<< j))

/-- `bitmap_create`, if its allocations succeed. -/
def bitmapCreate (nbits : BitVec 32) : Except BitmapFault Bitmap := do
  let words := bitmapWords nbits
  let b : Bitmap := { nbits := nbits, v := List.replicate words.toNat 0 }
  if nbits / 8#32 < words then
    let ix := words - 1#32
    let overbits := nbits - ix * 8#32
    unless nbits / 8#32 = words - 1#32 do throw .createWords
    unless 0#32 < overbits ∧ overbits < 8#32 do throw .createOverbits
    markLeftover ix.toNat (bitsPerWord - overbits.toNat) overbits.toNat b
  else pure b

/-- The inner loop of `bitmap_alloc`, over the bits `offset` to 7 of word `ix`, with `n` of them to go. -/
def allocBit (b : Bitmap) (ix : Nat) (word : BitVec 8) :
    Nat → Nat → Except BitmapFault (Option (BitVec 32) × Bitmap)
  | 0, _ => .error .allocWord
  | n + 1, offset =>
    let mask := 1#8 <<< offset
    if word &&& mask = 0 then
      let index := BitVec.ofNat 32 ix * 8#32 + BitVec.ofNat 32 offset
      if index < b.nbits then .ok (some index, b.setWord ix (word ||| mask)) else .error .allocIndex
    else allocBit b ix word n (offset + 1)

/-- The outer loop of `bitmap_alloc`, from word `ix` on with `n` of them to go. -/
def allocWord (b : Bitmap) : Nat → Nat → Except BitmapFault (Option (BitVec 32) × Bitmap)
  | 0, _ => .ok (none, b)
  | n + 1, ix => do
    let word ← b.word ix
    if word ≠ wordAllbits then allocBit b ix word bitsPerWord 0 else allocWord b n (ix + 1)

/-- `bitmap_alloc`: the index, or `ENOSPC` as `none`. -/
def bitmapAlloc (b : Bitmap) : Except BitmapFault (Option (BitVec 32) × Bitmap) :=
  allocWord b (bitmapWords b.nbits).toNat 0

/-- `bitmap_translate`: the word and the mask. -/
def bitmapTranslate (bitno : BitVec 32) : Nat × BitVec 8 :=
  ((bitno / 8#32).toNat, 1#8 <<< (bitno % 8#32).toNat)

/-- `bitmap_mark`. -/
def bitmapMark (b : Bitmap) (index : BitVec 32) : Except BitmapFault Bitmap := do
  unless index < b.nbits do throw .markRange
  let (ix, mask) := bitmapTranslate index
  let word ← b.word ix
  unless word &&& mask = 0 do throw .markSet
  pure (b.setWord ix (word ||| mask))

/-- `bitmap_unmark`. -/
def bitmapUnmark (b : Bitmap) (index : BitVec 32) : Except BitmapFault Bitmap := do
  unless index < b.nbits do throw .unmarkRange
  let (ix, mask) := bitmapTranslate index
  let word ← b.word ix
  unless word &&& mask ≠ 0 do throw .unmarkClear
  pure (b.setWord ix (word &&& ~~~ mask))

/-- `bitmap_isset`. -/
def bitmapIsset (b : Bitmap) (index : BitVec 32) : Except BitmapFault (BitVec 8) := do
  let (ix, mask) := bitmapTranslate index
  let word ← b.word ix
  pure (word &&& mask)

/-- A change of a bitmap. -/
inductive BitmapOp where
  | alloc
  | mark (index : BitVec 32)
  | unmark (index : BitVec 32)

/-- What a change answers, and the bitmap after it. Only `bitmap_alloc` answers. -/
def BitmapOp.exec (b : Bitmap) : BitmapOp → Except BitmapFault (Option (BitVec 32) × Bitmap)
  | .alloc => bitmapAlloc b
  | .mark index => do
    let b ← bitmapMark b index
    pure (none, b)
  | .unmark index => do
    let b ← bitmapUnmark b index
    pure (none, b)

/-- Changes one after another, with their answers. -/
def bitmapRun (b : Bitmap) : List BitmapOp → Except BitmapFault (List (Option (BitVec 32)) × Bitmap)
  | [] => .ok ([], b)
  | op :: rest => do
    let (answer, b) ← op.exec b
    let (answers, b) ← bitmapRun b rest
    pure (answer :: answers, b)

end Os161.Kern

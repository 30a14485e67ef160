import Os161.Lib.Flat

/-!
# The memory functions

`memcpy` and `memmove` of `common/libc/string`, over the machine's memory: 32-bit addresses, words of four bytes.
-/

namespace Os161.Kern

open Os161.Lib

/-- An address, or a number of bytes. -/
abbrev Word := BitVec 32

/-- The machine's memory. -/
abbrev Memory := Flat 32 UInt8

/-- The test for copying by words: both addresses and the length are multiples of `sizeof(long)`. -/
def wordAligned (dst src len : Word) : Bool :=
  dst.toNat % 4 == 0 && src.toNat % 4 == 0 && len.toNat % 4 == 0

/-- `memcpy`. -/
def memcpy (dst src len : Word) (m : Memory) : Memory :=
  if wordAligned dst src len then m.moveUp 4 (len.toNat / 4) dst src
  else m.moveUp 1 len.toNat dst src

/-- `memmove`. -/
def memmove (dst src len : Word) (m : Memory) : Memory :=
  if dst < src then memcpy dst src len m
  else if wordAligned dst src len then m.moveDown 4 (len.toNat / 4) dst src
  else m.moveDown 1 len.toNat dst src

end Os161.Kern

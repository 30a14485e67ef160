import Os161.Kern.Memory

/-!
# Byte order

`bswap32`, `bswap64`, `join32to64` and `split64to32` of `kern/lib/bswap.c`, as they are compiled for a big-endian
machine.
-/

namespace Os161.Kern

/-- `bswap32`. -/
def bswap32 (val : Word) : Word :=
  (val &&& 0x000000ff#32) <<< 24 ||| (val &&& 0x0000ff00#32) <<< 8 |||
    (val &&& 0x00ff0000#32) >>> 8 ||| (val &&& 0xff000000#32) >>> 24

/-- `bswap64`. -/
def bswap64 (val : BitVec 64) : BitVec 64 :=
  (val &&& 0x00000000000000ff#64) <<< 56 ||| (val &&& 0x000000000000ff00#64) <<< 40 |||
    (val &&& 0x0000000000ff0000#64) <<< 24 ||| (val &&& 0x00000000ff000000#64) <<< 8 |||
    (val &&& 0x000000ff00000000#64) <<< 8 ||| (val &&& 0x0000ff0000000000#64) <<< 24 |||
    (val &&& 0x00ff000000000000#64) >>> 40 ||| (val &&& 0xff00000000000000#64) >>> 56

/-- `join32to64`. -/
def join32to64 (x1 x2 : Word) : BitVec 64 := x1.setWidth 64 <<< 32 ||| x2.setWidth 64

/-- `split64to32`. -/
def split64to32 (x : BitVec 64) : Word × Word :=
  ((x >>> 32).setWidth 32, (x &&& 0xffffffff#64).setWidth 32)

end Os161.Kern

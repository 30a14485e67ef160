import Os161.Kern.Memory

/-!
# Resizable arrays

`array_setsize` of `kern/lib/array.c`. `unsigned`, `size_t` and pointers are one word. What `kmalloc` and `kfree` do
to memory is a parameter.
-/

namespace Os161.Kern

/-- `struct array`. -/
structure PtrArray where
  v : Word
  num : Word
  max : Word

/-- The allocator: `kmalloc`, with the address 0 for `NULL`, and `kfree`. -/
structure Heap where
  kmalloc : Word → Memory → Word × Memory
  kfree : Word → Memory → Memory

/-- The loop that doubles `newmax`; `none` if it takes more turns than given. -/
def doubleMax (num : Word) : Nat → Word → Option Word
  | 0, _ => none
  | n + 1, newmax =>
    if newmax < num then doubleMax num n (if newmax ≠ 0 then newmax * 2#32 else 4#32) else some newmax

/-- What `array_setsize` leaves: whether it returned `ENOMEM`, the array, memory, and the size it asked `kmalloc`
for. -/
structure Resized where
  enomem : Bool
  array : PtrArray
  memory : Memory
  request : Option Word

/-- `array_setsize`, with a bound on the turns of its loop. -/
def arraySetsize (heap : Heap) (turns : Nat) (a : PtrArray) (num : Word) (m : Memory) : Option Resized :=
  if a.max < num then do
    let newmax ← doubleMax num turns a.max
    let size := newmax * 4#32
    let (newptr, m) := heap.kmalloc size m
    if newptr = 0 then some ⟨true, a, m, some size⟩
    else
      let m := heap.kfree a.v (memcpy newptr a.v (a.num * 4#32) m)
      some ⟨false, ⟨newptr, num, newmax⟩, m, some size⟩
  else some ⟨false, { a with num := num }, m, none⟩

end Os161.Kern

import Os161.Kern.Memory

/-!
# The guts of printf

`common/libc/printf/__printf.c`, with the callback and its client data as parameters. Characters are those with the
codes 0 to 255. On this machine `int`, `long` and pointers are one word, `long long` is two.

A string argument is fetched once; the passes of `strlen` and of the callback over it read no other bytes.
-/

namespace Os161.Kern

open Os161.Lib

/-- What stops a session: a failed `assert`, a store in front of the number buffer, an argument that is missing or
of another type than the one asked for, and a string that never ends. -/
inductive PfFault where
  | assertion
  | buffer
  | argument
  | endless
deriving DecidableEq

/-- An argument, as `va_arg` finds it. -/
inductive VaArg where
  | word (n : Word)
  | dword (n : BitVec 64)

/-- `size`. -/
inductive PfSize where
  | intsz
  | longsz
  | llongsz
deriving DecidableEq

/-- The part of `PF` that belongs to one field, as `__pf_endfield` sets it. `basepfx` is `baseprefix`. -/
structure PfField where
  inPct : Bool := false
  size : PfSize := .intsz
  num : BitVec 64 := 0
  sign : Bool := false
  spacing : Word := 0#32
  rightspc : Bool := false
  fillchar : Char := ' '
  base : Nat := 0
  basepfx : Bool := false
  altformat : Bool := false

/-- `PF`, without the callback, and the memory string arguments are in. -/
structure Pf (γ : Type) extends PfField where
  clientdata : γ
  ap : List VaArg
  charcount : Word
  memory : Memory

/-! ## Arguments -/

/-- `va_arg` of a type of one word. -/
def vaWord : List VaArg → Except PfFault (Word × List VaArg)
  | .word n :: rest => .ok (n, rest)
  | _ => .error .argument

/-- `va_arg` of a type of two words. -/
def vaDword : List VaArg → Except PfFault (BitVec 64 × List VaArg)
  | .dword n :: rest => .ok (n, rest)
  | _ => .error .argument

/-- The text of an array of characters up to its NUL. -/
def cstr (l : List Char) : List Char := l.takeWhile (· ≠ '\x00')

/-- The loop of `strlen` from the byte `ret` of the string at `a` on, with `n` more bytes to look at. -/
def strlenLoop (a : Word) : Nat → Nat → Memory → Except PfFault (Nat × Memory)
  | 0, _, _ => .error .endless
  | n + 1, ret, m =>
    if m.cells (offset a ret) = 0 then .ok (ret, m.look (offset a ret))
    else strlenLoop a n (ret + 1) (m.look (offset a ret))

/-- `strlen`. After all of memory it would start over. -/
def strlen (a : Word) (m : Memory) : Except PfFault (Nat × Memory) := strlenLoop a (2 ^ 32) 0 m

/-- The string at an address. -/
def fetchString (a : Word) (m : Memory) : Except PfFault (List Char × Memory) := do
  let (len, m) ← strlen a m
  pure ((span a len).map fun x => Char.ofUInt8 (m.cells x), m)

/-! ## One field -/

/-- `__pf_modifier`. -/
def pfModifier (f : PfField) (ch : Char) : Except PfFault PfField :=
  match ch with
  | '#' => .ok { f with altformat := true }
  | '-' => .ok { f with rightspc := true }
  | 'l' => .ok { f with size := if f.size = .longsz then .llongsz else .longsz }
  | '0' =>
    if BitVec.slt 0#32 f.spacing then .ok { f with spacing := f.spacing * 10#32 }
    else .ok { f with fillchar := '0' }
  | ch =>
    if '0' < ch ∧ ch ≤ '9' then
      .ok { f with spacing := f.spacing * 10#32 + BitVec.ofNat 32 (ch.toNat - '0'.toNat) }
    else .error .assertion

/-- The `va_arg`s of `__pf_getnum` for a signed integer. -/
def vaSigned (size : PfSize) (ap : List VaArg) : Except PfFault (BitVec 64 × List VaArg) :=
  match size with
  | .intsz | .longsz => do
    let (n, ap) ← vaWord ap
    pure (n.signExtend 64, ap)
  | .llongsz => vaDword ap

/-- The `va_arg`s of `__pf_getnum` for an unsigned integer. -/
def vaUnsigned (size : PfSize) (ap : List VaArg) : Except PfFault (BitVec 64 × List VaArg) :=
  match size with
  | .intsz | .longsz => do
    let (n, ap) ← vaWord ap
    pure (n.setWidth 64, ap)
  | .llongsz => vaDword ap

/-- `__pf_getnum`: the field with the number, and the arguments left. -/
def pfGetnum (f : PfField) (ap : List VaArg) (ch : Char) : Except PfFault (PfField × List VaArg) := do
  if ch = 'p' then
    let (n, ap) ← vaWord ap
    pure ({ f with num := n.setWidth 64 }, ap)
  else if ch = 'd' then
    let (signednum, ap) ← vaSigned f.size ap
    if BitVec.slt signednum 0#64 then pure ({ f with sign := true, num := -signednum }, ap)
    else pure ({ f with num := signednum }, ap)
  else
    let (n, ap) ← vaUnsigned f.size ap
    pure ({ f with num := n }, ap)

/-- `__pf_setbase`. -/
def pfSetbase (f : PfField) (ch : Char) : PfField :=
  let base := match ch with
    | 'd' | 'u' => 10
    | 'x' | 'p' => 16
    | 'o' => 8
    | _ => f.base
  { f with base := base, basepfx := if f.altformat ∨ ch = 'p' then true else f.basepfx }

/-- The padding `spc` of `__pf_printstuff` for a length. -/
def pfSpc (f : PfField) (len : Word) : Word := if BitVec.slt len f.spacing then f.spacing - len else 0

/-- `NUMBER_BUF_SIZE`. -/
def numberBufSize : Nat := 8 * 8 / 3 + 2

/-- `digits`. -/
def pfDigits : List Char :=
  ['0', '1', '2', '3', '4', '5', '6', '7', '8', '9', 'a', 'b', 'c', 'd', 'e', 'f']

/-- The loop of `__pf_printnum` with `x` slots of the buffer left: where the number starts, and the buffer. -/
def pfConvert (base : Nat) : Nat → Nat → List Char → Except PfFault (Nat × List Char)
  | 0, _, _ => .error .buffer
  | x + 1, xnum, buf =>
    let buf := buf.set x (pfDigits.getD (xnum % base) '\x00')
    if 0 < xnum / base then pfConvert base x (xnum / base) buf else .ok (x, buf)

/-- The text `__pf_printnum` makes of a number, in a buffer that holds anything. -/
def pfNumber (base : Nat) (num : BitVec 64) : Except PfFault (List Char) := do
  let buf := (List.replicate numberBufSize ' ').set (numberBufSize - 1) '\x00'
  let (x, buf) ← pfConvert base (numberBufSize - 1) num.toNat buf
  pure (cstr (buf.drop x))

/-! ## A session -/

section Session

variable {γ : Type} (sendfunc : γ → List Char → γ)

/-- `__pf_print`. -/
def pfPrint (pf : Pf γ) (txt : List Char) : Pf γ :=
  { pf with
    clientdata := sendfunc pf.clientdata txt
    charcount := pf.charcount + BitVec.ofNat 32 txt.length }

/-- `__pf_endfield`. -/
def pfEndfield (pf : Pf γ) : Pf γ := { pf with toPfField := {} }

/-- `__pf_fill`, with as many turns as its loop makes. -/
def pfFill : Nat → Pf γ → Pf γ
  | 0, pf => pf
  | spc + 1, pf => pfFill spc (pfPrint sendfunc pf [pf.fillchar])

/-- `__pf_printstuff`. -/
def pfPrintstuff (pf : Pf γ) (pre pre2 stuff : List Char) : Pf γ :=
  let spc := pfSpc pf.toPfField (BitVec.ofNat 32 (pre.length + pre2.length + stuff.length))
  let fill := pfFill sendfunc spc.toInt.toNat
  let pf := if BitVec.slt 0#32 spc ∧ pf.rightspc = false ∧ pf.fillchar ≠ '0' then fill pf else pf
  let pf := pfPrint sendfunc (pfPrint sendfunc pf pre) pre2
  let pf := if BitVec.slt 0#32 spc ∧ pf.rightspc = false ∧ pf.fillchar = '0' then fill pf else pf
  let pf := pfPrint sendfunc pf stuff
  if BitVec.slt 0#32 spc ∧ pf.rightspc = true then fill pf else pf

/-- The base prefix of `__pf_printnum`. -/
def pfBpfx (f : PfField) : List Char :=
  if f.basepfx ∧ f.base = 16 then ['0', 'x']
  else if f.basepfx ∧ f.base = 8 then ['0']
  else []

/-- `__pf_printnum`. -/
def pfPrintnum (pf : Pf γ) : Except PfFault (Pf γ) := do
  let stuff ← pfNumber pf.base pf.num
  let spfx := if pf.sign then ['-'] else []
  pure (pfPrintstuff sendfunc pf spfx (pfBpfx pf.toPfField) stuff)

/-- `__pf_send`. -/
def pfSend (pf : Pf γ) (ch : Char) : Except PfFault (Pf γ) := do
  if ch = '\x00' then throw .assertion
  if pf.inPct = false ∧ ch ≠ '%' then pure (pfPrint sendfunc pf [ch])
  else if pf.inPct = false then pure { pf with inPct := true }
  else if ch ∈ ['#', '-', 'l', '0', '1', '2', '3', '4', '5', '6', '7', '8', '9'] then
    let f ← pfModifier pf.toPfField ch
    pure { pf with toPfField := f }
  else if ch ∈ ['d', 'o', 'u', 'p', 'x'] then
    let (f, ap) ← pfGetnum pf.toPfField pf.ap ch
    let pf ← pfPrintnum sendfunc { pf with toPfField := pfSetbase f ch, ap := ap }
    pure (pfEndfield pf)
  else if ch = 's' then
    let (str, ap) ← vaWord pf.ap
    if str = 0 then
      pure (pfEndfield (pfPrintstuff sendfunc { pf with ap := ap } [] [] ['(', 'n', 'u', 'l', 'l', ')']))
    else
      let (text, memory) ← fetchString str pf.memory
      pure (pfEndfield (pfPrintstuff sendfunc { pf with ap := ap, memory := memory } [] [] text))
  else if ch = 'c' then
    let (n, ap) ← vaWord pf.ap
    let x := cstr [Char.ofUInt8 (UInt8.ofBitVec (n.setWidth 8))]
    pure (pfEndfield (pfPrintstuff sendfunc { pf with ap := ap } [] [] x))
  else pure (pfEndfield (pfPrintstuff sendfunc pf [] [] [ch]))

/-- `__vprintf`: the state at the end; its `charcount` is what is returned. -/
def vprintf (clientdata : γ) (format : List Char) (ap : List VaArg) (memory : Memory) : Except PfFault (Pf γ) :=
  format.foldlM (pfSend sendfunc) { clientdata := clientdata, ap := ap, charcount := 0#32, memory := memory }

end Session

/-- The callback that keeps all it is sent. -/
def gather (sent txt : List Char) : List Char := sent ++ txt

end Os161.Kern

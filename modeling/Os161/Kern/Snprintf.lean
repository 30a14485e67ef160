import Os161.Kern.Printf

/-!
# Printing into a buffer

`common/libc/printf/snprintf.c`. The buffer has no byte of the format or of a string argument, so what is stored in it
is not read again: the memory it is in is kept apart from the one strings are read from.
-/

namespace Os161.Kern

/-- `SNP`, and the memory the buffer is in. -/
structure Snp where
  buf : Word
  buflen : Word
  bufpos : Word
  memory : Memory

/-- A turn of the loop of `__snprintf_send`. -/
def snprintfSendChar (snp : Snp) (ch : Char) : Snp :=
  if snp.bufpos < snp.buflen then
    { snp with memory := snp.memory.store (snp.buf + snp.bufpos) ch.toUInt8, bufpos := snp.bufpos + 1#32 }
  else snp

/-- `__snprintf_send`. -/
def snprintfSend (snp : Snp) (data : List Char) : Snp := data.foldl snprintfSendChar snp

/-- `vsnprintf`: what it returns, and the memory the buffer is in. -/
def vsnprintf (buf len : Word) (fmt : List Char) (ap : List VaArg) (strings memory : Memory) :
    Except PfFault (Word × Memory) := do
  let snp := { buf := buf, buflen := if len = 0#32 then 0#32 else len - 1#32, bufpos := 0#32, memory := memory }
  let pf ← vprintf snprintfSend snp fmt ap strings
  let snp := pf.clientdata
  if 0#32 < len then pure (pf.charcount, snp.memory.store (snp.buf + snp.bufpos) 0)
  else pure (pf.charcount, snp.memory)

end Os161.Kern

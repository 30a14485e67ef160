import Mathlib.Logic.Function.Basic
import Mathlib.Logic.Relation

/-!
# Console input

`getch_intr` and `con_input` of `kern/dev/generic/console.c`, with one reader. A step is one access to what the two
share, so that the reader may come in between any two statements of `con_input`. `P` and `V` are the decrement and
the increment of `sem_count` under the semaphore's lock.
-/

namespace Os161.Kern

/-- `CONSOLE_INPUT_BUFFER_SIZE`. -/
abbrev consoleInputBufferSize : Nat := 32

/-- Where the reader stands in `getch_intr`: outside, past `P`, and with the character. -/
inductive GetchPc where
  | outside
  | took
  | got (ret : BitVec 8)

/-- Where `con_input` stands: outside, at the store of the character, at the new head, and at `V`. -/
inductive InputPc where
  | outside
  | store (ch : BitVec 8) (nexthead : Nat)
  | advance (ch : BitVec 8) (nexthead : Nat)
  | signal

/-- The input side of `struct con_softc`. `accepted` are the characters that `con_input` has entered, `returned`
those that `getch_intr` has returned, the first first. -/
structure Console where
  rsem : Nat
  gotchars : Nat → BitVec 8
  head : Nat
  tail : Nat
  getch : GetchPc
  input : InputPc
  accepted : List (BitVec 8)
  returned : List (BitVec 8)

/-- What happens in a step: `con_input` drops a character, or something else. -/
inductive ConsoleEvent where
  | dropped
  | other

/-- A step. -/
inductive ConsoleStep : Console → ConsoleEvent → Console → Prop
  | wait {s : Console} (hpc : s.getch = .outside) (hsem : 0 < s.rsem) :
      ConsoleStep s .other { s with rsem := s.rsem - 1, getch := .took }
  | take {s : Console} (hpc : s.getch = .took) :
      ConsoleStep s .other { s with getch := .got (s.gotchars s.tail) }
  | giveBack {s : Console} {ret : BitVec 8} (hpc : s.getch = .got ret) :
      ConsoleStep s .other
        { s with
          tail := (s.tail + 1) % consoleInputBufferSize
          getch := .outside
          returned := s.returned ++ [ret] }
  | drop {s : Console} (hpc : s.input = .outside) (hfull : (s.head + 1) % consoleInputBufferSize = s.tail) :
      ConsoleStep s .dropped s
  | enter {s : Console} (ch : BitVec 32) (hpc : s.input = .outside)
      (hroom : (s.head + 1) % consoleInputBufferSize ≠ s.tail) :
      ConsoleStep s .other
        { s with input := .store (ch.setWidth 8) ((s.head + 1) % consoleInputBufferSize) }
  | store {s : Console} {ch : BitVec 8} {nexthead : Nat} (hpc : s.input = .store ch nexthead) :
      ConsoleStep s .other
        { s with gotchars := Function.update s.gotchars s.head ch, input := .advance ch nexthead }
  | advance {s : Console} {ch : BitVec 8} {nexthead : Nat} (hpc : s.input = .advance ch nexthead) :
      ConsoleStep s .other { s with head := nexthead, input := .signal, accepted := s.accepted ++ [ch] }
  | signal {s : Console} (hpc : s.input = .signal) :
      ConsoleStep s .other { s with rsem := s.rsem + 1, input := .outside }

/-- The console as it is set up, with anything in the ring. -/
def initConsole (gotchars : Nat → BitVec 8) : Console where
  rsem := 0
  gotchars := gotchars
  head := 0
  tail := 0
  getch := .outside
  input := .outside
  accepted := []
  returned := []

/-- The states the console comes to. -/
def ConsoleReach : Console → Console → Prop := Relation.ReflTransGen fun s s' => ∃ e, ConsoleStep s e s'

end Os161.Kern

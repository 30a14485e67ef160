import Os161.Kern.Console
import Os161.Lib.Ring

/-!
# Console input is a queue

The characters entered and not yet returned stand in the ring from its tail to its head. The semaphore counts them,
except for the one the reader has taken and the one `con_input` has yet to signal. Both indices and the count are
changed at different times; what ties them together is the length of that list.
-/

namespace Os161.Kern

open Os161.Lib

variable {s s' : Console} {l : List (BitVec 8)} {e : ConsoleEvent}

/-- The number of readers between `P` and the new tail. -/
def GetchPc.readers : GetchPc → Nat
  | .outside => 0
  | _ => 1

/-- The number of characters entered and not yet signalled. -/
def InputPc.unsignalled : InputPc → Nat
  | .signal => 1
  | _ => 0

/-- `l` is what has been entered and not returned. -/
structure Console.Holds (s : Console) (l : List (BitVec 8)) : Prop where
  accepted : s.accepted = s.returned ++ l
  window : Window consoleInputBufferSize s.gotchars s.tail l
  head : s.head = (s.tail + l.length) % consoleInputBufferSize
  tail : s.tail < consoleInputBufferSize
  short : l.length < consoleInputBufferSize
  count : s.rsem + s.getch.readers + s.input.unsignalled = l.length
  got : ∀ ret, s.getch = .got ret → l.head? = some ret
  store : ∀ ch nexthead, s.input = .store ch nexthead →
    nexthead = (s.head + 1) % consoleInputBufferSize ∧ l.length + 1 < consoleInputBufferSize
  advance : ∀ ch nexthead, s.input = .advance ch nexthead →
    (nexthead = (s.head + 1) % consoleInputBufferSize ∧ l.length + 1 < consoleInputBufferSize) ∧
      s.gotchars s.head = ch

theorem Console.Holds.full_iff (h : s.Holds l) :
    (s.head + 1) % consoleInputBufferSize = s.tail ↔ l.length + 1 = consoleInputBufferSize := by
  have hhead := h.head
  have htail := h.tail
  have hshort := h.short
  simp only [consoleInputBufferSize] at *
  omega

theorem Console.Holds.nonempty (h : s.Holds l) (hpc : s.getch ≠ .outside) : ∃ c l', l = c :: l' := by
  have hcount := h.count
  have hone : s.getch.readers = 1 := by
    cases hgetch : s.getch with
    | outside => exact absurd hgetch hpc
    | took | got => rfl
  cases l with
  | nil =>
    rw [hone] at hcount
    simp at hcount
  | cons c l' => exact ⟨c, l', rfl⟩

theorem Console.Holds.step (h : s.Holds l) (hstep : ConsoleStep s e s') : ∃ l', s'.Holds l' := by
  have hcount := h.count
  cases hstep with
  | wait hpc hsem =>
    rw [hpc] at hcount
    refine ⟨l, { h with count := ?_, got := nofun }⟩
    change s.rsem + 0 + _ = _ at hcount
    show s.rsem - 1 + 1 + s.input.unsignalled = _
    omega
  | take hpc =>
    obtain ⟨c, l', rfl⟩ := h.nonempty (by rw [hpc]; nofun)
    rw [hpc] at hcount
    refine ⟨c :: l', { h with count := hcount, got := fun ret hret => ?_ }⟩
    have hfront := h.window.front
    rw [Nat.mod_eq_of_lt h.tail] at hfront
    cases hret
    rw [hfront]
    rfl
  | @giveBack ret hpc =>
    obtain ⟨c, l', rfl⟩ := h.nonempty (by rw [hpc]; nofun)
    have hret := h.got ret hpc
    cases hret
    rw [hpc] at hcount
    change s.rsem + 1 + _ = l'.length + 1 at hcount
    have hhead := h.head
    have hshort := h.short
    simp only [List.length_cons, consoleInputBufferSize] at hhead hshort
    refine ⟨l', ?_, h.window.pop, ?_, Nat.mod_lt _ (by decide), ?_, ?_, nofun, fun ch nexthead hin => ?_,
      fun ch nexthead hin => ?_⟩
    · show s.accepted = s.returned ++ [ret] ++ l'
      rw [h.accepted, List.append_assoc]
      rfl
    · show s.head = ((s.tail + 1) % 32 + l'.length) % 32
      omega
    · show l'.length < 32
      omega
    · show s.rsem + 0 + s.input.unsignalled = l'.length
      omega
    · obtain ⟨hnext, hlen⟩ := h.store ch nexthead hin
      exact ⟨hnext, Nat.lt_of_succ_lt hlen⟩
    · obtain ⟨⟨hnext, hlen⟩, hstored⟩ := h.advance ch nexthead hin
      exact ⟨⟨hnext, Nat.lt_of_succ_lt hlen⟩, hstored⟩
  | drop hpc hfull => exact ⟨l, h⟩
  | enter ch hpc hroom =>
    rw [hpc] at hcount
    refine ⟨l, { h with count := hcount, store := fun ch' nexthead hin => ?_, advance := nofun }⟩
    cases hin
    have hne := h.full_iff.not.mp hroom
    have hshort := h.short
    exact ⟨rfl, by simp only [consoleInputBufferSize] at *; omega⟩
  | @store ch nexthead hpc =>
    rw [hpc] at hcount
    obtain ⟨hnext, hlen⟩ := h.store ch nexthead hpc
    refine ⟨l, { h with window := ?_, count := hcount, store := nofun, advance := fun ch' nexthead' hin => ?_ }⟩
    · show Window _ (Function.update s.gotchars s.head ch) _ _
      rw [h.head]
      exact h.window.update h.short ch
    · cases hin
      exact ⟨⟨hnext, hlen⟩, Function.update_self ..⟩
  | @advance ch nexthead hpc =>
    rw [hpc] at hcount
    obtain ⟨⟨hnext, hlen⟩, hstored⟩ := h.advance ch nexthead hpc
    have hhead := h.head
    rw [hhead] at hstored
    refine ⟨l ++ [ch], ?_, h.window.push hstored, ?_, h.tail, ?_, ?_, fun ret hret => ?_, nofun, nofun⟩
    · show s.accepted ++ [ch] = s.returned ++ (l ++ [ch])
      rw [h.accepted, List.append_assoc]
    · show nexthead = _
      rw [hnext, hhead, List.length_append, List.length_singleton, Nat.mod_add_mod, Nat.add_assoc]
    · rw [List.length_append, List.length_singleton]
      exact hlen
    · rw [List.length_append, List.length_singleton]
      show s.rsem + s.getch.readers + 1 = _
      change s.rsem + s.getch.readers + 0 = _ at hcount
      omega
    · rw [List.head?_append, h.got ret hret]
      rfl
  | signal hpc =>
    rw [hpc] at hcount
    refine ⟨l, { h with count := ?_, store := nofun, advance := nofun }⟩
    show s.rsem + 1 + s.getch.readers + 0 = _
    change s.rsem + s.getch.readers + 1 = _ at hcount
    omega

theorem ConsoleReach.holds {gotchars : Nat → BitVec 8} (h : ConsoleReach (initConsole gotchars) s) :
    ∃ l, s.Holds l := by
  induction h with
  | refl =>
    exact ⟨[], rfl, .nil, rfl, Nat.succ_pos _, Nat.succ_pos _, rfl, nofun, nofun, nofun⟩
  | tail _ hstep ih =>
    obtain ⟨e, hstep⟩ := hstep
    obtain ⟨l, hl⟩ := ih
    exact hl.step hstep

/-- In every state of every run: what `getch` has returned are the first of the characters entered, in order, and
the one it has in hand is the next. A character is dropped only if 31 have been entered and not returned. And
between calls of `con_input` the semaphore and the readers past it account for the cells from tail to head. -/
theorem console_input_fifo {gotchars : Nat → BitVec 8} (h : ConsoleReach (initConsole gotchars) s) :
    s.returned <+: s.accepted ∧
    (∀ ret, s.getch = .got ret → s.returned ++ [ret] <+: s.accepted) ∧
    (∀ s', ConsoleStep s .dropped s' → s.accepted.length = s.returned.length + 31) ∧
    (s.input = .outside →
      ((s.rsem + s.getch.readers : Nat) : Int) = ((s.head : Int) - s.tail) % consoleInputBufferSize) := by
  obtain ⟨l, hl⟩ := h.holds
  have haccepted := hl.accepted
  refine ⟨⟨l, haccepted.symm⟩, fun ret hret => ?_, fun s' hstep => ?_, fun hin => ?_⟩
  · obtain ⟨l', rfl⟩ := List.head?_eq_some_iff.mp (hl.got ret hret)
    exact ⟨l', by rw [haccepted, List.append_assoc]; rfl⟩
  · cases hstep with
    | drop hpc hfull =>
      have hlen := hl.full_iff.mp hfull
      rw [haccepted, List.length_append]
      simp only [consoleInputBufferSize] at hlen
      omega
  · have hcount := hl.count
    have hhead := hl.head
    have htail := hl.tail
    have hshort := hl.short
    rw [hin] at hcount
    change s.rsem + s.getch.readers + 0 = _ at hcount
    simp only [consoleInputBufferSize] at *
    omega

/-- A character comes in while another one is being read. -/
theorem console_input_two :
    ∃ s : Console, ConsoleReach (initConsole fun _ => 0) s ∧ s.returned = [97] ∧ s.accepted = [97, 98] ∧
      s.returned <+: s.accepted ∧
      ((s.rsem + s.getch.readers : Nat) : Int) = ((s.head : Int) - s.tail) % consoleInputBufferSize := by
  have h₀ : ConsoleReach (initConsole fun _ => 0) (initConsole fun _ => 0) := .refl
  have h₁ := h₀.tail ⟨_, .enter 97 rfl (by decide)⟩
  have h₂ := h₁.tail ⟨_, .store rfl⟩
  have h₃ := h₂.tail ⟨_, .advance rfl⟩
  have h₄ := h₃.tail ⟨_, .signal rfl⟩
  have h₅ := h₄.tail ⟨_, .wait rfl (by decide)⟩
  have h₆ := h₅.tail ⟨_, .enter 98 rfl (by decide)⟩
  have h₇ := h₆.tail ⟨_, .store rfl⟩
  have h₈ := h₇.tail ⟨_, .take rfl⟩
  have h₉ := h₈.tail ⟨_, .advance rfl⟩
  have h₁₀ := h₉.tail ⟨_, .signal rfl⟩
  have h₁₁ := h₁₀.tail ⟨_, .giveBack rfl⟩
  have hfifo := console_input_fifo h₁₁
  exact ⟨_, h₁₁, rfl, rfl, hfifo.1, hfifo.2.2.2 rfl⟩

end Os161.Kern

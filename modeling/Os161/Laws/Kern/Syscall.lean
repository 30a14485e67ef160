import Os161.Kern.Syscall
import Os161.Laws.Kern.Number

/-!
# What the printing calls disclose

`PrintInt` reads no memory. `PrintString` prints the string at its first argument up to the NUL, wherever that is,
and does not look at the number of characters. So it keeps to what the caller passed only if there is a NUL among
these bytes, below the top of user space. Otherwise it reads on behind them; and if it gets to kernel memory, what
it prints depends on it.
-/

namespace Os161.Kern

open Os161.Lib
open Os161.Vm (userspaceTop)

/-! ## Strings in memory -/

variable {a : Word} {m : Memory} {len : Nat}
variable {n ret : Nat} {m' : Memory} {text : List Char}

/-- The string at `a` has `len` characters. -/
def StringAt (cells : Word → UInt8) (a : Word) (len : Nat) : Prop :=
  (∀ i < len, cells (offset a i) ≠ 0) ∧ cells (offset a len) = 0

theorem strlenLoop_ok (hbefore : ∀ i < len, m.cells (offset a i) ≠ 0)
    (hend : m.cells (offset a len) = 0) (hret : ret ≤ len) (hn : len < ret + n) :
    ∃ m', strlenLoop a n ret m = .ok (len, m') ∧ m'.cells = m.cells ∧
      ∀ x, x ∈ m'.reads ↔ x ∈ m.reads ∨ ∃ i, ret ≤ i ∧ i ≤ len ∧ offset a i = x := by
  induction n generalizing ret m with
  | zero => omega
  | succ n ih =>
    rw [strlenLoop]
    by_cases hzero : m.cells (offset a ret) = 0
    · have heq : ret = len := by
        by_contra hne
        exact hbefore ret (by omega) hzero
      subst heq
      refine ⟨_, if_pos hzero, rfl, fun x => ?_⟩
      rw [Flat.reads_look, List.mem_cons, or_comm]
      refine or_congr Iff.rfl ⟨fun h => ⟨ret, Nat.le_refl _, Nat.le_refl _, h.symm⟩, ?_⟩
      rintro ⟨i, hle, hge, rfl⟩
      rw [Nat.le_antisymm hge hle]
    · have hlt : ret < len := Nat.lt_of_le_of_ne hret fun heq => hzero (heq ▸ hend)
      obtain ⟨m', hrun, hcells, hreads⟩ := ih (m := m.look (offset a ret)) hbefore hend hlt (by omega)
      refine ⟨m', (if_neg hzero).trans hrun, hcells, fun x => ?_⟩
      rw [hreads, Flat.reads_look, List.mem_cons]
      constructor
      · rintro ((rfl | hold) | ⟨i, hle, hge, rfl⟩)
        · exact .inr ⟨ret, Nat.le_refl _, hret, rfl⟩
        · exact .inl hold
        · exact .inr ⟨i, by omega, hge, rfl⟩
      · rintro (hold | ⟨i, hle, hge, rfl⟩)
        · exact .inl (.inr hold)
        · rcases Nat.eq_or_lt_of_le hle with rfl | hlt'
          · exact .inl (.inl rfl)
          · exact .inr ⟨i, hlt', hge, rfl⟩

theorem strlenLoop_eq_ok (h : strlenLoop a n ret m = .ok (len, m')) :
    ret ≤ len ∧ (∀ i, ret ≤ i → i < len → m.cells (offset a i) ≠ 0) ∧ m.cells (offset a len) = 0 := by
  induction n generalizing ret m with
  | zero => cases h
  | succ n ih =>
    rw [strlenLoop] at h
    split at h
    · rename_i hzero
      cases h
      exact ⟨Nat.le_refl _, fun i hle hlt => absurd hlt (by omega), hzero⟩
    · rename_i hzero
      obtain ⟨hle, hbefore, hend⟩ := ih h
      refine ⟨by omega, fun i hge hlt => ?_, hend⟩
      rcases Nat.eq_or_lt_of_le hge with rfl | hgt
      · exact hzero
      · exact hbefore i hgt hlt

/-- The characters of a string. -/
def textAt (cells : Word → UInt8) (a : Word) (len : Nat) : List Char :=
  (span a len).map fun x => Char.ofUInt8 (cells x)

theorem length_textAt (cells : Word → UInt8) (a : Word) (len : Nat) : (textAt cells a len).length = len := by
  rw [textAt, List.length_map, length_span]

theorem fetchString_ok (h : StringAt m.cells a len) (hlen : len < 2 ^ 32) :
    ∃ m', fetchString a m = .ok (textAt m.cells a len, m') ∧
      ∀ x, x ∈ m'.reads ↔ x ∈ m.reads ∨ x ∈ span a (len + 1) := by
  obtain ⟨m', hrun, hcells, hreads⟩ := strlenLoop_ok h.1 h.2 (Nat.zero_le _) (show len < 0 + 2 ^ 32 by omega)
  refine ⟨m', ?_, fun x => ?_⟩
  · rw [fetchString, strlen, hrun, ← hcells]
    rfl
  · rw [hreads, mem_span]
    refine or_congr Iff.rfl ⟨?_, ?_⟩
    · rintro ⟨i, -, hle, rfl⟩
      exact ⟨i, Nat.lt_succ_of_le hle, rfl⟩
    · rintro ⟨i, hlt, rfl⟩
      exact ⟨i, Nat.zero_le _, Nat.le_of_lt_succ hlt, rfl⟩

theorem fetchString_eq_ok (h : fetchString a m = .ok (text, m')) :
    StringAt m.cells a text.length := by
  rw [fetchString] at h
  cases hlen : strlen a m with
  | error e =>
    rw [hlen] at h
    cases h
  | ok r =>
    obtain ⟨len, m₁⟩ := r
    rw [hlen] at h
    cases h
    obtain ⟨-, hbefore, hend⟩ := strlenLoop_eq_ok hlen
    rw [List.length_map, length_span]
    exact ⟨fun i hi => hbefore i (Nat.zero_le _) hi, hend⟩

/-! ## What is printed -/

/-- What `"%s\n"` prints for a string. -/
def lineOf (text : List Char) : List Char := padded { inPct := true } [] [] text ++ ['\n']

theorem length_lineOf (text : List Char) :
    (lineOf text).length = text.length + pfPadding { inPct := true } text.length + 1 := by
  have hlength := length_padded { inPct := true } [] [] text
  simp only [List.length_nil, Nat.zero_add] at hlength
  rw [lineOf, List.length_append, hlength]
  rfl

theorem length_lineOf_of_lt (h : text.length < 2 ^ 31) :
    (lineOf text).length = text.length + 1 := by
  have hzero : (({ inPct := true } : PfField).spacing.toInt - text.length).toNat = 0 := by
    change ((0 : Int) - text.length).toNat = 0
    omega
  rw [length_lineOf, pfPadding_eq _ h, hzero, Nat.add_zero]

variable {k : Kernel} {c numchars : Word}

/-- A session of `kprintf` inside its first directive. -/
def openDirective (k : Kernel) (ap : List VaArg) : Pf (List Char) :=
  { inPct := true, clientdata := k.console, ap := ap, charcount := 0#32, memory := k.memory }

theorem printstring_steps (c numchars : Word) (k : Kernel) : printstring c numchars k = (do
    let pf ← pfSend gather (openDirective k [.word c]) 's'
    let pf ← pfSend gather pf '\n'
    pure (pf.charcount, { memory := pf.memory, console := pf.clientdata })) := by
  rw [printstring, kprintf, vprintf, List.foldlM_cons]
  change ((pfSend gather (openDirective k [.word c]) 's' >>= fun pf => pfSend gather pf '\n' >>= pure) >>= _) = _
  simp only [bind_assoc, pure_bind]

theorem finish_line (k : Kernel) (text : List Char) (memory : Memory) :
    (do
      let pf ← pfSend gather (pfEndfield (pfPrint gather { openDirective k [] with memory := memory }
        (padded { inPct := true } [] [] text))) '\n'
      pure (pf.charcount, { memory := pf.memory, console := pf.clientdata }) : Except PfFault (Word × Kernel)) =
    .ok (BitVec.ofNat 32 (lineOf text).length, { memory := memory, console := k.console ++ lineOf text }) := by
  change Except.ok (0#32 + BitVec.ofNat 32 (padded { inPct := true } [] [] text).length + BitVec.ofNat 32 1, _) = _
  rw [BitVec.zero_add, ← BitVec.ofNat_add, lineOf, List.length_append, ← List.append_assoc]
  rfl

/-- The text for a null pointer. -/
abbrev nullText : List Char := ['(', 'n', 'u', 'l', 'l', ')']

theorem printstring_null (numchars : Word) (k : Kernel) : printstring 0 numchars k =
    .ok (BitVec.ofNat 32 (lineOf nullText).length,
      { memory := k.memory, console := k.console ++ lineOf nullText }) := by
  rw [printstring_steps, pfSend_string rfl rfl, if_pos rfl]
  exact finish_line k nullText k.memory

theorem printstring_eq (hc : c ≠ 0) (numchars : Word) (k : Kernel) :
    printstring c numchars k = (fetchString c k.memory).map fun r =>
      (BitVec.ofNat 32 (lineOf r.1).length, { memory := r.2, console := k.console ++ lineOf r.1 }) := by
  rw [printstring_steps, pfSend_string rfl rfl, if_neg hc]
  change ((fetchString c k.memory).map _ >>= _) = _
  cases fetchString c k.memory with
  | error e => rfl
  | ok r => exact finish_line k r.1 r.2

theorem printint_eq (n : Word) : ∃ text : List Char, ∀ k : Kernel, printint n k =
    .ok (BitVec.ofNat 32 text.length, { memory := k.memory, console := k.console ++ text }) := by
  have htakes : Directive.Takes ⟨[], 0, 0, .d⟩ (.word n) := Or.inr (by decide)
  obtain ⟨f, -, hrun⟩ := vprintf_directive htakes
  generalize padded f _ _ _ = text at hrun
  refine ⟨text, fun k => ?_⟩
  rw [printint, kprintf]
  change (vprintf gather k.console (Directive.format ⟨[], 0, 0, .d⟩) [.word n] k.memory >>= _) = _
  rw [hrun]
  change Except.ok (0#32 + BitVec.ofNat 32 text.length, _) = _
  rw [BitVec.zero_add]
  rfl

/-! ## What is disclosed -/

section Disclosure

variable (others : Trapframe → Kernel → Except PfFault (Word × Kernel)) {tf : Trapframe} {cells : Word → UInt8}
  {console : List Char}
variable {i : Nat}

/-- The kernel at the start of a call, with nothing read yet. -/
def Kernel.start (cells : Word → UInt8) (console : List Char) : Kernel :=
  { memory := { cells := cells, reads := [], writes := [] }, console := console }

/-- What a call shows: the registers it returns, and the console. -/
def seen (r : Except PfFault (Trapframe × Kernel)) : Except PfFault (Trapframe × List Char) :=
  r.map fun r => (r.1, r.2.console)

/-- A call shows nothing of kernel memory, and reads no user memory but the bytes passed to it. -/
def Discreet (tf : Trapframe) (cells : Word → UInt8) (console : List Char) : Prop :=
  (∀ cells', (∀ x < userspaceTop, cells' x = cells x) →
    seen (syscall others tf (.start cells' console)) = seen (syscall others tf (.start cells console))) ∧
  ∀ tf' k, syscall others tf (.start cells console) = .ok (tf', k) →
    ∀ x ∈ k.memory.reads, x < userspaceTop → x ∈ span tf.a0 tf.a1.toInt.toNat

theorem syscall_printInt (hcall : tf.v0 = sysPrintInt) (k : Kernel) :
    syscall others tf k = (printint tf.a0 k).map fun r => (tf.finish r.1, r.2) := by
  rw [syscall, dispatch, if_pos hcall]
  cases printint tf.a0 k <;> rfl

theorem syscall_printString (hcall : tf.v0 = sysPrintString) (k : Kernel) :
    syscall others tf k = (printstring tf.a0 tf.a1 k).map fun r => (tf.finish r.1, r.2) := by
  have hne : tf.v0 ≠ sysPrintInt := by
    rw [hcall]
    decide
  rw [syscall, dispatch, if_neg hne, if_pos hcall]
  cases printstring tf.a0 tf.a1 k <;> rfl

theorem printInt_discreet (hcall : tf.v0 = sysPrintInt) : Discreet others tf cells console := by
  obtain ⟨text, hrun⟩ := printint_eq tf.a0
  refine ⟨fun cells' _ => ?_, fun tf' k hok x hx => ?_⟩
  · rw [syscall_printInt others hcall, syscall_printInt others hcall, hrun, hrun]
    rfl
  · rw [syscall_printInt others hcall, hrun] at hok
    cases hok
    cases hx

theorem printString_null_discreet (hcall : tf.v0 = sysPrintString) (hnull : tf.a0 = 0) :
    Discreet others tf cells console := by
  refine ⟨fun cells' _ => ?_, fun tf' k hok x hx => ?_⟩
  · rw [syscall_printString others hcall, syscall_printString others hcall, hnull, printstring_null,
      printstring_null]
    rfl
  · rw [syscall_printString others hcall, hnull, printstring_null] at hok
    cases hok
    cases hx

theorem syscall_of_stringAt (console : List Char) (hcall : tf.v0 = sysPrintString) (hnull : tf.a0 ≠ 0)
    (hstring : StringAt cells tf.a0 len) (hlen : len < 2 ^ 32) : ∃ memory : Memory,
    syscall others tf (.start cells console) =
      .ok (tf.finish (BitVec.ofNat 32 (lineOf (textAt cells tf.a0 len)).length),
        { memory := memory, console := console ++ lineOf (textAt cells tf.a0 len) }) ∧
    ∀ x, x ∈ memory.reads ↔ x ∈ span tf.a0 (len + 1) := by
  obtain ⟨memory, hfetch, hreads⟩ := fetchString_ok (m := (Kernel.start cells console).memory) hstring hlen
  refine ⟨memory, ?_, fun x => (hreads x).trans (or_iff_right List.not_mem_nil)⟩
  rw [syscall_printString others hcall, printstring_eq hnull, hfetch]
  rfl

theorem exists_stringAt (hzero : cells (offset a i) = 0) : ∃ len ≤ i, StringAt cells a len := by
  classical
  have hex : ∃ i, cells (offset a i) = 0 := ⟨i, hzero⟩
  exact ⟨Nat.find hex, Nat.find_le hzero, fun j hj => Nat.find_min hex hj, Nat.find_spec hex⟩

theorem printString_discreet (hcall : tf.v0 = sysPrintString) (hnull : tf.a0 ≠ 0)
    (hi : i < tf.a1.toInt.toNat) (htop : tf.a0.toNat + i < userspaceTop.toNat)
    (hzero : cells (offset tf.a0 i) = 0) : Discreet others tf cells console := by
  obtain ⟨len, hle, hstring⟩ := exists_stringAt hzero
  have hlen : len < 2 ^ 32 := by
    change _ < 0x80000000 at htop
    omega
  -- The whole string is below the top of user space.
  have huser : ∀ j ≤ len, offset tf.a0 j < userspaceTop := by
    intro j hj
    change _ < 0x80000000 at htop
    rw [BitVec.lt_def, toNat_offset (by omega)]
    change _ < 0x80000000
    omega
  refine ⟨fun cells' hsame => ?_, fun tf' k hok x hx _ => ?_⟩
  · have hstring' : StringAt cells' tf.a0 len :=
      ⟨fun j hj => by rw [hsame _ (huser j hj.le)]; exact hstring.1 j hj,
        by rw [hsame _ (huser len (Nat.le_refl _))]; exact hstring.2⟩
    have htext : textAt cells' tf.a0 len = textAt cells tf.a0 len := by
      refine List.map_congr_left fun x hx => ?_
      obtain ⟨j, hj, rfl⟩ := mem_span.mp hx
      rw [hsame _ (huser j hj.le)]
    obtain ⟨memory, hrun, -⟩ := syscall_of_stringAt others console hcall hnull hstring hlen
    obtain ⟨memory', hrun', -⟩ := syscall_of_stringAt others console hcall hnull hstring' hlen
    rw [hrun, hrun', htext]
    rfl
  · obtain ⟨memory, hrun, hreads⟩ := syscall_of_stringAt others console hcall hnull hstring hlen
    obtain ⟨-, rfl⟩ := Prod.mk.inj (Except.ok.inj (hrun.symm.trans hok))
    obtain ⟨j, hj, rfl⟩ := mem_span.mp ((hreads x).mp hx)
    exact mem_span.mpr ⟨j, by omega, rfl⟩

theorem exists_stringAt_of_seen (hcall : tf.v0 = sysPrintString) (hnull : tf.a0 ≠ 0) {tf' : Trapframe}
    {sent : List Char} (h : seen (syscall others tf (.start cells console)) = .ok (tf', sent)) :
    ∃ text, StringAt cells tf.a0 text.length ∧ sent = console ++ lineOf text := by
  rw [syscall_printString others hcall, printstring_eq hnull] at h
  cases hfetch : fetchString tf.a0 (Kernel.start cells console).memory with
  | error e =>
    rw [hfetch] at h
    cases h
  | ok r =>
    obtain ⟨text, memory⟩ := r
    rw [hfetch] at h
    obtain ⟨-, hsent⟩ := Prod.mk.inj (Except.ok.inj h)
    exact ⟨text, fetchString_eq_ok hfetch, hsent.symm⟩

theorem exists_nul_of_hidden (hcall : tf.v0 = sysPrintString) (hnull : tf.a0 ≠ 0)
    (hhidden : ∀ cells', (∀ x < userspaceTop, cells' x = cells x) →
      seen (syscall others tf (.start cells' console)) = seen (syscall others tf (.start cells console))) :
    ∃ i, tf.a0.toNat + i < userspaceTop.toNat ∧ cells (offset tf.a0 i) = 0 := by
  by_contra hnone
  push Not at hnone
  change ∀ i, tf.a0.toNat + i < 0x80000000 → _ at hnone
  have hpos : tf.a0.toNat ≠ 0 := fun hzero => hnull (BitVec.eq_of_toNat_eq hzero)
  -- The first byte that is not in user space decides whether the string ends there.
  obtain ⟨n, hn⟩ : ∃ n, n = 0x80000000 - tf.a0.toNat := ⟨_, rfl⟩
  have hfirst : ¬ offset tf.a0 n < userspaceTop := by
    have hlt := tf.a0.isLt
    rw [BitVec.lt_def, toNat_offset (by omega)]
    change ¬ _ < 0x80000000
    omega
  have hagree : ∀ b x, x < userspaceTop → Function.update cells (offset tf.a0 n) b x = cells x := by
    intro b x hx
    have hne : x ≠ offset tf.a0 n := fun heq => hfirst (heq ▸ hx)
    rw [Function.update_of_ne hne]
  have hbefore : ∀ b, ∀ i < n, Function.update cells (offset tf.a0 n) b (offset tf.a0 i) ≠ 0 := by
    intro b i hi
    have hne : offset tf.a0 i ≠ offset tf.a0 n := fun heq => by
      have := offset_inj (by omega) (by omega) heq
      omega
    rw [Function.update_of_ne hne]
    exact hnone i (by omega)
  -- With a 0 there it ends there, with a 1 it ends later if at all.
  have hends : StringAt (Function.update cells (offset tf.a0 n) 0) tf.a0 n :=
    ⟨hbefore 0, by rw [Function.update_self]⟩
  obtain ⟨memory, hrun, -⟩ := syscall_of_stringAt others console hcall hnull hends (by omega)
  have hsame := (hhidden _ (hagree 1)).trans (hhidden _ (hagree 0)).symm
  rw [hrun] at hsame
  obtain ⟨text, hlater, hsent⟩ := exists_stringAt_of_seen others hcall hnull hsame
  have hlength := congrArg List.length (List.append_cancel_left hsent)
  rw [length_lineOf_of_lt (by rw [length_textAt]; omega), length_textAt, length_lineOf] at hlength
  have hle : text.length ≤ n := by omega
  rcases Nat.lt_or_eq_of_le hle with hlt | heq
  · exact hbefore 1 _ hlt hlater.2
  · have hone := hlater.2
    rw [heq, Function.update_self] at hone
    exact absurd hone (by decide)

/-- A printing call discloses nothing exactly if it is `PrintInt`, or `PrintString` of a null pointer or of bytes
with a NUL among them, below the top of user space. -/
theorem syscall_discreet_iff (hcall : tf.v0 = sysPrintInt ∨ tf.v0 = sysPrintString) :
    Discreet others tf cells console ↔ (tf.v0 = sysPrintString → tf.a0 = 0 ∨
      ∃ i < tf.a1.toInt.toNat, tf.a0.toNat + i < userspaceTop.toNat ∧ cells (offset tf.a0 i) = 0) := by
  rcases hcall with hint | hstring
  · have hne : tf.v0 ≠ sysPrintString := by
      rw [hint]
      decide
    exact iff_of_true (printInt_discreet others hint) fun hcall => absurd hcall hne
  refine ⟨fun hdiscreet _ => ?_, fun hcond => ?_⟩
  · by_cases hnull : tf.a0 = 0
    · exact .inl hnull
    obtain ⟨i, htop, hzero⟩ := exists_nul_of_hidden others hstring hnull hdiscreet.1
    obtain ⟨len, hle, hat⟩ := exists_stringAt hzero
    change _ < 0x80000000 at htop
    obtain ⟨memory, hrun, hreads⟩ := syscall_of_stringAt others console hstring hnull hat (by omega)
    -- The NUL has been read, and it is in user space.
    have hread : offset tf.a0 len ∈ memory.reads := (hreads _).mpr (mem_span.mpr ⟨len, Nat.lt_succ_self len, rfl⟩)
    have huser : offset tf.a0 len < userspaceTop := by
      rw [BitVec.lt_def, toNat_offset (by omega)]
      change _ < 0x80000000
      omega
    obtain ⟨j, hj, heq⟩ := mem_span.mp (hdiscreet.2 _ _ hrun _ hread huser)
    have hchars : tf.a1.toInt.toNat ≤ 2 ^ 31 := by
      have hlt : tf.a1.toInt < 2 ^ 31 := BitVec.toInt_lt
      omega
    have hsame : j = len := offset_inj (by omega) (by omega) heq
    exact .inr ⟨len, hsame ▸ hj, by change _ < 0x80000000; omega, hat.2⟩
  · rcases hcond hstring with hnull | ⟨i, hi, htop, hzero⟩
    · exact printString_null_discreet others hstring hnull
    · by_cases hnull : tf.a0 = 0
      · exact printString_null_discreet others hstring hnull
      · exact printString_discreet others hstring hnull hi htop hzero

end Disclosure

/-- `PrintString` with a pointer and a number of characters. -/
def printStringFrame (c numchars : Word) : Trapframe :=
  { v0 := sysPrintString, a0 := c, a1 := numchars, a3 := 0, epc := 0x400000 }

/-- A string of 26 letters at an address, and zeros elsewhere. -/
def letters (a : Word) : Word → UInt8 := fun x => if distance a x < 26 then UInt8.ofNat (distance a x) + 97 else 0

/-- 27 bytes of user memory with the NUL among them. -/
theorem letters_discreet :
    Discreet (fun _ k => .ok (0, k)) (printStringFrame 0x10000000 27) (letters 0x10000000) [] :=
  (syscall_discreet_iff _ (.inr rfl)).mpr fun _ => .inr ⟨26, by decide, by decide, by decide⟩

/-- With a pointer to the kernel its memory is printed, whatever it is. -/
theorem kernel_pointer_printed :
    ¬ Discreet (fun _ k => .ok (0, k)) (printStringFrame 0x80000000 27) (letters 0x80000000) [] := by
  intro hdiscreet
  obtain ⟨i, htop, -⟩ := exists_nul_of_hidden _ rfl (by decide) hdiscreet.1
  exact absurd htop (Nat.not_lt.mpr (Nat.le_add_right _ _))

end Os161.Kern

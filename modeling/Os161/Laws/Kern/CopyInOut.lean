import Os161.Kern.CopyInOut
import Os161.Laws.Kern.Memory

/-!
# Copies keep to user memory

`copycheck` computes the last address of the user's side in wrapping arithmetic, and hands on a shorter length
when that address is the kernel's. What it lets through ends at `USERSPACETOP`. So no copy reaches beyond it on the
user's side, and a string copy reports the end of user memory apart from a buffer that is too short.
-/

namespace Os161.Kern

open Os161.Lib
open Os161.Vm (copycheck userspaceTop)

variable {p k len dest src : Word} {m : Memory} {text : Nat → UInt8} {n i : Nat}
variable {a : Word} {b : Nat}

/-! ## The check -/

/-- The user's side of a copy is a block of user memory. -/
def UserBlock (p len : Word) : Prop := 0 < len.toNat ∧ p.toNat + len.toNat ≤ userspaceTop.toNat

theorem copycheck_refused (hlen : 0 < len.toNat)
    (h : 2 ^ 32 < p.toNat + len.toNat ∨ userspaceTop.toNat ≤ p.toNat) : copycheck p len = .error .EFAULT := by
  have hp := p.isLt
  have hn := len.isLt
  unfold copycheck
  dsimp only
  split
  · rfl
  · rename_i htop
    rw [if_pos]
    rw [BitVec.le_def]
    rw [BitVec.lt_def] at htop
    simp only [BitVec.toNat_sub, BitVec.toNat_add, BitVec.toNat_ofNat] at htop
    omega

theorem copycheck_granted (hlen : 0 < len.toNat) (hwrap : p.toNat + len.toNat ≤ 2 ^ 32)
    (hp : p.toNat < userspaceTop.toNat) :
    ∃ stoplen, copycheck p len = .ok stoplen ∧ stoplen.toNat = min len.toNat (userspaceTop.toNat - p.toNat) := by
  have hn := len.isLt
  have htopnat : (p + len - 1#32).toNat = p.toNat + len.toNat - 1 := by
    simp only [BitVec.toNat_sub, BitVec.toNat_add, BitVec.toNat_ofNat]
    omega
  unfold copycheck
  dsimp only
  rw [if_neg (by rw [BitVec.lt_def, htopnat]; omega), if_neg (by rw [BitVec.le_def]; omega)]
  split
  · rename_i htop
    rw [BitVec.le_def, htopnat] at htop
    refine ⟨_, rfl, ?_⟩
    rw [BitVec.toNat_sub]
    omega
  · rename_i htop
    rw [BitVec.le_def, htopnat] at htop
    exact ⟨_, rfl, by omega⟩

theorem copycheck_empty (hlen : len.toNat = 0) :
    copycheck p len = .error .EFAULT ∨ copycheck p len = .ok userspaceTop ∧ p.toNat = 0 := by
  have hzero : len = 0#32 := BitVec.eq_of_toNat_eq hlen
  subst hzero
  by_cases hp : p = 0#32
  · subst hp
    exact .inr ⟨by decide, rfl⟩
  · refine .inl (if_pos ?_)
    have hpos : p.toNat ≠ 0 := fun h => hp (BitVec.eq_of_toNat_eq h)
    have hlt := p.isLt
    rw [BitVec.lt_def]
    simp only [BitVec.toNat_sub, BitVec.toNat_add, BitVec.toNat_ofNat]
    omega

theorem copycheck_bounded {stoplen : Word} (h : copycheck p len = .ok stoplen) :
    p.toNat + stoplen.toNat ≤ userspaceTop.toNat := by
  by_cases hlen : 0 < len.toNat
  · by_cases hbad : 2 ^ 32 < p.toNat + len.toNat ∨ userspaceTop.toNat ≤ p.toNat
    · rw [copycheck_refused hlen hbad] at h
      cases h
    · rw [not_or, Nat.not_lt, Nat.not_le] at hbad
      obtain ⟨stop, hstop, hmin⟩ := copycheck_granted hlen hbad.1 hbad.2
      rw [hstop] at h
      cases h
      omega
  · rcases copycheck_empty (p := p) (by omega : len.toNat = 0) with herr | ⟨hok, hp⟩
    · rw [herr] at h
      cases h
    · rw [hok] at h
      cases h
      omega

/-! ## Blocks -/

theorem copyBlock_of_userBlock (h : UserBlock p len) :
    copyBlock p dest src len m = (none, memcpy dest src len m) := by
  have htop : userspaceTop.toNat = 2 ^ 31 := rfl
  obtain ⟨hlen, hend⟩ := h
  obtain ⟨stoplen, hcheck, hmin⟩ := copycheck_granted (p := p) hlen (by omega) (by omega)
  have heq : stoplen = len := BitVec.eq_of_toNat_eq (by omega)
  unfold copyBlock
  rw [hcheck]
  exact if_neg (not_not.mpr heq)

theorem copyBlock_refused (h : ¬ UserBlock p len) : copyBlock p dest src len m = (some .EFAULT, m) := by
  unfold copyBlock
  cases hcheck : copycheck p len with
  | error e => rfl
  | ok stoplen =>
    refine if_pos fun heq => h ?_
    have hend := copycheck_bounded hcheck
    rw [heq] at hend
    refine ⟨Nat.pos_of_ne_zero fun hzero => ?_, hend⟩
    -- an empty copy at 0 is given all of user memory
    rcases copycheck_empty (p := p) hzero with herr | ⟨hok, -⟩
    · rw [herr] at hcheck
      cases hcheck
    · rw [hok] at hcheck
      cases hcheck
      rw [← heq] at hzero
      exact absurd hzero (by decide)

theorem lt_top_of_mem_span (hend : p.toNat + n ≤ userspaceTop.toNat) (h : a ∈ span p n) :
    a < userspaceTop := by
  have htop : userspaceTop.toNat = 2 ^ 31 := rfl
  obtain ⟨i, hi, rfl⟩ := mem_span.mp h
  rw [BitVec.lt_def, toNat_offset (by omega)]
  omega

/-! ## Strings -/

/-- One round of `copystr`. -/
def copyChar (dest src : Word) (i : Nat) (m : Memory) : Memory :=
  (m.move 1 (offset dest i) (offset src i)).look (offset src i)

theorem copystrLoop_succ : copystrLoop dest src (n + 1) i m =
      if (copyChar dest src i m).cells (offset src i) = 0 then (some (i + 1), copyChar dest src i m)
      else copystrLoop dest src n (i + 1) (copyChar dest src i m) := rfl

theorem copystrLoop_keeps {I : Memory → Prop} (hstep : ∀ j m, j < i + n → I m → I (copyChar dest src j m))
    (h : I m) : I (copystrLoop dest src n i m).2 := by
  induction n generalizing i m with
  | zero => exact h
  | succ n ih =>
    have hround := hstep i m (by omega) h
    rw [copystrLoop_succ]
    split
    · exact hround
    · exact ih (fun j m hj => hstep j m (by omega)) hround

theorem mem_reads_copyChar : a ∈ (copyChar dest src i m).reads ↔ a = offset src i ∨ a ∈ m.reads := by
  simp [copyChar, Flat.move, span, offset_zero]

theorem mem_writes_copyChar : a ∈ (copyChar dest src i m).writes ↔ a = offset dest i ∨ a ∈ m.writes := by
  simp [copyChar, Flat.move, span, offset_zero]

theorem reads_copystrLoop (h : a ∈ (copystrLoop dest src n i m).2.reads) :
    a ∈ span src (i + n) ∨ a ∈ m.reads := by
  refine copystrLoop_keeps (I := fun m' => ∀ a ∈ m'.reads, a ∈ span src (i + n) ∨ a ∈ m.reads) ?_
    (fun a ha => .inr ha) a h
  intro j m' hj hall a ha
  rcases mem_reads_copyChar.mp ha with rfl | ha
  · exact .inl (mem_span.mpr ⟨j, hj, rfl⟩)
  · exact hall a ha

theorem writes_copystrLoop (h : a ∈ (copystrLoop dest src n i m).2.writes) :
    a ∈ span dest (i + n) ∨ a ∈ m.writes := by
  refine copystrLoop_keeps (I := fun m' => ∀ a ∈ m'.writes, a ∈ span dest (i + n) ∨ a ∈ m.writes) ?_
    (fun a ha => .inr ha) a h
  intro j m' hj hall a ha
  rcases mem_writes_copyChar.mp ha with rfl | ha
  · exact .inl (mem_span.mpr ⟨j, hj, rfl⟩)
  · exact hall a ha

/-- `b` is in the text, or is its end. -/
def Within (text : Nat → UInt8) (b : Nat) : Prop := ∀ l < b, text l ≠ 0

theorem Within.mono {a : Nat} (h : Within text b) (hab : a ≤ b) : Within text a :=
  fun l hl => h l (Nat.lt_of_lt_of_le hl hab)

theorem copystrLoop_result (htext : ∀ j, i ≤ j → j < i + n → Within text j → m.cells (offset src j) = text j)
    (hclear : ∀ a b, a ≤ b → b < i + n → Within text b → offset dest a ≠ offset src b) (hbefore : Within text i) :
    (∀ z < i + n, text z = 0 → Within text z → (copystrLoop dest src n i m).1 = some (z + 1)) ∧
      (Within text (i + n) → (copystrLoop dest src n i m).1 = none) := by
  induction n generalizing i m with
  | zero =>
    refine ⟨fun z hz hend hz' => ?_, fun _ => rfl⟩
    exact absurd hend (hbefore z hz)
  | succ n ih =>
    have hspared (j : Nat) (hij : i ≤ j) (hj : j < i + (n + 1)) (hin : Within text j) :
        (copyChar dest src i m).cells (offset src j) = text j := by
      rw [← htext j hij hj hin]
      refine Flat.cells_move_other (by decide) fun hmem => ?_
      obtain ⟨l, hl, heq⟩ := mem_span.mp hmem
      rw [show l = 0 by omega, offset_zero] at heq
      exact hclear i j hij hj hin heq
    have hhere := hspared i (Nat.le_refl i) (by omega) hbefore
    rw [copystrLoop_succ, hhere]
    by_cases hend : text i = 0
    · rw [if_pos hend]
      refine ⟨fun z hz hz0 hin => ?_, fun hin => absurd hend (hin i (by omega))⟩
      -- the first end is the only one with text before it
      have hle : z ≤ i := Nat.le_of_not_lt fun hlt => hin i hlt hend
      have hge : i ≤ z := Nat.le_of_not_lt fun hlt => hbefore z hlt hz0
      rw [Nat.le_antisymm hle hge]
    · rw [if_neg hend]
      have hnext : Within text (i + 1) := by
        intro l hl
        rcases Nat.lt_succ_iff_lt_or_eq.mp hl with hl | rfl
        · exact hbefore l hl
        · exact hend
      have hrest := ih (i := i + 1) (m := copyChar dest src i m)
        (fun j hij hj hin => hspared j (by omega) (by omega) hin)
        (fun a b hab hb => hclear a b hab (by omega)) hnext
      rw [Nat.add_right_comm] at hrest
      exact hrest

/-- What a string copy is to answer: the length of the text with its end, or whether user memory or the buffer
ended before it did. -/
structure AnswersString (text : Nat → UInt8) (len room : Nat) (r : Except CopyError Nat) : Prop where
  found : ∀ z < min len room, text z = 0 → Within text z → r = .ok (z + 1)
  boundary : Within text (min len room) → room < len → r = .error .EFAULT
  tooLong : Within text (min len room) → len ≤ room → r = .error .ENAMETOOLONG

theorem copyString_answers (hlen : 0 < len.toNat) (hwrap : p.toNat + len.toNat ≤ 2 ^ 32)
    (hp : p.toNat < userspaceTop.toNat) (htext : ∀ j, m.cells (offset src j) = text j)
    (hclear : ∀ a b, a ≤ b → b < min len.toNat (userspaceTop.toNat - p.toNat) → Within text b →
      offset dest a ≠ offset src b) :
    AnswersString text len.toNat (userspaceTop.toNat - p.toNat) (copyString p dest src len m).1 := by
  obtain ⟨stoplen, hcheck, hstop⟩ := copycheck_granted hlen hwrap hp
  have hmin : min len.toNat stoplen.toNat = min len.toNat (userspaceTop.toNat - p.toNat) := by omega
  have hloop := copystrLoop_result (n := min len.toNat (userspaceTop.toNat - p.toNat)) (i := 0) (m := m)
    (fun j _ _ _ => htext j) (by simpa using hclear) (fun l hl => absurd hl (Nat.not_lt_zero l))
  rw [Nat.zero_add] at hloop
  have hrun : (copyString p dest src len m).1 =
      (copystrLoop dest src (min len.toNat (userspaceTop.toNat - p.toNat)) 0 m).1.elim
        (if stoplen < len then .error .EFAULT else .error .ENAMETOOLONG) .ok := by
    unfold copyString copystr
    rw [hcheck]
    dsimp only
    rw [hmin]
    rcases copystrLoop dest src _ 0 m with ⟨_ | gotlen, m'⟩ <;> rfl
  refine ⟨fun z hz hend hin => ?_, fun hin hroom => ?_, fun hin hroom => ?_⟩
  · rw [hrun, hloop.1 z hz hend hin, Option.elim_some]
  · rw [hrun, hloop.2 hin]
    exact if_pos (by rw [BitVec.lt_def]; omega)
  · rw [hrun, hloop.2 hin]
    exact if_neg (by rw [BitVec.lt_def]; omega)

theorem copyString_touches (p dest src len : Word) (m : Memory) :
    ∃ n, (∀ a ∈ span p n, a < userspaceTop) ∧
      (∀ a ∈ (copyString p dest src len m).2.reads, a ∈ span src n ∨ a ∈ m.reads) ∧
      ∀ a ∈ (copyString p dest src len m).2.writes, a ∈ span dest n ∨ a ∈ m.writes := by
  unfold copyString
  cases hcheck : copycheck p len with
  | error e => exact ⟨0, fun a ha => (List.not_mem_nil ha).elim, fun a ha => .inr ha, fun a ha => .inr ha⟩
  | ok stoplen =>
    have hend := copycheck_bounded hcheck
    have hloop : (copystr dest src len stoplen m).2 =
        (copystrLoop dest src (min len.toNat stoplen.toNat) 0 m).2 := by
      unfold copystr
      rcases copystrLoop dest src _ 0 m with ⟨_ | gotlen, m'⟩ <;> rfl
    refine ⟨min len.toNat stoplen.toNat, fun a ha => lt_top_of_mem_span (by omega) ha, ?_, ?_⟩
    · intro a ha
      dsimp only at ha
      rw [hloop] at ha
      simpa using reads_copystrLoop ha
    · intro a ha
      dsimp only at ha
      rw [hloop] at ha
      simpa using writes_copystrLoop ha

/-! ## The four functions -/

/-- The first `n` bytes at `k`, up to the end of the text, are kernel memory. -/
def KernelSide (k : Word) (text : Nat → UInt8) (n : Nat) : Prop :=
  ∀ j < n, Within text j → userspaceTop ≤ offset k j

theorem offset_ne_of_kernelSide {a : Nat} (hk : KernelSide k text n) (hend : p.toNat + n ≤ userspaceTop.toNat)
    (ha : a < n) (hin : Within text a) (hb : b < n) : offset k a ≠ offset p b := by
  have huser := lt_top_of_mem_span hend (mem_span.mpr ⟨b, hb, rfl⟩)
  have hkernel := hk a ha hin
  intro heq
  rw [heq] at hkernel
  exact absurd huser (BitVec.not_lt.mpr hkernel)

/-- For every user pointer `p`, length and pointer `k` of the kernel: `copyin` and `copyout` copy a block of user
memory and refuse anything else without touching memory. The string copies do not touch the kernel's memory on the
user's side, which `copyinstr` reads and `copyoutstr` writes, and answer by where the text ends. -/
theorem copies_spare_kernel (p k len : Word) (m : Memory) :
    (UserBlock p len → (copyin p k len m).1 = none ∧
      ∀ a ∈ (copyin p k len m).2.reads, a ∈ span p len.toNat ∨ a ∈ m.reads) ∧
    (UserBlock p len → (copyout k p len m).1 = none ∧
      ∀ a ∈ (copyout k p len m).2.writes, a ∈ span p len.toNat ∨ a ∈ m.writes) ∧
    (¬ UserBlock p len → copyin p k len m = (some .EFAULT, m) ∧ copyout k p len m = (some .EFAULT, m)) ∧
    (∀ a ∈ (copyinstr p k len m).2.reads, a < userspaceTop ∨ a ∈ m.reads) ∧
    (∀ a ∈ (copyoutstr k p len m).2.writes, a < userspaceTop ∨ a ∈ m.writes) ∧
    (p.toNat + len.toNat - 1 < 2 ^ 32 → 0 < len.toNat → p < userspaceTop →
      (KernelSide k (fun i => m.cells (offset p i)) (min len.toNat (userspaceTop.toNat - p.toNat)) →
        AnswersString (fun i => m.cells (offset p i)) len.toNat (userspaceTop.toNat - p.toNat)
          (copyinstr p k len m).1) ∧
      (KernelSide k (fun i => m.cells (offset k i)) (min len.toNat (userspaceTop.toNat - p.toNat)) →
        AnswersString (fun i => m.cells (offset k i)) len.toNat (userspaceTop.toNat - p.toNat)
          (copyoutstr k p len m).1)) := by
  refine ⟨fun h => ?_, fun h => ?_, fun h => ⟨copyBlock_refused h, copyBlock_refused h⟩, fun a ha => ?_,
    fun a ha => ?_, fun hwrap hlen hp => ⟨fun hk => ?_, fun hk => ?_⟩⟩
  · unfold copyin
    rw [copyBlock_of_userBlock h]
    exact ⟨rfl, fun a ha => mem_reads_memcpy.mp ha⟩
  · unfold copyout
    rw [copyBlock_of_userBlock h]
    exact ⟨rfl, fun a ha => mem_writes_memcpy.mp ha⟩
  · obtain ⟨n, hn, hreads, -⟩ := copyString_touches p k p len m
    exact (hreads a ha).imp_left (hn a)
  · obtain ⟨n, hn, -, hwrites⟩ := copyString_touches p p k len m
    exact (hwrites a ha).imp_left (hn a)
  · rw [BitVec.lt_def] at hp
    refine copyString_answers hlen (by omega) hp (fun _ => rfl) fun a b hab hb hin => ?_
    exact offset_ne_of_kernelSide hk (by omega) (by omega) (hin.mono hab) hb
  · rw [BitVec.lt_def] at hp
    refine copyString_answers hlen (by omega) hp (fun _ => rfl) fun a b hab hb hin => ?_
    exact (offset_ne_of_kernelSide hk (by omega) hb hin (by omega)).symm

/-- Memory without a zero byte. -/
def ones : Memory := { cells := fun _ => 1, reads := [], writes := [] }

theorem copies_at_the_top : (copyin 0x7ffffff0 0x80001000 16 ones).1 = none ∧
      copyin 0x7ffffff0 0x80001000 32 ones = (some .EFAULT, ones) ∧
      (copyinstr 0x7ffffff0 0x80001000 16 ones).1 = .error .ENAMETOOLONG ∧
      (copyinstr 0x7ffffff0 0x80001000 32 ones).1 = .error .EFAULT := by
  have hkernel (text : Nat → UInt8) : KernelSide 0x80001000 text 16 := by
    intro j hj _
    rw [BitVec.le_def, toNat_offset (by simp; omega)]
    exact Nat.le_trans (by decide) (Nat.le_add_right _ j)
  have hones : Within (fun i => ones.cells (offset 0x7ffffff0 i)) 16 := fun l _ => (by decide : (1 : UInt8) ≠ 0)
  obtain ⟨hblock, -, -, -, -, hshort⟩ := copies_spare_kernel 0x7ffffff0 0x80001000 16 ones
  obtain ⟨-, -, hrefused, -, -, hlong⟩ := copies_spare_kernel 0x7ffffff0 0x80001000 32 ones
  refine ⟨(hblock ⟨by decide, by decide⟩).1, (hrefused fun h => absurd h.2 (by decide)).1, ?_, ?_⟩
  · exact ((hshort (by decide) (by decide) (by decide)).1 (hkernel _)).tooLong hones (by decide)
  · exact ((hlong (by decide) (by decide) (by decide)).1 (hkernel _)).boundary hones (by decide)

end Os161.Kern

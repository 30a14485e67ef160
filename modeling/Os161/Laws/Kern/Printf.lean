import Os161.Kern.Printf
import Os161.Lib.Digits

/-!
# What printf sends

With the callback that keeps all it is sent, the pieces of a session add up: `__pf_printstuff` sends one padded
text, and `__pf_printnum` the digits of its number. The conversion never leaves its buffer.
-/

namespace Os161.Kern

open Os161.Lib

variable {x base : Nat} {buf : List Char}

/-! ## Numbers -/

theorem getD_pfDigits {d : Nat} (h : d < 16) : pfDigits.getD d '\x00' = d.digitChar := by
  have hall : ∀ d < 16, pfDigits.getD d '\x00' = d.digitChar := by decide
  exact hall d h

theorem drop_set_self {l : List Char} (h : x < l.length) (c : Char) :
    (l.set x c).drop x = c :: l.drop (x + 1) := by
  rw [List.drop_set, if_neg (Nat.lt_irrefl x), Nat.sub_self, List.drop_eq_getElem_cons h]
  rfl

theorem pfConvert_ok (hbase : 1 < base) (hle : base ≤ 16) {xnum : Nat}
    (hlength : (base.toDigits xnum).length ≤ x) (hx : x ≤ buf.length) :
    ∃ start buf', pfConvert base x xnum buf = .ok (start, buf') ∧ buf'.length = buf.length ∧
      buf'.drop start = base.toDigits xnum ++ buf.drop x := by
  induction x generalizing xnum buf with
  | zero =>
    rw [Nat.toDigits_eq_if hbase] at hlength
    split at hlength <;> simp at hlength
  | succ x ih =>
    have hdigit : xnum % base < 16 := Nat.lt_of_lt_of_le (Nat.mod_lt _ (Nat.zero_lt_of_lt hbase)) hle
    have hdrop := drop_set_self (Nat.lt_of_succ_le hx) (xnum % base).digitChar
    rw [pfConvert, getD_pfDigits hdigit]
    by_cases hlast : xnum < base
    · refine ⟨x, _, if_neg ?_, List.length_set, ?_⟩
      · rw [Nat.div_eq_of_lt hlast]
        exact Nat.lt_irrefl 0
      · rw [hdrop, Nat.toDigits_of_lt_base hlast, Nat.mod_eq_of_lt hlast]
        rfl
    · have hge : base ≤ xnum := Nat.le_of_not_lt hlast
      rw [Nat.toDigits_of_base_le hbase hge, List.length_append] at hlength
      obtain ⟨start, buf', hrun, hsame, htext⟩ := ih (Nat.le_of_succ_le_succ hlength)
        (show x ≤ (buf.set x (xnum % base).digitChar).length by rw [List.length_set]; exact Nat.le_of_succ_le hx)
      refine ⟨start, buf', (if_pos (Nat.div_pos hge (Nat.zero_lt_of_lt hbase))).trans hrun,
        hsame.trans List.length_set, ?_⟩
      rw [htext, hdrop, Nat.toDigits_of_base_le hbase hge, List.append_assoc]
      rfl

theorem pfConvert_number (hbase : base = 8 ∨ base = 10 ∨ base = 16) (num : BitVec 64)
    (hbuf : buf.length = numberBufSize) :
    ∃ start buf', pfConvert base (numberBufSize - 1) num.toNat (buf.set (numberBufSize - 1) '\x00') =
        .ok (start, buf') ∧ buf'.length = numberBufSize ∧
      buf'.drop start = base.toDigits num.toNat ++ ['\x00'] := by
  have hfits : num.toNat < base ^ 22 := by
    have hoctal : 8 ^ 22 ≤ base ^ 22 := Nat.pow_le_pow_left (by omega) 22
    have hnum := num.isLt
    omega
  have hlength := (Nat.length_toDigits_le_iff (by omega) (by decide : 0 < 22)).mpr hfits
  obtain ⟨start, buf', hrun, hsame, htext⟩ := pfConvert_ok (by omega) (by omega) hlength
    (show 22 ≤ (buf.set (numberBufSize - 1) '\x00').length by rw [List.length_set, hbuf]; decide)
  refine ⟨start, buf', hrun, by rw [hsame, List.length_set, hbuf], ?_⟩
  have hlast : numberBufSize - 1 < buf.length := by
    rw [hbuf]
    decide
  change _ = base.toDigits num.toNat ++ (buf.set (numberBufSize - 1) '\x00').drop (numberBufSize - 1) at htext
  rw [htext, drop_set_self hlast, List.drop_eq_nil_of_le (i := numberBufSize - 1 + 1) (Nat.le_of_eq hbuf)]

theorem nul_not_mem_toDigits (hbase : 1 < base) (hle : base ≤ 16) (n : Nat) :
    '\x00' ∉ base.toDigits n :=
  fun hmem => absurd (digitValue_lt_of_mem hbase hle hmem) (Nat.not_lt.mpr hle)

/-- Whatever is in the buffer before, the loop stores in it only and ends, and the string it leaves is the number
in its base, without a zero too many. -/
theorem number_fits_buffer {base : Nat} (hbase : base = 8 ∨ base = 10 ∨ base = 16) (num : BitVec 64)
    (buf : List Char) (hbuf : buf.length = numberBufSize) :
    ∃ start buf' text, pfConvert base (numberBufSize - 1) num.toNat (buf.set (numberBufSize - 1) '\x00') =
        .ok (start, buf') ∧ buf'.length = numberBufSize ∧ buf'.drop start = text ++ ['\x00'] ∧
      '\x00' ∉ text ∧ (text.head? = some '0' → text = ['0']) ∧ readDigits base text = some num.toNat := by
  have hone : 1 < base := by omega
  have hle : base ≤ 16 := by omega
  obtain ⟨start, buf', hrun, hsame, htext⟩ := pfConvert_number hbase num hbuf
  refine ⟨start, buf', _, hrun, hsame, htext, nul_not_mem_toDigits hone hle _, fun hhead => ?_,
    readDigits_toDigits hone hle _⟩
  rw [eq_zero_of_head_toDigits hone hle hhead, Nat.toDigits_of_lt_base (Nat.zero_lt_of_lt hone)]
  rfl

/-- The longest number there is, 1777777777777777777777 in octal. -/
theorem longest_octal_fits : ∃ start buf' text,
    pfConvert 8 (numberBufSize - 1) (BitVec.allOnes 64).toNat
        ((List.replicate numberBufSize '?').set (numberBufSize - 1) '\x00') = .ok (start, buf') ∧
      buf'.drop start = text ++ ['\x00'] ∧ readDigits 8 text = some 0xffffffffffffffff := by
  obtain ⟨start, buf', text, hrun, -, htext, -, -, hread⟩ :=
    number_fits_buffer (.inl rfl) (BitVec.allOnes 64) (List.replicate numberBufSize '?') (by decide)
  exact ⟨start, buf', text, hrun, htext, hread⟩

theorem pfNumber_ok (hbase : base = 8 ∨ base = 10 ∨ base = 16) (num : BitVec 64) :
    pfNumber base num = .ok (base.toDigits num.toNat) := by
  obtain ⟨start, buf', hrun, -, htext⟩ := pfConvert_number hbase num (List.length_replicate (n := numberBufSize) (a := ' '))
  simp only [pfNumber, hrun]
  change Except.ok (cstr (buf'.drop start)) = _
  rw [htext, cstr, List.takeWhile_append_of_pos]
  · exact congrArg Except.ok (List.append_nil _)
  · intro c hc
    have hne : c ≠ '\x00' := fun heq => nul_not_mem_toDigits (by omega) (by omega) _ (heq ▸ hc)
    simpa using hne

/-! ## Texts -/

@[simp] theorem toPfField_pfPrint (pf : Pf (List Char)) (txt : List Char) :
    (pfPrint gather pf txt).toPfField = pf.toPfField := rfl

theorem pfPrint_nil (pf : Pf (List Char)) : pfPrint gather pf [] = pf := by
  simp [pfPrint, gather]

theorem pfPrint_pfPrint (pf : Pf (List Char)) (a b : List Char) :
    pfPrint gather (pfPrint gather pf a) b = pfPrint gather pf (a ++ b) := by
  simp [pfPrint, gather, BitVec.ofNat_add, BitVec.add_assoc]

theorem pfFill_gather (pf : Pf (List Char)) (spc : Nat) :
    pfFill gather spc pf = pfPrint gather pf (List.replicate spc pf.fillchar) := by
  induction spc generalizing pf with
  | zero => exact (pfPrint_nil pf).symm
  | succ spc ih =>
    rw [pfFill, ih, pfPrint_pfPrint]
    rfl

/-- How much `__pf_printstuff` pads a text of a length. -/
def pfPadding (f : PfField) (len : Nat) : Nat := (pfSpc f (BitVec.ofNat 32 len)).toInt.toNat

theorem pfPadding_eq (f : PfField) {len : Nat} (h : len < 2 ^ 31) :
    pfPadding f len = (f.spacing.toInt - len).toNat := by
  have hlen : (BitVec.ofNat 32 len).toInt = len := by
    rw [BitVec.toInt_eq_toNat_of_lt] <;> rw [BitVec.toNat_ofNat] <;> omega
  have hspc : f.spacing.toInt < 2 ^ 31 := BitVec.toInt_lt
  unfold pfPadding pfSpc
  by_cases hlt : BitVec.slt (BitVec.ofNat 32 len) f.spacing = true
  · rw [if_pos hlt]
    rw [BitVec.slt_iff_toInt_lt, hlen] at hlt
    rw [BitVec.toInt_sub, hlen, Int.bmod_eq_of_le] <;> omega
  · rw [if_neg hlt]
    rw [BitVec.slt_iff_toInt_lt, hlen] at hlt
    change (0 : Int).toNat = _
    omega

/-- The text `__pf_printstuff` sends. -/
def padded (f : PfField) (pre pre2 stuff : List Char) : List Char :=
  let fill := List.replicate (pfPadding f (pre.length + pre2.length + stuff.length)) f.fillchar
  if f.rightspc then pre ++ pre2 ++ stuff ++ fill
  else if f.fillchar = '0' then pre ++ pre2 ++ fill ++ stuff
  else fill ++ pre ++ pre2 ++ stuff

theorem length_padded (f : PfField) (pre pre2 stuff : List Char) :
    (padded f pre pre2 stuff).length =
      pre.length + pre2.length + stuff.length + pfPadding f (pre.length + pre2.length + stuff.length) := by
  unfold padded
  split
  · simp only [List.length_append, List.length_replicate]
  · split <;> simp only [List.length_append, List.length_replicate] <;> omega

theorem pfPrintstuff_gather (pf : Pf (List Char)) (pre pre2 stuff : List Char) :
    pfPrintstuff gather pf pre pre2 stuff = pfPrint gather pf (padded pf.toPfField pre pre2 stuff) := by
  simp only [pfPrintstuff, padded, pfPadding]
  generalize pfSpc pf.toPfField (BitVec.ofNat 32 (pre.length + pre2.length + stuff.length)) = spc
  by_cases hpos : BitVec.slt 0#32 spc = true
  · -- One of the three places is filled.
    cases hright : pf.rightspc with
    | true => simp [hright, hpos, pfFill_gather, pfPrint_pfPrint]
    | false =>
      by_cases hfill : pf.fillchar = '0'
      · simp [hright, hpos, hfill, pfFill_gather, pfPrint_pfPrint]
      · simp [hright, hpos, hfill, pfFill_gather, pfPrint_pfPrint]
  · have hzero : spc.toInt.toNat = 0 := by
      rw [BitVec.slt_iff_toInt_lt] at hpos
      exact Int.toNat_eq_zero.mpr (Int.not_lt.mp hpos)
    simp [hpos, hzero, pfPrint_pfPrint]

theorem pfPrintnum_gather (pf : Pf (List Char)) (hbase : pf.base = 8 ∨ pf.base = 10 ∨ pf.base = 16) :
    pfPrintnum gather pf = .ok (pfPrint gather pf (padded pf.toPfField (if pf.sign then ['-'] else [])
      (pfBpfx pf.toPfField) (pf.base.toDigits pf.num.toNat))) := by
  rw [pfPrintnum, pfNumber_ok hbase]
  change Except.ok (pfPrintstuff gather pf _ _ _) = _
  rw [pfPrintstuff_gather]

theorem pfSend_string {pf : Pf (List Char)} {str : Word} {rest : List VaArg} (hpct : pf.inPct = true)
    (hap : pf.ap = .word str :: rest) :
    pfSend gather pf 's' =
      if str = 0 then
        .ok (pfEndfield (pfPrint gather { pf with ap := rest }
          (padded pf.toPfField [] [] ['(', 'n', 'u', 'l', 'l', ')'])))
      else (fetchString str pf.memory).map fun r =>
        pfEndfield (pfPrint gather { pf with ap := rest, memory := r.2 } (padded pf.toPfField [] [] r.1)) := by
  have hbranch : pfSend gather pf 's' = (do
      let a ← vaWord pf.ap
      if a.1 = 0 then
        pure (pfEndfield (pfPrintstuff gather { pf with ap := a.2 } [] [] ['(', 'n', 'u', 'l', 'l', ')']))
      else
        let r ← fetchString a.1 pf.memory
        pure (pfEndfield (pfPrintstuff gather { pf with ap := a.2, memory := r.2 } [] [] r.1))) := by
    simp [pfSend, hpct]
  rw [hbranch, hap]
  change (if str = 0 then _ else _) = _
  split
  · rw [pfPrintstuff_gather]
    rfl
  · cases fetchString str pf.memory with
    | error e => rfl
    | ok r =>
      change Except.ok (pfEndfield (pfPrintstuff gather _ [] [] r.1)) = _
      rw [pfPrintstuff_gather]
      rfl

end Os161.Kern

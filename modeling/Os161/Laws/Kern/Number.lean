import Os161.Laws.Kern.Printf
import Mathlib.Tactic.IntervalCases

/-!
# Printed integers

An integer conversion with flags, a field width and `l` modifiers. What is printed is a minus sign if the argument
is negative, the base prefix if there is one, and the digits, with padding: spaces on either side, or zeros in
front of the digits. With both `-` and `0` the zeros come behind the digits, and another number is read.
-/

namespace Os161.Kern

open Os161.Lib

variable {l : List Char} {w : Nat}

/-! ## Directives -/

/-- An argument as a signed number. -/
def VaArg.toInt : VaArg → Int
  | .word n => n.toInt
  | .dword n => n.toInt

/-- An argument as an unsigned number. -/
def VaArg.toNat : VaArg → Nat
  | .word n => n.toNat
  | .dword n => n.toNat

/-- A flag. -/
inductive PfFlag where
  | alt
  | minus
  | zero
deriving DecidableEq

def PfFlag.char : PfFlag → Char
  | .alt => '#'
  | .minus => '-'
  | .zero => '0'

/-- An integer conversion. -/
inductive PfConv where
  | d
  | u
  | o
  | x
  | p
deriving DecidableEq

def PfConv.char : PfConv → Char
  | .d => 'd'
  | .u => 'u'
  | .o => 'o'
  | .x => 'x'
  | .p => 'p'

/-- The base an integer conversion prints in. -/
def PfConv.base : PfConv → Nat
  | .d | .u => 10
  | .o => 8
  | .x | .p => 16

/-- An integer conversion with its modifiers; no field width is a field width of 0. -/
structure Directive where
  flags : List PfFlag
  width : Nat
  ls : Nat
  conv : PfConv

namespace Directive

/-- The text of a directive. -/
def format (d : Directive) : List Char :=
  '%' :: (d.flags.map PfFlag.char ++ (if d.width = 0 then [] else Nat.toDigits 10 d.width) ++
    List.replicate d.ls 'l' ++ [d.conv.char])

/-- The type the `l` modifiers give. -/
def size (d : Directive) : PfSize :=
  if d.ls = 0 then .intsz else if d.ls % 2 = 1 then .longsz else .llongsz

/-- The argument is of the type of the directive. -/
def Takes (d : Directive) : VaArg → Prop
  | .word _ => d.conv = .p ∨ d.size ≠ .llongsz
  | .dword _ => d.conv ≠ .p ∧ d.size = .llongsz

/-- The value of an argument: only `%d` is signed. -/
def value (d : Directive) (arg : VaArg) : Int := if d.conv = .d then arg.toInt else arg.toNat

/-- The base prefix, if it is requested; pointers always have it. -/
def lead (d : Directive) : List Char :=
  if .alt ∈ d.flags ∨ d.conv = .p then
    match d.conv.base with
    | 16 => ['0', 'x']
    | 8 => ['0']
    | _ => []
  else []

/-- The sign in front of a value. -/
def sign (d : Directive) (arg : VaArg) : List Char := if decide (d.value arg < 0) then ['-'] else []

/-- The digits of a value. -/
def digits (d : Directive) (arg : VaArg) : List Char := d.conv.base.toDigits (d.value arg).natAbs

/-- The length of a value without padding. -/
def unpadded (d : Directive) (arg : VaArg) : Nat :=
  (d.sign arg).length + d.lead.length + (d.digits arg).length

end Directive

/-! ## Modifiers -/

variable {pf : Pf (List Char)} {f f' : PfField} {ch : Char}

theorem inPct_pfModifier (h : pfModifier f ch = .ok f') : f'.inPct = f.inPct := by
  unfold pfModifier at h
  split at h
  · cases h
    rfl
  · cases h
    rfl
  · cases h
    rfl
  · split at h <;> cases h <;> rfl
  · split at h
    · cases h
      rfl
    · cases h

theorem pfSend_modifier (hpct : pf.inPct = true)
    (hch : ch ∈ ['#', '-', 'l', '0', '1', '2', '3', '4', '5', '6', '7', '8', '9'])
    (hmod : pfModifier pf.toPfField ch = .ok f) : pfSend gather pf ch = .ok { pf with toPfField := f } := by
  have hnul : ch ≠ '\x00' := by
    rintro rfl
    exact absurd hch (by decide)
  simp only [pfSend, if_neg hnul, hpct, Bool.true_eq_false, false_and, if_false, if_pos hch, hmod]
  rfl

theorem foldlM_pfSend_modifiers (hpct : pf.inPct = true)
    (hl : ∀ ch ∈ l, ch ∈ ['#', '-', 'l', '0', '1', '2', '3', '4', '5', '6', '7', '8', '9'])
    (hmod : l.foldlM pfModifier pf.toPfField = .ok f) :
    l.foldlM (pfSend gather) pf = .ok { pf with toPfField := f } := by
  induction l generalizing pf with
  | nil =>
    cases hmod
    rfl
  | cons ch rest ih =>
    rw [List.foldlM_cons] at hmod ⊢
    cases hone : pfModifier pf.toPfField ch with
    | error e =>
      rw [hone] at hmod
      cases hmod
    | ok f₁ =>
      rw [hone] at hmod
      rw [pfSend_modifier hpct (hl ch List.mem_cons_self) hone]
      exact @ih { pf with toPfField := f₁ } ((inPct_pfModifier hone).trans hpct)
        (fun c hc => hl c (List.mem_cons_of_mem _ hc)) hmod

theorem foldlM_pfModifier_flags (hspacing : f.spacing = 0#32) (flags : List PfFlag) :
    (flags.map PfFlag.char).foldlM pfModifier f =
      .ok { f with
        altformat := f.altformat || decide (PfFlag.alt ∈ flags)
        rightspc := f.rightspc || decide (PfFlag.minus ∈ flags)
        fillchar := if .zero ∈ flags then '0' else f.fillchar } := by
  induction flags generalizing f with
  | nil => simp [pure, Except.pure]
  | cons flag rest ih =>
    rw [List.map_cons, List.foldlM_cons]
    cases flag with
    | alt =>
      refine (ih (f := { f with altformat := true }) hspacing).trans ?_
      simp
    | minus =>
      refine (ih (f := { f with rightspc := true }) hspacing).trans ?_
      simp
    | zero =>
      have hzero : pfModifier f '0' = .ok { f with fillchar := '0' } := by
        simp [pfModifier, hspacing]
      change (pfModifier f '0' >>= _) = _
      rw [hzero]
      refine (ih (f := { f with fillchar := '0' }) hspacing).trans ?_
      simp

theorem pfModifier_digit {n : Nat} (hn : n < 10) (h : n ≠ 0 ∨ BitVec.slt 0#32 f.spacing = true) :
    pfModifier f n.digitChar = .ok { f with spacing := f.spacing * 10#32 + BitVec.ofNat 32 n } := by
  by_cases hzero : n = 0
  · subst hzero
    have hpos := h.resolve_left (fun hne => hne rfl)
    simp [pfModifier, Nat.digitChar, hpos]
  · interval_cases n <;> first | exact absurd rfl hzero | rfl

theorem foldlM_pfModifier_concat {g : PfField} (hl : l.foldlM pfModifier f = .ok g)
    (hch : pfModifier g ch = .ok f') : (l ++ [ch]).foldlM pfModifier f = .ok f' := by
  rw [List.foldlM_append, hl]
  change (pfModifier g ch >>= pure) = _
  rw [hch]
  rfl

theorem foldlM_pfModifier_width (hpos : 0 < w) (hlt : w < 2 ^ 31) (hspacing : f.spacing = 0#32) :
    (Nat.toDigits 10 w).foldlM pfModifier f = .ok { f with spacing := BitVec.ofNat 32 w } := by
  induction w using Nat.strongRecOn with
  | ind w ih =>
    rw [Nat.toDigits_eq_if (by decide)]
    split
    · rename_i hsmall
      have hsum : f.spacing * 10#32 + BitVec.ofNat 32 w = BitVec.ofNat 32 w := by
        rw [hspacing, BitVec.zero_mul, BitVec.zero_add]
      have hdigit := pfModifier_digit (f := f) hsmall (.inl hpos.ne')
      rw [hsum] at hdigit
      exact foldlM_pfModifier_concat (l := []) rfl hdigit
    · have hslt : BitVec.slt 0#32 (BitVec.ofNat 32 (w / 10)) = true := by
        rw [BitVec.slt_iff_toInt_lt, BitVec.toInt_eq_toNat_of_lt (x := BitVec.ofNat 32 (w / 10))]
        all_goals simp only [BitVec.toInt_zero, BitVec.toNat_ofNat]; omega
      have hsum : BitVec.ofNat 32 (w / 10) * 10#32 + BitVec.ofNat 32 (w % 10) = BitVec.ofNat 32 w := by
        apply BitVec.eq_of_toNat_eq
        simp only [BitVec.toNat_add, BitVec.toNat_mul, BitVec.toNat_ofNat]
        omega
      have hdigit := pfModifier_digit (f := { f with spacing := BitVec.ofNat 32 (w / 10) })
        (Nat.mod_lt w (by decide)) (.inr hslt)
      rw [hsum] at hdigit
      exact foldlM_pfModifier_concat (ih (w / 10) (by omega) (by omega) (by omega)) hdigit

theorem foldlM_pfModifier_digits (w : Nat) :
    ∃ spacing fillchar, (Nat.toDigits 10 w).foldlM pfModifier f =
      .ok { f with spacing := spacing, fillchar := fillchar } := by
  have hone : ∀ (f : PfField) (n : Nat), n < 10 → ∃ spacing fillchar,
      pfModifier f n.digitChar = .ok { f with spacing := spacing, fillchar := fillchar } := by
    intro f n hn
    by_cases hdigit : n ≠ 0 ∨ BitVec.slt 0#32 f.spacing = true
    · exact ⟨_, f.fillchar, pfModifier_digit hn hdigit⟩
    · push Not at hdigit
      obtain ⟨rfl, hspacing⟩ := hdigit
      exact ⟨f.spacing, '0', if_neg hspacing⟩
  induction w using Nat.strongRecOn with
  | ind w ih =>
    rw [Nat.toDigits_eq_if (by decide)]
    split
    · rename_i hsmall
      obtain ⟨spacing, fillchar, hdigit⟩ := hone f w hsmall
      exact ⟨spacing, fillchar, foldlM_pfModifier_concat (l := []) rfl hdigit⟩
    · obtain ⟨spacing, fillchar, hprev⟩ := ih (w / 10) (by omega)
      obtain ⟨spacing', fillchar', hdigit⟩ :=
        hone { f with spacing := spacing, fillchar := fillchar } (w % 10) (Nat.mod_lt _ (by decide))
      exact ⟨spacing', fillchar', foldlM_pfModifier_concat hprev hdigit⟩

theorem foldlM_pfModifier_ls (hsize : f.size = .intsz) (d : Directive) :
    (List.replicate d.ls 'l').foldlM pfModifier f = .ok { f with size := d.size } := by
  obtain ⟨flags, width, ls, conv⟩ := d
  induction ls with
  | zero =>
    change Except.ok f = Except.ok { f with size := .intsz }
    rw [← hsize]
  | succ n ih =>
    rw [List.replicate_succ']
    refine foldlM_pfModifier_concat ih ?_
    change Except.ok { f with
        size := if Directive.size ⟨flags, width, n, conv⟩ = .longsz then .llongsz else .longsz } =
      Except.ok { f with size := Directive.size ⟨flags, width, n + 1, conv⟩ }
    congr 2
    unfold Directive.size
    rcases Nat.mod_two_eq_zero_or_one n with heven | hodd
    · have hnext : (n + 1) % 2 = 1 := by omega
      by_cases hn : n = 0 <;> simp [hn, heven, hnext]
    · have hnext : (n + 1) % 2 = 0 := by omega
      have hn : n ≠ 0 := by omega
      simp [hn, hodd, hnext]

/-! ## The conversion -/

variable {d : Directive} {arg : VaArg}

theorem toNat_neg_of_neg {n : BitVec 64} (h : n.toInt < 0) : (-n).toNat = n.toInt.natAbs := by
  have hlt := n.isLt
  rw [BitVec.toInt_eq_toNat_cond] at h ⊢
  rw [BitVec.toNat_neg]
  split at h <;> split <;> omega

theorem toNat_of_nonneg {n : BitVec w} (h : ¬ n.toInt < 0) : n.toNat = n.toInt.natAbs := by
  have hlt := n.isLt
  rw [BitVec.toInt_eq_toNat_cond] at h ⊢
  split at h <;> omega

theorem toNat_setWidth_word (n : Word) : (n.setWidth 64).toNat = n.toNat := by
  rw [BitVec.toNat_setWidth]
  exact Nat.mod_eq_of_lt (Nat.lt_trans n.isLt (by decide))

theorem vaSigned_ok (h : d.Takes arg) (hconv : d.conv ≠ .p) (rest : List VaArg) :
    ∃ n : BitVec 64, vaSigned d.size (arg :: rest) = .ok (n, rest) ∧ n.toInt = arg.toInt := by
  cases arg with
  | word n =>
    refine ⟨n.signExtend 64, ?_, BitVec.toInt_signExtend_of_le (by decide)⟩
    cases hsize : d.size with
    | intsz => rfl
    | longsz => rfl
    | llongsz => exact absurd hsize (h.resolve_left hconv)
  | dword n => exact ⟨n, by rw [h.2]; rfl, rfl⟩

theorem vaUnsigned_ok (h : d.Takes arg) (hconv : d.conv ≠ .p) (rest : List VaArg) :
    ∃ n : BitVec 64, vaUnsigned d.size (arg :: rest) = .ok (n, rest) ∧ n.toNat = arg.toNat := by
  cases arg with
  | word n =>
    refine ⟨n.setWidth 64, ?_, toNat_setWidth_word n⟩
    cases hsize : d.size with
    | intsz => rfl
    | longsz => rfl
    | llongsz => exact absurd hsize (h.resolve_left hconv)
  | dword n => exact ⟨n, by rw [h.2]; rfl, rfl⟩

theorem pfGetnum_ok (h : d.Takes arg) (hsize : f.size = d.size) (hsign : f.sign = false) (rest : List VaArg) :
    ∃ num : BitVec 64, num.toNat = (d.value arg).natAbs ∧
      pfGetnum f (arg :: rest) d.conv.char =
        .ok ({ f with sign := decide (d.value arg < 0), num := num }, rest) := by
  have hunsigned : ∀ n : BitVec 64, d.conv ≠ .d → n.toNat = arg.toNat → n.toNat = (d.value arg).natAbs ∧
      (Except.ok ({ f with num := n }, rest) : Except PfFault _) =
        .ok ({ f with sign := decide (d.value arg < 0), num := n }, rest) := by
    intro n hconv hn
    have hvalue : d.value arg = n.toNat := by rw [Directive.value, if_neg hconv, hn]
    have hnonneg : ¬ (n.toNat : Int) < 0 := by omega
    rw [hvalue, decide_eq_false hnonneg, ← hsign]
    exact ⟨rfl, rfl⟩
  by_cases hp : d.conv = .p
  · cases arg with
    | word n =>
      obtain ⟨hnum, hrun⟩ := hunsigned (n.setWidth 64) (by rw [hp]; decide) (toNat_setWidth_word n)
      refine ⟨n.setWidth 64, hnum, ?_⟩
      rw [← hrun, hp]
      rfl
    | dword n => exact absurd hp h.1
  by_cases hd : d.conv = .d
  · obtain ⟨n, hrun, hn⟩ := vaSigned_ok h hp rest
    have hvalue : d.value arg = n.toInt := by rw [Directive.value, if_pos hd, hn]
    have hgetnum : pfGetnum f (arg :: rest) d.conv.char =
        if BitVec.slt n 0#64 then .ok ({ f with sign := true, num := -n }, rest)
        else .ok ({ f with num := n }, rest) := by
      rw [hd]
      change (vaSigned f.size (arg :: rest) >>= _) = _
      rw [hsize, hrun]
      rfl
    by_cases hneg : n.toInt < 0
    · have hslt : BitVec.slt n 0#64 = true := BitVec.slt_iff_toInt_lt.mpr hneg
      rw [hgetnum, if_pos hslt, hvalue, decide_eq_true hneg]
      exact ⟨-n, toNat_neg_of_neg hneg, rfl⟩
    · have hslt : ¬ BitVec.slt n 0#64 = true := fun hlt => hneg (BitVec.slt_iff_toInt_lt.mp hlt)
      rw [hgetnum, if_neg hslt, hvalue, decide_eq_false hneg, ← hsign]
      exact ⟨n, toNat_of_nonneg hneg, rfl⟩
  · obtain ⟨n, hrun, hn⟩ := vaUnsigned_ok h hp rest
    obtain ⟨hnum, hok⟩ := hunsigned n hd hn
    refine ⟨n, hnum, ?_⟩
    have hchar : d.conv.char ≠ 'p' ∧ d.conv.char ≠ 'd' := by
      cases hconv : d.conv with
      | p => exact absurd hconv hp
      | d => exact absurd hconv hd
      | u => decide
      | o => decide
      | x => decide
    rw [← hok, pfGetnum, if_neg hchar.1, if_neg hchar.2, hsize, hrun]
    rfl

theorem pfSetbase_eq (hbasepfx : f.basepfx = false) (conv : PfConv) :
    pfSetbase f conv.char = { f with base := conv.base, basepfx := f.altformat || decide (conv = .p) } := by
  cases conv <;> simp [pfSetbase, PfConv.char, PfConv.base, hbasepfx]

/-- The modifiers of a directive. -/
def Directive.modifiers (d : Directive) : List Char :=
  d.flags.map PfFlag.char ++ (if d.width = 0 then [] else Nat.toDigits 10 d.width) ++ List.replicate d.ls 'l'

/-- A field as the modifiers of a directive leave it. A field width that is no `int` overflows, and nothing is said
about what becomes of it. -/
structure Directive.Parsed (d : Directive) (f : PfField) : Prop where
  inPct : f.inPct = true
  size : f.size = d.size
  sign : f.sign = false
  basepfx : f.basepfx = false
  altformat : f.altformat = decide (PfFlag.alt ∈ d.flags)
  rightspc : f.rightspc = decide (PfFlag.minus ∈ d.flags)
  width : d.width < 2 ^ 31 →
    f.spacing = BitVec.ofNat 32 d.width ∧ f.fillchar = if .zero ∈ d.flags then '0' else ' '

theorem foldlM_pfModifier_field (hspacing : f.spacing = 0#32) (w : Nat) : ∃ spacing fillchar,
    (if w = 0 then [] else Nat.toDigits 10 w).foldlM pfModifier f =
      .ok { f with spacing := spacing, fillchar := fillchar } ∧
    (w < 2 ^ 31 → spacing = BitVec.ofNat 32 w ∧ fillchar = f.fillchar) := by
  by_cases hzero : w = 0
  · rw [if_pos hzero, hzero]
    exact ⟨0#32, f.fillchar, by rw [← hspacing]; rfl, fun _ => ⟨rfl, rfl⟩⟩
  rw [if_neg hzero]
  by_cases hlt : w < 2 ^ 31
  · exact ⟨_, f.fillchar, foldlM_pfModifier_width (Nat.pos_of_ne_zero hzero) hlt hspacing, fun _ => ⟨rfl, rfl⟩⟩
  · obtain ⟨spacing, fillchar, hrun⟩ := foldlM_pfModifier_digits (f := f) w
    exact ⟨spacing, fillchar, hrun, fun h => absurd h hlt⟩

theorem foldlM_modifiers (d : Directive) :
    ∃ f, d.modifiers.foldlM pfModifier { inPct := true } = .ok f ∧ d.Parsed f := by
  let flagged : PfField :=
    { inPct := true
      altformat := false || decide (PfFlag.alt ∈ d.flags)
      rightspc := false || decide (PfFlag.minus ∈ d.flags)
      fillchar := if .zero ∈ d.flags then '0' else ' ' }
  obtain ⟨spacing, fillchar, hwidth, hexact⟩ := foldlM_pfModifier_field (f := flagged) rfl d.width
  have hls := foldlM_pfModifier_ls (f := { flagged with spacing := spacing, fillchar := fillchar }) rfl d
  refine ⟨{ flagged with spacing := spacing, fillchar := fillchar, size := d.size }, ?_,
    ⟨rfl, rfl, rfl, rfl, Bool.false_or _, Bool.false_or _, hexact⟩⟩
  rw [Directive.modifiers, List.foldlM_append, List.foldlM_append, foldlM_pfModifier_flags rfl]
  change ((List.foldlM pfModifier flagged _) >>= _) = _
  rw [hwidth]
  exact hls

theorem mem_modifiers (d : Directive) (h : ch ∈ d.modifiers) :
    ch ∈ ['#', '-', 'l', '0', '1', '2', '3', '4', '5', '6', '7', '8', '9'] := by
  rcases List.mem_append.mp h with hleft | hls
  · rcases List.mem_append.mp hleft with hflag | hwidth
    · obtain ⟨flag, -, rfl⟩ := List.mem_map.mp hflag
      cases flag <;> decide
    · split at hwidth
      · cases hwidth
      · obtain ⟨n, hn, rfl⟩ := exists_of_mem_toDigits (by decide) hwidth
        have hall : ∀ n < 10, n.digitChar ∈ ['#', '-', 'l', '0', '1', '2', '3', '4', '5', '6', '7', '8', '9'] := by
          decide
        exact hall n hn
  · rw [List.eq_of_mem_replicate hls]
    decide

theorem base_cases (conv : PfConv) : conv.base = 8 ∨ conv.base = 10 ∨ conv.base = 16 := by
  cases conv <;> decide

theorem pfBpfx_eq (hbase : f.base = d.conv.base)
    (hbasepfx : f.basepfx = (decide (PfFlag.alt ∈ d.flags) || decide (d.conv = .p))) : pfBpfx f = d.lead := by
  simp only [pfBpfx, Directive.lead, hbase, hbasepfx, Bool.or_eq_true, decide_eq_true_eq]
  by_cases hlead : PfFlag.alt ∈ d.flags ∨ d.conv = .p
  · simp only [hlead, true_and]
    cases d.conv <;> rfl
  · rw [if_neg hlead, if_neg fun hand => hlead hand.1, if_neg fun hand => hlead hand.1]

theorem pfSend_integer (hpct : pf.inPct = true) (conv : PfConv) :
    pfSend gather pf conv.char = (do
      let (f, ap) ← pfGetnum pf.toPfField pf.ap conv.char
      let pf ← pfPrintnum gather { pf with toPfField := pfSetbase f conv.char, ap := ap }
      pure (pfEndfield pf)) := by
  cases conv <;> simp [pfSend, hpct, PfConv.char]

theorem pfSend_conv (hparsed : d.Parsed pf.toPfField) (h : d.Takes arg) (hap : pf.ap = [arg]) :
    pfSend gather pf d.conv.char = .ok (pfEndfield (pfPrint gather { pf with ap := [] }
      (padded pf.toPfField (d.sign arg) d.lead (d.digits arg)))) := by
  obtain ⟨num, hnum, hgetnum⟩ := pfGetnum_ok h hparsed.size hparsed.sign []
  -- The field when the number is printed.
  let f : PfField :=
    { pf.toPfField with
      sign := decide (d.value arg < 0)
      num := num
      base := d.conv.base
      basepfx := pf.altformat || decide (d.conv = .p) }
  have hsetbase := pfSetbase_eq (f := { pf.toPfField with sign := decide (d.value arg < 0), num := num })
    hparsed.basepfx d.conv
  change _ = f at hsetbase
  have hlead : pfBpfx f = d.lead := pfBpfx_eq rfl (by rw [← hparsed.altformat])
  have hprintnum := pfPrintnum_gather { pf with toPfField := f, ap := [] } (base_cases d.conv)
  simp only [hlead] at hprintnum
  change pfPrintnum gather _ = .ok (pfPrint gather _
    (padded pf.toPfField (d.sign arg) d.lead (d.conv.base.toDigits num.toNat))) at hprintnum
  rw [hnum] at hprintnum
  rw [pfSend_integer hparsed.inPct, hap, hgetnum]
  change (pfPrintnum gather { pf with toPfField := pfSetbase _ _, ap := [] } >>= _) = _
  rw [hsetbase, hprintnum]
  rfl

theorem vprintf_directive (h : d.Takes arg) : ∃ f, d.Parsed f ∧ ∀ sent m,
    vprintf gather sent d.format [arg] m = .ok (pfPrint gather
      { clientdata := sent, ap := [], charcount := 0#32, memory := m }
      (padded f (d.sign arg) d.lead (d.digits arg))) := by
  obtain ⟨f, hmodifiers, hparsed⟩ := foldlM_modifiers d
  refine ⟨f, hparsed, fun sent m => ?_⟩
  let start : Pf (List Char) := { inPct := true, clientdata := sent, ap := [arg], charcount := 0#32, memory := m }
  have hsent : d.modifiers.foldlM (pfSend gather) start = .ok { start with toPfField := f } :=
    foldlM_pfSend_modifiers rfl (fun ch hch => mem_modifiers d hch) hmodifiers
  have hconv : pfSend gather { start with toPfField := f } d.conv.char = _ := pfSend_conv hparsed h rfl
  rw [vprintf, Directive.format, List.foldlM_cons]
  change (d.modifiers ++ [d.conv.char]).foldlM (pfSend gather) start = _
  rw [List.foldlM_append, hsent]
  change List.foldlM (pfSend gather) { start with toPfField := f } [d.conv.char] = _
  rw [List.foldlM_cons, hconv]
  rfl

/-! ## Reading it back -/

/-- The text a directive emits is read as its argument, and it is as long as the field width if that is more than
the number needs. -/
def Directive.KeepsValue (d : Directive) (arg : VaArg) (m : Memory) : Prop :=
  ∃ pf, vprintf gather [] d.format [arg] m = .ok pf ∧
    readNumber d.conv.base d.lead pf.clientdata = some (d.value arg) ∧
    pf.clientdata.length = max d.width (d.unpadded arg)

theorem one_lt_base (conv : PfConv) : 1 < conv.base := by
  cases conv <;> decide

theorem base_le (conv : PfConv) : conv.base ≤ 16 := by
  cases conv <;> decide

theorem notMem_number {c : Char} (hc : c = ' ' ∨ c = '-') (j k : Nat) :
    c ∉ d.lead ++ (List.replicate j '0' ++ d.digits arg ++ List.replicate k '0') := by
  have hvalue : digitValue c = 16 := by
    rcases hc with rfl | rfl <;> rfl
  have hzero : c ≠ '0' := by
    rintro rfl
    exact absurd hvalue (by decide)
  have hlead : c ∉ d.lead := by
    have hx : c ≠ 'x' := by
      rcases hc with rfl | rfl <;> decide
    unfold Directive.lead
    split
    · split <;> simp [hzero, hx]
    · exact List.not_mem_nil
  have hdigits : c ∉ d.digits arg := fun hmem => by
    have hlt := digitValue_lt_of_mem (one_lt_base d.conv) (base_le d.conv) hmem
    have hle := base_le d.conv
    omega
  simp [hlead, hdigits, hzero]

theorem readNumber_padded_number (d : Directive) (arg : VaArg) (j j' k k' : Nat) :
    readNumber d.conv.base d.lead (List.replicate j ' ' ++
        (d.sign arg ++ d.lead ++ (List.replicate j' '0' ++ d.digits arg ++ List.replicate k' '0')) ++
        List.replicate k ' ') =
      some (d.value arg * d.conv.base ^ k') := by
  have hpos : 0 < d.conv.base := Nat.zero_lt_of_lt (one_lt_base d.conv)
  have hne : List.replicate j' '0' ++ d.digits arg ++ List.replicate k' '0' ≠ [] := by
    simp [Directive.digits, Nat.toDigits_ne_nil]
  have hdigits : readDigits d.conv.base (List.replicate j' '0' ++ d.digits arg ++ List.replicate k' '0') =
      some ((d.value arg).natAbs * d.conv.base ^ k') := by
    rw [readDigits_append_zeros hpos, readDigits_zeros_append hpos, Directive.digits,
      readDigits_toDigits (one_lt_base d.conv) (base_le d.conv)]
    rfl
  refine (readNumber_padded hne (notMem_number (.inl rfl) j' k') (notMem_number (.inr rfl) j' k')
    (decide (d.value arg < 0)) j k).trans ?_
  rw [hdigits, Option.map_some]
  by_cases hneg : d.value arg < 0
  · rw [decide_eq_true hneg, if_pos rfl, Nat.cast_mul, ← Int.neg_mul, Int.ofNat_natAbs_of_nonpos hneg.le,
      Int.neg_neg, Nat.cast_pow]
  · rw [decide_eq_false hneg, if_neg (by decide), Nat.cast_mul, Int.natAbs_of_nonneg (Int.not_lt.mp hneg),
      Nat.cast_pow]

theorem unpadded_lt (h : d.Takes arg) : d.unpadded arg < 2 ^ 31 := by
  obtain ⟨num, hnum, -⟩ := pfGetnum_ok (f := { size := d.size }) h rfl rfl []
  have hfits : (d.value arg).natAbs < d.conv.base ^ 22 := by
    have hoctal : 8 ^ 22 ≤ d.conv.base ^ 22 := Nat.pow_le_pow_left (by have := base_cases d.conv; omega) 22
    have hlt := num.isLt
    omega
  have hdigits : (d.digits arg).length ≤ 22 :=
    (Nat.length_toDigits_le_iff (one_lt_base d.conv) (by decide)).mpr hfits
  have hsign : (d.sign arg).length ≤ 1 := by
    unfold Directive.sign
    split <;> decide
  have hlead : d.lead.length ≤ 2 := by
    unfold Directive.lead
    split
    · split <;> decide
    · decide
  unfold Directive.unpadded
  omega

theorem toInt_spacing (hparsed : d.Parsed f) (hwidth : d.width < 2 ^ 31) : f.spacing.toInt = d.width := by
  rw [(hparsed.width hwidth).1, BitVec.toInt_eq_toNat_of_lt] <;> rw [BitVec.toNat_ofNat] <;> omega

theorem readNumber_field (hparsed : d.Parsed f) (h : d.Takes arg) (hwidth : d.width < 2 ^ 31) :
    readNumber d.conv.base d.lead (padded f (d.sign arg) d.lead (d.digits arg)) =
      some (d.value arg *
        d.conv.base ^ if .minus ∈ d.flags ∧ .zero ∈ d.flags then d.width - d.unpadded arg else 0) := by
  have hpadding : pfPadding f ((d.sign arg).length + d.lead.length + (d.digits arg).length) =
      d.width - d.unpadded arg := by
    refine (pfPadding_eq f (unpadded_lt h)).trans ?_
    rw [toInt_spacing hparsed hwidth, Directive.unpadded]
    omega
  have hread := readNumber_padded_number d arg
  simp only [padded, hpadding, hparsed.rightspc, (hparsed.width hwidth).2, decide_eq_true_eq]
  generalize d.width - d.unpadded arg = k
  by_cases hminus : PfFlag.minus ∈ d.flags
  · by_cases hzero : PfFlag.zero ∈ d.flags
    · simpa [hminus, hzero] using hread 0 0 0 k
    · simpa [hminus, hzero] using hread 0 0 k 0
  · by_cases hzero : PfFlag.zero ∈ d.flags
    · simpa [hminus, hzero] using hread 0 k 0 0
    · simpa [hminus, hzero] using hread k 0 0 0

/-- Printed integers keep their value, unless zeros are to be padded on the right of a number that is not 0, or the
field width overflows. -/
theorem number_kept_iff (h : d.Takes arg) (m : Memory) :
    d.KeepsValue arg m ↔ d.width < 2 ^ 31 ∧
      ¬ (.minus ∈ d.flags ∧ .zero ∈ d.flags ∧ d.unpadded arg < d.width ∧ d.value arg ≠ 0) := by
  obtain ⟨f, hparsed, hrun⟩ := vprintf_directive h
  have hkeeps : d.KeepsValue arg m ↔
      readNumber d.conv.base d.lead (padded f (d.sign arg) d.lead (d.digits arg)) = some (d.value arg) ∧
      (padded f (d.sign arg) d.lead (d.digits arg)).length = max d.width (d.unpadded arg) := by
    refine ⟨fun ⟨pf, hrun', hkept⟩ => ?_, fun hkept => ⟨_, hrun [] m, hkept⟩⟩
    cases (hrun [] m).symm.trans hrun'
    exact hkept
  have hunpadded := unpadded_lt h
  have hlength := length_padded f (d.sign arg) d.lead (d.digits arg)
  change _ = d.unpadded arg + pfPadding f (d.unpadded arg) at hlength
  rw [pfPadding_eq f hunpadded] at hlength
  rw [hkeeps]
  by_cases hwidth : d.width < 2 ^ 31
  · have hint := toInt_spacing hparsed hwidth
    have hfield : (padded f (d.sign arg) d.lead (d.digits arg)).length = max d.width (d.unpadded arg) := by omega
    rw [and_iff_left hfield, and_iff_right hwidth, readNumber_field hparsed h hwidth, Option.some.injEq]
    by_cases hboth : PfFlag.minus ∈ d.flags ∧ PfFlag.zero ∈ d.flags
    · have hone : (d.conv.base : Int) ^ (d.width - d.unpadded arg) = 1 ↔ d.width - d.unpadded arg = 0 := by
        rw [← Nat.cast_pow, Nat.cast_eq_one, Nat.pow_eq_one, or_iff_right (one_lt_base d.conv).ne']
      rw [if_pos hboth, mul_right_eq_self₀, hone]
      refine ⟨fun hor hbad => ?_, fun hok => ?_⟩
      · rcases hor with hzero | hzero
        · omega
        · exact hbad.2.2.2 hzero
      · by_contra hnone
        push Not at hnone
        exact hok ⟨hboth.1, hboth.2, by omega, hnone.2⟩
    · rw [if_neg hboth, Int.pow_zero, Int.mul_one]
      exact iff_of_true rfl fun hbad => hboth ⟨hbad.1, hbad.2.1⟩
  · -- An `int` is never that large.
    have hspacing : f.spacing.toInt < 2 ^ 31 := BitVec.toInt_lt
    refine ⟨fun hkept => absurd hkept.2 ?_, fun hkept => absurd hkept.1 hwidth⟩
    omega

/-- A memory of zeros. -/
def blankMemory : Memory where
  cells _ := 0
  reads := []
  writes := []

/-- `%#08x` of 42 is `0x00002a`. -/
theorem hex_kept : Directive.Takes ⟨[.alt, .zero], 8, 0, .x⟩ (.word 42) ∧
    Directive.KeepsValue ⟨[.alt, .zero], 8, 0, .x⟩ (.word 42) blankMemory := by
  have htakes : Directive.Takes ⟨[.alt, .zero], 8, 0, .x⟩ (.word 42) := Or.inr (by decide)
  exact ⟨htakes, (number_kept_iff htakes blankMemory).mpr (by decide)⟩

/-- `%-05d` of 42 is `42000`. -/
theorem forty_two_thousand : Directive.Takes ⟨[.minus, .zero], 5, 0, .d⟩ (.word 42) ∧
    ¬ Directive.KeepsValue ⟨[.minus, .zero], 5, 0, .d⟩ (.word 42) blankMemory := by
  refine ⟨Or.inr (by decide), ?_⟩
  rintro ⟨pf, hrun, hread, -⟩
  have htext : (vprintf gather [] ['%', '-', '0', '5', 'd'] [.word 42] blankMemory).map (·.clientdata) =
      .ok ['4', '2', '0', '0', '0'] := rfl
  change vprintf gather [] ['%', '-', '0', '5', 'd'] [.word 42] blankMemory = .ok pf at hrun
  rw [hrun] at htext
  have hsent : pf.clientdata = ['4', '2', '0', '0', '0'] := Except.ok.inj htext
  rw [hsent] at hread
  exact absurd hread (by decide)

end Os161.Kern

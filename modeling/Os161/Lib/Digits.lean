import Mathlib.Data.List.Basic
import Mathlib.Data.Nat.Digits.Defs
import Mathlib.Tactic.Common

/-!
# Reading numbers

What a text says as a number: spaces around it do not count, a minus sign may come first, then a fixed lead, then
digits in a base of at most 16. Nothing here is about how numbers are printed, except that `Nat.toDigits` is read
back.
-/

namespace Os161.Lib

variable {base n d : Nat} {c : Char} {l : List Char}
variable {lead : List Char}

/-! ## Digits -/

/-- The value of a character as a digit, 16 if it is none. -/
def digitValue (c : Char) : Nat :=
  if '0' ≤ c ∧ c ≤ '9' then c.toNat - '0'.toNat
  else if 'a' ≤ c ∧ c ≤ 'f' then c.toNat - 'a'.toNat + 10
  else 16

/-- One more digit behind a number. -/
def pushDigit (base n : Nat) (c : Char) : Option Nat :=
  if digitValue c < base then some (n * base + digitValue c) else none

/-- The value of digits, the most significant first. -/
def readDigits (base : Nat) (l : List Char) : Option Nat := l.foldlM (pushDigit base) 0

theorem digitValue_digitChar (h : d < 16) : digitValue d.digitChar = d := by
  have hall : ∀ d < 16, digitValue d.digitChar = d := by decide
  exact hall d h

theorem readDigits_append (l l' : List Char) :
    readDigits base (l ++ l') = (readDigits base l).bind fun n => l'.foldlM (pushDigit base) n :=
  List.foldlM_append

theorem readDigits_concat (l : List Char) (c : Char) :
    readDigits base (l ++ [c]) = (readDigits base l).bind fun n => pushDigit base n c := by
  rw [readDigits_append]
  congr 1
  funext n
  rw [List.foldlM_cons]
  exact Option.bind_fun_some _

theorem readDigits_toDigits (hbase : 1 < base) (hle : base ≤ 16) (n : Nat) :
    readDigits base (base.toDigits n) = some n := by
  induction n using Nat.strongRecOn with
  | ind n ih =>
    rw [Nat.toDigits_eq_if hbase]
    split
    · rename_i hlt
      have hdigit := digitValue_digitChar (Nat.lt_of_lt_of_le hlt hle)
      change readDigits base ([] ++ [n.digitChar]) = some n
      rw [readDigits_concat]
      change pushDigit base 0 n.digitChar = some n
      rw [pushDigit, hdigit, if_pos hlt, Nat.zero_mul, Nat.zero_add]
    · rename_i hge
      have hpos : 0 < base := Nat.zero_lt_of_lt hbase
      have hmod := Nat.mod_lt n hpos
      have hdigit := digitValue_digitChar (Nat.lt_of_lt_of_le hmod hle)
      rw [readDigits_concat, ih (n / base) (Nat.div_lt_self (by omega) hbase)]
      change pushDigit base (n / base) (n % base).digitChar = some n
      rw [pushDigit, hdigit, if_pos hmod, Nat.div_add_mod']

theorem readDigits_append_zeros (hbase : 0 < base) (k : Nat) :
    readDigits base (l ++ List.replicate k '0') = (readDigits base l).map (· * base ^ k) := by
  induction k with
  | zero => simp
  | succ k ih =>
    rw [List.replicate_succ', ← List.append_assoc, readDigits_concat, ih]
    cases readDigits base l with
    | none => rfl
    | some n =>
      change pushDigit base (n * base ^ k) '0' = some (n * base ^ (k + 1))
      rw [pushDigit, if_pos (show digitValue '0' < base from hbase), Nat.pow_succ, Nat.mul_assoc]
      rfl

theorem readDigits_zeros_append (hbase : 0 < base) (k : Nat) :
    readDigits base (List.replicate k '0' ++ l) = readDigits base l := by
  have hzeros := readDigits_append_zeros (l := []) hbase k
  rw [List.nil_append] at hzeros
  rw [readDigits_append, hzeros]
  change (some (0 * base ^ k)).bind _ = _
  rw [Nat.zero_mul]
  rfl

theorem exists_of_mem_toDigits (hbase : 1 < base) (h : c ∈ base.toDigits n) : ∃ d < base, c = d.digitChar := by
  induction n using Nat.strongRecOn with
  | ind n ih =>
    rw [Nat.toDigits_eq_if hbase] at h
    split at h
    · rename_i hlt
      exact ⟨n, hlt, List.mem_singleton.mp h⟩
    · rcases List.mem_append.mp h with hmore | hlast
      · exact ih (n / base) (Nat.div_lt_self (by omega) hbase) hmore
      · exact ⟨n % base, Nat.mod_lt _ (by omega), List.mem_singleton.mp hlast⟩

theorem digitValue_lt_of_mem (hbase : 1 < base) (hle : base ≤ 16) (h : c ∈ base.toDigits n) :
    digitValue c < base := by
  obtain ⟨d, hd, rfl⟩ := exists_of_mem_toDigits hbase h
  rwa [digitValue_digitChar (Nat.lt_of_lt_of_le hd hle)]

theorem eq_zero_of_head_toDigits (hbase : 1 < base) (hle : base ≤ 16) (h : (base.toDigits n).head? = some '0') :
    n = 0 := by
  induction n using Nat.strongRecOn with
  | ind n ih =>
    rw [Nat.toDigits_eq_if hbase] at h
    split at h
    · rename_i hlt
      have hvalue := congrArg digitValue (Option.some.inj h)
      rwa [digitValue_digitChar (Nat.lt_of_lt_of_le hlt hle)] at hvalue
    · rename_i hge
      have hmore : (base.toDigits (n / base)).head? = some '0' := by
        rwa [List.head?_append_of_ne_nil _ Nat.toDigits_ne_nil] at h
      have hzero := ih (n / base) (Nat.div_lt_self (by omega) hbase) hmore
      exact absurd (Nat.div_eq_zero_iff_lt (by omega) |>.mp hzero) hge

/-! ## Spaces -/

/-- A text without the spaces around it. -/
def strip (l : List Char) : List Char := ((l.dropWhile (· = ' ')).reverse.dropWhile (· = ' ')).reverse

theorem dropWhile_spaces (h : l.head? ≠ some ' ') (k : Nat) :
    (List.replicate k ' ' ++ l).dropWhile (· = ' ') = l := by
  induction k with
  | zero =>
    cases l with
    | nil => rfl
    | cons c rest =>
      have hc : c ≠ ' ' := fun heq => h (by rw [heq]; rfl)
      exact List.dropWhile_cons_of_neg (by simpa using hc)
  | succ k ih =>
    rw [List.replicate_succ, List.cons_append, List.dropWhile_cons_of_pos (by decide), ih]

theorem strip_spaces (hne : l ≠ []) (h : ' ' ∉ l) (j k : Nat) :
    strip (List.replicate j ' ' ++ l ++ List.replicate k ' ') = l := by
  have hhead : (l ++ List.replicate k ' ').head? ≠ some ' ' := by
    cases l with
    | nil => exact absurd rfl hne
    | cons c rest => exact fun heq => h (List.mem_of_head? heq)
  have hlast : l.reverse.head? ≠ some ' ' := by
    exact fun heq => h (List.mem_reverse.mp (List.mem_of_head? heq))
  unfold strip
  rw [List.append_assoc, dropWhile_spaces hhead, List.reverse_append, List.reverse_replicate,
    dropWhile_spaces hlast, List.reverse_reverse]

/-! ## Numbers -/

/-- The value of a lead and digits behind it, at least one. -/
def readMagnitude (base : Nat) (lead l : List Char) : Option Nat :=
  if l.take lead.length = lead ∧ lead.length < l.length then readDigits base (l.drop lead.length) else none

/-- The value of a text. -/
def readNumber (base : Nat) (lead text : List Char) : Option Int :=
  match strip text with
  | '-' :: rest => (readMagnitude base lead rest).map fun n : Nat => -(n : Int)
  | rest => (readMagnitude base lead rest).map fun n : Nat => (n : Int)

theorem readMagnitude_append (hne : l ≠ []) :
    readMagnitude base lead (lead ++ l) = readDigits base l := by
  rw [readMagnitude, if_pos, List.drop_left]
  refine ⟨List.take_left, ?_⟩
  rw [List.length_append]
  exact Nat.lt_add_of_pos_right (List.length_pos_iff.mpr hne)

theorem readNumber_padded (hne : l ≠ []) (hspace : ' ' ∉ lead ++ l) (hminus : '-' ∉ lead ++ l)
    (negative : Bool) (j k : Nat) :
    readNumber base lead
        (List.replicate j ' ' ++ ((if negative then ['-'] else []) ++ lead ++ l) ++ List.replicate k ' ') =
      (readDigits base l).map fun n : Nat => if negative then -(n : Int) else n := by
  cases negative with
  | true =>
    have hcore : ' ' ∉ '-' :: (lead ++ l) := by simpa using hspace
    have hstrip := strip_spaces (List.cons_ne_nil _ _) hcore j k
    unfold readNumber
    simp only [if_true, List.cons_append, List.nil_append] at hstrip ⊢
    rw [hstrip]
    change (readMagnitude base lead (lead ++ l)).map _ = _
    rw [readMagnitude_append hne]
  | false =>
    have hcore : lead ++ l ≠ [] := fun heq => hne (List.append_eq_nil_iff.mp heq).2
    have hstrip := strip_spaces hcore hspace j k
    unfold readNumber
    simp only [Bool.false_eq_true, if_false, List.nil_append] at hstrip ⊢
    rw [hstrip]
    split
    · rename_i rest heq
      exact absurd (heq ▸ List.mem_cons_self) hminus
    · rw [readMagnitude_append hne]

end Os161.Lib

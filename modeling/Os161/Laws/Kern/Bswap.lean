import Mathlib.Tactic.IntervalCases
import Os161.Kern.Bswap

/-!
# What byte swapping does

`bswap32` reverses the bytes of a word. In `bswap64` two of the eight terms are shifted the wrong way: byte 4 of the
argument comes to lie on byte 5 of the result, where byte 2 of the argument belongs, and byte 5 is shifted out.
-/

namespace Os161.Kern

variable {w : Nat} {x y : BitVec 64} {k : Nat}

/-- Byte `k` of a value, the least significant one first. -/
def byte (x : BitVec w) (k : Nat) : BitVec 8 := x.extractLsb' (8 * k) 8

theorem eq_iff_bytes : x = y ↔ ∀ k < 8, byte x k = byte y k := by
  refine ⟨fun h k _ => by rw [h], fun h => BitVec.eq_of_getLsbD_eq fun i hi => ?_⟩
  have hbit := congrArg (BitVec.getLsbD · (i % 8)) (h (i / 8) (by omega))
  simpa [byte, Nat.mod_lt, Nat.div_add_mod] using hbit

theorem byte_bswap32 (a : Word) (hk : k < 4) : byte (bswap32 a) k = byte a (3 - k) := by
  refine BitVec.eq_of_getLsbD_eq fun i hi => ?_
  simp only [byte, bswap32, BitVec.getLsbD_extractLsb', BitVec.getLsbD_or, BitVec.getLsbD_shiftLeft,
    BitVec.getLsbD_ushiftRight, BitVec.getLsbD_and]
  interval_cases k <;> interval_cases i <;> simp

theorem byte_join32to64 (a b : Word) (hk : k < 8) :
    byte (join32to64 a b) k = if k < 4 then byte b k else byte a (k - 4) := by
  refine BitVec.eq_of_getLsbD_eq fun i hi => ?_
  interval_cases k <;> interval_cases i <;> simp [byte, join32to64]

theorem byte_bswap64 (x : BitVec 64) (hk : k < 8) :
    byte (bswap64 x) k =
      [byte x 7, byte x 6, 0#8, 0#8, byte x 3, byte x 2 ||| byte x 4, byte x 1, byte x 0].getD k 0#8 := by
  refine BitVec.eq_of_getLsbD_eq fun i hi => ?_
  simp only [byte, bswap64, BitVec.getLsbD_extractLsb', BitVec.getLsbD_or, BitVec.getLsbD_shiftLeft,
    BitVec.getLsbD_ushiftRight, BitVec.getLsbD_and]
  interval_cases k <;> interval_cases i <;> simp

theorem bswap64_join32to64_iff (a b : Word) :
    bswap64 (join32to64 a b) = join32to64 (bswap32 b) (bswap32 a) ↔ byte a 0 = 0#8 ∧ byte a 1 = 0#8 := by
  rw [eq_iff_bytes]
  constructor
  · intro h
    have h₂ := h 2 (by decide)
    have h₃ := h 3 (by decide)
    simp [byte_bswap64, byte_join32to64, byte_bswap32] at h₂ h₃
    exact ⟨h₃.symm, h₂.symm⟩
  · rintro ⟨h₀, h₁⟩ k hk
    rw [byte_bswap64 _ hk, byte_join32to64 _ _ hk]
    interval_cases k <;> simp [byte_join32to64, byte_bswap32, h₀, h₁]

theorem bswap64_bswap64_iff (x : BitVec 64) :
    bswap64 (bswap64 x) = x ↔ byte x 2 = 0#8 ∧ byte x 3 = 0#8 ∧ byte x 4 = 0#8 ∧ byte x 5 = 0#8 := by
  rw [eq_iff_bytes]
  constructor
  · intro h
    have hbyte (k : Nat) (hk : k < 8) := (byte_bswap64 (bswap64 x) hk).symm.trans (h k hk)
    have h₂ := hbyte 2 (by decide)
    have h₃ := hbyte 3 (by decide)
    have h₄ := hbyte 4 (by decide)
    have h₅ := hbyte 5 (by decide)
    simp [byte_bswap64] at h₂ h₃ h₄ h₅
    exact ⟨h₂.symm, h₃.symm, h₄.symm, by rw [← h₅, ← h₃]⟩
  · rintro ⟨h₂, h₃, h₄, h₅⟩ k hk
    rw [byte_bswap64 _ hk]
    interval_cases k <;> simp [byte_bswap64, h₂, h₃, h₄, h₅]

theorem bswap64_reverses_iff (x : BitVec 64) :
    (∀ k < 8, byte (bswap64 x) k = byte x (7 - k)) ↔ byte x 4 = 0#8 ∧ byte x 5 = 0#8 := by
  constructor
  · intro h
    have h₂ := h 2 (by decide)
    have h₃ := h 3 (by decide)
    rw [byte_bswap64 _ (by decide)] at h₂ h₃
    exact ⟨h₃.symm, h₂.symm⟩
  · rintro ⟨h₄, h₅⟩ k hk
    rw [byte_bswap64 _ hk]
    interval_cases k <;> simp [h₄, h₅]

/-- When each of the laws of byte swapping holds. -/
theorem bswap64_laws_iff (a b : Word) (x : BitVec 64) :
    (bswap64 (join32to64 a b) = join32to64 (bswap32 b) (bswap32 a) ↔ byte a 0 = 0#8 ∧ byte a 1 = 0#8) ∧
      (bswap64 (bswap64 x) = x ↔ byte x 2 = 0#8 ∧ byte x 3 = 0#8 ∧ byte x 4 = 0#8 ∧ byte x 5 = 0#8) ∧
      ((∀ k < 8, byte (bswap64 x) k = byte x (7 - k)) ↔ byte x 4 = 0#8 ∧ byte x 5 = 0#8) :=
  ⟨bswap64_join32to64_iff a b, bswap64_bswap64_iff x, bswap64_reverses_iff x⟩

/-- Of eight different bytes two are lost. -/
theorem bswap64_of_eight_bytes :
    bswap64 0x0102030405060708#64 = 0x0807060500000201#64 ∧
      bswap64 (join32to64 0x01020304#32 0x05060708#32) ≠
        join32to64 (bswap32 0x05060708#32) (bswap32 0x01020304#32) ∧
      bswap64 (bswap64 0x0102030405060708#64) ≠ 0x0102030405060708#64 := by
  decide

end Os161.Kern

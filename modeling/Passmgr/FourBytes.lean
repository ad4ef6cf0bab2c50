/-
# Four bytes as a number

The big-endian reading of four bytes and its inverse.

Main definitions:

* `FourBytes.value` — the number of four bytes;
* `FourBytes.ofNat` — the four bytes of a number.

Main results:

* `FourBytes.value_ofNat`, `FourBytes.ofNat_value` — each undoes the other.
-/

import Mathlib.Algebra.Group.Nat.Defs
import Mathlib.Data.Finite.Defs
import Mathlib.Data.Fintype.EquivFin

set_option relaxedAutoImplicit false
set_option autoImplicit false

@[ext]
structure FourBytes where
  b0 : UInt8
  b1 : UInt8
  b2 : UInt8
  b3 : UInt8
  deriving DecidableEq, Repr

/-- The number of four bytes, the first one the highest. -/
def FourBytes.value (buf : FourBytes) : ℕ :=
  (buf.b0.toUInt32 <<< 24 ||| buf.b1.toUInt32 <<< 16 ||| buf.b2.toUInt32 <<< 8 |||
    buf.b3.toUInt32).toNat

theorem FourBytes.value_eq (buf : FourBytes) :
    buf.value = buf.b0.toNat * 2 ^ 24 + (buf.b1.toNat * 2 ^ 16 + (buf.b2.toNat * 2 ^ 8 +
      buf.b3.toNat)) := by
  have h0 := buf.b0.toNat_lt
  have h1 := buf.b1.toNat_lt
  have h2 := buf.b2.toNat_lt
  have h3 := buf.b3.toNat_lt
  have hlow := Nat.shiftLeft_add_eq_or_of_lt h3 buf.b2.toNat
  have hmid : buf.b2.toNat <<< 8 + buf.b3.toNat < 2 ^ 16 := by
    rw [Nat.shiftLeft_eq]
    omega
  have hhigh : buf.b1.toNat <<< 16 + (buf.b2.toNat <<< 8 + buf.b3.toNat) < 2 ^ 24 := by
    rw [Nat.shiftLeft_eq, Nat.shiftLeft_eq]
    omega
  -- no shift leaves the 32 bits
  have hshift0 : buf.b0.toNat <<< 24 % 2 ^ 32 = buf.b0.toNat <<< 24 := by
    rw [Nat.shiftLeft_eq]
    omega
  have hshift1 : buf.b1.toNat <<< 16 % 2 ^ 32 = buf.b1.toNat <<< 16 := by
    rw [Nat.shiftLeft_eq]
    omega
  have hshift2 : buf.b2.toNat <<< 8 % 2 ^ 32 = buf.b2.toNat <<< 8 := by
    rw [Nat.shiftLeft_eq]
    omega
  unfold FourBytes.value
  rw [UInt32.toNat_or, UInt32.toNat_or, UInt32.toNat_or, UInt32.toNat_shiftLeft,
    UInt32.toNat_shiftLeft, UInt32.toNat_shiftLeft, UInt8.toNat_toUInt32, UInt8.toNat_toUInt32,
    UInt8.toNat_toUInt32, UInt8.toNat_toUInt32]
  change buf.b0.toNat <<< 24 % 2 ^ 32 ||| buf.b1.toNat <<< 16 % 2 ^ 32 |||
    buf.b2.toNat <<< 8 % 2 ^ 32 ||| buf.b3.toNat = _
  rw [hshift0, hshift1, hshift2, Nat.or_assoc, Nat.or_assoc, ← hlow,
    ← Nat.shiftLeft_add_eq_or_of_lt hmid, ← Nat.shiftLeft_add_eq_or_of_lt hhigh,
    Nat.shiftLeft_eq, Nat.shiftLeft_eq, Nat.shiftLeft_eq]

theorem FourBytes.value_lt (buf : FourBytes) : buf.value < 2 ^ 32 := by
  have h0 := buf.b0.toNat_lt
  have h1 := buf.b1.toNat_lt
  have h2 := buf.b2.toNat_lt
  have h3 := buf.b3.toNat_lt
  rw [buf.value_eq]
  omega

/-- The four bytes of a number. -/
def FourBytes.ofNat (n : ℕ) : FourBytes where
  b0 := UInt8.ofNat (n / 2 ^ 24)
  b1 := UInt8.ofNat (n / 2 ^ 16)
  b2 := UInt8.ofNat (n / 2 ^ 8)
  b3 := UInt8.ofNat n

theorem FourBytes.value_ofNat {n : ℕ} (h : n < 2 ^ 32) : (FourBytes.ofNat n).value = n := by
  rw [FourBytes.value_eq]
  simp only [FourBytes.ofNat, UInt8.toNat_ofNat']
  omega

theorem FourBytes.ofNat_value (buf : FourBytes) : FourBytes.ofNat buf.value = buf := by
  obtain ⟨b0, b1, b2, b3⟩ := buf
  have h0 := b0.toNat_lt
  have h1 := b1.toNat_lt
  have h2 := b2.toNat_lt
  have h3 := b3.toNat_lt
  rw [FourBytes.value_eq, FourBytes.ofNat]
  dsimp only
  congr 1 <;>
    · rw [← UInt8.toNat_inj, UInt8.toNat_ofNat']
      omega

theorem FourBytes.value_injective : Function.Injective FourBytes.value :=
  Function.LeftInverse.injective FourBytes.ofNat_value

instance FourBytes.finite : Finite FourBytes :=
  Finite.of_injective (fun buf => (⟨buf.value, buf.value_lt⟩ : Fin (2 ^ 32))) fun _ _ h =>
    FourBytes.value_injective (congrArg Fin.val h)

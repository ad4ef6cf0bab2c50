/-
# Base64

The coding of bytes by groups of three as four symbols, over any alphabet, with padding.  The
reader takes padded texts only and does not look at the bits that are left over in front of the
padding.

Main definitions:

* `Base64.Alphabet` — 64 symbols, each with its value, and the padding;
* `Base64.encode`, `Base64.decode` — the coding.

Main results:

* `Base64.decode_encode` — a coded text reads back;
* `Base64.mem_encode` — what it consists of.
-/

import Mathlib.Data.Nat.Notation

set_option relaxedAutoImplicit false
set_option autoImplicit false

namespace Base64

variable {σ : Type}

/-- The symbols of the numbers below 64, and the padding. -/
structure Alphabet (σ : Type) where
  symbol : ℕ → σ
  value : σ → Option ℕ
  pad : σ
  value_symbol : ∀ n < 64, value (symbol n) = some n
  value_pad : value pad = none

variable (A : Alphabet σ)

/-- The symbols of some bytes. -/
def encode : List UInt8 → List σ
  | [] => []
  | [a] => [A.symbol (a.toNat / 4), A.symbol (a.toNat % 4 * 16), A.pad, A.pad]
  | [a, b] =>
    [A.symbol (a.toNat / 4), A.symbol (a.toNat % 4 * 16 + b.toNat / 16),
      A.symbol (b.toNat % 16 * 4), A.pad]
  | a :: b :: c :: rest =>
    A.symbol (a.toNat / 4) :: A.symbol (a.toNat % 4 * 16 + b.toNat / 16) ::
      A.symbol (b.toNat % 16 * 4 + c.toNat / 64) :: A.symbol (c.toNat % 64) :: encode rest

/-- The bytes of a text; none where it is not a padded text of the alphabet. -/
def decode [DecidableEq σ] : List σ → Option (List UInt8)
  | [] => some []
  | w :: x :: y :: z :: rest =>
    match A.value w, A.value x, A.value y, A.value z with
    | some p, some q, some r, some s =>
      (decode rest).map fun bytes =>
        UInt8.ofNat (p * 4 + q / 16) :: UInt8.ofNat (q % 16 * 16 + r / 4) ::
          UInt8.ofNat (r % 4 * 64 + s) :: bytes
    | some p, some q, some r, none =>
      if z = A.pad ∧ rest = [] then
        some [UInt8.ofNat (p * 4 + q / 16), UInt8.ofNat (q % 16 * 16 + r / 4)]
      else none
    | some p, some q, none, none =>
      if y = A.pad ∧ z = A.pad ∧ rest = [] then some [UInt8.ofNat (p * 4 + q / 16)] else none
    | _, _, _, _ => none
  | _ => none

/-- A byte from its parts. -/
theorem ofNat_eq {a : UInt8} {n : ℕ} (h : n = a.toNat) : UInt8.ofNat n = a := by
  rw [h, UInt8.ofNat_toNat]

variable {A}

/-- **A coded text reads back.** -/
theorem decode_encode [DecidableEq σ] (bytes : List UInt8) :
    decode A (encode A bytes) = some bytes := by
  induction bytes using encode.induct with
  | case1 => rfl
  | case2 a =>
      have ha := a.toNat_lt
      rw [encode, decode, A.value_symbol _ (by omega), A.value_symbol _ (by omega), A.value_pad]
      dsimp only
      rw [if_pos ⟨rfl, rfl, rfl⟩, @ofNat_eq a _ (by omega)]
  | case3 a b =>
      have ha := a.toNat_lt
      have hb := b.toNat_lt
      rw [encode, decode, A.value_symbol _ (by omega), A.value_symbol _ (by omega),
        A.value_symbol _ (by omega), A.value_pad]
      dsimp only
      rw [if_pos ⟨rfl, rfl⟩, @ofNat_eq a _ (by omega), @ofNat_eq b _ (by omega)]
  | case4 a b c rest ih =>
      have ha := a.toNat_lt
      have hb := b.toNat_lt
      have hc := c.toNat_lt
      rw [encode, decode, A.value_symbol _ (by omega), A.value_symbol _ (by omega),
        A.value_symbol _ (by omega), A.value_symbol _ (by omega)]
      dsimp only
      rw [ih, Option.map_some, @ofNat_eq a _ (by omega), @ofNat_eq b _ (by omega),
        @ofNat_eq c _ (by omega)]

/-- A coded text consists of symbols and padding. -/
theorem mem_encode {bytes : List UInt8} {s : σ} (h : s ∈ encode A bytes) :
    s = A.pad ∨ ∃ n < 64, s = A.symbol n := by
  induction bytes using encode.induct with
  | case1 => cases h
  | case2 a =>
      have ha := a.toNat_lt
      simp only [encode, List.mem_cons, List.not_mem_nil, or_false] at h
      rcases h with rfl | rfl | rfl | rfl
      · exact .inr ⟨_, by omega, rfl⟩
      · exact .inr ⟨_, by omega, rfl⟩
      · exact .inl rfl
      · exact .inl rfl
  | case3 a b =>
      have ha := a.toNat_lt
      have hb := b.toNat_lt
      simp only [encode, List.mem_cons, List.not_mem_nil, or_false] at h
      rcases h with rfl | rfl | rfl | rfl
      · exact .inr ⟨_, by omega, rfl⟩
      · exact .inr ⟨_, by omega, rfl⟩
      · exact .inr ⟨_, by omega, rfl⟩
      · exact .inl rfl
  | case4 a b c rest ih =>
      have ha := a.toNat_lt
      have hb := b.toNat_lt
      have hc := c.toNat_lt
      simp only [encode, List.mem_cons] at h
      rcases h with rfl | rfl | rfl | rfl | h
      · exact .inr ⟨_, by omega, rfl⟩
      · exact .inr ⟨_, by omega, rfl⟩
      · exact .inr ⟨_, by omega, rfl⟩
      · exact .inr ⟨_, by omega, rfl⟩
      · exact ih h

/-- A coded text is not shorter than its bytes. -/
theorem length_le_encode (bytes : List UInt8) : bytes.length ≤ (encode A bytes).length := by
  induction bytes using encode.induct with
  | case1 => exact Nat.le_refl 0
  | case2 a => exact Nat.le_of_ble_eq_true rfl
  | case3 a b => exact Nat.le_of_ble_eq_true rfl
  | case4 a b c rest ih =>
      rw [encode]
      simp only [List.length_cons]
      omega

end Base64

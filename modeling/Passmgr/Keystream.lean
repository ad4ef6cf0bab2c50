/-
# A keystream

Bytes XORed with the bytes of a keystream from some place on.

Main definitions:

* `xorFrom` — the XOR of some bytes with a keystream.

Main results:

* `xorFrom_append` — parts are XORed with consecutive parts of the keystream;
* `xorFrom_xorFrom` — the same part of the keystream once more gives the bytes back.
-/

import Mathlib.Data.Nat.Notation

set_option relaxedAutoImplicit false
set_option autoImplicit false

namespace Keystream

/-- Bytes XORed with a keystream from `offset` on. -/
def xorFrom (key : ℕ → UInt8) : ℕ → List UInt8 → List UInt8
  | _, [] => []
  | offset, byte :: bytes => (byte ^^^ key offset) :: xorFrom key (offset + 1) bytes

variable (key : ℕ → UInt8)

@[simp] theorem length_xorFrom (offset : ℕ) (bytes : List UInt8) :
    (xorFrom key offset bytes).length = bytes.length := by
  induction bytes generalizing offset with
  | nil => rfl
  | cons byte bytes ih => rw [xorFrom, List.length_cons, List.length_cons, ih]

theorem xorFrom_append (offset : ℕ) (a b : List UInt8) :
    xorFrom key offset (a ++ b) = xorFrom key offset a ++ xorFrom key (offset + a.length) b := by
  induction a generalizing offset with
  | nil => rfl
  | cons byte a ih =>
    rw [List.cons_append, xorFrom, xorFrom, ih, List.cons_append, List.length_cons]
    congr 3
    omega

theorem xorFrom_xorFrom (offset : ℕ) (bytes : List UInt8) :
    xorFrom key offset (xorFrom key offset bytes) = bytes := by
  induction bytes generalizing offset with
  | nil => rfl
  | cons byte bytes ih =>
    rw [xorFrom, xorFrom, ih, UInt8.xor_assoc, UInt8.xor_self, UInt8.xor_zero]

/-- No keystream. -/
theorem xorFrom_zero (offset : ℕ) (bytes : List UInt8) : xorFrom (fun _ => 0) offset bytes = bytes := by
  induction bytes generalizing offset with
  | nil => rfl
  | cons byte bytes ih => rw [xorFrom, ih, UInt8.xor_zero]

end Keystream

/-
# Cipher block chaining

A permutation of blocks, chained: each block is mixed with the encryption of the block before it.
Over blocks that change nothing when they are mixed in, the chain is the iteration of the
permutation.  Nothing here is about a particular cipher.

Main definitions:

* `Cbc.encrypt` — the chain over a list of blocks.

Main results:

* `Cbc.encrypt_append` — the blocks before are encrypted as if nothing followed;
* `Cbc.encrypt_replicate_succ` — the chain over neutral blocks.
-/

import Mathlib.Logic.Function.Iterate

set_option relaxedAutoImplicit false
set_option autoImplicit false

namespace Cbc

variable {β : Type} (permute : β → β) (mix : β → β → β)

/-- The encryption of blocks; the first one is mixed with the initialization vector. -/
def encrypt (iv : β) : List β → List β
  | [] => []
  | block :: blocks => permute (mix block iv) :: encrypt (permute (mix block iv)) blocks

variable {permute mix}

@[simp] theorem encrypt_nil (iv : β) : encrypt permute mix iv [] = [] := rfl

@[simp] theorem length_encrypt (iv : β) (blocks : List β) :
    (encrypt permute mix iv blocks).length = blocks.length := by
  induction blocks generalizing iv with
  | nil => rfl
  | cons block blocks ih => rw [encrypt, List.length_cons, List.length_cons, ih]

/-- What follows starts from the last block. -/
theorem encrypt_append (iv : β) (blocks rest : List β) :
    encrypt permute mix iv (blocks ++ rest) = encrypt permute mix iv blocks ++
      encrypt permute mix ((encrypt permute mix iv blocks).getLastD iv) rest := by
  induction blocks generalizing iv with
  | nil => rfl
  | cons block blocks ih =>
      rw [List.cons_append, encrypt, encrypt, ih, List.cons_append, List.getLastD_cons]

/-- Over neutral blocks every step encrypts what the last one gave. -/
theorem getLastD_encrypt_replicate {neutral : β} {iv : β} (n : ℕ)
    (hneutral : ∀ i < n, mix neutral (permute^[i] iv) = permute^[i] iv) :
    (encrypt permute mix iv (List.replicate n neutral)).getLastD iv = permute^[n] iv := by
  induction n with
  | zero => rfl
  | succ n ih =>
      rw [List.replicate_succ', encrypt_append, ih fun i hi => hneutral i (Nat.lt_succ_of_lt hi),
        encrypt, encrypt_nil, List.getLastD_concat, hneutral n (Nat.lt_succ_self n),
        Function.iterate_succ_apply']

theorem encrypt_replicate_succ {neutral : β} {iv : β} (n : ℕ)
    (hneutral : ∀ i < n + 1, mix neutral (permute^[i] iv) = permute^[i] iv) :
    encrypt permute mix iv (List.replicate (n + 1) neutral) =
      encrypt permute mix iv (List.replicate n neutral) ++ [permute^[n + 1] iv] := by
  rw [List.replicate_succ', encrypt_append,
    getLastD_encrypt_replicate n fun i hi => hneutral i (Nat.lt_succ_of_lt hi), encrypt,
    encrypt_nil, hneutral n (Nat.lt_succ_self n), ← Function.iterate_succ_apply' permute n iv]

end Cbc

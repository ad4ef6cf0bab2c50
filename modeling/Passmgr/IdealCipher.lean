/-
# Ideal ciphers

What a development of a protocol assumes of its cryptography when the cryptography itself is not
its subject: an authenticated cipher with associated data, and boxes sealed from one key pair to
another.  Keys, nonces, associated data, plaintexts and ciphertexts are words of one type `W`, as
keys are encrypted too.

Main definitions:

* `Ciphers` — the operations, each with its randomness as an argument;
* `Ciphers.Correct` — what was encrypted or sealed opens again;
* `Ciphers.Ideal` — and nothing else opens;
* `Learned` — what somebody who sees ciphertexts and knows some words can open;
* `wordCiphers` — an instance whose ciphertexts spell out what they are made of.

Main results:

* `Ciphers.Ideal.opened_as_made`, `Ciphers.Ideal.unsealed_as_made` — a ciphertext opens only under
  the key, the nonce and the associated data it was made with;
* `wordCiphers_ideal` — the assumptions can be met.
-/

import Mathlib.Data.List.Basic

set_option relaxedAutoImplicit false
set_option autoImplicit false

namespace IdealCipher

/-! ### The operations -/

/-- An authenticated cipher and sealed boxes over the words `W`.  `sealTo` may refuse a public
key. -/
structure Ciphers (W : Type) where
  encrypt : (key nonce aad data : W) → W
  decrypt : (key ciphertext nonce aad : W) → Option W
  publicKey : (privateKey : W) → W
  sealTo : (ephemeralKey nonce senderPrivateKey recipientPublicKey data aad : W) → Option W
  unsealFrom : (privateKey senderPublicKey box aad : W) → Option W

namespace Ciphers

variable {W : Type} {C : Ciphers W}

/-- What was encrypted opens under the same key, nonce and associated data, and what was sealed
opens with the recipient's private and the sender's public key. -/
structure Correct (C : Ciphers W) : Prop where
  decrypt_encrypt : ∀ k n a d, C.decrypt k (C.encrypt k n a d) n a = some d
  unsealFrom_sealTo : ∀ {e n s r d a b}, C.sealTo e n s (C.publicKey r) d a = some b →
    C.unsealFrom r (C.publicKey s) b a = some d

/-- Besides, whatever opens was made with the same words, a ciphertext determines them, and no
sealed box is a ciphertext of the cipher. -/
structure Ideal (C : Ciphers W) : Prop extends Correct C where
  encrypt_of_decrypt : ∀ {k c n a d}, C.decrypt k c n a = some d → c = C.encrypt k n a d
  encrypt_inj : ∀ {k n a d k' n' a' d'}, C.encrypt k n a d = C.encrypt k' n' a' d' →
    k = k' ∧ n = n' ∧ a = a' ∧ d = d'
  sealTo_of_unsealFrom : ∀ {r q b a d}, C.unsealFrom r q b a = some d →
    ∃ e n s, C.publicKey s = q ∧ C.sealTo e n s (C.publicKey r) d a = some b
  sealTo_inj : ∀ {e n s p d a e' n' s' p' d' a' b}, C.sealTo e n s p d a = some b →
    C.sealTo e' n' s' p' d' a' = some b → C.publicKey s = C.publicKey s' ∧ p = p' ∧ d = d' ∧ a = a'
  box_ne_encrypt : ∀ {e n s p d a b}, C.sealTo e n s p d a = some b →
    ∀ k n' a' d', b ≠ C.encrypt k n' a' d'

theorem Ideal.opened_as_made (hC : C.Ideal) {k n a d k' n' a' d' : W}
    (h : C.decrypt k (C.encrypt k' n' a' d') n a = some d) : k = k' ∧ n = n' ∧ a = a' ∧ d = d' :=
  hC.encrypt_inj (hC.encrypt_of_decrypt h).symm

theorem Ideal.unsealed_as_made (hC : C.Ideal) {e n s p d a r q a' d' b : W}
    (hb : C.sealTo e n s p d a = some b) (h : C.unsealFrom r q b a' = some d') :
    C.publicKey s = q ∧ p = C.publicKey r ∧ d = d' ∧ a = a' := by
  obtain ⟨e', n', s', rfl, hb'⟩ := hC.sealTo_of_unsealFrom h
  exact hC.sealTo_inj hb hb'

end Ciphers

/-! ### What somebody can learn -/

section Learned

variable {W : Type} (C : Ciphers W)

/-- What somebody learns who knows the words `known` and sees the ciphertexts `seen`: whatever
opens with what they have learned. -/
inductive Learned (seen known : W → Prop) : W → Prop
  | known {w : W} (h : known w) : Learned seen known w
  | decrypt {k c n a d : W} (hk : Learned seen known k) (hc : seen c)
      (h : C.decrypt k c n a = some d) : Learned seen known d
  | unsealFrom {r q b a d : W} (hr : Learned seen known r) (hb : seen b)
      (h : C.unsealFrom r q b a = some d) : Learned seen known d

/-- Whether somebody who has learned what `learned` holds of can have made a ciphertext: they
know the key and the contents. -/
def MadeFrom (learned : W → Prop) (c : W) : Prop :=
  ∃ k n a d, learned k ∧ learned d ∧ c = C.encrypt k n a d

variable {C}

/-- Nobody made a ciphertext who does not know what it opens to. -/
theorem not_madeFrom (hC : C.Ideal) {learned : W → Prop} {k c n a d : W}
    (h : C.decrypt k c n a = some d) (hd : ¬ learned d) : ¬ MadeFrom C learned c := by
  rintro ⟨k', n', a', d', -, hd', rfl⟩
  obtain ⟨-, -, -, rfl⟩ := hC.opened_as_made h
  exact hd hd'

end Learned

/-! ### Ciphertexts that spell out what they are made of -/

/-- A character of a word: a full stop and a tilde stand after a tilde. -/
def escaped (c : Char) : List Char := if c = '~' ∨ c = '.' then ['~', c] else [c]

/-- Several words as one: each is followed by a full stop. -/
def pack (words : List (List Char)) : List Char :=
  words.flatMap fun word => word.flatMap escaped ++ ['.']

/-- The words of a packed one; `word` is the one being read, reversed. -/
def unpackFrom : List Char → List Char → List (List Char)
  | word, '.' :: rest => word.reverse :: unpackFrom [] rest
  | word, '~' :: c :: rest => unpackFrom (c :: word) rest
  | word, c :: rest => unpackFrom (c :: word) rest
  | _, [] => []

theorem unpackFrom_word (word read rest : List Char) :
    unpackFrom read (word.flatMap escaped ++ '.' :: rest)
      = (read.reverse ++ word) :: unpackFrom [] rest := by
  induction word generalizing read with
  | nil => simp [unpackFrom]
  | cons c word ih =>
    have hread : unpackFrom read (escaped c ++ (word.flatMap escaped ++ '.' :: rest)) =
        unpackFrom (c :: read) (word.flatMap escaped ++ '.' :: rest) := by
      unfold escaped
      split
      · simp [unpackFrom]
      · next hplain =>
        obtain ⟨htilde, hstop⟩ := not_or.1 hplain
        rw [List.singleton_append, unpackFrom]
        · exact hstop
        · exact fun _ _ h => absurd h htilde
    rw [List.flatMap_cons, List.append_assoc, hread, ih]
    simp

theorem unpack_pack (words : List (List Char)) : unpackFrom [] (pack words) = words := by
  induction words with
  | nil => rfl
  | cons word words ih =>
    have hcons : pack (word :: words) = word.flatMap escaped ++ '.' :: pack words := by
      simp [pack]
    rw [hcons, unpackFrom_word, ih]
    simp

theorem pack_inj {words words' : List (List Char)} (h : pack words = pack words') :
    words = words' := by
  rw [← unpack_pack words, h, unpack_pack]

/-- Ciphers over texts: a ciphertext names its key, a box its two public keys, and a public key is
its private key behind a mark. -/
def wordCiphers : Ciphers (List Char) where
  encrypt k n a d := pack [k, n, a, d]
  decrypt k c n a :=
    match unpackFrom [] c with
    | [_, _, _, d] => if c = pack [k, n, a, d] then some d else none
    | _ => none
  publicKey k := 'p' :: k
  sealTo e n s p d a := some (pack [e, n, 'p' :: s, p, d, a])
  unsealFrom r q b a :=
    match unpackFrom [] b, q with
    | [e, n, _, _, d, _], 'p' :: s =>
      if b = pack [e, n, 'p' :: s, 'p' :: r, d, a] then some d else none
    | _, _ => none

theorem wordCiphers_ideal : wordCiphers.Ideal where
  decrypt_encrypt k n a d := by simp [wordCiphers, unpack_pack]
  unsealFrom_sealTo := by
    rintro e n s r d a b h
    cases h
    simp [wordCiphers, unpack_pack]
  encrypt_of_decrypt := by
    intro k c n a d h
    simp only [wordCiphers] at h ⊢
    split at h
    · split at h
      · next hc =>
        cases h
        exact hc
      · cases h
    · cases h
  encrypt_inj h := by simpa using pack_inj h
  sealTo_of_unsealFrom := by
    intro r q b a d h
    simp only [wordCiphers] at h
    split at h
    · next e n _ _ d' _ s _ =>
      split at h
      · next hb =>
        cases h
        exact ⟨e, n, s, rfl, by simp only [wordCiphers, ← hb]⟩
      · cases h
    · cases h
  sealTo_inj := by
    intro e n s p d a e' n' s' p' d' a' b h h'
    have hpack := pack_inj (Option.some.inj (h.trans h'.symm))
    simp only [List.cons.injEq, and_true] at hpack
    obtain ⟨-, -, ⟨-, rfl⟩, rfl, rfl, rfl⟩ := hpack
    exact ⟨rfl, rfl, rfl, rfl⟩
  box_ne_encrypt := by
    rintro e n s p d a b h k n' a' d' rfl
    simpa using pack_inj (Option.some.inj h)

end IdealCipher

/-
# The key derivation of KeePass files

`aesKdf` of `packages/crypto/src/kdbx.ts`: both halves of a key are encrypted many times.  It is
computed as AES-CBC over blocks of zeros, in chunks, where the last block of a chunk is the
initialization vector of the next one.  With WebCrypto a chunk is padded by one more block.

AES and SHA-256 are parameters: a function of a key and a block that keeps the length of a block,
and a function of bytes.

Main definitions:

* `aesCbc`, `webCryptoEncrypt` — AES-CBC without and with padding;
* `encryptChain`, `aesKdf` — a chunk, and all of them.

Main results:

* `encryptChain_eq` — a chunk is so many encryptions of its initialization vector;
* `aesKdf_eq` — the derivation is the one defined by rounds of AES-ECB.
-/

import Passmgr.Cbc

set_option relaxedAutoImplicit false
set_option autoImplicit false

namespace Passmgr

abbrev Bytes := List UInt8

/-! ### AES-CBC -/

/-- `concat` of what follows in pieces of the size of a block. -/
def blocksOf : ℕ → Bytes → List Bytes
  | 0, _ => []
  | n + 1, bytes => bytes.take 16 :: blocksOf n (bytes.drop 16)

def xorBytes (a b : Bytes) : Bytes := List.zipWith (· ^^^ ·) a b

section Kdf

variable (aes : Bytes → Bytes → Bytes)

/-- AES-CBC of whole blocks. -/
def aesCbc (key iv data : Bytes) : Bytes :=
  (Cbc.encrypt (aes key) xorBytes iv (blocksOf (data.length / 16) data)).flatten

/-- AES-CBC as WebCrypto does it: the data is padded to whole blocks, by one block at least a
byte of. -/
def webCryptoEncrypt (key iv data : Bytes) : Bytes :=
  let padding := 16 - data.length % 16
  aesCbc aes key iv (data ++ List.replicate padding (UInt8.ofNat padding))

/-- `AES_KDF_CHUNK_BLOCKS`. -/
def aesKdfChunkBlocks : ℕ := 262144

/-- `encryptChain`; `subtle` says whether there is WebCrypto. -/
def encryptChain (subtle : Bool) (seed iv : Bytes) (blocks : ℕ) : Bytes :=
  let zeros := List.replicate (blocks * 16) 0
  if subtle then
    let out := webCryptoEncrypt aes seed iv zeros
    (out.take (blocks * 16)).drop (blocks * 16 - 16)
  else
    let out := aesCbc aes seed iv zeros
    out.drop (out.length - 16)

/-- The loop over the chunks of a half. -/
def kdfLoop (subtle : Bool) (seed : Bytes) (rounds : ℕ) (half : Bytes) (done : ℕ) : Bytes :=
  if done < rounds then
    kdfLoop subtle seed rounds
      (encryptChain aes subtle seed half (min aesKdfChunkBlocks (rounds - done)))
      (done + aesKdfChunkBlocks)
  else half
termination_by rounds - done
decreasing_by
  unfold aesKdfChunkBlocks
  omega

/-- `aesKdf`. -/
def aesKdf (sha256 : Bytes → Bytes) (subtle : Bool) (key seed : Bytes) (rounds : ℕ) : Bytes :=
  let halves := [key.take 16, (key.take 32).drop 16]
  sha256 (halves.map fun half => kdfLoop aes subtle seed rounds half 0).flatten

end Kdf

/-! ### Blocks of zeros -/

theorem zero_xorBytes (n : ℕ) (block : Bytes) (h : block.length = n) :
    xorBytes (List.replicate n 0) block = block := by
  subst h
  induction block with
  | nil => rfl
  | cons byte block ih =>
      rw [List.length_cons, List.replicate_succ, xorBytes, List.zipWith_cons_cons,
        UInt8.zero_xor]
      exact congrArg (byte :: ·) ih

theorem blocksOf_append (n : ℕ) {block : Bytes} (h : block.length = 16) (rest : Bytes) :
    blocksOf (n + 1) (block ++ rest) = block :: blocksOf n rest := by
  rw [blocksOf, List.take_left' h, List.drop_left' h]

/-- The blocks of a text of zeros, and of what follows it. -/
theorem blocksOf_zeros (n m : ℕ) (rest : Bytes) :
    blocksOf (n + m) (List.replicate (n * 16) 0 ++ rest) =
      List.replicate n (List.replicate 16 0) ++ blocksOf m rest := by
  induction n with
  | zero => rw [Nat.zero_add, Nat.zero_mul, List.replicate_zero, List.nil_append,
      List.replicate_zero, List.nil_append]
  | succ n ih =>
      have hzeros : List.replicate ((n + 1) * 16) (0 : UInt8) =
          List.replicate 16 0 ++ List.replicate (n * 16) 0 := by
        rw [List.replicate_append_replicate]
        congr 1
        omega
      have hlen : n + 1 + m = n + m + 1 := by omega
      rw [hzeros, hlen, List.append_assoc, blocksOf_append _ (List.length_replicate ..), ih,
        List.replicate_succ (n := n), List.cons_append]

/-! ### A chunk -/

section Chain

variable {aes : Bytes → Bytes → Bytes} {seed iv : Bytes}

/-- AES keeps the length of a block. -/
def KeepsBlocks (aes : Bytes → Bytes → Bytes) : Prop :=
  ∀ key block, block.length = 16 → (aes key block).length = 16

theorem length_iterate (haes : KeepsBlocks aes) (hiv : iv.length = 16) (n : ℕ) :
    ((aes seed)^[n] iv).length = 16 := by
  induction n with
  | zero => exact hiv
  | succ n ih =>
      rw [Function.iterate_succ_apply']
      exact haes seed _ ih

/-- The encryption of blocks of zeros. -/
def zeroChain (aes : Bytes → Bytes → Bytes) (seed iv : Bytes) (n : ℕ) : List Bytes :=
  Cbc.encrypt (aes seed) xorBytes iv (List.replicate n (List.replicate 16 0))

theorem zeroChain_succ (haes : KeepsBlocks aes) (hiv : iv.length = 16) (n : ℕ) :
    zeroChain aes seed iv (n + 1) = zeroChain aes seed iv n ++ [(aes seed)^[n + 1] iv] :=
  Cbc.encrypt_replicate_succ n fun i _ => zero_xorBytes 16 _ (length_iterate haes hiv i)

theorem length_flatten_zeroChain (haes : KeepsBlocks aes) (hiv : iv.length = 16) (n : ℕ) :
    (zeroChain aes seed iv n).flatten.length = n * 16 := by
  induction n with
  | zero => rfl
  | succ n ih =>
      rw [zeroChain_succ haes hiv, List.flatten_append, List.length_append, ih,
        List.flatten_singleton, length_iterate haes hiv]
      omega

/-- Without padding the chain is all there is. -/
theorem aesCbc_zeros (n : ℕ) :
    aesCbc aes seed iv (List.replicate (n * 16) 0) = (zeroChain aes seed iv n).flatten := by
  unfold aesCbc zeroChain
  have hblocks := blocksOf_zeros n 0 []
  rw [List.append_nil, Nat.add_zero] at hblocks
  rw [List.length_replicate, Nat.mul_div_cancel _ (by decide), hblocks, blocksOf, List.append_nil]

/-- With padding one more block follows it. -/
theorem webCryptoEncrypt_zeros (n : ℕ) :
    ∃ last, webCryptoEncrypt aes seed iv (List.replicate (n * 16) 0) =
      (zeroChain aes seed iv n).flatten ++ last := by
  unfold webCryptoEncrypt
  dsimp only
  rw [List.length_replicate, Nat.mul_mod_left, Nat.sub_zero]
  unfold aesCbc zeroChain
  have hlength : (List.replicate (n * 16) (0 : UInt8) ++
      List.replicate 16 (UInt8.ofNat 16)).length / 16 = n + 1 := by
    rw [List.length_append, List.length_replicate, List.length_replicate]
    omega
  rw [hlength, blocksOf_zeros, Cbc.encrypt_append, List.flatten_append]
  exact ⟨_, rfl⟩

/-- **A chunk is so many encryptions** of its initialization vector, with WebCrypto or without. -/
theorem encryptChain_eq (haes : KeepsBlocks aes) (hiv : iv.length = 16) (subtle : Bool) {n : ℕ}
    (hn : 0 < n) : encryptChain aes subtle seed iv n = (aes seed)^[n] iv := by
  obtain ⟨n, rfl⟩ := Nat.exists_eq_add_one.2 hn
  have hbefore : (zeroChain aes seed iv n).flatten.length = n * 16 :=
    length_flatten_zeroChain haes hiv n
  have hall : (zeroChain aes seed iv (n + 1)).flatten.length = (n + 1) * 16 :=
    length_flatten_zeroChain haes hiv (n + 1)
  have hchain : (zeroChain aes seed iv (n + 1)).flatten =
      (zeroChain aes seed iv n).flatten ++ (aes seed)^[n + 1] iv := by
    rw [zeroChain_succ haes hiv, List.flatten_append, List.flatten_singleton]
  have hstart : (n + 1) * 16 - 16 = n * 16 := by omega
  unfold encryptChain
  dsimp only
  split
  · obtain ⟨last, hout⟩ : ∃ last, webCryptoEncrypt aes seed iv (List.replicate ((n + 1) * 16) 0) =
        (zeroChain aes seed iv (n + 1)).flatten ++ last := webCryptoEncrypt_zeros (n + 1)
    rw [hout, List.take_left' hall, hstart, hchain, List.drop_left' hbefore]
  · rw [aesCbc_zeros, hall, hstart, hchain, List.drop_left' hbefore]

/-- The chunks together are the rounds that are left. -/
theorem kdfLoop_eq (haes : KeepsBlocks aes) (subtle : Bool) (rounds : ℕ) {half : Bytes}
    (hhalf : half.length = 16) (done : ℕ) :
    kdfLoop aes subtle seed rounds half done = (aes seed)^[rounds - done] half := by
  fun_induction kdfLoop aes subtle seed rounds half done with
  | case1 half done hlt ih =>
      have hchunk : 0 < min aesKdfChunkBlocks (rounds - done) := by
        unfold aesKdfChunkBlocks
        omega
      have hchain :
          encryptChain aes subtle seed half (min aesKdfChunkBlocks (rounds - done)) =
            (aes seed)^[min aesKdfChunkBlocks (rounds - done)] half :=
        encryptChain_eq haes hhalf subtle hchunk
      rw [hchain] at ih ⊢
      rw [ih (length_iterate haes hhalf _), ← Function.iterate_add_apply]
      congr 1
      unfold aesKdfChunkBlocks
      omega
  | case2 half done hge =>
      have hnone : rounds - done = 0 := by omega
      rw [hnone]
      rfl

end Chain

/-- **The derivation in chunks is the plain one**: the hash of both halves of the key, each
encrypted `rounds` times. -/
theorem aesKdf_eq {aes : Bytes → Bytes → Bytes} (haes : KeepsBlocks aes)
    (sha256 : Bytes → Bytes) (subtle : Bool) {key seed : Bytes} (hkey : key.length = 32)
    (rounds : ℕ) :
    aesKdf aes sha256 subtle key seed rounds =
      sha256 ((aes seed)^[rounds] (key.take 16) ++ (aes seed)^[rounds] (key.drop 16)) := by
  have hfirst : (key.take 16).length = 16 := by
    rw [List.length_take, hkey]
    rfl
  have hlast : (key.drop 16).length = 16 := by rw [List.length_drop, hkey]
  unfold aesKdf
  dsimp only
  rw [List.take_of_length_le (Nat.le_of_eq hkey), List.map_cons, List.map_cons, List.map_nil,
    kdfLoop_eq haes subtle rounds hfirst, kdfLoop_eq haes subtle rounds hlast]
  simp

section Vector

/-- The example vector of AES-256: the key and the plaintext. -/
def vectorKey : Bytes := (List.range 32).map UInt8.ofNat

def vectorBlock : Bytes := (List.range 16).map fun i => UInt8.ofNat (17 * i)

def vectorCipher : Bytes :=
  [0x8e, 0xa2, 0xb7, 0xca, 0x51, 0x67, 0x45, 0xbf, 0xea, 0xfc, 0x49, 0x90, 0x4b, 0x49, 0x60, 0x89]

/-- AES-256 at the vector. -/
def vectorAes (key block : Bytes) : Bytes :=
  if key = vectorKey ∧ block = vectorBlock then vectorCipher else block

/-- SHA-256 at the two encrypted halves. -/
def vectorSha256 (bytes : Bytes) : Bytes :=
  if bytes = vectorCipher ++ vectorCipher then
    [0xa1, 0xe0, 0x83, 0xff, 0x3a, 0x9e, 0x92, 0x1f, 0x0e, 0xc8, 0xf6, 0x4a, 0x1c, 0xe1, 0xf4, 0x6a,
      0xf3, 0x16, 0xae, 0xdc, 0x7e, 0x69, 0x67, 0xf7, 0x9e, 0x1c, 0x01, 0x27, 0xc9, 0x36, 0xb5, 0x7a]
  else []

theorem keepsBlocks_vectorAes : KeepsBlocks vectorAes := by
  intro key block h
  unfold vectorAes
  split
  · rfl
  · exact h

/-- A cipher that adds one to each byte, of which many rounds can be computed. -/
def addOne (_ block : Bytes) : Bytes := block.map (· + 1)

theorem keepsBlocks_addOne : KeepsBlocks addOne := by
  intro _ block h
  rw [← h]
  exact List.length_map ..

theorem iterate_addOne (key block : Bytes) (n : ℕ) :
    (addOne key)^[n] block = block.map (· + UInt8.ofNat n) := by
  induction n with
  | zero =>
      rw [Function.iterate_zero, id_eq]
      simp
  | succ n ih =>
      rw [Function.iterate_succ_apply', ih]
      unfold addOne
      rw [List.map_map]
      refine List.map_congr_left fun byte _ => ?_
      rw [Function.comp_apply, UInt8.ofNat_add, UInt8.add_assoc]
      rfl

/-- One round of AES, of a key both halves of which are the plaintext of the vector; and three
rounds more than a chunk of another cipher. -/
theorem aesKdf_eq_vector :
    aesKdf vectorAes vectorSha256 true (vectorBlock ++ vectorBlock) vectorKey 1 =
        vectorSha256 (vectorCipher ++ vectorCipher) ∧
      ∀ subtle, aesKdf addOne id subtle (vectorBlock ++ vectorCipher) vectorKey
          (aesKdfChunkBlocks + 3) =
        vectorBlock.map (· + 3) ++ vectorCipher.map (· + 3) := by
  refine ⟨aesKdf_eq keepsBlocks_vectorAes vectorSha256 true (by decide) 1, fun subtle => ?_⟩
  rw [aesKdf_eq keepsBlocks_addOne id subtle (by decide), iterate_addOne, iterate_addOne]
  decide

end Vector

end Passmgr

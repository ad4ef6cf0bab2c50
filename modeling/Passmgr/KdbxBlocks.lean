/-
# The block streams of KeePass files

`readHashedBlocks` and `readHmacBlocks` of `packages/crypto/src/kdbx.ts`: the content of a file in
blocks, each with its hash (KDBX 3.1) or with a MAC made with a key of the block's index (KDBX 4),
and an empty block at the end.

SHA-256, SHA-512 and HMAC-SHA-256 are parameters, of which the lengths are assumed.  That a MAC is
ideal is said of the bytes that are read: a tag in them is that of a block that was authenticated.

Main definitions:

* `readHashedBlocks`, `readHmacBlocks` — the loops; they are defined by recursion on what is left
  to read;
* `encodeHashed`, `encodeHmac` — the reference encodings, from an index on;
* `Unforged` — every tag among some bytes is that of an authenticated block.

Main results:

* `readHashedBlocks_encode`, `readHmacBlocks_encode` — the blocks of an encoding are read back;
* `readHmacBlocks_eq_ok` — what was read is an encoding;
* `kdbx_blocks` — all of it, with what an ideal MAC makes of it.
-/

import Passmgr.KdbxReader

set_option relaxedAutoImplicit false
set_option autoImplicit false

namespace Passmgr

/-! ### Hashed blocks -/

section Hashed

variable (sha256 : Bytes → Bytes)

/-- One turn of `readHashedBlocks`: a block, or none at the end. -/
def hashedBlock (r : Reader) : Except KdbxError (Option Bytes × Reader) := do
  let (_, r) ← r.u32
  let (hash, r) ← r.bytesOf 32
  let (size, r) ← r.i32
  let (data, r) ← r.bytesOf size
  if data.length = 0 then .ok (none, r)
  else if sha256 data ≠ hash then .error .hashMismatch
  else .ok (some data, r)

/-- A turn that returns has read a block, of 40 bytes at least. -/
theorem hashedBlock_eq_ok {r r' : Reader} {out : Option Bytes}
    (h : hashedBlock sha256 r = .ok (out, r')) :
    r'.bytes = r.bytes ∧ r.offset + 40 ≤ r'.offset := by
  obtain ⟨⟨index, r₁⟩, hindex, h⟩ := bind_eq_ok.1 h
  obtain ⟨⟨hash, r₂⟩, hhash, h⟩ := bind_eq_ok.1 h
  obtain ⟨⟨size, r₃⟩, hsize, h⟩ := bind_eq_ok.1 h
  obtain ⟨⟨data, r₄⟩, hdata, h⟩ := bind_eq_ok.1 h
  dsimp only at hhash hsize hdata h
  have h1 := (u32_eq_ok hindex).2
  obtain ⟨-, hlen, h2⟩ := bytesOf_eq_ok hhash
  obtain ⟨hpos, -, h4⟩ := bytesOf_eq_ok hdata
  have h3 := (i32_eq_ok hsize hpos).2
  have hall := ((h1.trans h2).trans h3).trans h4
  have hr : r' = r₄ := by
    split at h
    · exact (Prod.mk.inj (Except.ok.inj h)).2.symm
    · split at h
      · cases h
      · exact (Prod.mk.inj (Except.ok.inj h)).2.symm
  subst hr
  refine ⟨hall.bytes, ?_⟩
  rw [hall.offset]
  simp only [List.length_append, length_le32, hlen]
  omega

/-- `readHashedBlocks`, after the blocks read before. -/
def readHashedBlocks (r : Reader) (blocks : List Bytes) : Except KdbxError (Bytes × Reader) :=
  match _h : hashedBlock sha256 r with
  | .error e => .error e
  | .ok (none, r') => .ok (blocks.flatten, r')
  | .ok (some data, r') => readHashedBlocks r' (blocks ++ [data])
termination_by r.bytes.length - r.offset
decreasing_by
  have hturn := hashedBlock_eq_ok sha256 _h
  have hle := r'.le
  rw [hturn.1] at hle ⊢
  omega

/-- The reference encoding of hashed blocks from an index on: the last one is empty, with a hash of
zeros. -/
def encodeHashed (index : ℕ) : List Bytes → Bytes
  | [] => le32 (index % 2 ^ 32) ++ List.replicate 32 0 ++ le32 0
  | block :: blocks =>
    le32 (index % 2 ^ 32) ++ sha256 block ++ le32 block.length ++ block ++
      encodeHashed (index + 1) blocks

/-- A block that is there is read. -/
theorem hashedBlock_of_rest {r : Reader} {index : ℕ} {hash data after : Bytes}
    (hhash : hash.length = 32) (hsize : data.length < 2 ^ 31)
    (hmatch : data ≠ [] → sha256 data = hash)
    (h : r.rest = le32 (index % 2 ^ 32) ++ hash ++ le32 data.length ++ data ++ after) :
    ∃ r', hashedBlock sha256 r = .ok (if data = [] then none else some data, r') ∧
      Reads r r' (le32 (index % 2 ^ 32) ++ hash ++ le32 data.length ++ data) ∧
      r'.rest = after := by
  have hindex : index % 2 ^ 32 < 2 ^ 32 := Nat.mod_lt _ (by decide)
  obtain ⟨r₁, hu32, h1, hrest⟩ := u32_of_rest hindex (by simpa only [List.append_assoc] using h)
  obtain ⟨r₂, hbytes, h2, hrest⟩ := bytesOf_of_rest hrest
  obtain ⟨r₃, hi32, h3, hrest⟩ := i32_of_rest hsize hrest
  obtain ⟨r₄, hdata, h4, hrest⟩ := bytesOf_of_rest hrest
  rw [hhash] at hbytes
  refine ⟨r₄, ?_, ((h1.trans h2).trans h3).trans h4, hrest⟩
  refine bind_eq_ok.2 ⟨_, hu32, bind_eq_ok.2 ⟨_, hbytes, bind_eq_ok.2 ⟨_, hi32,
    bind_eq_ok.2 ⟨_, hdata, ?_⟩⟩⟩⟩
  dsimp only
  by_cases hnil : data = []
  · subst hnil
    rfl
  · rw [if_neg (by simpa using hnil), if_neg (by simpa using hmatch hnil), if_neg hnil]

/-- What the loop makes of a turn that returns. -/
theorem readHashedBlocks_of_block {r r' : Reader} {out : Option Bytes}
    (h : hashedBlock sha256 r = .ok (out, r')) (blocks : List Bytes) :
    readHashedBlocks sha256 r blocks =
      match out with
      | none => .ok (blocks.flatten, r')
      | some data => readHashedBlocks sha256 r' (blocks ++ [data]) := by
  rw [readHashedBlocks.eq_def]
  split
  · rename_i e herror
    exact nomatch herror.symm.trans h
  · rename_i r₁ hok
    obtain ⟨rfl, rfl⟩ := Prod.mk.inj (Except.ok.inj (hok.symm.trans h))
    rfl
  · rename_i data r₁ hok
    obtain ⟨rfl, rfl⟩ := Prod.mk.inj (Except.ok.inj (hok.symm.trans h))
    rfl

/-- The blocks of an encoding are read back, and the reader is behind it. -/
theorem readHashedBlocks_encode (hsha : ∀ data, (sha256 data).length = 32) (blocks : List Bytes)
    (hblocks : ∀ block ∈ blocks, block ≠ [] ∧ block.length < 2 ^ 31) (index : ℕ) {r : Reader}
    (before : List Bytes) {after : Bytes} (h : r.rest = encodeHashed sha256 index blocks ++ after) :
    ∃ r', readHashedBlocks sha256 r before = .ok ((before ++ blocks).flatten, r') ∧
      Reads r r' (encodeHashed sha256 index blocks) ∧ r'.rest = after := by
  induction blocks generalizing index r before with
  | nil =>
    have hrest : r.rest = le32 (index % 2 ^ 32) ++ List.replicate 32 0 ++
        le32 ([] : Bytes).length ++ [] ++ after := by
      simpa only [encodeHashed, List.append_nil, List.length_nil] using h
    obtain ⟨r', hturn, hreads, hafter⟩ := hashedBlock_of_rest sha256 List.length_replicate
      (by decide) (fun hne => absurd rfl hne) hrest
    refine ⟨r', ?_, ?_, hafter⟩
    · rw [readHashedBlocks_of_block sha256 hturn, List.append_nil]
      rfl
    · simpa only [encodeHashed, List.append_nil, List.length_nil] using hreads
  | cons block blocks ih =>
    obtain ⟨⟨hne, hsize⟩, hrest⟩ := List.forall_mem_cons.1 hblocks
    obtain ⟨r₁, hturn, hreads, hafter⟩ := hashedBlock_of_rest sha256 (hsha block) hsize
      (fun _ => rfl) (by simpa only [encodeHashed, List.append_assoc] using h)
    obtain ⟨r', hloop, hreads', hafter'⟩ := ih hrest (index + 1) (before ++ [block]) hafter
    refine ⟨r', ?_, hreads.trans hreads', hafter'⟩
    rw [if_neg hne] at hturn
    rw [readHashedBlocks_of_block sha256 hturn]
    exact hloop.trans (by rw [List.append_assoc, List.singleton_append])

theorem hashedBlock_ne_rangeError (r : Reader) : hashedBlock sha256 r ≠ .error .rangeError := by
  refine bind_ne_error u32_ne_rangeError fun _ _ => bind_ne_error (bytesOf_ne_rangeError 32)
    fun _ _ => bind_ne_error i32_ne_rangeError fun _ _ => bind_ne_error
      (bytesOf_ne_rangeError _) fun _ _ => ?_
  dsimp only
  split
  · exact fun h => nomatch h
  · split
    · exact fun h => nomatch h
    · exact fun h => nomatch h

/-- The loop ends, by a result or by an error of its own, and leaves the reader on its bytes. -/
theorem readHashedBlocks_ends (r : Reader) (blocks : List Bytes) :
    readHashedBlocks sha256 r blocks ≠ .error .rangeError ∧
      ∀ out r', readHashedBlocks sha256 r blocks = .ok (out, r') → r'.bytes = r.bytes := by
  fun_induction readHashedBlocks with
  | case1 r blocks e herror =>
    refine ⟨?_, fun _ _ h => nomatch h⟩
    rintro h
    obtain rfl := Except.error.inj h
    exact hashedBlock_ne_rangeError sha256 r herror
  | case2 r blocks r₁ hok =>
    refine ⟨(fun h => nomatch h), ?_⟩
    intro out r' h
    obtain ⟨-, rfl⟩ := Prod.mk.inj (Except.ok.inj h)
    exact (hashedBlock_eq_ok sha256 hok).1
  | case3 r blocks data r₁ hok ih =>
    exact ⟨ih.1, fun out r' h => (ih.2 out r' h).trans (hashedBlock_eq_ok sha256 hok).1⟩

end Hashed

/-! ### Blocks with a MAC -/

section Hmac

variable (sha512 : Bytes → Bytes) (hmac : Bytes → Bytes → Bytes) (hmacKey : Bytes)

/-- `blockHmacKey`. -/
def blockHmacKey (index : ℕ) : Bytes := sha512 (le64 index ++ hmacKey)

/-- The MAC of a block at an index. -/
def blockTag (index : ℕ) (data : Bytes) : Bytes :=
  hmac (blockHmacKey sha512 hmacKey index) (le64 index ++ le32 data.length ++ data)

/-- One turn of `readHmacBlocks`: a block, or none at the end. -/
def hmacBlock (index : ℕ) (r : Reader) : Except KdbxError (Option Bytes × Reader) := do
  let (mac, r) ← r.bytesOf 32
  let (size, r) ← r.i32
  let (data, r) ← r.bytesOf size
  let expected := hmac (blockHmacKey sha512 hmacKey index)
    (le64 index ++ le32 size.toNat ++ data)
  if expected ≠ mac then .error .hmacMismatch
  else if size = 0 then .ok (none, r)
  else .ok (some data, r)

/-- A turn that returns has read a block with its MAC. -/
theorem hmacBlock_eq_ok {index : ℕ} {r r' : Reader} {out : Option Bytes}
    (h : hmacBlock sha512 hmac hmacKey index r = .ok (out, r')) :
    ∃ data : Bytes, out = (if data = [] then none else some data) ∧ data.length < 2 ^ 31 ∧
      (blockTag sha512 hmac hmacKey index data).length = 32 ∧
      Reads r r' (blockTag sha512 hmac hmacKey index data ++ le32 data.length ++ data) := by
  obtain ⟨⟨mac, r₁⟩, hmacRead, h⟩ := bind_eq_ok.1 h
  obtain ⟨⟨size, r₂⟩, hsize, h⟩ := bind_eq_ok.1 h
  obtain ⟨⟨data, r₃⟩, hdata, h⟩ := bind_eq_ok.1 h
  dsimp only at hsize hdata h
  obtain ⟨-, hlen, h1⟩ := bytesOf_eq_ok hmacRead
  obtain ⟨hpos, hdataLen, h3⟩ := bytesOf_eq_ok hdata
  obtain ⟨hlt, h2⟩ := i32_eq_ok hsize hpos
  rw [← hdataLen] at h h2
  split at h
  · cases h
  rename_i htag
  have heq : blockTag sha512 hmac hmacKey index data = mac := not_not.1 htag
  have hreads := (h1.trans h2).trans h3
  refine ⟨data, ?_, by omega, heq ▸ hlen, ?_⟩
  · split at h
    · rename_i hzero
      rw [if_pos (List.length_eq_zero_iff.1 (by omega))]
      exact (Prod.mk.inj (Except.ok.inj h)).1.symm
    · rename_i hsome
      have hne : data ≠ [] := by
        rintro rfl
        rw [List.length_nil] at hdataLen
        omega
      rw [if_neg hne]
      exact (Prod.mk.inj (Except.ok.inj h)).1.symm
  · have hr : r' = r₃ := by
      split at h
      · exact (Prod.mk.inj (Except.ok.inj h)).2.symm
      · exact (Prod.mk.inj (Except.ok.inj h)).2.symm
    rw [hr, heq]
    exact hreads

/-- `readHmacBlocks`, after the blocks read before. -/
def readHmacBlocks (index : ℕ) (r : Reader) (blocks : List Bytes) :
    Except KdbxError (Bytes × Reader) :=
  match _h : hmacBlock sha512 hmac hmacKey index r with
  | .error e => .error e
  | .ok (none, r') => .ok (blocks.flatten, r')
  | .ok (some data, r') => readHmacBlocks (index + 1) r' (blocks ++ [data])
termination_by r.bytes.length - r.offset
decreasing_by
  obtain ⟨block, -, -, htag, hreads⟩ := hmacBlock_eq_ok sha512 hmac hmacKey _h
  have hle := r'.le
  have hoffset := hreads.offset
  simp only [List.length_append, htag, length_le32] at hoffset
  rw [hreads.bytes] at hle ⊢
  omega

/-- The reference encoding of blocks from an index on: the last one is empty. -/
def encodeHmac (index : ℕ) : List Bytes → Bytes
  | [] => blockTag sha512 hmac hmacKey index [] ++ le32 0
  | block :: blocks =>
    blockTag sha512 hmac hmacKey index block ++ le32 block.length ++ block ++
      encodeHmac (index + 1) blocks

/-- A block that is there is read. -/
theorem hmacBlock_of_rest {r : Reader} {index : ℕ} {data after : Bytes}
    (htag : (blockTag sha512 hmac hmacKey index data).length = 32) (hsize : data.length < 2 ^ 31)
    (h : r.rest = blockTag sha512 hmac hmacKey index data ++ le32 data.length ++ data ++ after) :
    ∃ r', hmacBlock sha512 hmac hmacKey index r =
        .ok (if data = [] then none else some data, r') ∧
      Reads r r' (blockTag sha512 hmac hmacKey index data ++ le32 data.length ++ data) ∧
      r'.rest = after := by
  obtain ⟨r₁, hbytes, h1, hrest⟩ := bytesOf_of_rest (by simpa only [List.append_assoc] using h)
  obtain ⟨r₂, hi32, h2, hrest⟩ := i32_of_rest hsize hrest
  obtain ⟨r₃, hdata, h3, hrest⟩ := bytesOf_of_rest hrest
  rw [htag] at hbytes
  refine ⟨r₃, ?_, (h1.trans h2).trans h3, hrest⟩
  refine bind_eq_ok.2 ⟨_, hbytes, bind_eq_ok.2 ⟨_, hi32, bind_eq_ok.2 ⟨_, hdata, ?_⟩⟩⟩
  have hsame : hmac (blockHmacKey sha512 hmacKey index)
      (le64 index ++ le32 data.length ++ data) = blockTag sha512 hmac hmacKey index data := rfl
  dsimp only
  rw [Int.toNat_natCast, hsame, if_neg (not_not.2 rfl)]
  by_cases hnil : data = []
  · subst hnil
    rfl
  · rw [if_neg (by simpa using hnil), if_neg hnil]

/-- What the loop makes of a turn that returns. -/
theorem readHmacBlocks_of_block {index : ℕ} {r r' : Reader} {out : Option Bytes}
    (h : hmacBlock sha512 hmac hmacKey index r = .ok (out, r')) (blocks : List Bytes) :
    readHmacBlocks sha512 hmac hmacKey index r blocks =
      match out with
      | none => .ok (blocks.flatten, r')
      | some data => readHmacBlocks sha512 hmac hmacKey (index + 1) r' (blocks ++ [data]) := by
  rw [readHmacBlocks.eq_def]
  split
  · rename_i e herror
    exact nomatch herror.symm.trans h
  · rename_i r₁ hok
    obtain ⟨rfl, rfl⟩ := Prod.mk.inj (Except.ok.inj (hok.symm.trans h))
    rfl
  · rename_i data r₁ hok
    obtain ⟨rfl, rfl⟩ := Prod.mk.inj (Except.ok.inj (hok.symm.trans h))
    rfl

/-- The blocks of an encoding are read back, and the reader is behind it. -/
theorem readHmacBlocks_encode (hlength : ∀ key data, (hmac key data).length = 32)
    (blocks : List Bytes) (hblocks : ∀ block ∈ blocks, block ≠ [] ∧ block.length < 2 ^ 31)
    (index : ℕ) {r : Reader} (before : List Bytes) {after : Bytes}
    (h : r.rest = encodeHmac sha512 hmac hmacKey index blocks ++ after) :
    ∃ r', readHmacBlocks sha512 hmac hmacKey index r before =
        .ok ((before ++ blocks).flatten, r') ∧
      Reads r r' (encodeHmac sha512 hmac hmacKey index blocks) ∧ r'.rest = after := by
  induction blocks generalizing index r before with
  | nil =>
    have hrest : r.rest = blockTag sha512 hmac hmacKey index [] ++ le32 ([] : Bytes).length ++
        [] ++ after := by
      simpa only [encodeHmac, List.append_nil, List.length_nil] using h
    obtain ⟨r', hturn, hreads, hafter⟩ :=
      hmacBlock_of_rest sha512 hmac hmacKey (hlength _ _) (by decide) hrest
    refine ⟨r', ?_, ?_, hafter⟩
    · rw [readHmacBlocks_of_block sha512 hmac hmacKey hturn, List.append_nil]
      rfl
    · simpa only [encodeHmac, List.append_nil, List.length_nil] using hreads
  | cons block blocks ih =>
    obtain ⟨⟨hne, hsize⟩, hrest⟩ := List.forall_mem_cons.1 hblocks
    obtain ⟨r₁, hturn, hreads, hafter⟩ :=
      hmacBlock_of_rest sha512 hmac hmacKey (hlength _ _) hsize
        (by simpa only [encodeHmac, List.append_assoc] using h)
    obtain ⟨r', hloop, hreads', hafter'⟩ := ih hrest (index + 1) (before ++ [block]) hafter
    refine ⟨r', ?_, hreads.trans hreads', hafter'⟩
    rw [if_neg hne] at hturn
    rw [readHmacBlocks_of_block sha512 hmac hmacKey hturn]
    exact hloop.trans (by rw [List.append_assoc, List.singleton_append])

/-- What was read is an encoding of blocks. -/
theorem readHmacBlocks_eq_ok (index : ℕ) (r : Reader) (before : List Bytes) {out : Bytes}
    {r' : Reader} (h : readHmacBlocks sha512 hmac hmacKey index r before = .ok (out, r')) :
    ∃ blocks : List Bytes, (∀ block ∈ blocks, block ≠ [] ∧ block.length < 2 ^ 31) ∧
      out = (before ++ blocks).flatten ∧
      Reads r r' (encodeHmac sha512 hmac hmacKey index blocks) := by
  fun_induction readHmacBlocks with
  | case1 => cases h
  | case2 index r before r₁ hok =>
    obtain ⟨rfl, rfl⟩ := Prod.mk.inj (Except.ok.inj h)
    obtain ⟨data, hout, -, -, hreads⟩ := hmacBlock_eq_ok sha512 hmac hmacKey hok
    have hnil : data = [] := by
      by_contra hne
      rw [if_neg hne] at hout
      cases hout
    subst hnil
    refine ⟨[], List.forall_mem_nil _, by rw [List.append_nil], ?_⟩
    simpa only [encodeHmac, List.append_nil, List.length_nil] using hreads
  | case3 index r before data r₁ hok ih =>
    obtain ⟨block, hout, hsize, -, hreads⟩ := hmacBlock_eq_ok sha512 hmac hmacKey hok
    obtain ⟨blocks, hblocks, rfl, hreads'⟩ := ih h
    have hne : block ≠ [] := by
      rintro rfl
      cases hout
    rw [if_neg hne] at hout
    obtain rfl := Option.some.inj hout
    refine ⟨data :: blocks, List.forall_mem_cons.2 ⟨⟨hne, hsize⟩, hblocks⟩, ?_,
      hreads.trans hreads'⟩
    rw [List.append_assoc, List.singleton_append]

theorem hmacBlock_ne_rangeError (index : ℕ) (r : Reader) :
    hmacBlock sha512 hmac hmacKey index r ≠ .error .rangeError := by
  refine bind_ne_error (bytesOf_ne_rangeError 32) fun _ _ => bind_ne_error i32_ne_rangeError
    fun _ _ => bind_ne_error (bytesOf_ne_rangeError _) fun _ _ => ?_
  dsimp only
  split
  · exact fun h => nomatch h
  · split
    · exact fun h => nomatch h
    · exact fun h => nomatch h

/-- The loop ends, by a result or by an error of its own. -/
theorem readHmacBlocks_ends (index : ℕ) (r : Reader) (blocks : List Bytes) :
    readHmacBlocks sha512 hmac hmacKey index r blocks ≠ .error .rangeError := by
  fun_induction readHmacBlocks with
  | case1 index r blocks e herror =>
    rintro h
    obtain rfl := Except.error.inj h
    exact hmacBlock_ne_rangeError sha512 hmac hmacKey index r herror
  | case2 => exact fun h => nomatch h
  | case3 index r blocks data r₁ hok ih => exact ih

/-! ### An ideal MAC -/

/-- The MAC is ideal, as far as these bytes go: every tag in them, of an index of 64 bits, is that
of a block that was authenticated at its index. -/
def Unforged (authenticated : ℕ → Bytes → Prop) (bytes : Bytes) : Prop :=
  ∀ index data before after, index < 2 ^ 64 →
    bytes = before ++ blockTag sha512 hmac hmacKey index data ++ after → authenticated index data

/-- No encoding has more blocks than bytes. -/
theorem length_le_encodeHmac (index : ℕ) (blocks : List Bytes) :
    blocks.length < (encodeHmac sha512 hmac hmacKey index blocks).length := by
  induction blocks generalizing index with
  | nil =>
    simp only [encodeHmac, List.length_append, length_le32, List.length_nil]
    omega
  | cons block blocks ih =>
    have hnext := ih (index + 1)
    simp only [encodeHmac, List.length_append, length_le32, List.length_cons]
    omega

/-- All blocks of an encoding among the bytes were authenticated, each at its index, and so was
the empty one at the end. -/
theorem authenticated_of_encode {authenticated : ℕ → Bytes → Prop} {bytes : Bytes}
    (hideal : Unforged sha512 hmac hmacKey authenticated bytes) (blocks : List Bytes)
    (index : ℕ) (hindex : index + blocks.length < 2 ^ 64) (before after : Bytes)
    (h : bytes = before ++ encodeHmac sha512 hmac hmacKey index blocks ++ after) :
    (∀ i (hi : i < blocks.length), authenticated (index + i) blocks[i]) ∧
      authenticated (index + blocks.length) [] := by
  induction blocks generalizing index before with
  | nil =>
    refine ⟨fun i hi => absurd hi (Nat.not_lt_zero i),
      hideal index [] before (le32 0 ++ after) hindex ?_⟩
    rw [h, encodeHmac]
    simp only [List.append_assoc]
  | cons block blocks ih =>
    rw [List.length_cons] at hindex
    obtain ⟨hblocks, hend⟩ := ih (index + 1) (by omega) (before ++ blockTag sha512 hmac hmacKey index block ++
      le32 block.length ++ block) (by
        rw [h, encodeHmac]
        simp only [List.append_assoc])
    have hfirst := hideal index block before (le32 block.length ++ block ++
      encodeHmac sha512 hmac hmacKey (index + 1) blocks ++ after) (by omega) (by
        rw [h, encodeHmac]
        simp only [List.append_assoc])
    refine ⟨?_, by rwa [List.length_cons, Nat.add_comm blocks.length 1, ← Nat.add_assoc]⟩
    intro i hi
    cases i with
    | zero => exact hfirst
    | succ i =>
      have hnext := hblocks i (by simpa using hi)
      rwa [Nat.add_assoc, Nat.add_comm 1 i] at hnext

/-- Blocks authenticated at the indexes of one stream are that stream's. -/
theorem eq_of_authenticated {original blocks : List Bytes}
    (horiginal : ∀ block ∈ original, block ≠ [])
    (hmem : ∀ i (hi : i < blocks.length), (original ++ [[]])[i]? = some blocks[i])
    (hend : (original ++ [[]])[blocks.length]? = some []) : blocks = original := by
  have hlast : blocks.length = original.length := by
    by_contra hne
    obtain hlt | hgt := Nat.lt_or_gt_of_ne hne
    · rw [List.getElem?_append_left hlt, List.getElem?_eq_some_iff] at hend
      obtain ⟨hi, heq⟩ := hend
      exact horiginal _ (List.getElem_mem hi) heq
    · have hlen : blocks.length < (original ++ [([] : Bytes)]).length :=
        (List.getElem?_eq_some_iff.1 hend).1
      rw [List.length_append, List.length_singleton] at hlen
      omega
  refine List.ext_getElem hlast ?_
  intro i hi hi'
  have hi'' := hmem i hi
  rw [List.getElem?_append_left hi', List.getElem?_eq_getElem hi'] at hi''
  exact (Option.some.inj hi'').symm

/-! ### The law -/

/-- **KDBX block streams.**  Blocks are read back from their encoding with the reader behind it;
on every byte string both loops return, with a result or an error of their own, and no read passes
the end; and what `readHmacBlocks` returns are blocks whose encoding it read, each authenticated
at its index and the empty one at the end too: where only one stream was authenticated with the
key, the blocks of that stream. -/
theorem kdbx_blocks (sha256 : Bytes → Bytes) (hsha : ∀ data, (sha256 data).length = 32)
    (hlength : ∀ key data, (hmac key data).length = 32) :
    (∀ (blocks : List Bytes), (∀ block ∈ blocks, block ≠ [] ∧ block.length < 2 ^ 31) →
      ∀ (r : Reader) (after : Bytes),
        (r.rest = encodeHashed sha256 0 blocks ++ after →
          ∃ r', readHashedBlocks sha256 r [] = .ok (blocks.flatten, r') ∧
            Reads r r' (encodeHashed sha256 0 blocks) ∧ r'.rest = after) ∧
        (r.rest = encodeHmac sha512 hmac hmacKey 0 blocks ++ after →
          ∃ r', readHmacBlocks sha512 hmac hmacKey 0 r [] = .ok (blocks.flatten, r') ∧
            Reads r r' (encodeHmac sha512 hmac hmacKey 0 blocks) ∧ r'.rest = after)) ∧
    (∀ r : Reader, readHashedBlocks sha256 r [] ≠ .error .rangeError ∧
      readHmacBlocks sha512 hmac hmacKey 0 r [] ≠ .error .rangeError ∧
      ∀ out r', readHashedBlocks sha256 r [] = .ok (out, r') → r'.bytes = r.bytes) ∧
    ∀ (r r' : Reader) (out : Bytes), readHmacBlocks sha512 hmac hmacKey 0 r [] = .ok (out, r') →
      ∃ blocks : List Bytes, (∀ block ∈ blocks, block ≠ [] ∧ block.length < 2 ^ 31) ∧
        out = blocks.flatten ∧ Reads r r' (encodeHmac sha512 hmac hmacKey 0 blocks) ∧
        ∀ authenticated, Unforged sha512 hmac hmacKey authenticated r.bytes →
          (∀ i (hi : i < blocks.length), authenticated i blocks[i]) ∧
            authenticated blocks.length [] ∧
            ∀ original : List Bytes, (∀ block ∈ original, block ≠ []) →
              (∀ i data, authenticated i data → (original ++ [[]])[i]? = some data) →
                blocks = original := by
  refine ⟨?_, ?_, ?_⟩
  · intro blocks hblocks r after
    refine ⟨fun h => ?_, fun h => ?_⟩
    · exact readHashedBlocks_encode sha256 hsha blocks hblocks 0 [] h
    · exact readHmacBlocks_encode sha512 hmac hmacKey hlength blocks hblocks 0 [] h
  · intro r
    obtain ⟨hends, hbytes⟩ := readHashedBlocks_ends sha256 r []
    exact ⟨hends, readHmacBlocks_ends sha512 hmac hmacKey 0 r [], hbytes⟩
  · intro r r' out h
    obtain ⟨blocks, hblocks, hout, hreads⟩ :=
      readHmacBlocks_eq_ok sha512 hmac hmacKey 0 r [] h
    refine ⟨blocks, hblocks, hout, hreads, ?_⟩
    intro authenticated hideal
    have hbytes : r.bytes = r.bytes.take r.offset ++
        encodeHmac sha512 hmac hmacKey 0 blocks ++ r'.rest := by
      rw [List.append_assoc, ← hreads.rest, Reader.rest, List.take_append_drop]
    have hsmall : 0 + blocks.length < 2 ^ 64 := by
      have hlen := length_le_encodeHmac sha512 hmac hmacKey 0 blocks
      have hoffset := hreads.offset
      have hle := r'.le
      have hsmall := r'.small
      omega
    obtain ⟨hmem, hend⟩ := authenticated_of_encode sha512 hmac hmacKey hideal blocks 0 hsmall
      _ _ hbytes
    simp only [Nat.zero_add] at hmem hend
    refine ⟨hmem, hend, ?_⟩
    intro original horiginal honly
    exact eq_of_authenticated horiginal (fun i hi => honly i _ (hmem i hi)) (honly _ _ hend)

end Hmac

namespace KdbxExample

/-- The bytes of a number, the first one the highest. -/
def big (count n : ℕ) : Bytes := (List.range count).reverse.map fun i => UInt8.ofNat (n / 256 ^ i)

/-- SHA-256 of one byte. -/
def sha256 (data : Bytes) : Bytes :=
  if data = [1] then
    big 32 0x4bf5122f344554c53bde2ebb8cd2b7e3d1600ad631c385a5d7cce23c7785459a
  else List.replicate 32 0

/-- The keys of the first two blocks: SHA-512 of their indexes and a key of one byte. -/
def firstKey : Bytes :=
  big 32 0x3e86ab7e32434f45c4b2476dd08943d4931c3d719e4b6050c5dbee73df22af91 ++
  big 32 0xa2abf3bf9492bb59dc79db2da04fc3764375126ac3716a8bcbe0a1874eda09f5

def secondKey : Bytes :=
  big 32 0x192b44fff13d74f71386a5247feaceb9eb25cd0a9eaeb14db99401978d67c592 ++
  big 32 0xd0bdf7e8bdcab96e0255d3e551d6ec268dd1ceaa627253e1565b63a85ff43254

def sha512 (data : Bytes) : Bytes :=
  if data = le64 0 ++ [7] then firstKey else if data = le64 1 ++ [7] then secondKey else []

/-- The MACs of a block of one byte and of the empty one behind it. -/
def firstTag : Bytes := big 32 0x91f89ff34a85a2e8610f74740b86d7177777922576081a27b42fae43cc8e4e80

def secondTag : Bytes := big 32 0xf266ad99f6aaf76e7c6f86824096705b6fe3bed997503c6f84feeee721d80d81

def hmac (key data : Bytes) : Bytes :=
  if key = firstKey ∧ data = le64 0 ++ le32 1 ++ [1] then firstTag
  else if key = secondKey ∧ data = le64 1 ++ le32 0 then secondTag
  else List.replicate 32 0

/-- A stream of one block, and a byte behind it. -/
def stream : Bytes := firstTag ++ le32 1 ++ [1] ++ (secondTag ++ le32 0) ++ [9]

def reader : Reader where
  bytes := stream
  offset := 0
  le := Nat.zero_le _
  small := by decide

theorem encodeHmac_eq : encodeHmac sha512 hmac [7] 0 [[1]] ++ [9] = stream := by decide

theorem sha512_eq_firstKey {index : ℕ} (hindex : index < 2 ^ 64)
    (h : blockHmacKey sha512 [7] index = firstKey) : index = 0 := by
  unfold blockHmacKey sha512 at h
  split at h
  · rename_i heq
    exact le64_inj hindex (by decide) (List.append_cancel_right heq)
  · split at h
    · exact absurd h (by decide)
    · exact absurd h (by decide)

theorem sha512_eq_secondKey {index : ℕ} (hindex : index < 2 ^ 64)
    (h : blockHmacKey sha512 [7] index = secondKey) : index = 1 := by
  unfold blockHmacKey sha512 at h
  split at h
  · exact absurd h (by decide)
  · split at h
    · rename_i heq
      exact le64_inj hindex (by decide) (List.append_cancel_right heq)
    · exact absurd h (by decide)

/-- Only the stream's own blocks have a tag in it. -/
theorem unforged : Unforged sha512 hmac [7]
    (fun i data => ([[1]] ++ [[]] : List Bytes)[i]? = some data) stream := by
  have hzeros : ¬ List.replicate 32 0 <:+: stream := by decide +kernel
  intro index data before after hindex hbytes
  unfold blockTag hmac at hbytes
  split at hbytes
  · rename_i heq
    obtain rfl := sha512_eq_firstKey hindex heq.1
    have hlen := congrArg List.length heq.2
    simp only [List.length_append, length_le32] at hlen
    obtain ⟨-, hdata⟩ := List.append_inj' heq.2 (by simpa using hlen)
    rw [hdata]
    rfl
  · split at hbytes
    · rename_i heq
      obtain rfl := sha512_eq_secondKey hindex heq.1
      have hlen := congrArg List.length heq.2
      simp only [List.length_append, length_le32] at hlen
      have hdata : data = [] := List.length_eq_zero_iff.1 (by omega)
      rw [hdata]
      rfl
    · exact absurd ⟨before, after, hbytes.symm⟩ hzeros

end KdbxExample

/-- A stream of one block: it is read back, and what is read is what was authenticated. -/
theorem kdbx_blocks_one :
    ((∀ data, (KdbxExample.sha256 data).length = 32) ∧
      ∀ key data, (KdbxExample.hmac key data).length = 32) ∧
      ∃ r', readHmacBlocks KdbxExample.sha512 KdbxExample.hmac [7] 0 KdbxExample.reader [] =
          .ok ([1], r') ∧ r'.rest = [9] ∧
        ∃ blocks : List Bytes, blocks = [[1]] ∧
          Reads KdbxExample.reader r' (encodeHmac KdbxExample.sha512 KdbxExample.hmac [7] 0
            blocks) := by
  have hsha : ∀ data, (KdbxExample.sha256 data).length = 32 := by
    intro data
    unfold KdbxExample.sha256
    split
    · decide
    · exact List.length_replicate
  have hlength : ∀ key data, (KdbxExample.hmac key data).length = 32 := by
    intro key data
    unfold KdbxExample.hmac
    split
    · decide
    · split
      · decide
      · exact List.length_replicate
  obtain ⟨hback, -, hsound⟩ :=
    kdbx_blocks KdbxExample.sha512 KdbxExample.hmac [7] KdbxExample.sha256 hsha hlength
  have hblocks : ∀ block ∈ ([[1]] : List Bytes), block ≠ [] ∧ block.length < 2 ^ 31 := by decide
  obtain ⟨r', hread, -, hafter⟩ := (hback [[1]] hblocks KdbxExample.reader [9]).2
    KdbxExample.encodeHmac_eq.symm
  obtain ⟨blocks, -, -, hreads, hauthentic⟩ := hsound _ _ _ hread
  obtain ⟨-, -, honly⟩ := hauthentic _ KdbxExample.unforged
  exact ⟨⟨hsha, hlength⟩, r', hread, hafter, blocks,
    honly [[1]] (by decide) (fun _ _ h => h), hreads⟩

end Passmgr

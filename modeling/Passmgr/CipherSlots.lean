/-
# Where a ciphertext belongs

The associated data of `packages/crypto`: every ciphertext is bound to a text that names what it is
for and the ids it belongs to, joined with slashes.  An id is written as the hexadecimal digits of
a UUID in its five groups, a version as a decimal number.

Main definitions:

* `uuidText`, `versionText`, `slashed` — the texts and how they are joined;
* `vaultKeyAad`, `previousVaultKeyAad`, `privateKeyAad`, `vaultKeySealAad`, `recordAad`,
  `vaultMetaAad`, … — the associated data of each kind of ciphertext, and `vaultKeyId`, the name a
  vault key is looked up by;
* `CipherSlot`, `CipherSlot.aad` — a purpose with its ids, and its associated data.

Main results:

* `CipherSlot.aad_injective` — no two slots share their associated data, whatever their kinds;
* `vaultKeyId_inj` — no two vault keys share their name.
-/

import Mathlib.Data.Nat.Digits.Defs
import Passmgr.Schema
import Passmgr.Separators

set_option relaxedAutoImplicit false
set_option autoImplicit false

namespace Passmgr

/-! ### Ids and versions as texts -/

/-- The characters of lower case hexadecimal digits. -/
def hexDigit (d : ℕ) : Char :=
  ['0', '1', '2', '3', '4', '5', '6', '7', '8', '9', 'a', 'b', 'c', 'd', 'e', 'f'].getD d '0'

/-- The 32 hexadecimal digits of an id, the most significant first. -/
def uuidDigits (id : ℕ) : List ℕ :=
  let digits := Nat.digits 16 id
  (digits ++ List.replicate (32 - digits.length) 0).reverse

/-- Cut digits into the groups of a UUID, 8-4-4-4-12. -/
def uuidGroups (digits : Text) : List Text :=
  [digits.take 8, (digits.drop 8).take 4, (digits.drop 12).take 4, (digits.drop 16).take 4,
    digits.drop 20]

/-- An id as the text of a UUID. -/
def uuidText (id : ℕ) : Text := ['-'].intercalate (uuidGroups ((uuidDigits id).map hexDigit))

/-- `${keyVersion}`: a number in decimal. -/
def versionText (version : ℕ) : Text := Nat.toDigits 10 version

/-- Texts joined with slashes, as in a template literal of the source. -/
def slashed : List Text → Text
  | [] => []
  | [part] => part
  | part :: parts => part ++ '/' :: slashed parts

theorem uuidDigits_lt (id : ℕ) : ∀ d ∈ uuidDigits id, d < 16 := by
  intro d hd
  simp only [uuidDigits, List.mem_reverse, List.mem_append, List.mem_replicate] at hd
  obtain hd | ⟨-, rfl⟩ := hd
  · exact Nat.digits_lt_base (by decide) hd
  · decide

theorem uuidDigits_injective : Function.Injective uuidDigits := by
  intro a b h
  have hvalue := congrArg (Nat.ofDigits 16 ·.reverse) h
  simpa [uuidDigits, Nat.ofDigits_append, Nat.ofDigits_replicate_zero, Nat.ofDigits_digits]
    using hvalue

theorem hexDigit_inj : ∀ a < 16, ∀ b < 16, hexDigit a = hexDigit b → a = b := by decide

theorem hexDigit_ne : ∀ d < 16, hexDigit d ≠ '-' ∧ hexDigit d ≠ '/' := by decide

theorem map_hexDigit_inj {as bs : List ℕ} (ha : ∀ d ∈ as, d < 16) (hb : ∀ d ∈ bs, d < 16)
    (h : as.map hexDigit = bs.map hexDigit) : as = bs := by
  induction as generalizing bs with
  | nil => simpa [eq_comm] using h
  | cons a as ih =>
    obtain _ | ⟨b, bs⟩ := bs
    · simp at h
    simp only [List.map_cons, List.cons.injEq] at h
    simp only [List.mem_cons, forall_eq_or_imp] at ha hb
    rw [hexDigit_inj a ha.1 b hb.1 h.1, ih ha.2 hb.2 h.2]

theorem dashed_eq (digits : Text) :
    ['-'].intercalate (uuidGroups digits)
      = digits.take 8 ++ '-' :: ((digits.drop 8).take 4 ++ '-' :: ((digits.drop 12).take 4
        ++ '-' :: ((digits.drop 16).take 4 ++ '-' :: digits.drop 20))) := by
  simp [uuidGroups, List.intercalate, List.intersperse]

/-- The groups together are the digits. -/
theorem uuidGroups_flatten (digits : Text) : (uuidGroups digits).flatten = digits := by
  have hcut : ∀ n m, (digits.drop n).take m ++ digits.drop (n + m) = digits.drop n := by
    intro n m
    rw [← List.drop_drop, List.take_append_drop]
  simp [uuidGroups, hcut 16 4, hcut 12 4, hcut 8 4]

/-- The digits of a UUID are what is left of its text without the dashes. -/
theorem filter_dashed {digits : Text} (h : ∀ c ∈ digits, c ≠ '-') :
    (['-'].intercalate (uuidGroups digits)).filter (· ≠ '-') = digits := by
  have hgroup : ∀ group : Text, group ⊆ digits → group.filter (· ≠ '-') = group := by
    intro group hsub
    exact List.filter_eq_self.mpr fun c hc => by simpa using h c (hsub hc)
  have htake : ∀ n m, (digits.drop n).take m ⊆ digits := fun n m =>
    List.Subset.trans (List.take_subset _ _) (List.drop_subset _ _)
  conv_rhs => rw [← uuidGroups_flatten digits]
  rw [dashed_eq]
  simp only [uuidGroups, List.filter_append, List.filter_cons, ne_eq, not_true_eq_false,
    decide_false, Bool.false_eq_true, if_false, List.flatten_cons, List.flatten_nil,
    List.append_nil]
  rw [hgroup _ (List.take_subset _ _), hgroup _ (htake 8 4), hgroup _ (htake 12 4),
    hgroup _ (htake 16 4), hgroup _ (List.drop_subset _ _)]

theorem uuidText_injective : Function.Injective uuidText := by
  intro a b h
  have hchars : ∀ id, ∀ c ∈ (uuidDigits id).map hexDigit, c ≠ '-' := by
    intro id c hc
    obtain ⟨d, hd, rfl⟩ := List.mem_map.mp hc
    exact (hexDigit_ne d (uuidDigits_lt id d hd)).1
  have hmap : (uuidDigits a).map hexDigit = (uuidDigits b).map hexDigit := by
    rw [← filter_dashed (hchars a), ← filter_dashed (hchars b)]
    exact congrArg _ h
  exact uuidDigits_injective (map_hexDigit_inj (uuidDigits_lt a) (uuidDigits_lt b) hmap)

theorem slash_notMem_uuidText (id : ℕ) : '/' ∉ uuidText id := by
  intro h
  have hmem : '/' ∈ (uuidText id).filter (· ≠ '-') := List.mem_filter.mpr ⟨h, by decide⟩
  have hchars : ∀ c ∈ (uuidDigits id).map hexDigit, c ≠ '-' ∧ c ≠ '/' := by
    intro c hc
    obtain ⟨d, hd, rfl⟩ := List.mem_map.mp hc
    exact hexDigit_ne d (uuidDigits_lt id d hd)
  rw [uuidText, filter_dashed fun c hc => (hchars c hc).1] at hmem
  exact (hchars '/' hmem).2 rfl

theorem versionText_injective : Function.Injective versionText := by
  intro a b h
  rw [← Nat.ofDigitChars_ten_toDigits (n := a), ← Nat.ofDigitChars_ten_toDigits (n := b)]
  exact congrArg (Nat.ofDigitChars 10 · 0) h

theorem slash_notMem_versionText (version : ℕ) : '/' ∉ versionText version := by
  intro h
  have hdigit := Nat.isDigit_of_mem_toDigits (by decide) (by decide) h
  exact absurd hdigit (by decide)

/-! ### Texts joined with slashes -/

/-- Texts without slashes are told apart by their joined text. -/
theorem slashed_inj {as bs : List Text} (ha : ∀ part ∈ as, '/' ∉ part)
    (hb : ∀ part ∈ bs, '/' ∉ part) (has : as ≠ []) (hbs : bs ≠ []) (h : slashed as = slashed bs) :
    as = bs := by
  induction as using slashed.induct generalizing bs with
  | case1 => exact absurd rfl has
  | case2 a =>
    match bs with
    | [] => exact absurd rfl hbs
    | [b] => simpa [slashed] using h
    | b :: b' :: rest =>
      refine absurd ?_ (ha a List.mem_cons_self)
      simp only [slashed] at h
      simp [h]
  | case3 a parts hparts ih =>
    match bs with
    | [] => exact absurd rfl hbs
    | [b] =>
      refine absurd ?_ (hb b List.mem_cons_self)
      rw [slashed.eq_3 _ _ hparts] at h
      simp only [slashed] at h
      simp [← h]
    | b :: b' :: rest =>
      rw [slashed.eq_3 _ _ hparts] at h
      simp only [slashed] at h
      obtain ⟨rfl, htail⟩ := Separators.first_inj (ha a List.mem_cons_self)
        (hb b List.mem_cons_self) h
      have hne : parts ≠ [] := by
        rintro rfl
        exact hparts rfl
      rw [ih (fun p hp => ha p (List.mem_cons_of_mem _ hp))
        (fun p hp => hb p (List.mem_cons_of_mem _ hp)) hne (by simp) htail]

/-! ### The associated data -/

/-- `ACCOUNT_KEY_AAD`. -/
def accountKeyAad : Text := slashed ["passmgr".toList, "account-key".toList, "v1".toList]

/-- `PENDING_RECOVERY_AAD`. -/
def pendingRecoveryAad : Text := slashed ["passmgr".toList, "pending-recovery".toList, "v1".toList]

def vaultKeyAad (vaultId : VaultId) (keyVersion : ℕ) : Text :=
  slashed ["passmgr".toList, "vault-key".toList, "v1".toList, uuidText vaultId,
    versionText keyVersion]

def previousVaultKeyAad (vaultId : VaultId) (keyVersion : ℕ) : Text :=
  slashed ["passmgr".toList, "previous-vault-key".toList, "v1".toList, uuidText vaultId,
    versionText keyVersion]

def privateKeyAad (keyVersion : ℕ) : Text :=
  slashed ["passmgr".toList, "user-private-key".toList, "v1".toList, versionText keyVersion]

def vaultKeySealAad (vaultId : VaultId) (keyVersion : ℕ) : Text :=
  slashed ["passmgr".toList, "vault-key-seal".toList, "v1".toList, uuidText vaultId,
    versionText keyVersion]

/-- `RecordCipherContext`: where a record ciphertext belongs. -/
structure RecordCipherContext where
  recordId : RecordId
  vaultId : VaultId
  cryptoVersion : ℕ
  deriving DecidableEq, Repr

def recordAad (context : RecordCipherContext) : Text :=
  slashed ["passmgr".toList, "record".toList, versionText context.cryptoVersion,
    uuidText context.vaultId, uuidText context.recordId]

def vaultMetaAad (vaultId : VaultId) : Text :=
  slashed ["passmgr".toList, "vault-meta".toList, "v1".toList, uuidText vaultId]

/-- How a vault key is looked up: one per vault and key version. -/
def vaultKeyId (vaultId : VaultId) (keyVersion : ℕ) : Text :=
  slashed [uuidText vaultId, versionText keyVersion]

/-! ### No two slots share their associated data -/

/-- What a ciphertext is for, with the ids it belongs to. -/
inductive CipherSlot
  | accountKey
  | pendingRecovery
  | vaultKey (vaultId : VaultId) (keyVersion : ℕ)
  | previousVaultKey (vaultId : VaultId) (keyVersion : ℕ)
  | userPrivateKey (keyVersion : ℕ)
  | vaultKeySeal (vaultId : VaultId) (keyVersion : ℕ)
  | record (context : RecordCipherContext)
  | vaultMeta (vaultId : VaultId)
  deriving DecidableEq, Repr

/-- The associated data of what belongs in a slot. -/
def CipherSlot.aad : CipherSlot → Text
  | accountKey => accountKeyAad
  | pendingRecovery => pendingRecoveryAad
  | vaultKey vaultId keyVersion => vaultKeyAad vaultId keyVersion
  | previousVaultKey vaultId keyVersion => previousVaultKeyAad vaultId keyVersion
  | userPrivateKey keyVersion => privateKeyAad keyVersion
  | vaultKeySeal vaultId keyVersion => vaultKeySealAad vaultId keyVersion
  | record context => recordAad context
  | vaultMeta vaultId => vaultMetaAad vaultId

/-- The texts between the slashes of a slot's associated data. -/
def CipherSlot.parts : CipherSlot → List Text
  | accountKey => ["passmgr".toList, "account-key".toList, "v1".toList]
  | pendingRecovery => ["passmgr".toList, "pending-recovery".toList, "v1".toList]
  | vaultKey vaultId keyVersion => ["passmgr".toList, "vault-key".toList, "v1".toList,
      uuidText vaultId, versionText keyVersion]
  | previousVaultKey vaultId keyVersion => ["passmgr".toList, "previous-vault-key".toList,
      "v1".toList, uuidText vaultId, versionText keyVersion]
  | userPrivateKey keyVersion => ["passmgr".toList, "user-private-key".toList, "v1".toList,
      versionText keyVersion]
  | vaultKeySeal vaultId keyVersion => ["passmgr".toList, "vault-key-seal".toList, "v1".toList,
      uuidText vaultId, versionText keyVersion]
  | record context => ["passmgr".toList, "record".toList, versionText context.cryptoVersion,
      uuidText context.vaultId, uuidText context.recordId]
  | vaultMeta vaultId => ["passmgr".toList, "vault-meta".toList, "v1".toList, uuidText vaultId]

theorem CipherSlot.aad_eq_slashed (slot : CipherSlot) : slot.aad = slashed slot.parts := by
  cases slot <;> rfl

theorem CipherSlot.slash_notMem_parts (slot : CipherSlot) : ∀ part ∈ slot.parts, '/' ∉ part := by
  cases slot <;>
    simp [CipherSlot.parts, slash_notMem_uuidText, slash_notMem_versionText]

theorem CipherSlot.parts_ne_nil (slot : CipherSlot) : slot.parts ≠ [] := by
  cases slot <;> simp [CipherSlot.parts]

theorem CipherSlot.parts_injective : Function.Injective CipherSlot.parts := by
  intro a b h
  cases a <;> cases b <;>
    simp [CipherSlot.parts, uuidText_injective.eq_iff, versionText_injective.eq_iff] at h ⊢
  case record.record c d =>
    obtain ⟨recordId, vaultId, cryptoVersion⟩ := c
    obtain ⟨recordId', vaultId', cryptoVersion'⟩ := d
    simp_all
  all_goals simp_all

/-- **No two slots share their associated data**: a ciphertext that opens was made for the slot it
is opened in. -/
theorem CipherSlot.aad_injective : Function.Injective CipherSlot.aad := by
  intro a b h
  rw [aad_eq_slashed, aad_eq_slashed] at h
  exact parts_injective (slashed_inj a.slash_notMem_parts b.slash_notMem_parts a.parts_ne_nil
    b.parts_ne_nil h)

/-- No two vault keys share the name they are looked up by. -/
theorem vaultKeyId_inj {vaultId vaultId' : VaultId} {keyVersion keyVersion' : ℕ}
    (h : vaultKeyId vaultId keyVersion = vaultKeyId vaultId' keyVersion') :
    vaultId = vaultId' ∧ keyVersion = keyVersion' := by
  have hparts : ∀ v n, ∀ part ∈ [uuidText v, versionText n], '/' ∉ part := by
    simp [slash_notMem_uuidText, slash_notMem_versionText]
  have hinj := slashed_inj (hparts _ _) (hparts _ _) (by simp) (by simp) h
  simpa [uuidText_injective.eq_iff, versionText_injective.eq_iff] using hinj

end Passmgr

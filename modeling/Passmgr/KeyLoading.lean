/-
# Loading vault keys is all or nothing

`loadVaultKeys` and `loadPreviousKeys` of `packages/store/src/secrets-store.ts`: a list of vaults
any part of which may fail to open.  The keys that are loaded are told from the list alone.

Main definitions:

* `SecretsStore.opensWrap` — the key a vault's wrap opens to;
* `ChainKey` — a key that is reached down a chain of links;
* `Loaded` — what the loop has filled after the first vaults of the list.

Main results:

* `loadPreviousKeys_chain` — the earlier keys are those the links lead to;
* `Loaded.of_loadWraps`, `exists_loadWraps` — what the loop fills, and when it gets through;
* `loadVaultKeys_all_or_nothing` — the keys of a store after it has loaded a list of vaults, or
  those of before.
-/

import Passmgr.KeyChain

set_option relaxedAutoImplicit false
set_option autoImplicit false

namespace Passmgr

open IdealCipher (Ciphers)

/-! ### The keys below a key -/

section Chain

variable {C : Ciphers Text} {v : VaultId} {links : List VaultKeyLink}

/-- From a key of one version down to a key of another: each link is the one listed for its version
and opens under the key above it. -/
inductive ChainKey (C : Ciphers Text) (v : VaultId) (links : List VaultKeyLink) :
    ℕ → Text → ℕ → Text → Prop
  | same (n : ℕ) (key : Text) : ChainKey C v links n key n key
  | link {n m : ℕ} {newer older key : Text} {link : VaultKeyLink} (hpos : 1 ≤ n)
      (hlink : linkOf links n = some link)
      (hopens : unwrapPreviousVaultKey C newer v link = some older)
      (hrest : ChainKey C v links n older m key) : ChainKey C v links (n + 1) newer m key

theorem ChainKey.le {n m : ℕ} {newer key : Text} (h : ChainKey C v links n newer m key) :
    m ≤ n := by
  induction h with
  | same n key => exact Nat.le_refl n
  | link hpos hlink hopens hrest ih => exact ih.trans (Nat.le_succ _)

/-- A version leads to itself by no link. -/
theorem chainKey_self {n : ℕ} {newer key : Text} : ChainKey C v links n newer n key ↔ newer = key :=
  ⟨fun h => by
    cases h with
    | same n key => rfl
    | link hpos hlink hopens hrest => exact absurd hrest.le (Nat.not_succ_le_self _),
  fun h => h ▸ .same n newer⟩

/-- The loop over the earlier versions fills in what the links lead to. -/
theorem loadPreviousKeysFrom_chain {m : ℕ} {key : Text} (n : ℕ) (newer : Text)
    (loaded : Text → Option Text) (hle : m ≤ n) (hnone : loaded (vaultKeyId v m) = none) :
    loadPreviousKeysFrom C v links n newer loaded (vaultKeyId v m) = some key ↔
      ChainKey C v links (n + 1) newer m key := by
  induction n generalizing newer loaded with
  | zero =>
      rw [loadPreviousKeysFrom, hnone]
      refine ⟨fun heq => (Option.some_ne_none key heq.symm).elim, fun h => ?_⟩
      cases h with
      | same => exact absurd hle (Nat.not_succ_le_zero 0)
      | link hpos hlink hopens hrest => exact absurd hpos (Nat.not_succ_le_zero 0)
  | succ n ih =>
      rw [loadPreviousKeysFrom]
      have hbelow : m ≠ n + 1 + 1 := by omega
      cases hlink : linkOf links (n + 1) with
      | none =>
          dsimp only
          rw [hnone]
          refine ⟨fun heq => (Option.some_ne_none key heq.symm).elim, fun h => ?_⟩
          cases h with
          | same => exact absurd rfl hbelow
          | link hpos hlink' hopens hrest => cases hlink.symm.trans hlink'
      | some link =>
          dsimp only
          cases hopens : unwrapPreviousVaultKey C newer v link with
          | none =>
              dsimp only
              rw [hnone]
              refine ⟨fun heq => (Option.some_ne_none key heq.symm).elim, fun h => ?_⟩
              cases h with
              | same => exact absurd rfl hbelow
              | link hpos hlink' hopens' hrest =>
                  obtain rfl := Option.some.inj (hlink.symm.trans hlink')
                  cases hopens.symm.trans hopens'
          | some older =>
              dsimp only
              have hstep : ChainKey C v links (n + 1 + 1) newer m key ↔
                  ChainKey C v links (n + 1) older m key := by
                refine ⟨fun h => ?_, .link (Nat.succ_le_succ (Nat.zero_le n)) hlink hopens⟩
                cases h with
                | same => exact absurd rfl hbelow
                | link hpos hlink' hopens' hrest =>
                    obtain rfl := Option.some.inj (hlink.symm.trans hlink')
                    obtain rfl := Option.some.inj (hopens.symm.trans hopens')
                    exact hrest
              rw [hstep]
              rcases Nat.lt_or_eq_of_le hle with hlt | rfl
              · refine ih older _ (Nat.le_of_lt_succ hlt) ?_
                rw [Function.update_of_ne fun heq => hlt.ne (vaultKeyId_inj heq).2]
                exact hnone
              · rw [chainKey_self, loadPreviousKeysFrom_of_ne _ _ _ fun i _ hi heq => ?_,
                  Function.update_self]
                · exact ⟨Option.some.inj, congrArg some⟩
                · exact absurd (vaultKeyId_inj heq).2 (Nat.ne_of_gt (Nat.lt_succ_of_le hi))

/-- **The keys of a vault** are its current one and those its links lead to. -/
theorem loadPreviousKeys_chain {vault : MemberVault} {current key : Text} {m : ℕ}
    (loaded : Text → Option Text) (hnone : ∀ n, loaded (vaultKeyId vault.vaultId n) = none) :
    loadPreviousKeys C vault current
        (Function.update loaded (vaultKeyId vault.vaultId vault.keyVersion) (some current))
        (vaultKeyId vault.vaultId m) = some key ↔
      ChainKey C vault.vaultId vault.previousKeys vault.keyVersion current m key := by
  have hne {i j : ℕ} (h : i ≠ j) : vaultKeyId vault.vaultId i ≠ vaultKeyId vault.vaultId j :=
    fun heq => h (vaultKeyId_inj heq).2
  unfold loadPreviousKeys
  rcases Nat.lt_trichotomy m vault.keyVersion with hlt | rfl | hgt
  · have hversion : vault.keyVersion - 1 + 1 = vault.keyVersion := by omega
    rw [loadPreviousKeysFrom_chain _ _ _ (Nat.le_sub_one_of_lt hlt), hversion]
    rw [Function.update_of_ne (hne hlt.ne)]
    exact hnone m
  · rw [chainKey_self, loadPreviousKeysFrom_of_ne _ _ _ fun i h1 hi => hne (by omega),
      Function.update_self]
    exact ⟨Option.some.inj, congrArg some⟩
  · rw [loadPreviousKeysFrom_of_ne _ _ _ fun i h1 hi => hne (by omega),
      Function.update_of_ne (hne hgt.ne'), hnone m]
    exact ⟨nofun, fun h => absurd h.le (Nat.not_le_of_lt hgt)⟩

end Chain

/-! ### The loop over the vaults -/

section Loop

variable {C : Ciphers Text} {accountKey : Text}

/-- What the loop has filled after the vaults `done`. -/
structure Loaded (C : Ciphers Text) (accountKey : Text) (done : List MemberVault)
    (loaded : LoadedKeys) : Prop where
  keys : ∀ v m key, loaded.keys (vaultKeyId v m) = some key ↔ ∃ vault ∈ done, vault.vaultId = v ∧
    ∃ current, unwrapVaultKey C accountKey vault.keyWrap = some current ∧
      ChainKey C v vault.previousKeys vault.keyVersion current m key
  current : ∀ v n, loaded.current v = some n ↔ ∃ vault ∈ done, vault.vaultId = v ∧
    (unwrapVaultKey C accountKey vault.keyWrap).isSome ∧ vault.keyVersion = n
  skipped : loaded.skipped =
    (done.filter fun vault => unwrapVaultKey C accountKey vault.keyWrap = none).map (·.vaultId)

variable {done rest : List MemberVault} {loaded loaded' : LoadedKeys} {vault : MemberVault}

/-- The test for a vault that is listed twice. -/
theorem Loaded.seen (h : Loaded C accountKey done loaded) (v : VaultId) :
    ((loaded.current v).isSome || decide (v ∈ loaded.skipped)) = true ↔
      v ∈ done.map (·.vaultId) := by
  rw [Bool.or_eq_true, decide_eq_true_iff, h.skipped, List.mem_map, List.mem_map]
  constructor
  · rintro (hcurrent | ⟨other, hother, hv⟩)
    · obtain ⟨n, hn⟩ := Option.isSome_iff_exists.1 hcurrent
      obtain ⟨other, hother, hv, -⟩ := (h.current v n).1 hn
      exact ⟨other, hother, hv⟩
    · exact ⟨other, (List.mem_filter.1 hother).1, hv⟩
  · rintro ⟨other, hother, hv⟩
    by_cases hopens : unwrapVaultKey C accountKey other.keyWrap = none
    · exact Or.inr ⟨other, List.mem_filter.2 ⟨hother, decide_eq_true hopens⟩, hv⟩
    · have hsome := (h.current v other.keyVersion).2
        ⟨other, hother, hv, Option.isSome_iff_ne_none.2 hopens, rfl⟩
      exact Or.inl (hsome ▸ rfl)

/-- A vault whose wrap doesn't open. -/
theorem Loaded.skip (h : Loaded C accountKey done loaded)
    (hopens : unwrapVaultKey C accountKey vault.keyWrap = none) :
    Loaded C accountKey (done ++ [vault])
      { loaded with skipped := loaded.skipped ++ [vault.vaultId] } where
  keys v m key := by
    rw [h.keys]
    simp [or_and_right, exists_or, hopens]
  current v n := by
    rw [h.current]
    simp [or_and_right, exists_or, hopens]
  skipped := by simp [h.skipped, hopens]

/-- A vault whose wrap opens, and that is new. -/
theorem Loaded.add (h : Loaded C accountKey done loaded) {key : Text}
    (hopens : unwrapVaultKey C accountKey vault.keyWrap = some key)
    (hnew : vault.vaultId ∉ done.map (·.vaultId)) :
    Loaded C accountKey (done ++ [vault]) (loaded.add C vault key) where
  keys v m found := by
    have hother : ∀ other ∈ done, other.vaultId ≠ vault.vaultId := fun other hmem heq =>
      hnew (List.mem_map.2 ⟨other, hmem, heq⟩)
    simp only [List.mem_append, List.mem_singleton, or_and_right, exists_or, exists_eq_left]
    by_cases hv : v = vault.vaultId
    · subst hv
      have hnone : ∀ n, loaded.keys (vaultKeyId vault.vaultId n) = none := fun n => by
        rw [Option.eq_none_iff_forall_ne_some]
        intro other hloaded
        obtain ⟨first, hmem, heq, -⟩ := (h.keys _ _ _).1 hloaded
        exact hother first hmem heq
      refine (loadPreviousKeys_chain loaded.keys hnone).trans ⟨fun hchain => ?_, ?_⟩
      · exact Or.inr ⟨rfl, key, hopens, hchain⟩
      · rintro (⟨other, hmem, heq, -⟩ | ⟨-, current, hcurrent, hchain⟩)
        · exact absurd heq (hother other hmem)
        · obtain rfl := Option.some.inj (hopens.symm.trans hcurrent)
          exact hchain
    · rw [LoadedKeys.keys_add_of_ne loaded hv, h.keys]
      exact ⟨Or.inl, fun hor => hor.resolve_right fun hlast => hv hlast.1.symm⟩
  current v n := by
    simp only [List.mem_append, List.mem_singleton, or_and_right, exists_or, exists_eq_left]
    rw [← h.current]
    change Function.update loaded.current vault.vaultId (some vault.keyVersion) v = some n ↔ _
    by_cases hv : v = vault.vaultId
    · subst hv
      have hnone : loaded.current vault.vaultId = none := by
        rw [Option.eq_none_iff_forall_ne_some]
        intro other hloaded
        obtain ⟨first, hmem, heq, -⟩ := (h.current _ _).1 hloaded
        exact hnew (List.mem_map.2 ⟨first, hmem, heq⟩)
      rw [Function.update_self, hnone, hopens]
      simp
    · rw [Function.update_of_ne hv]
      exact ⟨Or.inl, fun hor => hor.resolve_right fun hlast => hv hlast.1.symm⟩
  skipped := by simp [LoadedKeys.add, h.skipped, hopens]

/-- **What the loop fills**, where it gets through: no vault was listed twice, and every personal
one opened. -/
theorem Loaded.of_loadWraps (h : Loaded C accountKey done loaded)
    (hnodup : (done.map (·.vaultId)).Nodup)
    (hload : loadWraps C accountKey rest loaded = .ok loaded') :
    Loaded C accountKey (done ++ rest) loaded' ∧ ((done ++ rest).map (·.vaultId)).Nodup ∧
      ∀ vault ∈ rest, vault.kind = .personal →
        unwrapVaultKey C accountKey vault.keyWrap ≠ none := by
  induction rest generalizing done loaded with
  | nil =>
      obtain rfl := Except.ok.inj hload
      rw [List.append_nil]
      exact ⟨h, hnodup, fun _ hmem => by cases hmem⟩
  | cons vault rest ih =>
      rw [loadWraps] at hload
      split at hload
      · cases hload
      · next hseen =>
          have hnew : vault.vaultId ∉ done.map (·.vaultId) := fun hmem =>
            hseen ((h.seen _).2 hmem)
          have hnodup' : ((done ++ [vault]).map (·.vaultId)).Nodup := by
            rw [List.map_append, List.map_singleton, ← List.concat_eq_append]
            exact hnodup.concat hnew
          rw [List.append_cons]
          split at hload
          · next hopens =>
              split at hload
              · cases hload
              · next hkind =>
                  obtain ⟨hall, hdup, hpersonal⟩ := ih (h.skip hopens) hnodup' hload
                  refine ⟨hall, hdup, fun other hmem hother => ?_⟩
                  rcases List.mem_cons.1 hmem with rfl | hmem
                  · exact absurd hother hkind
                  · exact hpersonal other hmem hother
          · next key hopens =>
              obtain ⟨hall, hdup, hpersonal⟩ := ih (h.add hopens hnew) hnodup' hload
              refine ⟨hall, hdup, fun other hmem hother => ?_⟩
              rcases List.mem_cons.1 hmem with rfl | hmem
              · rw [hopens]
                exact Option.some_ne_none key
              · exact hpersonal other hmem hother

/-- Where no vault is listed twice and the personal ones open, the loop gets through. -/
theorem Loaded.exists_loadWraps (h : Loaded C accountKey done loaded)
    (hnodup : ((done ++ rest).map (·.vaultId)).Nodup)
    (hpersonal : ∀ vault ∈ rest, vault.kind = .personal →
      unwrapVaultKey C accountKey vault.keyWrap ≠ none) :
    ∃ loaded', loadWraps C accountKey rest loaded = .ok loaded' := by
  induction rest generalizing done loaded with
  | nil => exact ⟨loaded, rfl⟩
  | cons vault rest ih =>
      have hnew : vault.vaultId ∉ done.map (·.vaultId) := by
        rw [List.map_append, List.map_cons] at hnodup
        exact fun hmem => (List.nodup_append.1 hnodup).2.2 _ hmem _ List.mem_cons_self rfl
      have hseen : ¬ ((loaded.current vault.vaultId).isSome ||
          decide (vault.vaultId ∈ loaded.skipped)) = true := fun hseen => hnew ((h.seen _).1 hseen)
      have hrest : ∀ other ∈ rest, other.kind = .personal →
          unwrapVaultKey C accountKey other.keyWrap ≠ none := fun other hmem =>
        hpersonal other (List.mem_cons_of_mem _ hmem)
      rw [List.append_cons] at hnodup
      rw [loadWraps, if_neg hseen]
      cases hopens : unwrapVaultKey C accountKey vault.keyWrap with
      | none =>
          have hkind : vault.kind ≠ .personal := fun hkind =>
            hpersonal vault List.mem_cons_self hkind hopens
          dsimp only
          rw [if_neg hkind]
          exact ih (h.skip hopens) hnodup hrest
      | some key => exact ih (h.add hopens hnew) hnodup hrest

end Loop

/-! ### Loading -/

namespace SecretsStore

variable (C : Ciphers Text) (store : SecretsStore)

/-- The key a vault's wrap opens to; with the store locked none does. -/
def opensWrap (vault : MemberVault) : Option Text :=
  store.accountKey.bind fun accountKey => unwrapVaultKey C accountKey vault.keyWrap

/-- The store after `loadVaultKeys` has returned or thrown, and what it returned: nothing is
assigned before the last vault. -/
def afterLoad (wraps : List MemberVault) : SecretsStore × Except SecretsError (List VaultId) :=
  match store.loadVaultKeys C wraps with
  | .ok (loaded, skipped) => (loaded, .ok skipped)
  | .error error => (store, .error error)

variable {C store} {wraps : List MemberVault}

/-- When the vault keys are loaded. -/
structure Loads (C : Ciphers Text) (store : SecretsStore) (wraps : List MemberVault) : Prop where
  personal : (wraps.filter (·.kind = .personal)).length = 1
  opens : ∀ vault ∈ wraps, vault.kind = .personal → store.opensWrap C vault ≠ none
  nodup : (wraps.map (·.vaultId)).Nodup

theorem loaded_nil (accountKey : Text) :
    Loaded C accountKey [] ⟨fun _ => none, fun _ => none, []⟩ where
  keys v m key := by simp
  current v n := by simp
  skipped := rfl

/-- What `loadVaultKeys` returns is what its loop has filled. -/
theorem of_loadVaultKeys {loaded : SecretsStore} {skipped : List VaultId}
    (h : store.loadVaultKeys C wraps = .ok (loaded, skipped)) :
    store.Loads C wraps ∧ ∃ accountKey, store.accountKey = some accountKey ∧
      Loaded C accountKey wraps ⟨loaded.vaultKeys, loaded.currentKeyVersions, skipped⟩ := by
  unfold loadVaultKeys at h
  split at h
  · cases h
  · next accountKey haccount =>
      split at h
      · next personal hpersonal =>
          cases hloop : loadWraps C accountKey wraps ⟨fun _ => none, fun _ => none, []⟩ with
          | error error =>
              rw [hloop] at h
              cases h
          | ok filled =>
              rw [hloop] at h
              cases h
              obtain ⟨hall, hnodup, hopens⟩ := (loaded_nil accountKey).of_loadWraps .nil hloop
              refine ⟨⟨by rw [hpersonal]; rfl, fun vault hmem hkind => ?_, hnodup⟩, accountKey,
                haccount, hall⟩
              rw [opensWrap, haccount]
              exact hopens vault hmem hkind
      · cases h

theorem Loads.exists_ok (h : store.Loads C wraps) :
    ∃ loaded skipped, store.loadVaultKeys C wraps = .ok (loaded, skipped) := by
  obtain ⟨personal, hpersonal⟩ := List.length_eq_one_iff.1 h.personal
  have hmem : personal ∈ wraps ∧ personal.kind = .personal := by
    have hin : personal ∈ wraps.filter (·.kind = .personal) := hpersonal ▸ List.mem_singleton_self _
    exact ⟨(List.mem_filter.1 hin).1, of_decide_eq_true (List.mem_filter.1 hin).2⟩
  unfold loadVaultKeys
  cases haccount : store.accountKey with
  | none =>
      have hlocked := h.opens personal hmem.1 hmem.2
      rw [opensWrap, haccount] at hlocked
      exact absurd rfl hlocked
  | some accountKey =>
      obtain ⟨filled, hfilled⟩ := (loaded_nil accountKey).exists_loadWraps h.nodup
        fun vault hvault hkind => by
          have hopens := h.opens vault hvault hkind
          rwa [opensWrap, haccount] at hopens
      dsimp only
      rw [hpersonal]
      dsimp only
      rw [hfilled]
      exact ⟨_, _, rfl⟩

end SecretsStore

open SecretsStore

/-- **Loading vault keys is all or nothing.**  It throws exactly when the list has not one personal
vault, when that vault's wrap doesn't open or when a vault is listed twice; then the store is the
one of before.  Else the keys are, for each listed vault whose wrap opens, its current one and
those its links lead to, and the ids returned are those of the other vaults. -/
theorem loadVaultKeys_all_or_nothing (C : Ciphers Text) (store : SecretsStore)
    (wraps : List MemberVault) :
    ((∃ error, (store.afterLoad C wraps).2 = .error error) ↔
      (wraps.filter (·.kind = .personal)).length ≠ 1 ∨
        (∃ vault ∈ wraps, vault.kind = .personal ∧ store.opensWrap C vault = none) ∨
        ¬ (wraps.map (·.vaultId)).Nodup) ∧
    match store.afterLoad C wraps with
    | (after, .error _) => after = store
    | (after, .ok skipped) =>
      (∀ v m key, after.vaultKey v m = .ok key ↔ ∃ vault ∈ wraps, vault.vaultId = v ∧
        ∃ current, store.opensWrap C vault = some current ∧
          ChainKey C v vault.previousKeys vault.keyVersion current m key) ∧
      (∀ v n, after.currentKeyVersion v = .ok n ↔ ∃ vault ∈ wraps, vault.vaultId = v ∧
        store.opensWrap C vault ≠ none ∧ vault.keyVersion = n) ∧
      skipped = (wraps.filter fun vault => store.opensWrap C vault = none).map (·.vaultId) := by
  have hloads : store.Loads C wraps ↔ ¬ ((wraps.filter (·.kind = .personal)).length ≠ 1 ∨
      (∃ vault ∈ wraps, vault.kind = .personal ∧ store.opensWrap C vault = none) ∨
      ¬ (wraps.map (·.vaultId)).Nodup) := by
    constructor
    · rintro h (hpersonal | ⟨vault, hmem, hkind, hnone⟩ | hdup)
      · exact hpersonal h.personal
      · exact h.opens vault hmem hkind hnone
      · exact hdup h.nodup
    · intro h
      refine ⟨not_not.1 fun hne => h (.inl hne), fun vault hmem hkind hnone => ?_,
        not_not.1 fun hdup => h (.inr (.inr hdup))⟩
      exact h (.inr (.inl ⟨vault, hmem, hkind, hnone⟩))
  unfold afterLoad
  cases hresult : store.loadVaultKeys C wraps with
  | error error =>
      refine ⟨⟨fun _ => not_not.1 fun hgood => ?_, fun _ => ⟨error, rfl⟩⟩, rfl⟩
      obtain ⟨loaded, skipped, hok⟩ := (hloads.2 hgood).exists_ok
      cases hresult.symm.trans hok
  | ok result =>
      obtain ⟨after, skipped⟩ := result
      obtain ⟨hgood, accountKey, haccount, hall⟩ := of_loadVaultKeys hresult
      have hopens : ∀ vault, store.opensWrap C vault =
          unwrapVaultKey C accountKey vault.keyWrap := fun vault => by
        rw [opensWrap, haccount]
        rfl
      refine ⟨⟨nofun, fun hbad => absurd hbad (hloads.1 hgood)⟩, fun v m key => ?_, fun v n => ?_,
        ?_⟩
      · simp only [hopens]
        exact unlocked_eq_ok.trans (hall.keys v m key)
      · simp only [hopens, ← Option.isSome_iff_ne_none]
        exact unlocked_eq_ok.trans (hall.current v n)
      · simp only [hopens]
        exact hall.skipped

end Passmgr

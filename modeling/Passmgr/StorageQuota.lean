/-
# The storage quota of a push

What pass one charges to a vault's owner.  A chain with a put has to fit what the owner has left; a
chain of deletes is charged however full the vaults are.  A chain that rewrites a record still
under a rotated-out key is accepted before the budget is asked, and so never taken from it: a put
that comes after it in the batch is measured against room that is already used.

A push is the booking of its chains against the accounts of the vaults' owners.

Main definitions:

* `Db.usageOf` — what an owner's live vaults hold, as `storageBudgets` reads it;
* `isExempt` — the chains that may pass the quota: deletes only, or a rewrite under a new key;
* `QuotaSound` — what is given to an owner stays within the quota;
* `NoRewriteBeforePut` — no rewrite comes before a put of the same owner.

Main results:

* `accepted_items` — pass one takes the chains whose items the ledger takes;
* `quota_sound` — a batch keeps the quota, whatever it is, exactly when no rewrite comes before a
  put.
-/

import Mathlib.Algebra.Order.BigOperators.Group.List
import Passmgr.Ledger
import Passmgr.PushStore

set_option relaxedAutoImplicit false
set_option autoImplicit false

namespace Passmgr

/-! ### What an owner uses -/

/-- The owner of a vault. -/
def Db.ownerOf (db : Db) (vaultId : VaultId) : Option UserId := (db.vault? vaultId).map (·.ownerId)

/-- What the owner's vaults that are not deleted hold. -/
def Db.usageOf (db : Db) (ownerId : UserId) : ℤ :=
  ((db.vaults.filter fun v => v.ownerId = ownerId && v.deletedAt.isNone).map (·.usedBytes)).sum

/-- The bytes of planned versions that go into vaults of an owner. -/
def bytesFor (db : Db) (ownerId : UserId) (appended : Appended) : ℕ :=
  appendedBytes (appended.filter fun p => db.ownerOf p.version.vaultId = some ownerId)

/-- Whether a chain has a put. -/
def hasPut (chain : List Indexed) : Bool := chain.any (·.change.op.isPut)

section Sound

variable (quotaBytes : ℕ) (db : Db) (userId : UserId) (now : Time) (changes : List PushChange)

/-- Pass one as the push runs it. -/
def pushPassOne : Except PushError PassOne :=
  passOne userId now (vaultState db userId changes) (latestVersion db) (storedChange db)
    (storageBudgets db quotaBytes
      (writableVaults db userId (changes.map (·.vaultId)).eraseDups))
    (groupByRecord changes)

/-- Whether a chain rewrites a record whose head is under a rotated-out key. -/
def rewrites (chain : List Indexed) : Bool :=
  chain.any fun x =>
    rewritesOldKey (vaultState db userId changes) (latestVersion db x.change.recordId)

/-- The chains that may pass the quota. -/
def isExempt (chain : List Indexed) : Bool := !hasPut chain || rewrites db userId changes chain

/-- Whether a chain gets new versions in a vault of the owner. -/
def appendsFor (ownerId : UserId) (c : RecordId × List Indexed) : Bool :=
  (c.2.zip (decideChain (vaultState db userId changes) (storedChange db) (latestVersion db c.1)
    c.2)).any fun pair => pair.2 = .append && db.ownerOf pair.1.change.vaultId = some ownerId

/-- The quota holds: when the versions of a chain that is not exempt are accepted, what their
vault's owner uses and all versions accepted for the owner so far are within it; and a push that
commits takes an owner past it by no more than the exempt chains it wrote. -/
structure QuotaSound : Prop where
  accepted : ∀ pass, pushPassOne quotaBytes db userId now changes = .ok pass →
    ∀ before a after, pass.accepted = before ++ a :: after →
      isExempt db userId changes a.chain = false →
      ∀ p ∈ a.appended, ∀ ownerId, db.ownerOf p.version.vaultId = some ownerId →
        db.usageOf ownerId + bytesFor db ownerId ((before ++ [a]).flatMap (·.appended)) ≤
          quotaBytes
  committed : ∀ d, pushChanges quotaBytes db userId now changes = .ok d →
    ∀ ownerId, db.usageOf ownerId ≤ quotaBytes →
      d.db.usageOf ownerId ≤ quotaBytes +
        (((d.written.filter fun row => db.ownerOf row.vaultId = some ownerId &&
          isExempt db userId changes (chainOf changes row.recordId)).map (·.bytes)).sum : ℕ)

/-- No chain that rewrites a record under a rotated-out key comes, in the batch, before a chain
with a put that gets versions in a vault of the same owner and is no rewrite itself. -/
def NoRewriteBeforePut : Prop :=
  (groupByRecord changes).Pairwise fun c c' => ∀ ownerId,
    rewritesOldKey (vaultState db userId changes) (latestVersion db c.1) = true →
    appendsFor db userId changes ownerId c = true → isExempt db userId changes c'.2 = false →
    appendsFor db userId changes ownerId c' = false

/-- How a chain is booked: a rewrite not at all, one with a put as far as it fits. -/
def kindOf (chain : List Indexed) : Ledger.Kind :=
  if rewrites db userId changes chain then .free else if hasPut chain then .bounded else .forced

/-- What a chain is for the ledger: nothing when it gets no versions, else its bytes on the
account of their vault's owner. -/
def itemOf (a : Accepted) : Option (Ledger.Item UserId) :=
  match a.appended with
  | [] => none
  | p :: _ => (db.ownerOf p.version.vaultId).map fun ownerId =>
    { account := ownerId
      weight := appendedBytes a.appended
      kind := kindOf db userId changes a.chain }

/-- A chain of the batch with its planned versions. -/
def candidate (c : RecordId × List Indexed) : Accepted :=
  judgedAccepted userId now (vaultState db userId changes) (latestVersion db) (storedChange db)
    (c, true)

/-- A chain of the batch for the ledger. -/
def chainItem (c : RecordId × List Indexed) : Option (Ledger.Item UserId) :=
  itemOf db userId changes (candidate db userId now changes c)

end Sound

/-! ### The planned versions of a chain -/

section Chain

variable {quotaBytes : ℕ} {db : Db} {userId : UserId} {now : Time} {changes : List PushChange}

theorem rewrites_of_mem {c : RecordId × List Indexed} (hc : c ∈ groupByRecord changes) :
    rewrites db userId changes c.2 =
      rewritesOldKey (vaultState db userId changes) (latestVersion db c.1) := by
  obtain ⟨hchain, hne⟩ := mem_groupByRecord.1 hc
  have hrec : ∀ x ∈ c.2, x.change.recordId = c.1 := by
    intro x hx
    rw [hchain] at hx
    simpa using (List.mem_filter.1 hx).2
  rw [Bool.eq_iff_iff, rewrites, List.any_eq_true]
  constructor
  · rintro ⟨x, hx, hrw⟩
    rwa [hrec x hx] at hrw
  · intro hrw
    obtain ⟨x, hx⟩ := List.exists_mem_of_ne_nil _ hne
    exact ⟨x, hx, by rwa [hrec x hx]⟩

/-- The planned versions of a chain go into one vault. -/
theorem one_vault_pushPlanned {c : RecordId × List Indexed} {p q : Planned}
    (hp : p ∈ pushPlanned db userId now changes c) (hq : q ∈ pushPlanned db userId now changes c) :
    p.version.vaultId = q.version.vaultId := by
  obtain ⟨x, hx, hxp⟩ := mem_pushPlanned hp
  obtain ⟨y, hy, hyq⟩ := mem_pushPlanned hq
  rw [hxp.vaultId, hyq.vaultId]
  rcases pushDecided_cases db userId changes c with h | hno
  · cases hhead : latestVersion db c.1 with
    | some head =>
        rw [hhead] at h
        rw [vaultId_of_passes h x (mem_appends.2 hx), vaultId_of_passes h y (mem_appends.2 hy)]
    | none =>
        rw [hhead] at h
        exact vaultId_of_passes_none h x (mem_appends.2 hx) y (mem_appends.2 hy)
  · exact absurd rfl (hno _ hx)

theorem mem_batchVaults_of_access {vaultId : VaultId}
    (h : (vaultState db userId changes).access vaultId = some none) :
    vaultId ∈ writableVaults db userId (changes.map (·.vaultId)).eraseDups := by
  refine List.mem_filter.2 ⟨?_, by simpa [vaultState] using h⟩
  simp only [vaultState, vaultAccess] at h
  split at h
  · assumption
  · simp at h

/-- A vault the user may write to is there and not deleted. -/
theorem live_of_access {vaultId : VaultId}
    (h : (vaultState db userId changes).access vaultId = some none) :
    ∃ v ∈ db.vaults, v.vaultId = vaultId ∧ v.deletedAt = none := by
  simp only [vaultState, vaultAccess, Db.requireVaultRole] at h
  split at h
  · cases hm : db.vaultMembers.find? fun m =>
        m.vaultId = vaultId && db.activeMembership userId m with
    | none => simp [hm] at h
    | some m =>
        have hp := List.find?_some hm
        simp only [Bool.and_eq_true, decide_eq_true_eq, Db.activeMembership, Db.isLive,
          List.any_eq_true, Option.isNone_iff_eq_none] at hp
        obtain ⟨hmv, -, v, hv, hvm, hlive⟩ := hp
        exact ⟨v, hv, hvm.trans hmv, hlive⟩
  · simp at h

/-- The budget of an owner with a live vault: what the quota leaves. -/
theorem remaining_of_live {v : VaultRow} (hv : v ∈ db.vaults) (hlive : v.deletedAt = none)
    (vaultIds : List VaultId) :
    (storageBudgets db quotaBytes vaultIds).remaining v.ownerId =
      some (quotaBytes - db.usageOf v.ownerId) := by
  have hmem : v ∈ db.vaults.filter fun w => w.ownerId = v.ownerId && w.deletedAt.isNone :=
    List.mem_filter.2 ⟨hv, by simp [hlive]⟩
  simp only [storageBudgets, Db.usageOf]
  cases hown : db.vaults.filter fun w => w.ownerId = v.ownerId && w.deletedAt.isNone with
  | nil => simp [hown] at hmem
  | cons w ws => rfl

/-- The vault a planned version goes into. -/
theorem vault_of_planned (hids : (db.vaults.map (·.vaultId)).Nodup)
    {c : RecordId × List Indexed} {p : Planned} (hp : p ∈ pushPlanned db userId now changes c) :
    ∃ v ∈ db.vaults, v.deletedAt = none ∧ db.ownerOf p.version.vaultId = some v.ownerId ∧
      p.version.vaultId ∈ writableVaults db userId (changes.map (·.vaultId)).eraseDups := by
  obtain ⟨x, hx, hxp⟩ := mem_pushPlanned hp
  have haccess := (decideChain_append hx).access
  rw [← hxp.vaultId] at haccess
  obtain ⟨v, hv, hid, hlive⟩ := live_of_access haccess
  refine ⟨v, hv, hlive, ?_, mem_batchVaults_of_access haccess⟩
  rw [Db.ownerOf, Db.vault?, ← hid, find?_vault_of_mem hids hv]
  rfl

/-! ### Pass one as a booking -/

theorem appended_candidate (c : RecordId × List Indexed) :
    (candidate db userId now changes c).appended = pushPlanned db userId now changes c := rfl

/-- The item of a chain that gets versions. -/
theorem chainItem_cons {c : RecordId × List Indexed} {p : Planned} {rest : Appended}
    (hplanned : pushPlanned db userId now changes c = p :: rest) {ownerId : UserId}
    (howner : db.ownerOf p.version.vaultId = some ownerId) :
    ∃ item, chainItem db userId now changes c = some item ∧ item.account = ownerId ∧
      item.weight = appendedBytes (p :: rest) ∧ item.kind = kindOf db userId changes c.2 := by
  rw [chainItem, itemOf, appended_candidate, hplanned]
  simp only [howner, Option.map_some]
  exact ⟨_, rfl, rfl, rfl, rfl⟩

theorem chainItem_nil {c : RecordId × List Indexed}
    (hplanned : pushPlanned db userId now changes c = []) :
    chainItem db userId now changes c = none := by
  rw [chainItem, itemOf, appended_candidate, hplanned]

/-- The bytes a chain takes of an owner are the weight of its item. -/
theorem bytesFor_pushPlanned (hids : (db.vaults.map (·.vaultId)).Nodup) (ownerId : UserId)
    (c : RecordId × List Indexed) :
    bytesFor db ownerId (pushPlanned db userId now changes c) =
      Ledger.weightOf ownerId (chainItem db userId now changes c).toList := by
  cases hplanned : pushPlanned db userId now changes c with
  | nil =>
      rw [chainItem_nil hplanned]
      rfl
  | cons p rest =>
      have hp : p ∈ pushPlanned db userId now changes c := by simp [hplanned]
      obtain ⟨v, -, -, howner, -⟩ := vault_of_planned hids hp
      have hall : ∀ q ∈ p :: rest, db.ownerOf q.version.vaultId = some v.ownerId := by
        intro q hq
        rw [← hplanned] at hq
        rw [one_vault_pushPlanned hq hp]
        exact howner
      obtain ⟨item, hitem, hacc, hweight, -⟩ := chainItem_cons hplanned howner
      rw [hitem, bytesFor, Option.toList_some, Ledger.weightOf_cons, Ledger.weightOf_nil,
        Nat.add_zero, hacc, hweight]
      by_cases ho : v.ownerId = ownerId
      · rw [if_pos ho, List.filter_eq_self.2 fun q hq => by simp [hall q hq, ho]]
      · rw [if_neg ho, List.filter_eq_nil_iff.2 fun q hq => by simp [hall q hq, ho]]
        rfl

/-- The budgets as the ledger has them, for the versions of some chains. -/
def Matches (db : Db) (userId : UserId) (now : Time) (changes : List PushChange)
    (budgets : StorageBudgets) (room : UserId → ℤ) (chains : List (RecordId × List Indexed)) :
    Prop :=
  ∀ c ∈ chains, ∀ p ∈ pushPlanned db userId now changes c, ∃ ownerId,
    db.ownerOf p.version.vaultId = some ownerId ∧
      budgets.ownerOf p.version.vaultId = some ownerId ∧
      budgets.remaining ownerId = some (room ownerId)

theorem Matches.take {budgets : StorageBudgets} {room : UserId → ℤ}
    {chains : List (RecordId × List Indexed)}
    (h : Matches db userId now changes budgets room chains) {vaultId : VaultId} {ownerId : UserId}
    (howner : budgets.ownerOf vaultId = some ownerId) {item : Ledger.Item UserId}
    (hitem : item.account = ownerId) (hkind : item.kind ≠ .free) :
    Matches db userId now changes (budgets.take vaultId item.weight) (Ledger.book room item)
      chains := by
  intro c hc p hp
  obtain ⟨o, ho, hbo, hro⟩ := h c hc p hp
  refine ⟨o, ho, hbo, ?_⟩
  simp only [StorageBudgets.take, howner, Option.some.injEq, hro, Option.map_some]
  by_cases hoo : ownerId = o
  · simp [hoo, Ledger.book, Ledger.bookedOf, hkind, hitem]
  · simp [hoo, Ledger.book, Ledger.bookedOf, hkind, hitem]

/-- **Pass one takes what the ledger takes.** -/
theorem judged_items {budgets : StorageBudgets} {room : UserId → ℤ}
    {chains : List (RecordId × List Indexed)} (hsub : ∀ c ∈ chains, c ∈ groupByRecord changes)
    (hm : Matches db userId now changes budgets room chains) :
    ((judged userId now (vaultState db userId changes) (latestVersion db) (storedChange db)
        budgets chains).filter (·.2)).filterMap (fun j => chainItem db userId now changes j.1) =
      Ledger.accepted room (chains.filterMap (chainItem db userId now changes)) := by
  induction chains generalizing budgets room with
  | nil => rfl
  | cons c chains ih =>
      have hsub' : ∀ c ∈ chains, c ∈ groupByRecord changes :=
        fun d hd => hsub d (List.mem_cons_of_mem c hd)
      have hm' : Matches db userId now changes budgets room chains :=
        fun d hd => hm d (List.mem_cons_of_mem c hd)
      have hrw := @rewrites_of_mem db userId changes c (hsub c List.mem_cons_self)
      cases hplanned : pushPlanned db userId now changes c with
      | nil =>
          -- a chain without versions is accepted and takes nothing
          have hcharge : charge userId now (vaultState db userId changes) (latestVersion db)
              (storedChange db) budgets c = some budgets := by
            simp only [pushPlanned] at hplanned
            rw [charge, hplanned]
            split <;> rfl
          rw [judged, hcharge, List.filter_cons_of_pos rfl, List.filterMap_cons,
            List.filterMap_cons, chainItem_nil hplanned]
          exact ih hsub' hm'
      | cons p rest =>
          obtain ⟨o, howner, hbo, hro⟩ := hm c List.mem_cons_self p (by simp [hplanned])
          obtain ⟨item, hitem, hacc, hweight, hkind⟩ := chainItem_cons hplanned howner
          have hget : budgets.get p.version.vaultId = some (room o) := by
            rw [StorageBudgets.get, hbo]
            exact hro
          simp only [pushPlanned] at hplanned
          rw [List.filterMap_cons, hitem, judged, charge, hplanned, Ledger.accepted, ← hrw]
          by_cases hr : rewrites db userId changes c.2 = true
          · -- a rewrite is taken without being charged
            have hfree : item.kind = .free := by rw [hkind, kindOf, if_pos hr]
            have hbook : Ledger.book room item = room := by
              funext a
              simp [Ledger.book, Ledger.bookedOf, hfree]
            rw [if_pos hr, if_pos (by simp [Ledger.fits, hfree]), hbook,
              List.filter_cons_of_pos rfl, List.filterMap_cons, hitem, ih hsub' hm']
          · have hkind' : item.kind = if hasPut c.2 then .bounded else .forced := by
              rw [hkind, kindOf, if_neg hr]
            have hnfree : item.kind ≠ .free := by
              rw [hkind']
              split <;> simp
            rw [if_neg hr]
            simp only [withinQuota, hget]
            by_cases hover : (appendedBytes (p :: rest) : ℤ) > room o ∧ hasPut c.2 = true
            · -- a chain with a put that is over the budget
              have hover' : (decide ((appendedBytes (p :: rest) : ℤ) > room o) &&
                  c.2.any (·.change.op.isPut)) = true := by
                simpa [hasPut] using hover
              have hfits : Ledger.fits room item = false := by
                simpa [Ledger.fits, hkind', hover.2, hweight, hacc] using hover.1
              rw [if_pos hover', List.filter_cons_of_neg (by simp), hfits,
                if_neg Bool.false_ne_true]
              exact ih hsub' hm'
            · have hover' : (decide ((appendedBytes (p :: rest) : ℤ) > room o) &&
                  c.2.any (·.change.op.isPut)) ≠ true := by
                simpa [hasPut] using hover
              have hfits : Ledger.fits room item = true := by
                by_cases hput : hasPut c.2 = true
                · have hle : (item.weight : ℤ) ≤ room item.account := by
                    rw [hweight, hacc]
                    by_contra hgt
                    exact hover ⟨by omega, hput⟩
                  simpa [Ledger.fits] using Or.inr hle
                · simp [Ledger.fits, hkind', hput]
              rw [if_neg hover', List.filter_cons_of_pos rfl, List.filterMap_cons, hitem,
                if_pos hfits, ih hsub' (hweight ▸ hm'.take hbo hacc hnfree)]

/-- What an owner may still add. -/
def quotaRoom (quotaBytes : ℕ) (db : Db) (ownerId : UserId) : ℤ := quotaBytes - db.usageOf ownerId

theorem accepted_items (hids : (db.vaults.map (·.vaultId)).Nodup) :
    ((pushJudged quotaBytes db userId now changes).filter (·.2)).filterMap
        (fun j => chainItem db userId now changes j.1) =
      Ledger.accepted (quotaRoom quotaBytes db)
        ((groupByRecord changes).filterMap (chainItem db userId now changes)) := by
  refine judged_items (fun c hc => hc) ?_
  intro c hc p hp
  obtain ⟨v, hv, hlive, howner, hwritable⟩ := vault_of_planned hids hp
  exact ⟨v.ownerId, howner, (if_pos hwritable).trans howner, remaining_of_live hv hlive _⟩

/-- What chains take of an owner is the weight of their items. -/
theorem bytesFor_flatMap (hids : (db.vaults.map (·.vaultId)).Nodup) (ownerId : UserId)
    (chains : List (RecordId × List Indexed)) :
    bytesFor db ownerId (chains.flatMap (pushPlanned db userId now changes)) =
      Ledger.weightOf ownerId (chains.filterMap (chainItem db userId now changes)) := by
  induction chains with
  | nil => rfl
  | cons c chains ih =>
      have happ : ∀ xs ys : Appended,
          bytesFor db ownerId (xs ++ ys) = bytesFor db ownerId xs + bytesFor db ownerId ys := by
        intro xs ys
        simp [bytesFor, appendedBytes]
      rw [List.flatMap_cons, happ, bytesFor_pushPlanned hids, ih]
      cases hitem : chainItem db userId now changes c with
      | none => simp [hitem]
      | some item => simp [hitem]

/-- The chains pass one accepts. -/
def acceptedChains (quotaBytes : ℕ) (db : Db) (userId : UserId) (now : Time)
    (changes : List PushChange) : List (RecordId × List Indexed) :=
  ((pushJudged quotaBytes db userId now changes).filter (·.2)).map Prod.fst

theorem pushPassOne_ok {pass : PassOne}
    (h : pushPassOne quotaBytes db userId now changes = .ok pass) :
    pass.accepted =
      (acceptedChains quotaBytes db userId now changes).map (candidate db userId now changes) := by
  rw [pushPassOne, passOne_eq] at h
  obtain rfl := Except.ok.inj h
  rw [acceptedChains, List.map_map]
  rfl

theorem exists_pushPassOne (quotaBytes : ℕ) (db : Db) (userId : UserId) (now : Time)
    (changes : List PushChange) :
    ∃ pass, pushPassOne quotaBytes db userId now changes = .ok pass := by
  rw [pushPassOne, passOne_eq]
  exact ⟨_, rfl⟩

theorem mem_acceptedChains {c : RecordId × List Indexed}
    (hc : c ∈ acceptedChains quotaBytes db userId now changes) : c ∈ groupByRecord changes := by
  obtain ⟨j, hj, rfl⟩ := List.mem_map.1 hc
  exact fst_mem_groupByRecord (List.mem_filter.1 hj).1

theorem filterMap_acceptedChains (hids : (db.vaults.map (·.vaultId)).Nodup) :
    (acceptedChains quotaBytes db userId now changes).filterMap
        (chainItem db userId now changes) =
      Ledger.accepted (quotaRoom quotaBytes db)
        ((groupByRecord changes).filterMap (chainItem db userId now changes)) := by
  rw [acceptedChains, List.filterMap_map]
  exact accepted_items hids

theorem kindOf_eq_bounded {chain : List Indexed} :
    kindOf db userId changes chain = .bounded ↔ isExempt db userId changes chain = false := by
  rw [kindOf, isExempt]
  cases rewrites db userId changes chain <;> cases hasPut chain <;> simp

theorem kindOf_eq_free {chain : List Indexed} :
    kindOf db userId changes chain = .free ↔ rewrites db userId changes chain = true := by
  rw [kindOf]
  cases rewrites db userId changes chain <;> cases hasPut chain <;> simp

/-- The item of a chain, and the versions it stands for. -/
theorem chainItem_some (hids : (db.vaults.map (·.vaultId)).Nodup) {c : RecordId × List Indexed}
    {item : Ledger.Item UserId} (h : chainItem db userId now changes c = some item) :
    item.kind = kindOf db userId changes c.2 ∧ 0 < item.weight ∧
      (∃ p, p ∈ pushPlanned db userId now changes c) ∧
      ∀ p ∈ pushPlanned db userId now changes c,
        db.ownerOf p.version.vaultId = some item.account := by
  cases hplanned : pushPlanned db userId now changes c with
  | nil => simp [chainItem_nil hplanned] at h
  | cons p rest =>
      have hp : p ∈ pushPlanned db userId now changes c := by simp [hplanned]
      obtain ⟨v, -, -, howner, -⟩ := vault_of_planned hids hp
      obtain ⟨item', hitem, hacc, hweight, hkind⟩ := chainItem_cons hplanned howner
      rw [h] at hitem
      obtain rfl := Option.some.inj hitem
      refine ⟨hkind, ?_, ⟨p, List.mem_cons_self⟩, ?_⟩
      · rw [hweight, appendedBytes, List.map_cons, List.sum_cons, pushChangeBytes,
          recordVersionOverheadBytes]
        omega
      · intro q hq
        rw [← hplanned] at hq
        rw [one_vault_pushPlanned hq hp, howner, hacc]

/-- A chain with versions has an item. -/
theorem exists_chainItem (hids : (db.vaults.map (·.vaultId)).Nodup) {c : RecordId × List Indexed}
    {p : Planned} (hp : p ∈ pushPlanned db userId now changes c) :
    ∃ item, chainItem db userId now changes c = some item := by
  cases hplanned : pushPlanned db userId now changes c with
  | nil => simp [hplanned] at hp
  | cons q rest =>
      have hq : q ∈ pushPlanned db userId now changes c := by simp [hplanned]
      obtain ⟨v, -, -, howner, -⟩ := vault_of_planned hids hq
      obtain ⟨item, hitem, -⟩ := chainItem_cons hplanned howner
      exact ⟨item, hitem⟩

/-- **Pass one keeps the quota** exactly when the ledger is sound. -/
theorem accepted_iff_sound (hids : (db.vaults.map (·.vaultId)).Nodup) :
    (∀ pass, pushPassOne quotaBytes db userId now changes = .ok pass →
      ∀ before a after, pass.accepted = before ++ a :: after →
        isExempt db userId changes a.chain = false →
        ∀ p ∈ a.appended, ∀ ownerId, db.ownerOf p.version.vaultId = some ownerId →
          db.usageOf ownerId + bytesFor db ownerId ((before ++ [a]).flatMap (·.appended)) ≤
            quotaBytes) ↔
      Ledger.Sound (quotaRoom quotaBytes db)
        ((groupByRecord changes).filterMap (chainItem db userId now changes)) := by
  have hbytes : ∀ (ownerId : UserId) (chains : List (RecordId × List Indexed)),
      bytesFor db ownerId ((chains.map (candidate db userId now changes)).flatMap (·.appended)) =
        Ledger.weightOf ownerId (chains.filterMap (chainItem db userId now changes)) := by
    intro ownerId chains
    rw [List.flatMap_map]
    exact bytesFor_flatMap hids ownerId chains
  constructor
  · intro h before i after hsplit hbounded
    obtain ⟨pass, hpass⟩ := exists_pushPassOne quotaBytes db userId now changes
    rw [← filterMap_acceptedChains hids] at hsplit
    obtain ⟨cs, ds, hchains, rfl, hds⟩ := List.filterMap_eq_append_iff.1 hsplit
    obtain ⟨es, c, fs, rfl, hes, hc, -⟩ := List.filterMap_eq_cons_iff.1 hds
    obtain ⟨hkind, -, ⟨p, hp⟩, howner⟩ := chainItem_some hids hc
    have haccepted := pushPassOne_ok hpass
    rw [hchains, ← List.append_assoc, List.map_append, List.map_cons] at haccepted
    have hle := h pass hpass _ _ _ haccepted
      (kindOf_eq_bounded.1 (hkind.symm.trans hbounded)) p hp i.account (howner p hp)
    have hnone : es.filterMap (chainItem db userId now changes) = [] :=
      List.filterMap_eq_nil_iff.2 hes
    rw [← List.map_singleton, ← List.map_append, hbytes, List.filterMap_append,
      List.filterMap_append, hnone, List.append_nil] at hle
    rw [quotaRoom]
    simp only [List.filterMap_cons, hc, List.filterMap_nil] at hle
    omega
  · intro h pass hpass before a after hsplit hexempt p hp ownerId howner
    rw [pushPassOne_ok hpass] at hsplit
    obtain ⟨cs, ds, hchains, rfl, hds⟩ := List.map_eq_append_iff.1 hsplit
    obtain ⟨c, es, rfl, rfl, -⟩ := List.map_eq_cons_iff.1 hds
    obtain ⟨item, hitem⟩ := exists_chainItem hids (c := c) hp
    obtain ⟨hkind, -, -, hall⟩ := chainItem_some hids hitem
    obtain rfl : item.account = ownerId := by
      have := hall p hp
      rw [howner] at this
      exact (Option.some.inj this).symm
    have haccepted := @filterMap_acceptedChains quotaBytes db userId now changes hids
    rw [hchains, List.filterMap_append, List.filterMap_cons, hitem] at haccepted
    have hle := h _ _ _ haccepted.symm (hkind.trans (kindOf_eq_bounded.2 hexempt))
    rw [← List.map_singleton, ← List.map_append, hbytes, List.filterMap_append]
    rw [quotaRoom] at hle
    simp only [List.filterMap_cons, hitem, List.filterMap_nil]
    omega

/-- Whether a chain gets versions of an owner, by its item. -/
theorem appendsFor_iff (hids : (db.vaults.map (·.vaultId)).Nodup) {ownerId : UserId}
    {c : RecordId × List Indexed} :
    appendsFor db userId changes ownerId c = true ↔
      ∃ item, chainItem db userId now changes c = some item ∧ item.account = ownerId := by
  have hf := forall₂_pushPlanned db userId now changes c
  rw [appendsFor, List.any_eq_true]
  constructor
  · rintro ⟨⟨x, o⟩, hx, hxo⟩
    simp only [Bool.and_eq_true, decide_eq_true_eq] at hxo
    obtain ⟨rfl, howner⟩ := hxo
    have hmem : x ∈ appends (pushDecided db userId changes c) := mem_appends.2 hx
    obtain ⟨i, hi, hxi⟩ := List.getElem_of_mem hmem
    have hi' : i < (pushPlanned db userId now changes c).length := hf.length_eq ▸ hi
    have hversion := hf.get hi hi'
    simp only [List.get_eq_getElem, hxi] at hversion
    have hp := List.getElem_mem hi'
    obtain ⟨item, hitem⟩ := exists_chainItem hids hp
    obtain ⟨-, -, -, hall⟩ := chainItem_some hids hitem
    have hacc := hall _ hp
    rw [hversion.vaultId, howner] at hacc
    exact ⟨item, hitem, (Option.some.inj hacc).symm⟩
  · rintro ⟨item, hitem, rfl⟩
    obtain ⟨-, -, ⟨p, hp⟩, hall⟩ := chainItem_some hids hitem
    obtain ⟨x, hx, hxp⟩ := mem_pushPlanned hp
    refine ⟨(x, .append), hx, ?_⟩
    simp [← hxp.vaultId, hall p hp]

theorem noRewriteBeforePut_iff (hids : (db.vaults.map (·.vaultId)).Nodup) (now : Time) :
    NoRewriteBeforePut db userId changes ↔
      Ledger.NoFreeBefore
        ((groupByRecord changes).filterMap (chainItem db userId now changes)) := by
  rw [NoRewriteBeforePut, Ledger.NoFreeBefore, List.pairwise_filterMap]
  refine List.Pairwise.iff_of_mem fun {c c'} hc hc' => ?_
  rw [← rewrites_of_mem hc]
  constructor
  · intro h item hitem item' hitem' hfree hbounded hacc
    have hkind := (chainItem_some hids hitem).1
    have hkind' := (chainItem_some hids hitem').1
    have hnot := h item.account (kindOf_eq_free.1 (hkind.symm.trans hfree))
      ((appendsFor_iff hids).2 ⟨item, hitem, rfl⟩)
      (kindOf_eq_bounded.1 (hkind'.symm.trans hbounded))
    rw [(appendsFor_iff hids).2 ⟨item', hitem', hacc.symm⟩] at hnot
    exact Bool.noConfusion hnot
  · intro h ownerId hrw happ hexempt
    rw [Bool.eq_false_iff]
    intro happ'
    obtain ⟨item, hitem, rfl⟩ := (@appendsFor_iff db userId now changes hids _ _).1 happ
    obtain ⟨item', hitem', hacc⟩ := (@appendsFor_iff db userId now changes hids _ _).1 happ'
    exact h item hitem item' hitem' ((chainItem_some hids hitem).1.trans (kindOf_eq_free.2 hrw))
      ((chainItem_some hids hitem').1.trans (kindOf_eq_bounded.2 hexempt)) hacc.symm

/-! ### What a committed push takes -/

theorem usageOf_map_le {db db' : Db} {f : VaultRow → VaultRow}
    (hvaults : db'.vaults = db.vaults.map f) (howner : ∀ v, (f v).ownerId = v.ownerId)
    (hdeleted : ∀ v, (f v).deletedAt = v.deletedAt) (hle : ∀ v, (f v).usedBytes ≤ v.usedBytes)
    (ownerId : UserId) : db'.usageOf ownerId ≤ db.usageOf ownerId := by
  rw [Db.usageOf, Db.usageOf, hvaults]
  induction db.vaults with
  | nil => rfl
  | cons v vaults ih =>
      have hv := hle v
      simp only [List.map_cons, List.filter_cons, howner, hdeleted]
      split
      · simp only [List.map_cons, List.sum_cons]
        omega
      · exact ih

/-- A purge only gives bytes back. -/
theorem usageOf_dropPurgedHistory_le (db : Db) (written : List RecordRow) (ownerId : UserId) :
    (dropPurgedHistory db written).usageOf ownerId ≤ db.usageOf ownerId := by
  induction written generalizing db with
  | nil => exact le_refl _
  | cons p written ih =>
      have hstep : dropPurgedHistory db (p :: written) =
          dropPurgedHistory (if p.isPurged then dropBelow db p else db) written := rfl
      rw [hstep]
      refine (ih _).trans ?_
      split
      · refine @usageOf_map_le db (dropBelow db p) _ rfl (fun v => ?_) (fun v => ?_)
          (fun v => ?_) ownerId
        · split <;> rfl
        · split <;> rfl
        · split
          · simp only
            omega
          · exact le_refl _
      · exact le_refl _

/-- Versions shared out over distinct vaults. -/
theorem sum_versionsBytes_le {vaults : List VaultRow} (hn : (vaults.map (·.vaultId)).Nodup)
    {versions : List NewVersion} {p : NewVersion → Bool}
    (hp : ∀ v ∈ vaults, ∀ w ∈ versions, w.vaultId = v.vaultId → p w = true) :
    (vaults.map fun v => versionsBytes (versions.filter (·.vaultId = v.vaultId))).sum ≤
      versionsBytes (versions.filter p) := by
  induction versions with
  | nil => simp [versionsBytes]
  | cons w versions ih =>
      have hrest := ih fun v hv x hx => hp v hv x (List.mem_cons_of_mem w hx)
      have hcons : ∀ q : NewVersion → Bool, versionsBytes ((w :: versions).filter q) =
          (if q w then pushChangeBytes w.content else 0) + versionsBytes (versions.filter q) := by
        intro q
        cases hq : q w <;> simp [versionsBytes, hq]
      simp only [hcons, List.sum_map_add]
      -- at most one of the vaults is the one of `w`
      have hone : (vaults.map fun v => if decide (w.vaultId = v.vaultId) = true then
          pushChangeBytes w.content else 0).sum ≤ if p w then pushChangeBytes w.content else 0 := by
        have hp' : ∀ v ∈ vaults, w.vaultId = v.vaultId → p w = true :=
          fun v hv => hp v hv w List.mem_cons_self
        clear hp hrest ih hcons
        induction vaults with
        | nil => simp
        | cons v vaults ih =>
            rw [List.map_cons, List.nodup_cons] at hn
            have hrest := ih hn.2 fun u hu => hp' u (List.mem_cons_of_mem v hu)
            rw [List.map_cons, List.sum_cons]
            by_cases hv : w.vaultId = v.vaultId
            · have hzero : (vaults.map fun u => if decide (w.vaultId = u.vaultId) = true then
                  pushChangeBytes w.content else 0).sum = 0 := by
                refine List.sum_eq_zero fun n hmem => ?_
                obtain ⟨u, hu, rfl⟩ := List.mem_map.1 hmem
                have hne : ¬w.vaultId = u.vaultId := fun huw =>
                  hn.1 (hv ▸ huw ▸ List.mem_map_of_mem (f := fun x : VaultRow => x.vaultId) hu)
                simp [hne]
              rw [hzero, hp' v List.mem_cons_self hv]
              simp [hv]
            · simpa [hv] using hrest
      omega

/-- What a push adds to an owner's vaults. -/
theorem usageOf_insertedDb_le (hids : (db.vaults.map (·.vaultId)).Nodup) (ownerId : UserId) :
    (insertedDb quotaBytes db userId now changes).usageOf ownerId ≤ db.usageOf ownerId +
      bytesFor db ownerId (writtenPlan quotaBytes db userId now changes) := by
  have hsplit : ∀ (vaults : List VaultRow) (g : VaultRow → ℕ),
      (vaults.map fun v => v.usedBytes + (g v : ℤ)).sum =
        (vaults.map (·.usedBytes)).sum + ((vaults.map g).sum : ℕ) := by
    intro vaults g
    induction vaults with
    | nil => rfl
    | cons v vaults ih =>
        simp only [List.map_cons, List.sum_cons, ih]
        push_cast
        omega
  have hle := @sum_versionsBytes_le
    (db.vaults.filter fun v => v.ownerId = ownerId && v.deletedAt.isNone)
    (hids.sublist (List.filter_sublist.map _))
    ((writtenPlan quotaBytes db userId now changes).map (·.version))
    (fun w => db.ownerOf w.vaultId = some ownerId) ?_
  · have hbytes : versionsBytes (((writtenPlan quotaBytes db userId now changes).map
        (·.version)).filter fun w => db.ownerOf w.vaultId = some ownerId) =
        bytesFor db ownerId (writtenPlan quotaBytes db userId now changes) := by
      rw [List.filter_map, versionsBytes, List.map_map]
      rfl
    rw [hbytes] at hle
    have husage : (insertedDb quotaBytes db userId now changes).usageOf ownerId =
        ((db.vaults.filter fun v => v.ownerId = ownerId && v.deletedAt.isNone).map fun v =>
          v.usedBytes + (versionsBytes (((writtenPlan quotaBytes db userId now changes).map
            (·.version)).filter (·.vaultId = v.vaultId)) : ℤ)).sum := by
      rw [Db.usageOf, insertedDb, List.filter_map, List.map_map]
      rfl
    rw [husage, hsplit, Db.usageOf]
    omega
  · intro v hv w _ hw
    obtain ⟨hv, hvo⟩ := List.mem_filter.1 hv
    simp only [Bool.and_eq_true, decide_eq_true_eq] at hvo
    rw [decide_eq_true_eq, hw, Db.ownerOf, Db.vault?, find?_vault_of_mem hids hv, Option.map_some,
      hvo.1]

/-- The chains a push writes. -/
def writtenChains (quotaBytes : ℕ) (db : Db) (userId : UserId) (now : Time)
    (changes : List PushChange) : List (RecordId × List Indexed) :=
  ((pushJudged quotaBytes db userId now changes).filter
    (isWritten quotaBytes db userId now changes)).map Prod.fst

theorem writtenPlan_eq : writtenPlan quotaBytes db userId now changes =
    (writtenChains quotaBytes db userId now changes).flatMap
      (pushPlanned db userId now changes) := by
  rw [writtenPlan, writtenChains, List.flatMap_map]

theorem writtenChains_sublist : (writtenChains quotaBytes db userId now changes).Sublist
    (acceptedChains quotaBytes db userId now changes) := by
  have hfilter : (pushJudged quotaBytes db userId now changes).filter
        (isWritten quotaBytes db userId now changes) =
      ((pushJudged quotaBytes db userId now changes).filter (·.2)).filter
        (isWritten quotaBytes db userId now changes) := by
    rw [List.filter_filter]
    refine List.filter_congr fun j _ => ?_
    cases hj : j.2 <;> simp [isWritten, hj]
  rw [writtenChains, acceptedChains, hfilter]
  exact List.filter_sublist.map _

/-- The versions of exempt chains among those of some chains. -/
theorem filter_exempt_flatMap {chains : List (RecordId × List Indexed)}
    (hchains : ∀ c ∈ chains, c ∈ groupByRecord changes) :
    ((chains.flatMap (pushPlanned db userId now changes)).filter fun p =>
        isExempt db userId changes (chainOf changes p.version.recordId)) =
      (chains.filter fun c => isExempt db userId changes c.2).flatMap
        (pushPlanned db userId now changes) := by
  induction chains with
  | nil => rfl
  | cons c chains ih =>
      have hc := hchains c List.mem_cons_self
      have hchain := (mem_groupByRecord.1 hc).1
      rw [List.flatMap_cons, List.filter_append, ih fun d hd =>
        hchains d (List.mem_cons_of_mem c hd)]
      have hsame : ∀ p ∈ pushPlanned db userId now changes c,
          isExempt db userId changes (chainOf changes p.version.recordId) =
            isExempt db userId changes c.2 := by
        intro p hp
        rw [recordId_of_mem_pushPlanned hc hp, ← hchain]
      cases hcase : isExempt db userId changes c.2 with
      | true =>
          rw [List.filter_cons, hcase, if_pos rfl, List.flatMap_cons,
            List.filter_eq_self.2 fun p hp => (hsame p hp).trans hcase]
      | false =>
          have hnot : (pushPlanned db userId now changes c).filter (fun p =>
              isExempt db userId changes (chainOf changes p.version.recordId)) = [] :=
            List.filter_eq_nil_iff.2 fun p hp => by simp [hsame p hp, hcase]
          rw [List.filter_cons, hcase, if_neg Bool.false_ne_true, hnot, List.nil_append]

/-- The items of exempt chains are those that need not fit. -/
theorem filterMap_exempt (hids : (db.vaults.map (·.vaultId)).Nodup) (now : Time)
    (chains : List (RecordId × List Indexed)) :
    (chains.filter fun c => isExempt db userId changes c.2).filterMap
        (chainItem db userId now changes) =
      (chains.filterMap (chainItem db userId now changes)).filter (!·.isBounded) := by
  induction chains with
  | nil => rfl
  | cons c chains ih =>
      cases hitem : chainItem db userId now changes c with
      | none =>
          rw [List.filterMap_cons, hitem, ← ih, List.filter_cons]
          split
          · rw [List.filterMap_cons, hitem]
          · rfl
      | some item =>
          have hkind := (chainItem_some hids hitem).1
          rw [List.filterMap_cons, hitem]
          cases hcase : isExempt db userId changes c.2 with
          | true =>
              have hnot : item.kind ≠ .bounded := fun h => by
                simp [kindOf_eq_bounded.1 (hkind.symm.trans h)] at hcase
              rw [List.filter_cons, hcase, if_pos rfl, List.filterMap_cons, hitem,
                List.filter_cons_of_pos (by simpa [Ledger.Item.isBounded] using hnot), ih]
          | false =>
              have hbounded : item.kind = .bounded := hkind.trans (kindOf_eq_bounded.2 hcase)
              rw [List.filter_cons, hcase, if_neg Bool.false_ne_true,
                List.filter_cons_of_neg (by simp [Ledger.Item.isBounded, hbounded]), ih]

/-- The rows of the exempt chains a push wrote weigh what their items do. -/
theorem bytes_of_exempt (hids : (db.vaults.map (·.vaultId)).Nodup) (ownerId : UserId) :
    (((writtenRows quotaBytes db userId now changes).filter fun row =>
        db.ownerOf row.vaultId = some ownerId &&
          isExempt db userId changes (chainOf changes row.recordId)).map (·.bytes)).sum =
      Ledger.weightOf ownerId (((writtenChains quotaBytes db userId now changes).filterMap
        (chainItem db userId now changes)).filter (!·.isBounded)) := by
  have hchains : ∀ c ∈ writtenChains quotaBytes db userId now changes,
      c ∈ groupByRecord changes :=
    fun c hc => mem_acceptedChains (writtenChains_sublist.subset hc)
  rw [← filterMap_exempt hids, ← bytesFor_flatMap hids, ← filter_exempt_flatMap hchains,
    ← writtenPlan_eq, writtenRows]
  rw [map_filter_numberRows now (q := fun v => db.ownerOf v.vaultId = some ownerId &&
      isExempt db userId changes (chainOf changes v.recordId))
    (g := fun v => pushChangeBytes v.content) (fun _ _ => rfl) (fun _ _ => rfl),
    List.filter_map, List.map_map, bytesFor, List.filter_filter]
  rfl

/-- **A committed push** takes an owner past the quota by no more than its exempt chains. -/
theorem usageOf_push_le (hids : (db.vaults.map (·.vaultId)).Nodup) {d : Pushed}
    (hd : pushChanges quotaBytes db userId now changes = .ok d) {ownerId : UserId}
    (hle : db.usageOf ownerId ≤ quotaBytes) :
    d.db.usageOf ownerId ≤ quotaBytes +
      (((d.written.filter fun row => db.ownerOf row.vaultId = some ownerId &&
        isExempt db userId changes (chainOf changes row.recordId)).map (·.bytes)).sum : ℕ) := by
  obtain ⟨-, hwritten, hdb⟩ := of_pushChanges_ok hd
  have hdrop := usageOf_dropPurgedHistory_le (insertedDb quotaBytes db userId now changes)
    d.written ownerId
  have hinsert := @usageOf_insertedDb_le quotaBytes db userId now changes hids ownerId
  rw [← hdb] at hdrop
  rw [writtenPlan_eq, bytesFor_flatMap hids] at hinsert
  -- of what is written the bounded chains fit the quota
  have hbounded := Ledger.weightOf_bounded_le (quotaRoom quotaBytes db)
    ((groupByRecord changes).filterMap (chainItem db userId now changes)) ownerId
  rw [← filterMap_acceptedChains hids] at hbounded
  have hsub : (((writtenChains quotaBytes db userId now changes).filterMap
        (chainItem db userId now changes)).filter (·.isBounded)).Sublist
      (((acceptedChains quotaBytes db userId now changes).filterMap
        (chainItem db userId now changes)).filter (·.isBounded)) :=
    (writtenChains_sublist.filterMap _).filter _
  have hmono := Ledger.weightOf_le_of_sublist (a := ownerId) hsub
  have hadd := Ledger.weightOf_filter_add ownerId
    ((writtenChains quotaBytes db userId now changes).filterMap (chainItem db userId now changes))
    (·.isBounded)
  rw [hwritten, bytes_of_exempt hids]
  have hroom : quotaRoom quotaBytes db ownerId = quotaBytes - db.usageOf ownerId := rfl
  have hmax : max (quotaRoom quotaBytes db ownerId) 0 = quotaBytes - db.usageOf ownerId := by
    rw [hroom]
    exact max_eq_left (by omega)
  rw [hmax] at hbounded
  omega

/-- What the rows of an owner's vaults weigh is not negative. -/
theorem usageOf_nonneg (h : CountsBytes db) (ownerId : UserId) : 0 ≤ db.usageOf ownerId := by
  refine List.sum_nonneg fun n hn => ?_
  obtain ⟨v, hv, rfl⟩ := List.mem_map.1 hn
  rw [h v (List.mem_filter.1 hv).1]
  exact Int.natCast_nonneg _

end Chain

/-- **The storage quota.**  In every state of the record store a batch keeps the quota, whatever
it is, exactly when no chain that rewrites a record under a rotated-out key comes before a chain
with a put of the same owner. -/
theorem quota_sound {quotaBefore : ℕ} {s t : Store} (hs : EmptyStore s)
    (ht : Run.Reaches (StoreStep quotaBefore) s t) (userId : UserId) (now : Time)
    (changes : List PushChange) :
    (∀ quotaBytes, QuotaSound quotaBytes t.db userId now changes) ↔
      NoRewriteBeforePut t.db userId changes := by
  have hInv := storeInvariant_of_reaches hs ht
  rw [noRewriteBeforePut_iff hInv.vaults now]
  constructor
  · intro h
    by_contra hnot
    obtain ⟨j, -, n, -, hn⟩ := Ledger.exists_not_sound (fun item hitem => by
      obtain ⟨c, -, hc⟩ := List.mem_filterMap.1 hitem
      exact (chainItem_some hInv.vaults hc).2.1) hnot
    -- the quota that is just used up
    have husage := usageOf_nonneg hInv.usedBytes j.account
    refine hn (quotaRoom ((t.db.usageOf j.account).toNat + n) t.db) ?_
      ((accepted_iff_sound hInv.vaults).1 (h _).accepted)
    rw [quotaRoom]
    push_cast
    omega
  · intro h quotaBytes
    exact {
      accepted := (accepted_iff_sound hInv.vaults).2 (Ledger.sound_of_noFreeBefore h)
      committed := fun d hd ownerId hle => usageOf_push_le hInv.vaults hd hle }

/-- The vault of a registered user with one record, rotated to its second key. -/
def rotatedDb : Db :=
  { registeredDb 7 1 with
    vaults := [{
      newVault 1 7 .personal [] [] with
      keyVersion := 2
      lastSeq := 1
      usedBytes := 257 }]
    records := [(putVersion 7 sampleCreate
      { encryptedData := ['a'], encryptionNonce := [], cryptoVersion := 1, keyVersion := 1 }
      none).toRow 1 0] }

/-- The record again, under the second key. -/
def sampleRewrite : PushChange where
  clientChangeId := 13
  recordId := 5
  vaultId := 1
  baseVersion := 1
  clientUpdatedAt := 5
  op := .put { encryptedData := ['b'], encryptionNonce := [], cryptoVersion := 1, keyVersion := 2 }

/-- Another record under the second key. -/
def sampleSecond : PushChange where
  clientChangeId := 14
  recordId := 6
  vaultId := 1
  baseVersion := 0
  clientUpdatedAt := 6
  op := .put { encryptedData := ['c'], encryptionNonce := [], cryptoVersion := 1, keyVersion := 2 }

/-- It is the vault after a first push, its key rotated since. -/
theorem rotatedDb_reached :
    ∃ d, pushChanges 514 (registeredDb 7 1) 7 0 [sampleCreate] = .ok d ∧
      KeepsRecords d.db rotatedDb := by
  refine ⟨_, rfl, ?_⟩
  exact {
    records := rfl
    nodup := by decide
    kept := by decide
    counters := by decide }

/-- With the rewrite at the end of the batch the quota holds. -/
theorem quota_sound_rotated :
    QuotaSound 514 rotatedDb 7 1 [sampleSecond, sampleRewrite] := by
  obtain ⟨d, hd, hkeeps⟩ := rotatedDb_reached
  have hreach : Run.Reaches (StoreStep 514) { db := registeredDb 7 1, written := [] }
      { db := rotatedDb, written := [] ++ d.written } :=
    .tail (.single (.push 7 0 [sampleCreate] d hd)) (.other _ hkeeps)
  refine (quota_sound ⟨rfl, rfl, by decide, by decide⟩ hreach 7 1
    [sampleSecond, sampleRewrite]).2 ?_ 514
  have hchains : groupByRecord [sampleSecond, sampleRewrite] =
      [(6, [⟨0, sampleSecond⟩]), (5, [⟨1, sampleRewrite⟩])] := by decide
  rw [NoRewriteBeforePut, hchains, List.pairwise_pair]
  intro ownerId hrw
  have hnot : rewritesOldKey (vaultState rotatedDb 7 [sampleSecond, sampleRewrite])
      (latestVersion rotatedDb 6) = false := by decide
  exact absurd (hnot.symm.trans hrw) Bool.false_ne_true

/-- **The rewrite is not charged**: with 514 bytes and 257 of them used, a rewrite of 257 bytes
and a put of 257 bytes after it are both accepted. -/
theorem quota_passed_after_rewrite :
    ∃ d, pushChanges 514 (registeredDb 7 1) 7 0 [sampleCreate] = .ok d ∧
      KeepsRecords d.db rotatedDb ∧
      ¬ QuotaSound 514 rotatedDb 7 1 [sampleRewrite, sampleSecond] := by
  obtain ⟨d, hd, hkeeps⟩ := rotatedDb_reached
  refine ⟨d, hd, hkeeps, fun h => ?_⟩
  have hsound := (accepted_iff_sound (by decide)).1 h.accepted
  have haccepted : Ledger.accepted (quotaRoom 514 rotatedDb)
      ((groupByRecord [sampleRewrite, sampleSecond]).filterMap
        (chainItem rotatedDb 7 1 [sampleRewrite, sampleSecond])) =
      [{ account := 7, weight := 257, kind := .free }] ++
        { account := 7, weight := 257, kind := .bounded } :: [] := by decide +kernel
  have hle := hsound _ _ _ haccepted rfl
  revert hle
  decide +kernel

end Passmgr

/-
# Sets joined by links

Disjoint sets as parent links, without ranks: the root of an element is found by following the
links up, and every link passed is set to the root.  Two elements are joined by linking the root
of the first to the root of the second.

The search recurses as long as there are links, so it is given fuel; on the links that joining
makes it ends.

Main definitions:

* `RootOf` — an element's root, at the end of its links;
* `find`, `link` — the search with its compression, and the joining;
* `Same` — two elements have one root.

Main results:

* `find_spec` — the search finds the root and changes no root;
* `link_spec` — joining joins the two sets and no others;
* `linkAll_spec` — after any sequence of links the sets are the classes of the equivalence the
  links generate, and every search ends.
-/

import Mathlib.Data.Nat.Notation
import Mathlib.Logic.Function.Basic
import Mathlib.Logic.Relation

set_option relaxedAutoImplicit false
set_option autoImplicit false

namespace UnionFind

open Relation

/-- Links to parents; `none` where none was set. -/
abbrev Parents (α : Type*) := α → Option α

variable {α : Type*}

/-- What stands above an element: itself, for a root. -/
def Parents.up (p : Parents α) (x : α) : α := (p x).getD x

/-! ### Roots -/

/-- The links from an element lead to a root. -/
inductive RootOf (p : Parents α) : α → α → Prop
  | root {x : α} (h : p.up x = x) : RootOf p x x
  | step {x r : α} (h : p.up x ≠ x) (hup : RootOf p (p.up x) r) : RootOf p x r

namespace RootOf

variable {p : Parents α} {x y r s : α}

theorem isRoot (h : RootOf p x r) : p.up r = r := by
  induction h with
  | root h => exact h
  | step _ _ ih => exact ih

theorem unique (hr : RootOf p x r) (hs : RootOf p x s) : r = s := by
  induction hr with
  | root h =>
    cases hs with
    | root => rfl
    | step h' => exact absurd h h'
  | step h _ ih =>
    cases hs with
    | root h' => exact absurd h' h
    | step _ hup => exact ih hup

end RootOf

/-- Every element has a root: the links make no cycle. -/
def Forest (p : Parents α) : Prop := ∀ x, ∃ r, RootOf p x r

/-- Two elements have one root. -/
def Same (p : Parents α) (x y : α) : Prop := ∃ r, RootOf p x r ∧ RootOf p y r

/-- `q` has the roots `p` has. -/
def KeepsRoots (p q : Parents α) : Prop := ∀ x r, RootOf p x r → RootOf q x r

theorem forest_empty : Forest (fun _ : α => none) := fun x => ⟨x, .root rfl⟩

/-- Without links the sets are single elements: the classes of a relation that relates no two. -/
theorem same_empty {R : α → α → Prop} (hR : ∀ x y, R x y → x = y) {x y : α} :
    Same (fun _ => none) x y ↔ EqvGen R x y := by
  constructor
  · rintro ⟨r, hx, hy⟩
    have hroot : ∀ z : α, RootOf (fun _ => none) z z := fun z => .root rfl
    rw [(hroot x).unique hx, (hroot y).unique hy]
    exact .refl r
  · intro h
    have heq : x = y := by
      induction h with
      | rel x y h => exact hR x y h
      | refl => rfl
      | symm _ _ _ ih => exact ih.symm
      | trans _ _ _ _ _ hxy hyz => exact hxy.trans hyz
    exact ⟨x, .root rfl, heq ▸ .root rfl⟩

namespace Forest

variable {p q : Parents α}

theorem keeps (hp : Forest p) (h : KeepsRoots p q) : Forest q := by
  intro x
  obtain ⟨r, hr⟩ := hp x
  exact ⟨r, h x r hr⟩

theorem equivalence (hp : Forest p) : Equivalence (Same p) where
  refl x := by
    obtain ⟨r, hr⟩ := hp x
    exact ⟨r, hr, hr⟩
  symm := fun ⟨r, hx, hy⟩ => ⟨r, hy, hx⟩
  trans := by
    rintro x y z ⟨r, hx, hy⟩ ⟨s, hy', hz⟩
    obtain rfl := hy.unique hy'
    exact ⟨r, hx, hz⟩

end Forest

theorem eqvGen_eqvGen_or {R S : α → α → Prop} {x y : α} :
    EqvGen (fun a b => EqvGen R a b ∨ S a b) x y ↔ EqvGen (fun a b => R a b ∨ S a b) x y := by
  constructor
  · intro h
    induction h with
    | rel a b h =>
      obtain h | h := h
      · exact EqvGen.mono (fun _ _ h => .inl h) _ _ h
      · exact .rel _ _ (.inr h)
    | refl a => exact .refl a
    | symm a b _ ih => exact .symm _ _ ih
    | trans a b c _ _ hab hbc => exact .trans _ _ _ hab hbc
  · exact EqvGen.mono (fun _ _ h => h.imp_left (.rel _ _)) _ _

/-! ### Searching and joining -/

variable [DecidableEq α]

def Parents.set (p : Parents α) (x y : α) : Parents α := Function.update p x (some y)

/-- The root of an element, with every link on the way set to it. -/
def find : ℕ → Parents α → α → Option (α × Parents α)
  | 0, _, _ => none
  | fuel + 1, p, x =>
    if p.up x = x then some (x, p)
    else do
      let (top, p) ← find fuel p (p.up x)
      some (top, p.set x top)

/-- Link the root of `x` to the root of `y`. -/
def link (fuel : ℕ) (p : Parents α) (x y : α) : Option (Parents α) := do
  let (rx, p) ← find fuel p x
  let (ry, p) ← find fuel p y
  some (p.set rx ry)

def linkAll (fuel : ℕ) (p : Parents α) (links : List (α × α)) : Option (Parents α) :=
  links.foldlM (fun p l => link fuel p l.1 l.2) p

theorem Parents.up_set_self (p : Parents α) (x y : α) : (p.set x y).up x = y := by
  simp [Parents.up, Parents.set]

theorem Parents.up_set_of_ne {p : Parents α} {x y z : α} (h : z ≠ x) :
    (p.set x y).up z = p.up z := by
  simp [Parents.up, Parents.set, h]

namespace RootOf

variable {p : Parents α} {x y r s : α}

/-- Setting an element's link to its root changes no root. -/
theorem set_root (hx : RootOf p x r) (hy : RootOf p y s) : RootOf (p.set x r) y s := by
  induction hy with
  | @root y h =>
    by_cases hyx : y = x
    · subst hyx
      obtain rfl := hx.unique (.root h)
      exact .root (Parents.up_set_self _ _ _)
    · exact .root ((Parents.up_set_of_ne hyx).trans h)
  | @step y s h hup ih =>
    by_cases hyx : y = x
    · subst hyx
      -- `y` is no root, so its root is another element, whose link is not changed
      have hry : r ≠ y := fun heq => h (heq ▸ hx.isRoot)
      obtain rfl := hx.unique (.step h hup)
      refine .step ?_ ?_
      · rwa [Parents.up_set_self]
      · rw [Parents.up_set_self]
        exact .root ((Parents.up_set_of_ne hry).trans hx.isRoot)
    · refine .step ?_ ?_
      · rwa [Parents.up_set_of_ne hyx]
      · rwa [Parents.up_set_of_ne hyx]

/-- Linking a root to another changes the root of exactly the elements it was the root of. -/
theorem set_link (hr : p.up r = r) (hs : p.up s = s) {z t : α} (hz : RootOf p z t) :
    RootOf (p.set r s) z (if t = r then s else t) := by
  induction hz with
  | @root z h =>
    by_cases hzr : z = r
    · subst hzr
      rw [if_pos rfl]
      by_cases hsz : s = z
      · subst hsz
        exact .root (Parents.up_set_self _ _ _)
      · refine .step ?_ ?_
        · rwa [Parents.up_set_self]
        · rw [Parents.up_set_self]
          exact .root ((Parents.up_set_of_ne hsz).trans hs)
    · rw [if_neg hzr]
      exact .root ((Parents.up_set_of_ne hzr).trans h)
  | @step z t h hup ih =>
    have hzr : z ≠ r := fun heq => h (heq ▸ hr)
    refine .step ?_ ?_
    · rwa [Parents.up_set_of_ne hzr]
    · rwa [Parents.up_set_of_ne hzr]

end RootOf

/-- The search finds the root and changes no root. -/
theorem find_spec {p : Parents α} {x r : α} (h : RootOf p x r) :
    ∃ n q, (∀ fuel, n ≤ fuel → find fuel p x = some (r, q)) ∧ KeepsRoots p q := by
  induction h with
  | @root x h =>
    refine ⟨1, p, ?_, fun _ _ h => h⟩
    intro fuel hfuel
    obtain ⟨fuel, rfl⟩ := Nat.exists_eq_add_of_le' hfuel
    rw [find, if_pos h]
  | @step x r h hup ih =>
    obtain ⟨n, q, hfind, hkeep⟩ := ih
    refine ⟨n + 1, q.set x r, ?_, ?_⟩
    · intro fuel hfuel
      obtain ⟨fuel, rfl⟩ := Nat.exists_eq_add_of_le' (Nat.le_of_add_left_le hfuel)
      rw [find, if_neg h, hfind fuel (by omega)]
      rfl
    · intro y s hy
      exact (hkeep x r (.step h hup)).set_root (hkeep y s hy)

/-- Joining joins the sets of the two elements and no others. -/
theorem link_spec {p : Parents α} (hp : Forest p) (x y : α) :
    ∃ n q, (∀ fuel, n ≤ fuel → link fuel p x y = some q) ∧ Forest q ∧
      ∀ a b, Same q a b ↔ EqvGen (fun a b => Same p a b ∨ a = x ∧ b = y) a b := by
  obtain ⟨rx, hx⟩ := hp x
  obtain ⟨n, p₁, hfind, hkeep⟩ := find_spec hx
  obtain ⟨ry, hy⟩ := hp y
  obtain ⟨m, p₂, hfind', hkeep'⟩ := find_spec (hkeep y ry hy)
  have hkeep₂ : KeepsRoots p p₂ := fun z r hz => hkeep' z r (hkeep z r hz)
  have hset : ∀ z t, RootOf p z t → RootOf (p₂.set rx ry) z (if t = rx then ry else t) :=
    fun z t hz => (hkeep₂ z t hz).set_link (hkeep₂ x rx hx).isRoot (hkeep₂ y ry hy).isRoot
  have hforest : Forest (p₂.set rx ry) := by
    intro z
    obtain ⟨t, ht⟩ := hp z
    exact ⟨_, hset z t ht⟩
  refine ⟨max n m, p₂.set rx ry, ?_, hforest, ?_⟩
  · intro fuel hfuel
    simp only [link, hfind fuel (by omega), hfind' fuel (by omega), Option.bind_eq_bind,
      Option.bind_some]
  · intro a b
    constructor
    · -- the new root of an element is `ry` or its old one, and with `ry` it was joined to `y`
      rintro ⟨r, har, hbr⟩
      have hjoined : ∀ z, RootOf (p₂.set rx ry) z r →
          EqvGen (fun a b => Same p a b ∨ a = x ∧ b = y) z r := by
        intro z hz
        obtain ⟨t, ht⟩ := hp z
        obtain rfl := hz.unique (hset z t ht)
        by_cases htr : t = rx
        · rw [if_pos htr]
          subst htr
          have hyr : Same p y ry := ⟨ry, hy, .root hy.isRoot⟩
          exact .trans _ _ _ (.rel _ _ (.inl ⟨t, ht, hx⟩))
            (.trans _ _ _ (.rel _ _ (.inr ⟨rfl, rfl⟩)) (.rel _ _ (.inl hyr)))
        · rw [if_neg htr]
          exact .rel _ _ (.inl ⟨t, ht, .root ht.isRoot⟩)
      exact .trans _ _ _ (hjoined a har) (.symm _ _ (hjoined b hbr))
    · intro h
      induction h with
      | rel a b h =>
        obtain ⟨r, har, hbr⟩ | ⟨rfl, rfl⟩ := h
        · exact ⟨_, hset a r har, hset b r hbr⟩
        · refine ⟨ry, ?_, ?_⟩
          · simpa using hset a rx hx
          · have hroot := hset b ry hy
            rwa [ite_eq_right_iff.2 fun _ => rfl] at hroot
      | refl a => exact hforest.equivalence.refl a
      | symm a b _ ih => exact hforest.equivalence.symm ih
      | trans a b c _ _ hab hbc => exact hforest.equivalence.trans hab hbc

/-- Joining, where the sets were the classes of a relation: they are those of the relation and the
new link. -/
theorem link_eqvGen {p : Parents α} (hp : Forest p) {R : α → α → Prop}
    (hR : ∀ a b, Same p a b ↔ EqvGen R a b) (x y : α) :
    ∃ n q, (∀ fuel, n ≤ fuel → link fuel p x y = some q) ∧ Forest q ∧
      ∀ a b, Same q a b ↔ EqvGen (fun a b => R a b ∨ a = x ∧ b = y) a b := by
  obtain ⟨n, q, hlink, hforest, hsame⟩ := link_spec hp x y
  refine ⟨n, q, hlink, hforest, ?_⟩
  intro a b
  rw [hsame, ← eqvGen_eqvGen_or (R := R)]
  simp only [hR]

/-- After any sequence of links the sets are the classes of the equivalence the links generate. -/
theorem linkAll_spec (links : List (α × α)) {p : Parents α} (hp : Forest p) {R : α → α → Prop}
    (hR : ∀ a b, Same p a b ↔ EqvGen R a b) :
    ∃ n q, (∀ fuel, n ≤ fuel → linkAll fuel p links = some q) ∧ Forest q ∧
      ∀ a b, Same q a b ↔ EqvGen (fun a b => R a b ∨ (a, b) ∈ links) a b := by
  induction links generalizing p R with
  | nil => exact ⟨0, p, fun _ _ => rfl, hp, by simpa using hR⟩
  | cons l links ih =>
    obtain ⟨n, p₁, hlink, hforest, hsame⟩ := link_eqvGen hp hR l.1 l.2
    obtain ⟨m, q, hlinks, hforest', hsame'⟩ := ih hforest hsame
    refine ⟨max n m, q, ?_, hforest', ?_⟩
    · intro fuel hfuel
      rw [linkAll, List.foldlM_cons, hlink fuel (by omega)]
      exact hlinks fuel (by omega)
    · intro a b
      rw [hsame']
      simp only [List.mem_cons, Prod.ext_iff, or_assoc]

end UnionFind

/-
# Labelled trees, visited from the root down

A visit of a tree passes a state through its nodes, each before its children and these in order.
It is a fold over the list of the labels, so what it computes is a fact about that list.  What a
label inherits is the nearest value on the way up to the root.  Nothing here is about a particular
program.

Main definitions:

* `RoseTree` — a label and a list of trees under it;
* `RoseTree.visit`, `RoseTree.labels` — the visit, and the labels in its order;
* `RoseTree.inherited` — the labels with the nearest value above or at them.

Main results:

* `RoseTree.visitAll_eq_foldl` — a visit is a fold over the labels;
* `RoseTree.map_fst_inheritedAll` — inheriting keeps the labels;
* `RoseTree.inheritedAll_of_none` — where no label has a value, none inherits one.
-/

import Mathlib.Data.List.Basic

set_option relaxedAutoImplicit false
set_option autoImplicit false

inductive RoseTree (α : Type)
  | node (label : α) (children : List (RoseTree α))

namespace RoseTree

variable {α β γ : Type}

/-! ### Visits -/

mutual

/-- The state after a visit. -/
def visit (f : β → α → β) (b : β) : RoseTree α → β
  | .node label children => visitAll f (f b label) children

def visitAll (f : β → α → β) (b : β) : List (RoseTree α) → β
  | [] => b
  | t :: ts => visitAll f (visit f b t) ts

end

mutual

/-- The labels in the order of a visit. -/
def labels : RoseTree α → List α
  | .node label children => label :: labelsAll children

def labelsAll : List (RoseTree α) → List α
  | [] => []
  | t :: ts => labels t ++ labelsAll ts

end

mutual

theorem visit_eq_foldl (f : β → α → β) (b : β) :
    ∀ t : RoseTree α, visit f b t = (labels t).foldl f b
  | .node label children => by
      rw [visit, labels, List.foldl_cons, visitAll_eq_foldl]

theorem visitAll_eq_foldl (f : β → α → β) (b : β) :
    ∀ ts : List (RoseTree α), visitAll f b ts = (labelsAll ts).foldl f b
  | [] => rfl
  | t :: ts => by
      rw [visitAll, labelsAll, List.foldl_append, visit_eq_foldl, visitAll_eq_foldl]

end

/-! ### Inherited values -/

mutual

/-- The labels with the nearest value at or above them; `above` is what the tree inherits. -/
def inherited (value : α → Option γ) (above : Option γ) : RoseTree α → List (α × Option γ)
  | .node label children =>
    (label, (value label).or above) :: inheritedAll value ((value label).or above) children

def inheritedAll (value : α → Option γ) (above : Option γ) :
    List (RoseTree α) → List (α × Option γ)
  | [] => []
  | t :: ts => inherited value above t ++ inheritedAll value above ts

end

mutual

theorem map_fst_inherited (value : α → Option γ) (above : Option γ) :
    ∀ t : RoseTree α, (inherited value above t).map Prod.fst = labels t
  | .node label children => by
      rw [inherited, labels, List.map_cons, map_fst_inheritedAll]

theorem map_fst_inheritedAll (value : α → Option γ) (above : Option γ) :
    ∀ ts : List (RoseTree α), (inheritedAll value above ts).map Prod.fst = labelsAll ts
  | [] => rfl
  | t :: ts => by
      rw [inheritedAll, labelsAll, List.map_append, map_fst_inherited, map_fst_inheritedAll]

end

mutual

theorem inherited_of_none {value : α → Option γ} : ∀ t : RoseTree α,
    (∀ a ∈ labels t, value a = none) → ∀ x ∈ inherited value none t, x.2 = none
  | .node label children, hnone, x, hx => by
      rw [labels] at hnone
      rw [inherited, hnone label List.mem_cons_self] at hx
      rcases List.mem_cons.1 hx with rfl | hx
      · rfl
      · exact inheritedAll_of_none children (fun a ha => hnone a (List.mem_cons_of_mem _ ha)) x hx

theorem inheritedAll_of_none {value : α → Option γ} : ∀ ts : List (RoseTree α),
    (∀ a ∈ labelsAll ts, value a = none) → ∀ x ∈ inheritedAll value none ts, x.2 = none
  | [], _, x, hx => by cases hx
  | t :: ts, hnone, x, hx => by
      rw [labelsAll] at hnone
      rcases List.mem_append.1 hx with hx | hx
      · exact inherited_of_none t (fun a ha => hnone a (List.mem_append_left _ ha)) x hx
      · exact inheritedAll_of_none ts (fun a ha => hnone a (List.mem_append_right _ ha)) x hx

end

end RoseTree

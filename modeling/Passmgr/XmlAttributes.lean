/-
# The attributes of a protected element

What `PROTECTED` and the pattern of `ProtectInMemory` find among the attributes of a start tag, as
a writer of XML writes them.  The first finds the attribute `Protected` and nothing else.  The
second takes the text of a value for the attribute where the value ends with a space and
`ProtectInMemory=`, up to the start of the next value.

Main definitions:

* `Attribute` — an attribute with the space before it;
* `Unmarked` — the attributes without `ProtectInMemory`;
* `MarksApart` — no value before `ProtectInMemory` ends as the pattern begins.

Main results:

* `splitProtected_attributes` — the attributes before and after `Protected`;
* `removeProtectInMemory_iff` — when `ProtectInMemory` is all that is removed.
-/

import Mathlib.Data.List.TakeWhile
import Passmgr.KdbxXml
import Passmgr.Separators

set_option relaxedAutoImplicit false
set_option autoImplicit false

namespace Passmgr

namespace KdbxXml

open SshKey (JsString ascii isWhitespace)

/-! ### Attributes -/

/-- An attribute as it is written, after `gap` and one more space. -/
structure Attribute where
  gap : JsString
  space : UInt16
  name : JsString
  value : JsString
  isWhitespace_gap : ∀ u ∈ gap, isWhitespace u = true
  isWhitespace_space : isWhitespace space = true
  name_plain : ∀ u ∈ name, isWhitespace u = false ∧ u ≠ equals ∧ u ≠ quote ∧ u ≠ gt
  value_plain : ∀ u ∈ value, u ≠ quote ∧ u ≠ gt

/-- All but the value's end. -/
def Attribute.opening (a : Attribute) : JsString := a.gap ++ a.space :: (a.name ++ [equals, quote])

def Attribute.write (a : Attribute) : JsString := a.opening ++ a.value ++ [quote]

/-- `Protected`. -/
def protectedName : JsString := ascii "Protected"

/-- `ProtectInMemory`. -/
def markName : JsString := ascii "ProtectInMemory"

/-- The attribute, or the space before it where it is `ProtectInMemory`. -/
def Attribute.unmarked (a : Attribute) : JsString := if a.name = markName then a.gap else a.write

def writeAttributes (attributes : List Attribute) : JsString := attributes.flatMap Attribute.write

/-- The attributes without `ProtectInMemory`. -/
def writeUnmarked (attributes : List Attribute) : JsString := attributes.flatMap Attribute.unmarked

/-- What the pattern takes for the start of `ProtectInMemory` where a quotation mark follows. -/
def IsMark (text : JsString) : Prop :=
  ∃ c, isWhitespace c = true ∧ text = c :: (markName ++ [equals])

def EndsInMark (a : Attribute) : Prop := ∃ v, IsMark v ∧ v <:+ a.value

/-- No value before that of `ProtectInMemory`, but for the last, ends as the pattern begins.  Where
`ProtectInMemory` itself is next and its value is that same end, what is removed is as long. -/
def MarksApart : List Attribute → Prop
  | a :: b :: rest =>
    a.name = markName ∨
      (EndsInMark a → b.name = markName ∧ b.gap = [] ∧ IsMark b.value ∧ b.value <:+ a.value) ∧
        MarksApart (b :: rest)
  | _ => True

/-- Space, up to the end of a start tag. -/
def IsSpace (text : JsString) : Prop := ∀ u ∈ text, isWhitespace u = true

/-- A text that begins with space if at all. -/
def BeginsWithSpace (text : JsString) : Prop := ∀ u ∈ text.head?, isWhitespace u = true

theorem IsSpace.begins {text : JsString} (h : IsSpace text) : BeginsWithSpace text :=
  fun u hu => h u (List.mem_of_mem_head? hu)

theorem begins_append {gap rest : JsString} (hgap : IsSpace gap) (h : BeginsWithSpace rest) :
    BeginsWithSpace (gap ++ rest) := by
  cases gap with
  | nil => exact h
  | cons c gap =>
    intro u hu
    rw [← Option.some.inj (Option.mem_def.1 hu)]
    exact hgap c List.mem_cons_self

theorem Attribute.begins_write (a : Attribute) (rest : JsString) :
    BeginsWithSpace (a.write ++ rest) := by
  intro u hu
  cases hgap : a.gap with
  | nil =>
    have hspace : a.space = u := by simpa [Attribute.write, Attribute.opening, hgap] using hu
    exact hspace ▸ a.isWhitespace_space
  | cons c gap =>
    have hc : c = u := by simpa [Attribute.write, Attribute.opening, hgap] using hu
    exact a.isWhitespace_gap u (by rw [hgap, hc]; exact List.mem_cons_self)

theorem begins_writeAttributes (attributes : List Attribute) {rest : JsString}
    (h : BeginsWithSpace rest) : BeginsWithSpace (writeAttributes attributes ++ rest) := by
  cases attributes with
  | nil => exact h
  | cons a attributes =>
    rw [writeAttributes, List.flatMap_cons, List.append_assoc]
    exact a.begins_write _

/-- A check of every unit of a text is made on the text, not on all units there are. -/
theorem forall_of_all {p : UInt16 → Prop} [DecidablePred p] {text : JsString}
    (h : text.all (fun u => p u) = true) : ∀ u ∈ text, p u :=
  fun u hu => of_decide_eq_true (List.all_eq_true.1 h u hu)

/-! ### A pattern that begins with an attribute's name -/

/-- What the pattern finds is `\sNAME="` with a text after it of which `Good` holds. -/
structure Finds (P : Replacing.Pattern UInt16 Unit) (name : JsString) (Good : JsString → Prop) :
    Prop where
  name_plain : ∀ u ∈ name, isWhitespace u = false ∧ u ≠ equals ∧ u ≠ quote
  name_ne : name ≠ []
  found : ∀ {text x}, P text = some x →
    ∃ c rest, isWhitespace c = true ∧ text = c :: (name ++ equals :: quote :: rest) ∧ Good rest

theorem attributeAt_eq_some {name text rest : JsString} :
    attributeAt name text = some rest ↔
      ∃ c, isWhitespace c = true ∧ text = c :: (name ++ equals :: quote :: rest) := by
  cases text with
  | nil => simp [attributeAt]
  | cons c text =>
    rw [attributeAt]
    split_ifs with hc
    · rw [List.isPrefixOf?_eq_some_iff_append_eq]
      constructor
      · intro h
        exact ⟨c, hc, by rw [← h]; simp⟩
      · rintro ⟨d, -, heq⟩
        rw [(List.cons.inj heq).2]
        simp
    · simp only [false_iff, not_exists, not_and]
      rintro d hd heq
      exact hc ((List.cons.inj heq).1 ▸ hd)

/-- `\sProtected="True"`. -/
theorem finds_protected :
    Finds protectedAttribute protectedName (fun rest => ascii "True\"" <+: rest) where
  name_plain := forall_of_all (by decide)
  name_ne := by decide
  found := by
    intro text x h
    obtain ⟨value, hvalue, h⟩ := Option.bind_eq_some_iff.1 h
    obtain ⟨rest, hrest, -⟩ := Option.bind_eq_some_iff.1 h
    obtain ⟨c, hc, htext⟩ := attributeAt_eq_some.1 hvalue
    exact ⟨c, value, hc, htext, ⟨rest, List.isPrefixOf?_eq_some_iff_append_eq.1 hrest⟩⟩

/-- `\sProtectInMemory="[^"]*"`. -/
theorem finds_mark : Finds protectInMemoryAttribute markName (quote ∈ ·) where
  name_plain := forall_of_all (by decide)
  name_ne := by decide
  found := by
    intro text x h
    obtain ⟨value, hvalue, h⟩ := Option.bind_eq_some_iff.1 h
    obtain ⟨c, hc, htext⟩ := attributeAt_eq_some.1 hvalue
    refine ⟨c, value, hc, htext, ?_⟩
    by_contra hnot
    have hall : value.dropWhile (· ≠ quote) = [] :=
      List.dropWhile_eq_nil_iff.2 fun u hu => decide_eq_true fun heq => hnot (heq ▸ hu)
    rw [hall] at h
    cases h

open Replacing (Misses misses_nil misses_cons misses_append)

section

variable {P : Replacing.Pattern UInt16 Unit} {name : JsString} {Good : JsString → Prop}
  {text rest : JsString}

/-- Nothing is found where no space is. -/
theorem Finds.solid (hP : Finds P name Good) {c : UInt16} (hc : isWhitespace c = false) :
    P (c :: rest) = none := by
  by_contra h
  obtain ⟨x, hx⟩ := Option.ne_none_iff_exists'.1 h
  obtain ⟨d, r, hd, heq, -⟩ := hP.found hx
  rw [(List.cons.inj heq).1, hd] at hc
  cases hc

theorem Finds.misses_solid (hP : Finds P name Good) (h : ∀ u ∈ text, isWhitespace u = false) :
    Misses P text rest := by
  rintro u c v rfl
  exact hP.solid (h c (List.mem_append_right _ List.mem_cons_self))

/-- Nothing is found where space follows. -/
theorem Finds.misses_space (hP : Finds P name Good) (hrest : BeginsWithSpace rest)
    (h : IsSpace text) : Misses P text rest := by
  rintro u c v rfl
  by_contra hsome
  obtain ⟨x, hx⟩ := Option.ne_none_iff_exists'.1 hsome
  obtain ⟨d, r, -, heq, -⟩ := hP.found hx
  obtain ⟨n, name', hname⟩ := List.exists_cons_of_ne_nil hP.name_ne
  have hn : isWhitespace n = false := (hP.name_plain n (by rw [hname]; exact List.mem_cons_self)).1
  have htail : v ++ rest = name ++ equals :: quote :: r := (List.cons.inj heq).2
  rw [hname, List.cons_append] at htail
  have hspace : isWhitespace n = true := by
    cases v with
    | nil =>
      have hhead : rest.head? = some n := by rw [← List.nil_append rest, htail]; rfl
      exact hrest n hhead
    | cons d v =>
      rw [← (List.cons.inj htail).1]
      exact h d (by simp)
  rw [hn] at hspace
  cases hspace

/-- Nothing is found that starts at the space before another attribute. -/
theorem Finds.space (hP : Finds P name Good) (a : Attribute) (hname : a.name ≠ name) :
    P (a.space :: (a.name ++ equals :: quote :: rest)) = none := by
  by_contra h
  obtain ⟨x, hx⟩ := Option.ne_none_iff_exists'.1 h
  obtain ⟨d, r, -, heq, -⟩ := hP.found hx
  exact hname (Separators.first_inj (fun hmem => (a.name_plain _ hmem).2.1 rfl)
    (fun hmem => (hP.name_plain _ hmem).2.1 rfl) (List.cons.inj heq).2).1

theorem isWhitespace_equals : isWhitespace equals = false := by decide

theorem isWhitespace_quote : isWhitespace quote = false := by decide

/-- Nothing is found that starts before the value. -/
theorem Finds.misses_opening (hP : Finds P name Good) (a : Attribute) (hname : a.name ≠ name) :
    Misses P a.opening rest := by
  have hsolid : ∀ u ∈ a.name ++ [equals, quote], isWhitespace u = false := by
    intro u hu
    rcases List.mem_append.1 hu with hu | hu
    · exact (a.name_plain u hu).1
    · rcases List.mem_cons.1 hu with rfl | hu
      · exact isWhitespace_equals
      · rw [List.mem_singleton.1 hu]
        exact isWhitespace_quote
  refine misses_append (hP.misses_space ?_ a.isWhitespace_gap) (misses_cons ?_ (hP.misses_solid hsolid))
  · intro u hu
    rw [← Option.some.inj (Option.mem_def.1 hu)]
    exact a.isWhitespace_space
  · rw [List.cons_append, List.append_assoc]
    exact hP.space a hname

/-- What is found in a value is its end. -/
theorem Finds.misses_value (hP : Finds P name Good) {value tail : JsString}
    (hplain : quote ∉ value ++ tail)
    (h : ∀ u c v, value = u ++ c :: v → isWhitespace c = true → v ++ tail = name ++ [equals] →
      ¬ Good rest) :
    Misses P value (tail ++ quote :: rest) := by
  rintro u c v rfl
  by_contra hsome
  obtain ⟨x, hx⟩ := Option.ne_none_iff_exists'.1 hsome
  obtain ⟨d, r, hd, heq, hgood⟩ := hP.found hx
  obtain rfl := (List.cons.inj heq).1
  have htail : v ++ (tail ++ quote :: rest) = name ++ equals :: quote :: r := (List.cons.inj heq).2
  have hsep : (v ++ tail) ++ quote :: rest = (name ++ [equals]) ++ quote :: r := by
    rw [List.append_assoc, htail]
    simp
  have hnameq : quote ∉ name ++ [equals] := by
    rw [List.mem_append]
    rintro (hmem | hmem)
    · exact (hP.name_plain _ hmem).2.2 rfl
    · exact absurd hmem (by decide)
  have hvalueq : quote ∉ v ++ tail := fun hmem => hplain (by
    rw [List.append_assoc]
    exact List.mem_append_right _ (List.mem_cons_of_mem _ hmem))
  obtain ⟨hend, rfl⟩ := Separators.first_inj hvalueq hnameq hsep
  exact h u c v rfl hd hend hgood

theorem Attribute.quote_notMem (a : Attribute) : quote ∉ a.value :=
  fun hmem => (a.value_plain _ hmem).1 rfl

/-- Nothing is found in an attribute of another name whose value does not end as the pattern. -/
theorem Finds.misses_attribute (hP : Finds P name Good) (a : Attribute) (hname : a.name ≠ name)
    (h : ∀ u c, isWhitespace c = true → a.value = u ++ c :: (name ++ [equals]) → ¬ Good rest) :
    Misses P a.write rest := by
  refine misses_append (misses_append (hP.misses_opening a hname) ?_) (hP.misses_solid ?_)
  · refine @Finds.misses_value _ _ _ _ hP a.value [] (by rw [List.append_nil]; exact a.quote_notMem) ?_
    intro u c v hvalue hc hv
    rw [List.append_nil] at hv
    exact h u c hc (by rw [hvalue, hv])
  · intro u hu
    rw [List.mem_singleton.1 hu]
    exact isWhitespace_quote

/-- Nothing is found in attributes of other names where no text after space is good. -/
theorem Finds.misses_attributes (hP : Finds P name Good)
    (hgood : ∀ r, BeginsWithSpace r → ¬ Good r) (hrest : BeginsWithSpace rest) :
    ∀ {attributes : List Attribute}, (∀ a ∈ attributes, a.name ≠ name) →
      Misses P (writeAttributes attributes) rest
  | [], _ => misses_nil
  | a :: attributes, h => by
    rw [writeAttributes, List.flatMap_cons]
    refine misses_append (hP.misses_attribute a (h a List.mem_cons_self) fun u c _ _ => ?_)
      (misses_attributes hP hgood hrest fun b hb => h b (List.mem_cons_of_mem a hb))
    exact hgood _ (begins_writeAttributes attributes hrest)

end

/-! ### `Protected` -/

/-- `Protected="True"`. -/
def protectedText : JsString := ascii "Protected=\"True\""

theorem protectedAttribute_text {space : UInt16} (hspace : isWhitespace space = true)
    (rest : JsString) :
    protectedAttribute (space :: (protectedText ++ rest)) =
      some ((), (space :: protectedText).length) := by
  have hvalue : attributeAt (ascii "Protected") (space :: (protectedText ++ rest)) =
      some (ascii "True\"" ++ rest) :=
    attributeAt_eq_some.2 ⟨space, hspace, rfl⟩
  have hrest : (ascii "True\"").isPrefixOf? (ascii "True\"" ++ rest) = some rest :=
    List.isPrefixOf?_eq_some_iff_append_eq.2 rfl
  rw [protectedAttribute, hvalue]
  simp only [Option.bind_eq_bind, Option.bind_some, hrest, List.length_cons, List.length_append,
    Option.some.injEq, Prod.mk.injEq, true_and]
  omega

/-- `True"` is no text after space. -/
theorem not_true_of_begins (rest : JsString) (h : BeginsWithSpace rest) :
    ¬ ascii "True\"" <+: rest := by
  rintro ⟨tail, rfl⟩
  exact absurd (h 84 rfl) (by decide)

/-- The groups before and after `Protected="True"`. -/
theorem splitProtected_attributes {before after : List Attribute} {gap trailing : JsString}
    {space : UInt16} (hbefore : ∀ a ∈ before, a.name ≠ protectedName)
    (hafter : ∀ a ∈ after, a.name ≠ protectedName) (hgap : IsSpace gap)
    (hspace : isWhitespace space = true) (htrail : IsSpace trailing) :
    splitProtected (writeAttributes before ++ gap ++
        space :: (protectedText ++ (writeAttributes after ++ trailing))) =
      some (writeAttributes before ++ gap, writeAttributes after ++ trailing) := by
  have hP := finds_protected
  have hfound := protectedAttribute_text hspace (writeAttributes after ++ trailing)
  have hrest : BeginsWithSpace (space :: (protectedText ++ (writeAttributes after ++ trailing))) := by
    intro u hu
    rw [← Option.some.inj (Option.mem_def.1 hu)]
    exact hspace
  have hmisses := misses_append
    (hP.misses_attributes not_true_of_begins
      (begins_append hgap hrest) hbefore)
    (hP.misses_space hrest hgap)
  have hstart := begins_writeAttributes before (begins_append hgap hrest)
  rw [← List.append_assoc] at hstart
  cases hX : writeAttributes before ++ gap with
  | nil =>
    -- the mark is the first attribute: nothing is found in what follows its space
    have hnone : Replacing.cut protectedAttribute
        (protectedText ++ (writeAttributes after ++ trailing)) = none := by
      refine Replacing.cut_eq_none (misses_append (hP.misses_solid (forall_of_all (by decide)))
        (misses_append ?_ ?_))
      · exact hP.misses_attributes not_true_of_begins (by rw [List.append_nil]; exact htrail.begins) hafter
      · exact hP.misses_space (fun u hu => nomatch hu) htrail
    rw [List.nil_append, splitProtected, if_pos hspace, hnone, hfound]
    simp
  | cons c X =>
    rw [hX] at hmisses hstart
    have hc : isWhitespace c = true := hstart c rfl
    have hcut := Replacing.cut_append (Replacing.misses_tail hmisses)
    rw [← List.cons_append, Replacing.cut_found (List.cons_ne_nil _ _) hfound] at hcut
    rw [List.cons_append, splitProtected, if_pos hc, ← List.cons_append, hcut]
    simp

/-! ### `ProtectInMemory` -/

section

variable {text rest body : JsString}

theorem protectInMemoryAttribute_text {c : UInt16} (hc : isWhitespace c = true)
    (hbody : quote ∉ body) :
    protectInMemoryAttribute (c :: (markName ++ equals :: quote :: (body ++ quote :: rest))) =
      some ((), (c :: (markName ++ equals :: quote :: (body ++ [quote]))).length) := by
  have hvalue : attributeAt (ascii "ProtectInMemory")
      (c :: (markName ++ equals :: quote :: (body ++ quote :: rest))) =
      some (body ++ quote :: rest) :=
    attributeAt_eq_some.2 ⟨c, hc, rfl⟩
  have hdrop : (body ++ quote :: rest).dropWhile (· ≠ quote) = quote :: rest := by
    have hall : ∀ u ∈ body, decide (u ≠ quote) = true :=
      fun u hu => decide_eq_true fun heq => hbody (heq ▸ hu)
    rw [List.dropWhile_append_of_pos hall]
    simp
  rw [protectInMemoryAttribute, hvalue]
  simp only [Option.bind_eq_bind, Option.bind_some, hdrop, List.length_cons, List.length_append,
    List.length_nil, Option.some.injEq, Prod.mk.injEq, true_and]
  omega

theorem remove_append (h : Misses protectInMemoryAttribute text rest) :
    removeProtectInMemory (text ++ rest) = text ++ removeProtectInMemory rest := by
  rw [removeProtectInMemory, Replacing.cut_append h, removeProtectInMemory]
  cases Replacing.cut protectInMemoryAttribute rest with
  | none => rfl
  | some parts => simp

/-- What is removed where the pattern begins. -/
theorem remove_found {c : UInt16} (hc : isWhitespace c = true) (hbody : quote ∉ body) :
    removeProtectInMemory (c :: (markName ++ equals :: quote :: (body ++ quote :: rest))) = rest := by
  have hfound := @protectInMemoryAttribute_text rest body c hc hbody
  have hsplit : c :: (markName ++ equals :: quote :: (body ++ quote :: rest)) =
      c :: (markName ++ equals :: quote :: (body ++ [quote])) ++ rest := by
    simp
  rw [hsplit] at hfound ⊢
  rw [removeProtectInMemory, Replacing.cut_found (List.cons_ne_nil _ _) hfound]
  rfl

theorem remove_space {trailing : JsString} (h : IsSpace trailing) :
    removeProtectInMemory trailing = trailing := by
  have hmisses : Misses protectInMemoryAttribute trailing [] :=
    finds_mark.misses_space (fun u hu => nomatch hu) h
  rw [removeProtectInMemory, Replacing.cut_eq_none hmisses]

/-- The attribute itself is removed, but for the space before it. -/
theorem remove_mark {a : Attribute} (hname : a.name = markName) :
    removeProtectInMemory (a.write ++ rest) = a.gap ++ rest := by
  have hspace : BeginsWithSpace (a.space :: (markName ++ equals :: quote :: (a.value ++ quote :: rest))) := by
    intro u hu
    rw [← Option.some.inj (Option.mem_def.1 hu)]
    exact a.isWhitespace_space
  have hsplit : a.write ++ rest =
      a.gap ++ a.space :: (markName ++ equals :: quote :: (a.value ++ quote :: rest)) := by
    rw [Attribute.write, Attribute.opening, hname]
    simp
  rw [hsplit, remove_append (finds_mark.misses_space hspace a.isWhitespace_gap),
    remove_found a.isWhitespace_space a.quote_notMem]

/-- Another attribute stays where its value does not end as the pattern begins, or none follows. -/
theorem remove_other {a : Attribute} (hname : a.name ≠ markName)
    (h : EndsInMark a → quote ∉ rest) :
    removeProtectInMemory (a.write ++ rest) = a.write ++ removeProtectInMemory rest := by
  refine remove_append (finds_mark.misses_attribute a hname fun u c hc hvalue => h ?_)
  exact ⟨c :: (markName ++ [equals]), ⟨c, hc, rfl⟩, ⟨u, hvalue.symm⟩⟩

/-- Where it does, what is removed goes on to the start of the next value. -/
theorem remove_eaten {a : Attribute} (hname : a.name ≠ markName) {start : JsString} {c : UInt16}
    (hc : isWhitespace c = true) (hvalue : a.value = start ++ c :: (markName ++ [equals]))
    (hbody : quote ∉ body) :
    removeProtectInMemory (a.write ++ (body ++ quote :: rest)) = a.opening ++ start ++ rest := by
  have hsplit : a.write ++ (body ++ quote :: rest) = (a.opening ++ start) ++
      c :: (markName ++ equals :: quote :: (body ++ quote :: rest)) := by
    rw [Attribute.write, hvalue]
    simp
  have hstart : Misses protectInMemoryAttribute start
      ((c :: (markName ++ [equals])) ++ quote :: (body ++ quote :: rest)) := by
    refine finds_mark.misses_value (hvalue ▸ a.quote_notMem) fun u d v _ _ hend => ?_
    have hlength := congrArg List.length hend
    simp only [List.length_append, List.length_cons, List.length_nil] at hlength
    omega
  have hmark : (c :: (markName ++ [equals])) ++ quote :: (body ++ quote :: rest) =
      c :: (markName ++ equals :: quote :: (body ++ quote :: rest)) := by
    simp
  rw [hmark] at hstart
  rw [hsplit, remove_append (misses_append (finds_mark.misses_opening a hname) hstart),
    remove_found hc hbody]

end

theorem Attribute.write_ne_nil (a : Attribute) : a.write ≠ [] := by
  simp [Attribute.write]

theorem writeUnmarked_of_ne {attributes : List Attribute}
    (h : ∀ a ∈ attributes, a.name ≠ markName) :
    writeUnmarked attributes = writeAttributes attributes :=
  List.flatMap_congr fun a ha => by rw [Attribute.unmarked, if_neg (h a ha)]

/-- The end of a text up to its last space. -/
theorem end_inj {a b a' b' : JsString} {s s' : UInt16} (hs : isWhitespace s = true)
    (hs' : isWhitespace s' = true) (hb : ∀ u ∈ b, isWhitespace u = false)
    (hb' : ∀ u ∈ b', isWhitespace u = false) (h : a ++ s :: b = a' ++ s' :: b') : b = b' := by
  have hend : ∀ {x y : JsString} {s : UInt16}, isWhitespace s = true →
      (∀ u ∈ y, isWhitespace u = false) →
      (x ++ s :: y).reverse.takeWhile (!isWhitespace ·) = y.reverse := by
    intro x y s hs hy
    rw [List.reverse_append, List.reverse_cons, List.append_assoc,
      List.takeWhile_append_of_pos fun u hu => by rw [hy u (List.mem_reverse.1 hu)]; rfl]
    simp [hs]
  have heq := congrArg (fun t => t.reverse.takeWhile (!isWhitespace ·)) h
  rw [hend hs hb, hend hs' hb'] at heq
  exact List.reverse_injective heq

/-- Attributes that begin equal texts have one name. -/
theorem name_eq_of_write {a b : Attribute} {rest rest' : JsString}
    (h : a.write ++ rest = b.write ++ rest') : a.name = b.name := by
  have hnot : ∀ c : Attribute, equals ∉ c.gap ++ c.space :: c.name := by
    intro c hmem
    rcases List.mem_append.1 hmem with hmem | hmem
    · exact absurd (c.isWhitespace_gap _ hmem) (by decide)
    · rcases List.mem_cons.1 hmem with hmem | hmem
      · exact absurd (hmem ▸ c.isWhitespace_space) (by decide)
      · exact (c.name_plain _ hmem).2.1 rfl
  have hsep : (a.gap ++ a.space :: a.name) ++ equals :: (quote :: (a.value ++ quote :: rest)) =
      (b.gap ++ b.space :: b.name) ++ equals :: (quote :: (b.value ++ quote :: rest')) := by
    simpa [Attribute.write, Attribute.opening] using h
  exact end_inj a.isWhitespace_space b.isWhitespace_space (fun u hu => (a.name_plain u hu).1)
    (fun u hu => (b.name_plain u hu).1) (Separators.first_inj (hnot a) (hnot b) hsep).1

/-- The attributes after one, and it before them without the mark, are one text only where it is the
mark. -/
theorem write_eq_unmarked_iff {b : Attribute} {attributes : List Attribute}
    (hnodup : ((b :: attributes).map Attribute.name).Nodup) (trailing : JsString) :
    writeAttributes attributes ++ trailing = writeUnmarked (b :: attributes) ++ trailing ↔
      b.name = markName ∧ b.gap = [] := by
  rw [List.map_cons, List.nodup_cons] at hnodup
  have hother : ∀ d ∈ attributes, d.name ≠ b.name :=
    fun d hd heq => hnodup.1 (List.mem_map.2 ⟨d, hd, heq⟩)
  rw [List.append_cancel_right_eq, writeUnmarked, List.flatMap_cons, Attribute.unmarked]
  by_cases hb : b.name = markName
  · have hsame : attributes.flatMap Attribute.unmarked = writeAttributes attributes :=
      writeUnmarked_of_ne fun d hd => hb ▸ hother d hd
    rw [if_pos hb, hsame]
    constructor
    · exact fun h => ⟨hb, by simpa using h⟩
    · rintro ⟨-, hgap⟩
      rw [hgap, List.nil_append]
  · rw [if_neg hb]
    simp only [hb, false_and, iff_false]
    intro h
    cases attributes with
    | nil =>
      have hnil : [] = b.write ++ [] := h
      exact b.write_ne_nil (by simpa using hnil.symm)
    | cons d attributes =>
      rw [writeAttributes, List.flatMap_cons] at h
      exact hother d List.mem_cons_self (name_eq_of_write h)

theorem quote_notMem_space {text : JsString} (h : IsSpace text) : quote ∉ text :=
  fun hmem => absurd (h _ hmem) (by decide)

/-- An attribute up to its value. -/
theorem Attribute.opening_eq (b : Attribute) :
    ∃ body, quote ∉ body ∧ b.opening = body ++ [quote] := by
  refine ⟨b.gap ++ b.space :: (b.name ++ [equals]), ?_, by simp [Attribute.opening]⟩
  intro hmem
  rcases List.mem_append.1 hmem with hmem | hmem
  · exact quote_notMem_space b.isWhitespace_gap hmem
  rcases List.mem_cons.1 hmem with hmem | hmem
  · exact absurd (hmem ▸ b.isWhitespace_space) (by decide)
  rcases List.mem_append.1 hmem with hmem | hmem
  · exact (b.name_plain _ hmem).2.2.1 rfl
  · exact absurd hmem (by decide)

/-- Two ends of one value that the pattern may begin with are the same. -/
theorem mark_end_iff {value start text : JsString} {c : UInt16} (hc : isWhitespace c = true)
    (hvalue : value = start ++ c :: (markName ++ [equals])) :
    text = c :: (markName ++ [equals]) ↔ IsMark text ∧ text <:+ value := by
  constructor
  · rintro rfl
    exact ⟨⟨c, hc, rfl⟩, ⟨start, hvalue.symm⟩⟩
  · rintro ⟨⟨d, -, rfl⟩, hsuffix⟩
    have hown : c :: (markName ++ [equals]) <:+ value := ⟨start, hvalue.symm⟩
    exact (List.suffix_of_suffix_length_le hsuffix hown le_rfl).eq_of_length rfl

/-- `ProtectInMemory` is all that is removed exactly where the values are apart from it. -/
theorem removeProtectInMemory_iff {attributes : List Attribute}
    (hnodup : (attributes.map Attribute.name).Nodup) {trailing : JsString}
    (htrail : IsSpace trailing) :
    removeProtectInMemory (writeAttributes attributes ++ trailing) =
      writeUnmarked attributes ++ trailing ↔ MarksApart attributes := by
  induction attributes with
  | nil => exact iff_of_true (remove_space htrail) trivial
  | cons a attributes ih =>
    rw [List.map_cons, List.nodup_cons] at hnodup
    specialize ih hnodup.2
    rw [writeAttributes, List.flatMap_cons, List.append_assoc]
    change removeProtectInMemory (a.write ++ (writeAttributes attributes ++ trailing)) = _ ↔ _
    by_cases hname : a.name = markName
    · -- the attribute is the first match
      have hunmarked : writeUnmarked (a :: attributes) = a.gap ++ writeAttributes attributes := by
        rw [writeUnmarked, List.flatMap_cons, Attribute.unmarked, if_pos hname]
        exact congrArg (a.gap ++ ·)
          (writeUnmarked_of_ne fun d hd heq => hnodup.1 (List.mem_map.2 ⟨d, hd, heq.trans hname.symm⟩))
      refine iff_of_true (by rw [remove_mark hname, hunmarked, List.append_assoc]) ?_
      cases attributes with
      | nil => trivial
      | cons b attributes => exact .inl hname
    have hunmarked : writeUnmarked (a :: attributes) = a.write ++ writeUnmarked attributes := by
      rw [writeUnmarked, List.flatMap_cons, Attribute.unmarked, if_neg hname]
      rfl
    rw [hunmarked, List.append_assoc]
    cases attributes with
    | nil =>
      refine iff_of_true ?_ trivial
      change removeProtectInMemory (a.write ++ trailing) = a.write ++ trailing
      rw [remove_other hname fun _ => quote_notMem_space htrail, remove_space htrail]
    | cons b attributes =>
      by_cases hends : EndsInMark a
      · -- the match begins in the value and ends where the next value begins
        obtain ⟨v, ⟨c, hc, rfl⟩, start, hvalue⟩ := hends
        obtain ⟨body, hbody, hopening⟩ := b.opening_eq
        have hwrite : writeAttributes (b :: attributes) ++ trailing =
            body ++ quote :: (b.value ++ quote :: (writeAttributes attributes ++ trailing)) := by
          rw [writeAttributes, List.flatMap_cons, Attribute.write, hopening]
          simp [writeAttributes]
        have hright : a.write ++ (writeUnmarked (b :: attributes) ++ trailing) =
            a.opening ++ start ++ (c :: (markName ++ [equals]) ++
              quote :: (writeUnmarked (b :: attributes) ++ trailing)) := by
          rw [Attribute.write, ← hvalue]
          simp
        rw [hwrite, remove_eaten hname hc hvalue.symm hbody, hright, List.append_cancel_left_eq]
        have hmarkq : quote ∉ c :: (markName ++ [equals]) :=
          fun hmem => a.quote_notMem (hvalue ▸ List.mem_append_right _ hmem)
        constructor
        · intro h
          obtain ⟨hb, hrest⟩ := Separators.first_inj b.quote_notMem hmarkq h
          obtain ⟨hbname, hbgap⟩ := (write_eq_unmarked_iff hnodup.2 trailing).1 hrest
          obtain ⟨hmark, hsuffix⟩ := (mark_end_iff hc hvalue.symm).1 hb
          refine .inr ⟨fun _ => ⟨hbname, hbgap, hmark, hsuffix⟩, ?_⟩
          cases attributes with
          | nil => trivial
          | cons d attributes => exact .inl hbname
        · rintro (hname' | ⟨hmark, -⟩)
          · exact absurd hname' hname
          obtain ⟨hbname, hbgap, hbmark, hsuffix⟩ := hmark ⟨_, ⟨c, hc, rfl⟩, start, hvalue⟩
          rw [(mark_end_iff hc hvalue.symm).2 ⟨hbmark, hsuffix⟩,
            (write_eq_unmarked_iff hnodup.2 trailing).2 ⟨hbname, hbgap⟩]
      · rw [remove_other hname fun h => absurd h hends, List.append_cancel_left_eq, ih]
        constructor
        · exact fun h => .inr ⟨fun h' => absurd h' hends, h⟩
        · rintro (hname' | ⟨-, h⟩)
          · exact absurd hname' hname
          · exact h

end KdbxXml

end Passmgr

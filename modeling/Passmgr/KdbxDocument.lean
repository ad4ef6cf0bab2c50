/-
# A KeePass document with protected values

A document is text in which `PROTECTED` finds nothing, with protected elements between; their
contents are the plaintexts XORed with consecutive parts of one keystream, in base64.  An element
has a start tag and an end tag: an empty-element tag has no content and belongs to the text.

`revealProtected` keeps `index` and `offset` in step over the whole document.  It does not always put
back what the document held: `TextDecoder` leaves a byte order mark at the start of a plaintext out,
and the pattern that removes `ProtectInMemory` may begin in the value of another attribute.

Main definitions:

* `Element`, `PlainText`, `Document` — a document as it is written;
* `Document.revealed` — the document with the plaintexts, each escaped and marked once;
* `Element.Sound` — what a `Value` must be for that.

Main results:

* `protectedAt_write` — what is found of an element;
* `replace_parts` — the second pass, with the place it is at;
* `revealProtected_iff` — the document is revealed exactly where every element is sound.
-/

import Passmgr.XmlAttributes

set_option relaxedAutoImplicit false
set_option autoImplicit false

namespace Passmgr

namespace KdbxXml

open Keystream (xorFrom)
open Replacing (Misses misses_append misses_tail)
open SshKey (JsString ascii isWhitespace toBase64)
open Utf16 (decodePoints units)

/-! ### Documents -/

/-- A protected element, with the space there is around its parts. -/
structure Element where
  tag : JsString
  before : List Attribute
  gap : JsString
  space : UInt16
  after : List Attribute
  trailing : JsString
  lead : JsString
  trail : JsString
  plain : Bytes
  tag_ne : tag ≠ []
  tag_word : ∀ u ∈ tag, isWordUnit u = true
  nodup : ((before ++ after).map Attribute.name).Nodup
  name_ne : ∀ a ∈ before ++ after, a.name ≠ protectedName
  isSpace_gap : IsSpace gap
  isWhitespace_space : isWhitespace space = true
  isSpace_trailing : IsSpace trailing
  isSpace_lead : IsSpace lead
  isSpace_trail : IsSpace trail

/-- Text with whole tags only, in which nothing is found. -/
structure PlainText where
  text : JsString
  closed : ∀ u v, text = u ++ lt :: v → gt ∈ v
  unprotected : Misses protectedAt text []

structure Document where
  lead : PlainText
  parts : List (Element × PlainText)

namespace Element

/-- The attributes, `Protected` among them. -/
def attributesText (e : Element) : JsString :=
  writeAttributes e.before ++ e.gap ++
    e.space :: (protectedText ++ (writeAttributes e.after ++ e.trailing))

variable (k : ℕ → UInt8) (offset : ℕ)

/-- The ciphertext that begins at `offset`. -/
def content (e : Element) : JsString := e.lead ++ toBase64 (xorFrom k offset e.plain) ++ e.trail

def write (e : Element) : JsString :=
  lt :: e.tag ++ e.attributesText ++ gt :: e.content k offset ++ closing e.tag

/-- The text of some bytes, of which nothing is left out. -/
def textOf (bytes : Bytes) : JsString := (decodePoints .none bytes).flatMap units

/-- The element with its plaintext, marked once, where it is a `Value`. -/
def revealed (e : Element) : JsString :=
  if e.tag ≠ ascii "Value" then e.write k offset
  else
    lt :: e.tag ++ (writeUnmarked e.before ++ e.gap ++ (writeUnmarked e.after ++ e.trailing)) ++
      mark ++ gt :: escapeXml (textOf e.plain) ++ closing e.tag

/-- The attributes but for `Protected`; the space before it goes with the next one. -/
def widen (gap : JsString) (hgap : IsSpace gap) : List Attribute → List Attribute
  | [] => []
  | a :: attributes =>
    { a with
      gap := gap ++ a.gap
      isWhitespace_gap := by
        intro u hu
        rcases List.mem_append.1 hu with hu | hu
        · exact hgap u hu
        · exact a.isWhitespace_gap u hu } :: attributes

def attributes (e : Element) : List Attribute := e.before ++ widen e.gap e.isSpace_gap e.after

/-- The plaintext of a `Value` does not begin with a byte order mark, and no value of its attributes
is taken for the mark. -/
def Sound (e : Element) : Prop :=
  e.tag = ascii "Value" →
    (decodePoints .none e.plain).head? ≠ some 0xFEFF ∧ MarksApart e.attributes

end Element

/-- The parts, of which the first plaintext begins at `offset` of the keystream. -/
def writeParts (k : ℕ → UInt8) : ℕ → List (Element × PlainText) → JsString
  | _, [] => []
  | offset, (e, t) :: parts =>
    e.write k offset ++ (t.text ++ writeParts k (offset + e.plain.length) parts)

def revealParts (k : ℕ → UInt8) : ℕ → List (Element × PlainText) → JsString
  | _, [] => []
  | offset, (e, t) :: parts =>
    e.revealed k offset ++ (t.text ++ revealParts k (offset + e.plain.length) parts)

def Document.write (d : Document) (k : ℕ → UInt8) : JsString := d.lead.text ++ writeParts k 0 d.parts

def Document.revealed (d : Document) (k : ℕ → UInt8) : JsString :=
  d.lead.text ++ revealParts k 0 d.parts

/-! ### What is found of an element -/

theorem takeWhile_before {α : Type} {p : α → Bool} {a rest : List α} {c : α}
    (ha : ∀ x ∈ a, p x = true) (hc : p c = false) :
    (a ++ c :: rest).takeWhile p = a ∧ (a ++ c :: rest).dropWhile p = c :: rest := by
  rw [List.takeWhile_append_of_pos ha, List.dropWhile_append_of_pos ha]
  simp [hc]

theorem takeWhile_until {a : JsString} {c : UInt16} (ha : c ∉ a) (rest : JsString) :
    (a ++ c :: rest).takeWhile (· ≠ c) = a ∧ (a ++ c :: rest).dropWhile (· ≠ c) = c :: rest :=
  takeWhile_before (fun u hu => decide_eq_true fun heq => ha (heq ▸ hu)) (by simp)

theorem gt_notMem_space {text : JsString} (h : IsSpace text) : gt ∉ text :=
  fun hmem => absurd (h _ hmem) (by decide)

theorem Attribute.gt_notMem (a : Attribute) : gt ∉ a.write := by
  simp only [Attribute.write, Attribute.opening, List.mem_append, List.mem_cons, List.not_mem_nil,
    or_false, not_or]
  have hspace : gt ≠ a.space := fun heq => absurd (heq ▸ a.isWhitespace_space) (by decide)
  exact ⟨⟨⟨gt_notMem_space a.isWhitespace_gap, hspace, fun h => (a.name_plain _ h).2.2.2 rfl,
    by decide, by decide⟩, fun h => (a.value_plain _ h).2 rfl⟩, by decide⟩

theorem gt_notMem_attributes (attributes : List Attribute) : gt ∉ writeAttributes attributes := by
  rw [writeAttributes, List.mem_flatMap]
  rintro ⟨a, -, hmem⟩
  exact a.gt_notMem hmem

theorem gt_notMem_unmarked (attributes : List Attribute) : gt ∉ writeUnmarked attributes := by
  rw [writeUnmarked, List.mem_flatMap]
  rintro ⟨a, -, hmem⟩
  unfold Attribute.unmarked at hmem
  split_ifs at hmem
  · exact gt_notMem_space a.isWhitespace_gap hmem
  · exact a.gt_notMem hmem

/-- No word has space. -/
theorem isWordUnit_of_isWhitespace : ∀ {c : UInt16}, isWhitespace c = true → isWordUnit c = false := by
  intro c hc
  by_contra hword
  rw [Bool.not_eq_false] at hword
  simp only [isWhitespace, isWordUnit, Bool.or_eq_true, Bool.and_eq_true, decide_eq_true_eq] at hc hword
  omega

/-- The pattern at a start tag, told apart up to its end. -/
theorem protectedAt_start {tag attributes after : JsString} (htag : ∀ u ∈ tag, isWordUnit u = true)
    (hfirst : ∀ u ∈ attributes.head?, isWordUnit u = false) (hattributes : gt ∉ attributes) :
    protectedAt (lt :: (tag ++ (attributes ++ gt :: after))) =
      if tag ≠ [] ∧ closing tag <+: after.dropWhile (· ≠ lt) then
        (splitProtected attributes).map fun (before, rest) =>
          (⟨lt :: tag ++ attributes ++ gt :: after.takeWhile (· ≠ lt) ++ closing tag, tag, before,
              rest, after.takeWhile (· ≠ lt)⟩,
            (lt :: tag ++ attributes ++ gt :: after.takeWhile (· ≠ lt) ++ closing tag).length)
      else none := by
  obtain ⟨c, inner, hinner, hc⟩ : ∃ c inner, attributes ++ gt :: after = c :: inner ∧
      isWordUnit c = false := by
    cases attributes with
    | nil => exact ⟨gt, after, rfl, by decide⟩
    | cons c inner => exact ⟨c, inner ++ gt :: after, rfl, hfirst c rfl⟩
  have hword := @takeWhile_before _ isWordUnit tag inner c htag hc
  have hstart := takeWhile_until hattributes after
  rw [← hinner] at hword
  rw [protectedAt]
  simp only [hword.1, hword.2, hstart.1, hstart.2, List.drop_one, List.tail_cons]
  simp

namespace Element

variable (e : Element) (k : ℕ → UInt8) (offset : ℕ)

theorem gt_notMem : gt ∉ e.attributesText := by
  simp only [attributesText, List.mem_append, List.mem_cons, not_or]
  exact ⟨⟨gt_notMem_attributes _, gt_notMem_space e.isSpace_gap⟩,
    fun heq => absurd (heq ▸ e.isWhitespace_space) (by decide), by decide, gt_notMem_attributes _,
    gt_notMem_space e.isSpace_trailing⟩

theorem lt_notMem_content : lt ∉ e.content k offset := by
  have hsymbols : ∀ n < 64, SshKey.base64Symbol n ≠ lt := by decide
  simp only [content, List.mem_append, not_or]
  refine ⟨⟨fun h => absurd (e.isSpace_lead _ h) (by decide), fun h => ?_⟩,
    fun h => absurd (e.isSpace_trail _ h) (by decide)⟩
  rcases Base64.mem_encode h with h | ⟨n, hn, h⟩
  · exact absurd h (by decide)
  · exact hsymbols n hn h.symm

theorem trim_content : trim (e.content k offset) = toBase64 (xorFrom k offset e.plain) := by
  have hsolid : ∀ {text : JsString}, (∀ u ∈ text, isWhitespace u = false) →
      text.dropWhile isWhitespace = text := by
    intro text h
    cases text with
    | nil => rfl
    | cons c text => simp [h c List.mem_cons_self]
  have hbase : ∀ u ∈ toBase64 (xorFrom k offset e.plain), isWhitespace u = false :=
    fun u hu => (SshKey.mem_toBase64 hu).1
  have hcut : ∀ {text trail : JsString}, (∀ u ∈ text, isWhitespace u = false) → IsSpace trail →
      ((text ++ trail).reverse.dropWhile isWhitespace).reverse = text := by
    intro text trail htext htrail
    rw [List.reverse_append, List.dropWhile_append_of_pos fun u hu => htrail u (List.mem_reverse.1 hu),
      hsolid fun u hu => htext u (List.mem_reverse.1 hu), List.reverse_reverse]
  rw [trim, content, List.append_assoc, List.dropWhile_append_of_pos e.isSpace_lead]
  by_cases hnil : toBase64 (xorFrom k offset e.plain) = []
  · -- only space is left, and none of it stays
    rw [hnil, List.nil_append, List.dropWhile_eq_nil_iff.2 e.isSpace_trail]
    rfl
  · obtain ⟨c, text, hcons⟩ := List.exists_cons_of_ne_nil hnil
    have hc : isWhitespace c = false := hbase c (by rw [hcons]; exact List.mem_cons_self)
    have hkeep : (toBase64 (xorFrom k offset e.plain) ++ e.trail).dropWhile isWhitespace =
        toBase64 (xorFrom k offset e.plain) ++ e.trail := by
      rw [hcons]
      simp [hc]
    rw [hkeep, hcut hbase e.isSpace_trail]

theorem fromBase64_content :
    fromBase64 (trim (e.content k offset)) = .ok (xorFrom k offset e.plain) := by
  rw [trim_content, fromBase64, toBase64, Base64.decode_encode]

/-- The attributes begin with space. -/
theorem attributesText_eq_cons :
    ∃ c rest, e.attributesText = c :: rest ∧ isWhitespace c = true := by
  have hbegins : BeginsWithSpace e.attributesText := by
    rw [attributesText, List.append_assoc]
    refine begins_writeAttributes e.before (begins_append e.isSpace_gap fun u hu => ?_)
    rw [← Option.some.inj (Option.mem_def.1 hu)]
    exact e.isWhitespace_space
  have hne : e.attributesText ≠ [] := by simp [attributesText]
  obtain ⟨c, rest, hcons⟩ := List.exists_cons_of_ne_nil hne
  exact ⟨c, rest, hcons, hbegins c (by rw [hcons]; rfl)⟩

/-- The groups of an element's match. -/
def found : ProtectedMatch :=
  ⟨e.write k offset, e.tag, writeAttributes e.before ++ e.gap,
    writeAttributes e.after ++ e.trailing, e.content k offset⟩

theorem protectedAt_write (rest : JsString) :
    protectedAt (e.write k offset ++ rest) = some (e.found k offset, (e.write k offset).length) := by
  obtain ⟨c, inner, hinner, hc⟩ := e.attributesText_eq_cons
  have htext : e.write k offset ++ rest = lt :: (e.tag ++ (e.attributesText ++
      gt :: (e.content k offset ++ lt :: (47 :: (e.tag ++ gt :: rest))))) := by
    simp [write, closing, show ascii "</" = [lt, 47] from rfl]
  have hcontent := takeWhile_until (e.lt_notMem_content k offset) (47 :: (e.tag ++ gt :: rest))
  have hclosing : closing e.tag <+: lt :: (47 :: (e.tag ++ gt :: rest)) :=
    ⟨rest, by simp [closing, show ascii "</" = [lt, 47] from rfl]⟩
  have hsplit := splitProtected_attributes
    (fun a ha => e.name_ne a (List.mem_append_left _ ha))
    (fun a ha => e.name_ne a (List.mem_append_right _ ha)) e.isSpace_gap e.isWhitespace_space
    e.isSpace_trailing
  have hfirst : ∀ u ∈ e.attributesText.head?, isWordUnit u = false := by
    intro u hu
    rw [hinner] at hu
    rw [← Option.some.inj (Option.mem_def.1 hu)]
    exact isWordUnit_of_isWhitespace hc
  rw [htext, protectedAt_start e.tag_word hfirst e.gt_notMem, hcontent.1, hcontent.2,
    if_pos ⟨e.tag_ne, hclosing⟩, attributesText, hsplit]
  rfl

end Element

/-! ### Text -/

/-- What comes after a text: nothing, or a start tag. -/
def BeginsTag (rest : JsString) : Prop :=
  rest = [] ∨ ∃ u tail, rest = lt :: u :: tail ∧ isWordUnit u = true

theorem beginsTag_writeParts (k : ℕ → UInt8) (offset : ℕ) (parts : List (Element × PlainText)) :
    BeginsTag (writeParts k offset parts) := by
  cases parts with
  | nil => exact .inl rfl
  | cons part parts =>
    obtain ⟨u, tag, htag⟩ := List.exists_cons_of_ne_nil part.1.tag_ne
    refine .inr ⟨u, ?_, ?_, part.1.tag_word u (by rw [htag]; exact List.mem_cons_self)⟩
    · exact tag ++ part.1.attributesText ++ gt :: part.1.content k offset ++ closing part.1.tag ++
        (part.2.text ++ writeParts k (offset + part.1.plain.length) parts)
    · simp [writeParts, Element.write, htag]

/-- The end tag that `PROTECTED` looks for is not completed by what comes after whole tags. -/
theorem closing_of_append {tag after rest : JsString} (htag : ∀ u ∈ tag, isWordUnit u = true)
    (hclosed : ∀ u v, after = u ++ lt :: v → gt ∈ v) (hrest : BeginsTag rest)
    (h : closing tag <+: (after ++ rest).dropWhile (· ≠ lt)) :
    closing tag <+: after.dropWhile (· ≠ lt) := by
  have hclosing : ∀ tail : JsString, closing tag ++ tail = lt :: ((47 :: tag) ++ gt :: tail) := by
    intro tail
    simp [closing, show ascii "</" = [lt, 47] from rfl]
  obtain ⟨tail, htail⟩ := h
  rw [hclosing] at htail
  by_cases hmem : lt ∈ after
  · obtain ⟨a, b, rfl, ha⟩ := List.eq_append_cons_of_mem hmem
    rw [List.append_assoc, @List.cons_append _ lt b rest, (takeWhile_until ha _).2] at htail
    rw [(takeWhile_until ha _).2]
    obtain ⟨b₁, b₂, hb, hb₁⟩ := List.eq_append_cons_of_mem (hclosed a b rfl)
    rw [hb, List.append_assoc, @List.cons_append _ gt b₂ rest] at htail
    have hslash : gt ∉ 47 :: tag := by
      rw [List.mem_cons]
      rintro (heq | hmem)
      · exact absurd heq (by decide)
      · exact absurd (htag _ hmem) (by decide)
    have hend := (Separators.first_inj hslash hb₁ (List.cons.inj htail).2).1
    exact ⟨b₂, by rw [hclosing, hend, hb]⟩
  · have hdrop : (after ++ rest).dropWhile (· ≠ lt) = rest.dropWhile (· ≠ lt) :=
      List.dropWhile_append_of_pos fun u hu => decide_eq_true fun heq => hmem (heq ▸ hu)
    rw [hdrop] at htail
    rcases hrest with rfl | ⟨u, r, rfl, hu⟩
    · cases htail
    · have hslash : (47 : UInt16) = u := by simpa using congrArg (fun t => t.tail.head?) htail
      exact absurd (hslash ▸ hu) (by decide)

/-- Nothing is found in a text, whatever follows. -/
theorem PlainText.misses (t : PlainText) {rest : JsString} (hrest : BeginsTag rest) :
    Misses protectedAt t.text rest := by
  intro u c v hsplit
  have hnone : protectedAt (c :: v) = none := by
    simpa using t.unprotected u c v hsplit
  by_cases hc : c = lt
  swap
  · simp [protectedAt, hc]
  subst hc
  have hclosed := t.closed u v hsplit
  obtain ⟨attributes, after, hinner, hattributes⟩ : ∃ attributes after : JsString,
      v.dropWhile isWordUnit = attributes ++ gt :: after ∧ gt ∉ attributes := by
    refine List.eq_append_cons_of_mem ?_
    rw [← List.takeWhile_append_dropWhile (p := isWordUnit) (l := v), List.mem_append] at hclosed
    exact hclosed.resolve_left fun hmem => absurd (List.mem_takeWhile_imp hmem) (by decide)
  have htag : ∀ w ∈ v.takeWhile isWordUnit, isWordUnit w = true := fun w hw => List.mem_takeWhile_imp hw
  have hv : v = v.takeWhile isWordUnit ++ (attributes ++ gt :: after) := by
    rw [← hinner, List.takeWhile_append_dropWhile]
  have hfirst : ∀ w ∈ attributes.head?, isWordUnit w = false := by
    intro w hw
    cases hattr : attributes with
    | nil => rw [hattr] at hw; cases hw
    | cons d ds =>
      have hstop := List.head?_dropWhile_not isWordUnit v
      rw [hinner, hattr] at hstop
      rw [hattr] at hw
      rw [← Option.some.inj (Option.mem_def.1 hw)]
      exact hstop
  have hwhole : lt :: v ++ rest =
      lt :: (v.takeWhile isWordUnit ++ (attributes ++ gt :: (after ++ rest))) := by
    conv_lhs => rw [hv]
    simp
  rw [hv, protectedAt_start htag hfirst hattributes] at hnone
  rw [hwhole, protectedAt_start htag hfirst hattributes]
  cases hsplitted : splitProtected attributes with
  | none => simp
  | some groups =>
    rw [hsplitted] at hnone
    by_cases hcond : v.takeWhile isWordUnit ≠ [] ∧
        closing (v.takeWhile isWordUnit) <+: (after ++ rest).dropWhile (· ≠ lt)
    · have hold : closing (v.takeWhile isWordUnit) <+: after.dropWhile (· ≠ lt) := by
        refine closing_of_append htag (fun a b hafter => ?_) hrest hcond.2
        refine t.closed (u ++ lt :: (v.takeWhile isWordUnit ++ (attributes ++ gt :: a))) b ?_
        rw [hsplit]
        conv_lhs => rw [hv, hafter]
        simp
      rw [if_pos ⟨hcond.1, hold⟩] at hnone
      cases hnone
    · rw [if_neg hcond]

/-! ### The two passes -/

/-- The ciphertexts of the parts. -/
def ciphertextsOf (k : ℕ → UInt8) : ℕ → List (Element × PlainText) → List Bytes
  | _, [] => []
  | offset, (e, _) :: parts =>
    xorFrom k offset e.plain :: ciphertextsOf k (offset + e.plain.length) parts

/-- The plaintexts in document order. -/
def plainOf (parts : List (Element × PlainText)) : Bytes := parts.flatMap fun part => part.1.plain

theorem plainOf_cons (part : Element × PlainText) (parts : List (Element × PlainText)) :
    plainOf (part :: parts) = part.1.plain ++ plainOf parts := rfl

/-- The attributes as the code leaves them. -/
def Element.keptAttributes (e : Element) : JsString :=
  removeProtectInMemory (writeAttributes e.before ++ e.gap ++ (writeAttributes e.after ++ e.trailing))

/-- An element as the code leaves it. -/
def Element.replaced (k : ℕ → UInt8) (offset : ℕ) (e : Element) : JsString :=
  if e.tag ≠ ascii "Value" then e.write k offset
  else
    lt :: e.tag ++ e.keptAttributes ++ mark ++ gt :: escapeXml (Utf16.decode e.plain) ++
      closing e.tag

def replaceParts (k : ℕ → UInt8) : ℕ → List (Element × PlainText) → JsString
  | _, [] => []
  | offset, (e, t) :: parts =>
    e.replaced k offset ++ (t.text ++ replaceParts k (offset + e.plain.length) parts)

section

variable (k : ℕ → UInt8) (offset : ℕ)

theorem Element.write_ne_nil (e : Element) : e.write k offset ≠ [] := by
  simp [Element.write]

/-- The first pass finds the elements in their order. -/
theorem ciphertexts_parts (parts : List (Element × PlainText)) :
    ((Replacing.matchAll protectedAt (writeParts k offset parts)).mapM fun found =>
      fromBase64 (trim found.content)) = .ok (ciphertextsOf k offset parts) := by
  induction parts generalizing offset with
  | nil => rfl
  | cons part parts ih =>
    obtain ⟨e, t⟩ := part
    rw [writeParts, Replacing.matchAll_found (e.write_ne_nil k offset) (e.protectedAt_write k offset _),
      Replacing.matchAll_append (t.misses (beginsTag_writeParts k _ parts)), List.mapM_cons, ih]
    change (fromBase64 (trim (e.content k offset)) >>= _) = _
    rw [e.fromBase64_content]
    rfl

/-- Their ciphertexts together are the plaintexts together XORed. -/
theorem flatten_ciphertextsOf (parts : List (Element × PlainText)) :
    (ciphertextsOf k offset parts).flatten = xorFrom k offset (plainOf parts) := by
  induction parts generalizing offset with
  | nil => rfl
  | cons part parts ih =>
    obtain ⟨e, t⟩ := part
    rw [ciphertextsOf, List.flatten_cons, ih, plainOf_cons, Keystream.xorFrom_append]

/-- The second pass is at the element it has the ciphertext and the plaintext of. -/
theorem replace_parts {ciphertexts : List Bytes} {plain : Bytes} {place : Place}
    {parts : List (Element × PlainText)}
    (hciphertexts : ciphertexts.drop place.index = ciphertextsOf k place.offset parts)
    (hplain : plain.drop place.offset = plainOf parts) :
    Replacing.replace protectedAt (revealMatch ciphertexts plain) place
      (writeParts k place.offset parts) = replaceParts k place.offset parts := by
  induction parts generalizing place with
  | nil => rfl
  | cons part parts ih =>
    obtain ⟨e, t⟩ := part
    rw [ciphertextsOf] at hciphertexts
    have hlength : (ciphertexts.getD place.index []).length = e.plain.length := by
      have hget : ciphertexts[place.index]? = some (xorFrom k place.offset e.plain) := by
        rw [← List.head?_drop, hciphertexts]
        rfl
      rw [List.getD_eq_getElem?_getD, hget]
      exact Keystream.length_xorFrom k place.offset e.plain
    have hvalue : (plain.drop place.offset).take e.plain.length = e.plain := by
      rw [hplain, plainOf_cons]
      exact List.take_left
    have hmatch : revealMatch ciphertexts plain place (e.found k place.offset) =
        (e.replaced k place.offset, ⟨place.index + 1, place.offset + e.plain.length⟩) := by
      rw [revealMatch, hlength, hvalue, Element.replaced]
      change (if e.tag ≠ ascii "Value" then _ else _) = _
      split_ifs <;> rfl
    have hnext := @ih ⟨place.index + 1, place.offset + e.plain.length⟩
      (by rw [← List.tail_drop, hciphertexts]; rfl)
      (by rw [← List.drop_drop, hplain, plainOf_cons]; exact List.drop_left)
    rw [writeParts, Replacing.replace_found _ _ (e.write_ne_nil k _) (e.protectedAt_write k _ _),
      hmatch, Replacing.replace_append _ _ (t.misses (beginsTag_writeParts k _ parts)), hnext,
      replaceParts]

end

/-- What `revealProtected` returns for a document. -/
theorem revealProtected_write (d : Document) (k : ℕ → UInt8) :
    revealProtected (d.write k) (xorFrom k 0) = .ok (d.lead.text ++ replaceParts k 0 d.parts) := by
  have hlead := d.lead.misses (beginsTag_writeParts k 0 d.parts)
  have hplain : xorFrom k 0 (ciphertextsOf k 0 d.parts).flatten = plainOf d.parts := by
    rw [flatten_ciphertextsOf, Keystream.xorFrom_xorFrom]
  rw [revealProtected, Document.write, Replacing.matchAll_append hlead, ciphertexts_parts]
  change Except.ok (Replacing.replace protectedAt (revealMatch (ciphertextsOf k 0 d.parts)
    (xorFrom k 0 (ciphertextsOf k 0 d.parts).flatten)) ⟨0, 0⟩ _) = _
  rw [hplain, Replacing.replace_append _ _ hlead]
  exact congrArg (fun parts => Except.ok (d.lead.text ++ parts))
    (@replace_parts k _ _ ⟨0, 0⟩ d.parts rfl rfl)

/-! ### What is put back -/

/-- The text of a plaintext is escaped as it is exactly where no byte order mark begins it. -/
theorem escapeXml_decode_iff (plain : Bytes) :
    escapeXml (Utf16.decode plain) = escapeXml (Element.textOf plain) ↔
      (decodePoints .none plain).head? ≠ some 0xFEFF := by
  rw [Utf16.decode, Element.textOf, Utf16.stripMark]
  split_ifs with hhead
  · simp only [hhead, ne_eq, not_true_eq_false, iff_false]
    obtain ⟨ps, hps⟩ := List.head?_eq_some_iff.1 hhead
    have hmark : ∀ text : JsString, dropIllegal (0xFEFF :: text) = 0xFEFF :: dropIllegal text := by
      intro text
      cases text with
      | nil => rfl
      | cons u text => rfl
    have hunits : (0xFEFF :: ps).flatMap units = 0xFEFF :: ps.flatMap units := rfl
    rw [hps, List.tail_cons, hunits, escapeXml_eq, escapeXml_eq, hmark, List.flatMap_cons]
    intro h
    have hlength := congrArg List.length h
    rw [List.length_append, show (escapeUnit 0xFEFF).length = 1 from rfl] at hlength
    omega
  · exact iff_of_true rfl hhead

namespace Element

variable (e : Element)

/-- The space before `Protected` goes with what follows it. -/
theorem widen_write (gap : JsString) (hgap : IsSpace gap) (attributes : List Attribute)
    {trailing : JsString} (htrail : IsSpace trailing) : ∃ rest, IsSpace rest ∧
      gap ++ (writeAttributes attributes ++ trailing) =
        writeAttributes (widen gap hgap attributes) ++ rest ∧
      gap ++ (writeUnmarked attributes ++ trailing) =
        writeUnmarked (widen gap hgap attributes) ++ rest := by
  cases attributes with
  | nil =>
    refine ⟨gap ++ trailing, fun u hu => ?_, rfl, rfl⟩
    rcases List.mem_append.1 hu with hu | hu
    · exact hgap u hu
    · exact htrail u hu
  | cons a attributes =>
    refine ⟨trailing, htrail, ?_, ?_⟩
    · simp [writeAttributes, widen, Attribute.write, Attribute.opening]
    · simp only [writeUnmarked, widen, List.flatMap_cons, Attribute.unmarked, Attribute.write,
        Attribute.opening]
      split_ifs <;> simp

theorem map_name_widen (gap : JsString) (hgap : IsSpace gap) (attributes : List Attribute) :
    (widen gap hgap attributes).map Attribute.name = attributes.map Attribute.name := by
  cases attributes with
  | nil => rfl
  | cons a attributes => rfl

/-- `ProtectInMemory` is all that is removed exactly where the values are apart from it. -/
theorem keptAttributes_iff :
    e.keptAttributes =
        writeUnmarked e.before ++ e.gap ++ (writeUnmarked e.after ++ e.trailing) ↔
      MarksApart e.attributes := by
  obtain ⟨rest, hrest, hwrite, hunmarked⟩ := widen_write e.gap e.isSpace_gap e.after
    e.isSpace_trailing
  have hnodup : (e.attributes.map Attribute.name).Nodup := by
    rw [attributes, List.map_append, map_name_widen, ← List.map_append]
    exact e.nodup
  rw [← removeProtectInMemory_iff hnodup hrest, keptAttributes, List.append_assoc, hwrite,
    List.append_assoc (writeUnmarked e.before), hunmarked]
  simp [attributes, writeAttributes, writeUnmarked]

theorem gt_notMem_keptAttributes : gt ∉ e.keptAttributes := by
  have hnot : gt ∉ writeAttributes e.before ++ e.gap ++ (writeAttributes e.after ++ e.trailing) := by
    simp only [List.mem_append, not_or]
    exact ⟨⟨gt_notMem_attributes _, gt_notMem_space e.isSpace_gap⟩, gt_notMem_attributes _,
      gt_notMem_space e.isSpace_trailing⟩
  intro hmem
  rw [keptAttributes, removeProtectInMemory] at hmem
  split at hmem
  · exact hnot (Replacing.mem_cut ‹_› hmem)
  · exact hnot hmem

/-- What is left of an element is what it was to be, and so is what follows, exactly where it is
sound. -/
theorem replaced_append_iff (k : ℕ → UInt8) (offset : ℕ) (rest rest' : JsString) :
    e.replaced k offset ++ rest = e.revealed k offset ++ rest' ↔ e.Sound ∧ rest = rest' := by
  rw [replaced, revealed, Sound]
  by_cases htag : e.tag = ascii "Value"
  swap
  · rw [if_pos htag, if_pos htag, List.append_cancel_left_eq]
    exact ⟨fun h => ⟨fun h' => absurd h' htag, h⟩, fun h => h.2⟩
  rw [if_neg (not_not_intro htag), if_neg (not_not_intro htag), ← e.keptAttributes_iff,
    ← escapeXml_decode_iff]
  simp only [htag, true_implies]
  set kept := e.keptAttributes with hkept
  set unmarked := writeUnmarked e.before ++ e.gap ++ (writeUnmarked e.after ++ e.trailing) with hunmarked
  have hclosing : closing (ascii "Value") = lt :: (47 :: (ascii "Value" ++ [gt])) := rfl
  constructor
  · intro h
    have hstart : (kept ++ mark) ++ gt :: (escapeXml (Utf16.decode e.plain) ++
          lt :: (47 :: (ascii "Value" ++ gt :: rest))) =
        (unmarked ++ mark) ++ gt :: (escapeXml (textOf e.plain) ++
          lt :: (47 :: (ascii "Value" ++ gt :: rest'))) := by
      simpa [hclosing] using h
    have hkeptGt : gt ∉ kept ++ mark := by
      rw [List.mem_append, not_or]
      exact ⟨e.gt_notMem_keptAttributes, by decide⟩
    have hunmarkedGt : gt ∉ unmarked ++ mark := by
      simp only [hunmarked, List.mem_append, not_or]
      exact ⟨⟨⟨gt_notMem_unmarked _, gt_notMem_space e.isSpace_gap⟩, gt_notMem_unmarked _,
        gt_notMem_space e.isSpace_trailing⟩, by decide⟩
    obtain ⟨hattributes, hcontent⟩ := Separators.first_inj hkeptGt hunmarkedGt hstart
    obtain ⟨hescape, hrest⟩ := Separators.first_inj (lt_notMem_escapeXml _) (lt_notMem_escapeXml _)
      hcontent
    exact ⟨⟨hescape, List.append_cancel_right hattributes⟩, by simpa using hrest⟩
  · rintro ⟨⟨hescape, hattributes⟩, rfl⟩
    rw [hescape, hattributes]

end Element

/-- The parts are as they were to be exactly where every element is sound. -/
theorem replaceParts_iff (k : ℕ → UInt8) (offset : ℕ) (parts : List (Element × PlainText)) :
    replaceParts k offset parts = revealParts k offset parts ↔ ∀ part ∈ parts, part.1.Sound := by
  induction parts generalizing offset with
  | nil => simp [replaceParts, revealParts]
  | cons part parts ih =>
    obtain ⟨e, t⟩ := part
    rw [replaceParts, revealParts, e.replaced_append_iff, List.append_cancel_left_eq, ih,
      List.forall_mem_cons]

/-- A document is revealed exactly where every element is sound. -/
theorem revealProtected_iff (d : Document) (k : ℕ → UInt8) :
    revealProtected (d.write k) (xorFrom k 0) = .ok (d.revealed k) ↔
      ∀ part ∈ d.parts, part.1.Sound := by
  rw [revealProtected_write, Except.ok.injEq, Document.revealed, List.append_cancel_left_eq,
    replaceParts_iff]

/-! ### A byte order mark -/

/-- `<Value Protected="True">` with the plaintext U+FEFF and `a`. -/
def markedValue : Element where
  tag := ascii "Value"
  before := []
  gap := []
  space := 32
  after := []
  trailing := []
  lead := []
  trail := []
  plain := [0xEF, 0xBB, 0xBF, 0x61]
  tag_ne := by decide
  tag_word := forall_of_all (by decide)
  nodup := List.nodup_nil
  name_ne := fun a ha => nomatch ha
  isSpace_gap := fun u hu => nomatch hu
  isWhitespace_space := by decide
  isSpace_trailing := fun u hu => nomatch hu
  isSpace_lead := fun u hu => nomatch hu
  isSpace_trail := fun u hu => nomatch hu

def markedDocument : Document where
  lead := ⟨[], fun u v h => absurd h (by simp), Replacing.misses_nil⟩
  parts := [(markedValue, ⟨[], fun u v h => absurd h (by simp), Replacing.misses_nil⟩)]

/-- What comes out is `a`, without the mark. -/
theorem revealProtected_drops_mark :
    revealProtected (markedDocument.write fun _ => 0x5A) (xorFrom (fun _ => 0x5A) 0) =
        .ok (ascii "<Value ProtectInMemory=\"True\">a</Value>") ∧
      markedDocument.revealed (fun _ => 0x5A) ≠
        ascii "<Value ProtectInMemory=\"True\">a</Value>" := by
  refine ⟨?_, by decide⟩
  rw [revealProtected_write]
  exact congrArg Except.ok (by decide)

end KdbxXml

end Passmgr

/-
# Tags

`packages/util/src/tags.ts` and `packages/schema/src/tags.ts`: tags are compared without case and
surrounding or repeated white space, and a list keeps the first spelling of each.  Lowering the case
is a parameter.

Main definitions:

* `normalizeTag`, `tagKey`, `normalizeTags` — one spelling of a tag, what it is compared by, and the
  list with each tag once;
* `tagKeys` — the tags of a list, as a set.

Main results:

* `normalizeTag_idem` — a normalized tag stays as it is;
* `mem_tagKeys`, `tagKeys_normalizeTags` — normalizing keeps the set of tags;
* `normalizeTags_of_normal`, `normalizeTags_normal` — normalizing twice is normalizing once.
-/

import Passmgr.JsNumber
import Passmgr.Schema

set_option relaxedAutoImplicit false
set_option autoImplicit false

namespace Passmgr

open JsNumber (isStrWhiteSpace trim)

/-! ### One tag -/

/-- `replace(/\s+/g, " ")`; `inSpace` while a run of white space is read. -/
def collapseSpaces : (inSpace : Bool) → Text → Text
  | _, [] => []
  | inSpace, c :: cs =>
    if isStrWhiteSpace c then
      if inSpace then collapseSpaces true cs else ' ' :: collapseSpaces true cs
    else c :: collapseSpaces false cs

/-- `normalizeTag`: trimmed, inner white space collapsed to one space; the casing stays. -/
def normalizeTag (tag : Text) : Text := collapseSpaces false (trim tag)

/-- White space only as single spaces, none after another. -/
def SingleSpaced : (inSpace : Bool) → Text → Prop
  | _, [] => True
  | inSpace, c :: cs =>
    if isStrWhiteSpace c then c = ' ' ∧ inSpace = false ∧ SingleSpaced true cs
    else SingleSpaced false cs

theorem isStrWhiteSpace_space : isStrWhiteSpace ' ' = true := by decide

theorem singleSpaced_collapseSpaces (inSpace : Bool) (text : Text) :
    SingleSpaced inSpace (collapseSpaces inSpace text) := by
  induction text generalizing inSpace with
  | nil => trivial
  | cons c cs ih =>
      unfold collapseSpaces
      split
      · cases inSpace with
        | true => exact ih true
        | false =>
            rw [if_neg (by decide), SingleSpaced, if_pos isStrWhiteSpace_space]
            exact ⟨rfl, rfl, ih true⟩
      · next hspace =>
          rw [SingleSpaced, if_neg hspace]
          exact ih false

theorem collapseSpaces_of_singleSpaced {inSpace : Bool} {text : Text}
    (h : SingleSpaced inSpace text) : collapseSpaces inSpace text = text := by
  induction text generalizing inSpace with
  | nil => rfl
  | cons c cs ih =>
      rw [SingleSpaced] at h
      rw [collapseSpaces]
      split
      · next hspace =>
          rw [if_pos hspace] at h
          obtain ⟨rfl, rfl, hrest⟩ := h
          rw [if_neg (by decide), ih hrest]
      · next hspace =>
          rw [if_neg hspace] at h
          rw [ih h]

/-- Neither the first nor the last character is white space. -/
def Trimmed (text : Text) : Prop :=
  (∀ c ∈ text.head?, isStrWhiteSpace c = false) ∧ ∀ c ∈ text.getLast?, isStrWhiteSpace c = false

theorem dropWhile_of_head {p : Char → Bool} {text : Text} (h : ∀ c ∈ text.head?, p c = false) :
    text.dropWhile p = text := by
  cases text with
  | nil => rfl
  | cons c cs => rw [List.dropWhile_cons_of_neg (by simp [h c rfl])]

theorem head_dropWhile {p : Char → Bool} (text : Text) :
    ∀ c ∈ (text.dropWhile p).head?, p c = false := by
  intro c hc
  induction text with
  | nil => cases hc
  | cons d ds ih =>
      by_cases hd : p d = true
      · rw [List.dropWhile_cons_of_pos hd] at hc
        exact ih hc
      · rw [List.dropWhile_cons_of_neg hd] at hc
        obtain rfl : d = c := by simpa using hc
        simpa using hd

theorem trim_of_trimmed {text : Text} (h : Trimmed text) : trim text = text := by
  unfold trim
  rw [dropWhile_of_head h.1, dropWhile_of_head, List.reverse_reverse]
  intro c hc
  rw [List.head?_reverse] at hc
  exact h.2 c hc

theorem trimmed_trim (text : Text) : Trimmed (trim text) := by
  unfold trim
  refine ⟨fun c hc => ?_, fun c hc => ?_⟩
  · -- what is dropped at the end leaves the first character, if any is left
    rw [List.head?_reverse] at hc
    generalize hfirst : text.dropWhile isStrWhiteSpace = front at hc
    have hhead : ∀ c ∈ front.head?, isStrWhiteSpace c = false := by
      rw [← hfirst]
      exact head_dropWhile text
    have hsuffix : (front.reverse.dropWhile isStrWhiteSpace) <:+ front.reverse :=
      List.dropWhile_suffix _
    obtain ⟨rest, hrest⟩ := hsuffix
    have hlast : front.reverse.getLast? = some c := by
      rw [← hrest, List.getLast?_append, show _ = some c from hc]
      rfl
    rw [List.getLast?_reverse] at hlast
    exact hhead c hlast
  · rw [List.getLast?_reverse] at hc
    exact head_dropWhile _ c hc

theorem head?_collapseSpaces {text : Text} (h : ∀ c ∈ text.head?, isStrWhiteSpace c = false) :
    (collapseSpaces false text).head? = text.head? := by
  cases text with
  | nil => rfl
  | cons c cs =>
      rw [collapseSpaces, if_neg (by simp [h c rfl])]
      rfl

theorem collapseSpaces_concat {c : Char} (hc : isStrWhiteSpace c = false) (inSpace : Bool)
    (text : Text) : collapseSpaces inSpace (text ++ [c]) = collapseSpaces inSpace text ++ [c] := by
  induction text generalizing inSpace with
  | nil => simp [collapseSpaces, hc]
  | cons d ds ih =>
      rw [List.cons_append, collapseSpaces, collapseSpaces]
      split
      · split
        · exact ih true
        · rw [ih true, List.cons_append]
      · rw [ih false, List.cons_append]

theorem trimmed_collapseSpaces {text : Text} (h : Trimmed text) :
    Trimmed (collapseSpaces false text) := by
  refine ⟨fun c hc => h.1 c (head?_collapseSpaces h.1 ▸ hc), fun c hc => ?_⟩
  cases text using List.reverseRecOn with
  | nil => cases hc
  | append_singleton front last =>
      have hlast : isStrWhiteSpace last = false := h.2 last (by simp)
      rw [collapseSpaces_concat hlast, List.getLast?_append] at hc
      obtain rfl : last = c := by simpa using hc
      exact hlast

/-- A tag in its normal form. -/
def NormalTag (tag : Text) : Prop := Trimmed tag ∧ SingleSpaced false tag

theorem normalizeTag_of_normal {tag : Text} (h : NormalTag tag) : normalizeTag tag = tag := by
  unfold normalizeTag
  rw [trim_of_trimmed h.1, collapseSpaces_of_singleSpaced h.2]

theorem normalTag_normalizeTag (tag : Text) : NormalTag (normalizeTag tag) :=
  ⟨trimmed_collapseSpaces (trimmed_trim tag), singleSpaced_collapseSpaces false _⟩

theorem normalizeTag_idem (tag : Text) : normalizeTag (normalizeTag tag) = normalizeTag tag :=
  normalizeTag_of_normal (normalTag_normalizeTag tag)

/-! ### Lists of tags -/

section Lists

variable (lowerCase : Text → Text)

/-- `tagKey`: tags are compared without case. -/
def tagKey (tag : Text) : Text := lowerCase (normalizeTag tag)

/-- One turn of the loop of `normalizeTags`: a blank or a tag that is there already is dropped. -/
def addTag (tags : List Text) (raw : Text) : List Text :=
  let tag := normalizeTag raw
  if tag = [] ∨ tagKey lowerCase tag ∈ tags.map (tagKey lowerCase) then tags else tags ++ [tag]

/-- `normalizeTags`: normalized, blanks dropped, the first spelling of a tag kept. -/
def normalizeTags (tags : List Text) : List Text := tags.foldl (addTag lowerCase) []

/-- The tags of a list, by their keys; blanks are none. -/
def tagKeys (tags : List Text) : Set Text :=
  fun key => ∃ tag ∈ tags, normalizeTag tag ≠ [] ∧ tagKey lowerCase tag = key

/-- A list that normalizing leaves alone. -/
structure NormalTags (tags : List Text) : Prop where
  normal : ∀ tag ∈ tags, NormalTag tag ∧ tag ≠ []
  nodup : (tags.map (tagKey lowerCase)).Nodup

variable {lowerCase}

theorem tagKey_normalizeTag (tag : Text) :
    tagKey lowerCase (normalizeTag tag) = tagKey lowerCase tag := by
  unfold tagKey
  rw [normalizeTag_idem]

theorem mem_tagKeys_of_normal {tags : List Text} (h : NormalTags lowerCase tags) {key : Text} :
    key ∈ tagKeys lowerCase tags ↔ key ∈ tags.map (tagKey lowerCase) := by
  constructor
  · rintro ⟨tag, htag, -, rfl⟩
    exact List.mem_map_of_mem htag
  · intro hkey
    obtain ⟨tag, htag, rfl⟩ := List.mem_map.1 hkey
    obtain ⟨hnormal, hne⟩ := h.normal tag htag
    exact ⟨tag, htag, by rwa [normalizeTag_of_normal hnormal], rfl⟩

theorem normalTags_nil : NormalTags lowerCase [] := ⟨(fun _ h => by cases h), List.nodup_nil⟩

/-- A turn keeps a list normal and adds the key of the tag it reads. -/
theorem addTag_step {tags : List Text} (h : NormalTags lowerCase tags) (raw : Text) :
    NormalTags lowerCase (addTag lowerCase tags raw) ∧
      ∀ key, key ∈ (addTag lowerCase tags raw).map (tagKey lowerCase) ↔
        key ∈ tags.map (tagKey lowerCase) ∨
          normalizeTag raw ≠ [] ∧ tagKey lowerCase raw = key := by
  unfold addTag
  dsimp only
  rw [tagKey_normalizeTag]
  split
  · next hskip =>
      refine ⟨h, fun key => ⟨Or.inl, ?_⟩⟩
      rintro (hkey | ⟨hne, rfl⟩)
      · exact hkey
      · exact hskip.resolve_left hne
  · next hadd =>
      obtain ⟨hne, hnew⟩ := not_or.1 hadd
      refine ⟨⟨fun tag htag => ?_, ?_⟩, fun key => ?_⟩
      · rcases List.mem_append.1 htag with htag | htag
        · exact h.normal tag htag
        · rw [List.mem_singleton.1 htag]
          exact ⟨normalTag_normalizeTag raw, hne⟩
      · rw [List.map_append, List.map_singleton, List.nodup_append]
        refine ⟨h.nodup, by simp, fun a ha b hb hab => hnew ?_⟩
        rw [List.mem_singleton.1 hb, tagKey_normalizeTag] at hab
        exact hab ▸ ha
      · rw [List.map_append, List.mem_append, List.map_singleton, List.mem_singleton,
          tagKey_normalizeTag]
        exact or_congr_right ⟨fun heq => ⟨hne, heq.symm⟩, fun heq => heq.2.symm⟩

/-- What normalizing gives: a normal list with the same tags. -/
theorem normalizeTags_run (tags : List Text) :
    NormalTags lowerCase (normalizeTags lowerCase tags) ∧
      ∀ key, key ∈ (normalizeTags lowerCase tags).map (tagKey lowerCase) ↔
        key ∈ tagKeys lowerCase tags := by
  unfold normalizeTags
  induction tags using List.reverseRecOn with
  | nil => exact ⟨normalTags_nil, fun key => ⟨(fun h => by cases h), fun ⟨_, h, _⟩ => by cases h⟩⟩
  | append_singleton tags tag ih =>
      obtain ⟨hnormal, hkeys⟩ := ih
      rw [List.foldl_append, List.foldl_cons, List.foldl_nil]
      obtain ⟨hnormal', hkeys'⟩ := addTag_step hnormal tag
      refine ⟨hnormal', fun key => ?_⟩
      rw [hkeys', hkeys]
      constructor
      · rintro (⟨other, hother, hrest⟩ | ⟨hne, hkey⟩)
        · exact ⟨other, List.mem_append_left _ hother, hrest⟩
        · exact ⟨tag, by simp, hne, hkey⟩
      · rintro ⟨other, hother, hne, hkey⟩
        rcases List.mem_append.1 hother with hother | hother
        · exact Or.inl ⟨other, hother, hne, hkey⟩
        · obtain rfl := List.mem_singleton.1 hother
          exact Or.inr ⟨hne, hkey⟩

theorem normalizeTags_normal (tags : List Text) :
    NormalTags lowerCase (normalizeTags lowerCase tags) :=
  (normalizeTags_run tags).1

theorem mem_map_normalizeTags {tags : List Text} {key : Text} :
    key ∈ (normalizeTags lowerCase tags).map (tagKey lowerCase) ↔ key ∈ tagKeys lowerCase tags :=
  (normalizeTags_run tags).2 key

/-- Normalizing keeps the set of tags. -/
theorem tagKeys_normalizeTags (tags : List Text) :
    tagKeys lowerCase (normalizeTags lowerCase tags) = tagKeys lowerCase tags := by
  ext key
  rw [mem_tagKeys_of_normal (normalizeTags_normal tags), mem_map_normalizeTags]

theorem tagKeys_append (tags tags' : List Text) :
    tagKeys lowerCase (tags ++ tags') = tagKeys lowerCase tags ∪ tagKeys lowerCase tags' := by
  ext key
  constructor
  · rintro ⟨tag, htag, hrest⟩
    rcases List.mem_append.1 htag with htag | htag
    · exact Or.inl ⟨tag, htag, hrest⟩
    · exact Or.inr ⟨tag, htag, hrest⟩
  · rintro (⟨tag, htag, hrest⟩ | ⟨tag, htag, hrest⟩)
    · exact ⟨tag, List.mem_append_left _ htag, hrest⟩
    · exact ⟨tag, List.mem_append_right _ htag, hrest⟩

/-- What the loop does to a normal list: new tags follow it. -/
theorem foldl_addTag_extra {tags : List Text} (h : NormalTags lowerCase tags)
    (tags' : List Text) :
    ∃ extra, tags'.foldl (addTag lowerCase) tags = tags ++ extra ∧
      NormalTags lowerCase (tags ++ extra) ∧
        ∀ tag ∈ extra, tagKey lowerCase tag ∈ tagKeys lowerCase tags' := by
  induction tags' using List.reverseRecOn with
  | nil => exact ⟨[], (List.append_nil tags).symm, by rwa [List.append_nil], fun _ h => by cases h⟩
  | append_singleton tags' tag ih =>
      obtain ⟨extra, heq, hnormal, hkeys⟩ := ih
      have hkeys' : ∀ other ∈ extra,
          tagKey lowerCase other ∈ tagKeys lowerCase (tags' ++ [tag]) := by
        intro other hother
        rw [tagKeys_append]
        exact Or.inl (hkeys other hother)
      have hstep := (addTag_step hnormal tag).1
      rw [List.foldl_append, heq, List.foldl_cons, List.foldl_nil]
      unfold addTag at hstep ⊢
      dsimp only at hstep ⊢
      split at hstep
      · next hskip => exact ⟨extra, if_pos hskip, hnormal, hkeys'⟩
      · next hadd =>
          refine ⟨extra ++ [normalizeTag tag], ?_, ?_, fun other hother => ?_⟩
          · rw [if_neg hadd, List.append_assoc]
          · rwa [← List.append_assoc]
          · rcases List.mem_append.1 hother with hother | hother
            · exact hkeys' other hother
            · rw [List.mem_singleton.1 hother, tagKey_normalizeTag]
              exact ⟨tag, by simp, (not_or.1 hadd).1, rfl⟩

/-- A normal list is added as it is to one it has no tag in common with. -/
theorem foldl_addTag_of_normal {tags tags' : List Text}
    (h : NormalTags lowerCase (tags ++ tags')) :
    tags'.foldl (addTag lowerCase) tags = tags ++ tags' := by
  induction tags' generalizing tags with
  | nil => exact (List.append_nil tags).symm
  | cons tag tags' ih =>
      obtain ⟨hnormal, hne⟩ := h.normal tag (by simp)
      have hadd : addTag lowerCase tags tag = tags ++ [tag] := by
        unfold addTag
        rw [normalizeTag_of_normal hnormal]
        refine if_neg (not_or.2 ⟨hne, fun hmem => ?_⟩)
        have hnodup := h.nodup
        rw [List.map_append, List.map_cons, List.nodup_append] at hnodup
        exact hnodup.2.2 _ hmem _ List.mem_cons_self rfl
      rw [List.foldl_cons, hadd, ih (by rwa [List.append_assoc]), List.append_assoc]
      rfl

/-- A normal list is left alone. -/
theorem normalizeTags_of_normal {tags : List Text} (h : NormalTags lowerCase tags) :
    normalizeTags lowerCase tags = tags :=
  @foldl_addTag_of_normal lowerCase [] tags h

/-- A normal list first: it stays as it is, and new tags follow. -/
theorem normalizeTags_append {tags : List Text} (h : NormalTags lowerCase tags)
    (tags' : List Text) :
    ∃ extra, normalizeTags lowerCase (tags ++ tags') = tags ++ extra ∧
      NormalTags lowerCase (tags ++ extra) ∧
        ∀ tag ∈ extra, tagKey lowerCase tag ∈ tagKeys lowerCase tags' := by
  have hfirst := normalizeTags_of_normal h
  unfold normalizeTags at hfirst ⊢
  rw [List.foldl_append, hfirst]
  exact foldl_addTag_extra h tags'

/-- Part of a normal list is normal. -/
theorem NormalTags.filter {tags : List Text} (h : NormalTags lowerCase tags) (p : Text → Bool) :
    NormalTags lowerCase (tags.filter p) :=
  ⟨fun tag htag => h.normal tag (List.mem_filter.1 htag).1,
    h.nodup.sublist (List.filter_sublist.map _)⟩

end Lists

end Passmgr

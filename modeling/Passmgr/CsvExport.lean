/-
# CSV files

`exportToCsv` of `packages/client/src/export/export-file.ts` writes one row for each record, and
`parseCsv` of `packages/client/src/import/csv.ts` reads rows.  The writer quotes a cell only where
it has to; the reader goes through the text character by character.

A record whose values are not of the types the source gives them has no row here.

Main definitions:

* `CsvColumn`, `csvCells` — the columns, and what a record has in them;
* `ExportRecord.Typed` — the types the source gives the values of a record;
* `csvCell`, `escapeFormula`, `exportToCsv` — the text of a file;
* `CsvReader`, `readCsv`, `parseCsv` — the loop that reads one.

Main results:

* `readCsv_csvCell` — a cell is read back, whatever it holds;
* `parseCsv_exportToCsv` — so are all the rows of a file.
-/

import Passmgr.Escaping
import Passmgr.ExportFile

set_option relaxedAutoImplicit false
set_option autoImplicit false

namespace Passmgr

/-! ### The cells of a record -/

/-- The columns a file has. -/
inductive CsvColumn
  | vault
  | type
  | title
  | username
  | email
  | password
  | websites
  | totp
  | note
  | fields
  | customFields
  | tags
  | favorite
  | createdAt
  | updatedAt
  deriving DecidableEq, Repr

/-- `CSV_COLUMNS`. -/
def csvColumns : List CsvColumn :=
  [.vault, .type, .title, .username, .email, .password, .websites, .totp, .note, .fields,
    .customFields, .tags, .favorite, .createdAt, .updatedAt]

def CsvColumn.name : CsvColumn → String
  | vault => "vault"
  | type => "type"
  | title => "title"
  | username => "username"
  | email => "email"
  | password => "password"
  | websites => "websites"
  | totp => "totp"
  | note => "note"
  | fields => "fields"
  | customFields => "customFields"
  | tags => "tags"
  | favorite => "favorite"
  | createdAt => "createdAt"
  | updatedAt => "updatedAt"

/-- `OWN_COLUMN`. -/
def ownColumn (key : String) : Bool :=
  key ∈ csvColumns.map (·.name) ++
    ["id", "vaultId", "attachments", "schemaVersion", "passwordChangedAt"]

/-- `FORMULA_ESCAPED`: the columns any member of a vault can write. -/
def formulaEscaped (column : CsvColumn) : Bool :=
  column ∈ [CsvColumn.vault, .title, .email, .note, .fields, .customFields, .tags]

/-- The value of a text that may be missing. -/
def optionalText : Option Json → Option Text
  | none | some .null => some []
  | some (.string value) => some value
  | _ => none

/-- The items of an array that may be missing. -/
def optionalItems : Option Json → Option (List Json)
  | none | some .null => some []
  | some (.array items) => some items
  | _ => none

/-- The fields of an item. -/
def fieldsOf : Json → Option JsObject
  | .object fields => some fields
  | _ => none

/-- `value !== undefined && value !== ""`. -/
def isFilled : Option Json → Bool
  | none => false
  | some (.string value) => value ≠ []
  | some _ => true

/-- `String(value)`: `toText`, but for texts and truth values. -/
def valueText (toText : Option Json → Option Text) : Option Json → Option Text
  | some (.string value) => some value
  | some (.bool value) => some (if value then "true".toList else "false".toList)
  | value => toText value

/-- `keyValueLines`. -/
def keyValueLines (toText : Option Json → Option Text) (entries : List (Text × Option Json)) :
    Option Text :=
  ((entries.filter fun entry => isFilled entry.2).mapM fun entry =>
    (valueText toText entry.2).map (entry.1 ++ ": ".toList ++ ·)).map ['\n'].intercalate

/-- The texts of the websites of a login. -/
def websiteTexts (record : JsObject) : Option (List Text) := do
  (← optionalItems (JsObject.get? record "websites")).mapM fun item => do
    JsObject.text? (← fieldsOf item) "value"

/-- The custom fields, by title. -/
def customFieldEntries (record : JsObject) : Option (List (Text × Option Json)) := do
  (← optionalItems (JsObject.get? record "customFields")).mapM fun item => do
    let field ← fieldsOf item
    return (← JsObject.text? field "title", JsObject.get? field "value")

/-- The cells of `csvRow`, before formulas are escaped. -/
def csvCells (toText : Option Json → Option Text) (vaultName : VaultId → Option Text)
    (record : ExportRecord) : Option (CsvColumn → Text) := do
  let str := fun key => (JsObject.text? record.fields key).getD []
  let type ← JsObject.text? record.fields "type"
  let title ← JsObject.text? record.fields "title"
  let websites ← if type = "login".toList then websiteTexts record.fields else some []
  let note ← optionalText (JsObject.get? record.fields "note")
  let fields ← keyValueLines toText ((record.fields.filter fun field => !ownColumn field.1).map
    fun field => (field.1.toList, some field.2))
  let customFields ← keyValueLines toText (← customFieldEntries record.fields)
  let tags ← (← optionalItems (JsObject.get? record.fields "tags")).mapM Json.text?
  let favorite ← match JsObject.get? record.fields "favorite" with
    | none => some false
    | some (.bool value) => some value
    | _ => none
  return fun
    | .vault => (vaultName record.vaultId).getD []
    | .type => type
    | .title => title
    | .username => str "username"
    | .email => str "email"
    | .password => str "password"
    | .websites => ['\n'].intercalate websites
    | .totp => str "totp"
    | .note => note
    | .fields => fields
    | .customFields => customFields
    | .tags => ", ".toList.intercalate tags
    | .favorite => if favorite then "true".toList else []
    | .createdAt => record.createdAt.getD []
    | .updatedAt => record.updatedAt

/-- The types the source gives the values of a record: `RecordData`, whose fields without a column
are texts or truth values. -/
structure ExportRecord.Typed (record : ExportRecord) : Prop where
  type : (JsObject.text? record.fields "type").isSome = true
  title : (JsObject.text? record.fields "title").isSome = true
  note : ∀ value ∈ JsObject.get? record.fields "note", ∃ text, value = .string text
  favorite : ∀ value ∈ JsObject.get? record.fields "favorite", ∃ b, value = .bool b
  tags : ∀ value ∈ JsObject.get? record.fields "tags", ∃ items, value = .array items ∧
    ∀ item ∈ items, ∃ text, item = .string text
  websites : ∀ value ∈ JsObject.get? record.fields "websites", ∃ items, value = .array items ∧
    ∀ item ∈ items, ∃ fields text, item = .object fields ∧
      JsObject.get? fields "value" = some (.string text)
  customFields : ∀ value ∈ JsObject.get? record.fields "customFields", ∃ items,
    value = .array items ∧ ∀ item ∈ items, ∃ fields title text, item = .object fields ∧
      JsObject.get? fields "title" = some (.string title) ∧
      JsObject.get? fields "value" = some (.string text)
  others : ∀ field ∈ record.fields, ownColumn field.1 = false →
    (∃ text, field.2 = .string text) ∨ ∃ b, field.2 = .bool b

/-! ### A row for every record -/

section Rows

variable {toText : Option Json → Option Text} {record : ExportRecord}

theorem exists_mapM {α β : Type} {f : α → Option β} {l : List α}
    (h : ∀ a ∈ l, ∃ b, f a = some b) :
    ∃ bs, l.mapM f = some bs ∧ List.Forall₂ (fun a b => f a = some b) l bs := by
  induction l with
  | nil => exact ⟨[], rfl, .nil⟩
  | cons a l ih =>
      obtain ⟨b, hb⟩ := h a List.mem_cons_self
      obtain ⟨bs, hbs, hall⟩ := ih fun a ha => h a (List.mem_cons_of_mem _ ha)
      refine ⟨b :: bs, ?_, .cons hb hall⟩
      rw [List.mapM_cons, hb, hbs]
      rfl

/-- Texts and truth values have their lines. -/
theorem exists_keyValueLines {entries : List (Text × Option Json)}
    (h : ∀ entry ∈ entries, (∃ text, entry.2 = some (.string text)) ∨
      ∃ b, entry.2 = some (.bool b)) : ∃ lines, keyValueLines toText entries = some lines := by
  unfold keyValueLines
  obtain ⟨lines, hlines, -⟩ := exists_mapM (f := fun entry : Text × Option Json =>
      (valueText toText entry.2).map (entry.1 ++ ": ".toList ++ ·))
    (l := entries.filter fun entry => isFilled entry.2) fun entry hentry => by
      rcases h entry (List.mem_filter.1 hentry).1 with ⟨text, htext⟩ | ⟨b, hb⟩
      · exact ⟨_, by rw [htext]; rfl⟩
      · exact ⟨_, by rw [hb]; rfl⟩
  exact ⟨_, by rw [hlines]; rfl⟩

theorem ExportRecord.Typed.websiteTexts (h : record.Typed) :
    ∃ texts, websiteTexts record.fields = some texts := by
  unfold Passmgr.websiteTexts
  cases hwebsites : JsObject.get? record.fields "websites" with
  | none => exact ⟨[], rfl⟩
  | some value =>
      obtain ⟨items, rfl, hitems⟩ := h.websites value hwebsites
      obtain ⟨texts, htexts, -⟩ := exists_mapM (f := fun item => do
          JsObject.text? (← fieldsOf item) "value") fun item hitem => by
        obtain ⟨fields, text, rfl, htext⟩ := hitems item hitem
        exact ⟨text, congrArg (Option.bind · Json.text?) htext⟩
      exact ⟨texts, htexts⟩

theorem ExportRecord.Typed.customFieldEntries (h : record.Typed) :
    ∃ entries, customFieldEntries record.fields = some entries ∧
      ∀ entry ∈ entries, ∃ text, entry.2 = some (.string text) := by
  unfold Passmgr.customFieldEntries
  cases hcustom : JsObject.get? record.fields "customFields" with
  | none => exact ⟨[], rfl, fun entry hentry => absurd hentry List.not_mem_nil⟩
  | some value =>
      obtain ⟨items, rfl, hitems⟩ := h.customFields value hcustom
      clear hcustom
      dsimp only [optionalItems, Option.bind_eq_bind, Option.bind_some]
      induction items with
      | nil => exact ⟨[], rfl, fun entry hentry => absurd hentry List.not_mem_nil⟩
      | cons item items ih =>
          obtain ⟨entries, hentries, htexts⟩ :=
            ih fun item hitem => hitems item (List.mem_cons_of_mem _ hitem)
          obtain ⟨fields, title, text, rfl, htitle, htext⟩ := hitems item List.mem_cons_self
          refine ⟨(title, some (.string text)) :: entries, ?_, fun entry hentry => ?_⟩
          · rw [List.mapM_cons, hentries]
            simp [fieldsOf, JsObject.text?, htitle, htext, Json.text?]
          · rcases List.mem_cons.1 hentry with rfl | hentry
            · exact ⟨text, rfl⟩
            · exact htexts entry hentry

/-- **A record has a row**: nothing of it keeps the file from being written. -/
theorem ExportRecord.Typed.csvCells (h : record.Typed) (vaultName : VaultId → Option Text) :
    ∃ cells, csvCells toText vaultName record = some cells := by
  obtain ⟨type, htype⟩ := Option.isSome_iff_exists.1 h.type
  obtain ⟨title, htitle⟩ := Option.isSome_iff_exists.1 h.title
  obtain ⟨websites, hwebsites⟩ := h.websiteTexts
  obtain ⟨note, hnote⟩ : ∃ note, optionalText (JsObject.get? record.fields "note") = some note := by
    cases hnote : JsObject.get? record.fields "note" with
    | none => exact ⟨[], rfl⟩
    | some value =>
        obtain ⟨text, rfl⟩ := h.note value hnote
        exact ⟨text, rfl⟩
  obtain ⟨fields, hfields⟩ := @exists_keyValueLines toText
    ((record.fields.filter fun field => !ownColumn field.1).map
      fun field => (field.1.toList, some field.2)) fun entry hentry => by
    obtain ⟨field, hfield, rfl⟩ := List.mem_map.1 hentry
    obtain ⟨hmem, hown⟩ := List.mem_filter.1 hfield
    exact (h.others field hmem (by simpa using hown)).imp
      (fun ⟨text, htext⟩ => ⟨text, congrArg some htext⟩) fun ⟨b, hb⟩ => ⟨b, congrArg some hb⟩
  obtain ⟨entries, hentries, htexts⟩ := h.customFieldEntries
  obtain ⟨customFields, hcustom⟩ :=
    @exists_keyValueLines toText entries fun entry hentry => Or.inl (htexts entry hentry)
  obtain ⟨items, hitems, tags, htags⟩ : ∃ items, optionalItems
      (JsObject.get? record.fields "tags") = some items ∧
        ∃ tags, items.mapM Json.text? = some tags := by
    cases htags : JsObject.get? record.fields "tags" with
    | none => exact ⟨[], rfl, [], rfl⟩
    | some value =>
        obtain ⟨items, rfl, hitems⟩ := h.tags value htags
        obtain ⟨tags, htags, -⟩ := exists_mapM (f := Json.text?) fun item hitem => by
          obtain ⟨text, rfl⟩ := hitems item hitem
          exact ⟨text, rfl⟩
        exact ⟨items, rfl, tags, htags⟩
  unfold Passmgr.csvCells
  simp only [htype, htitle, hwebsites, hnote, hfields, hentries, hcustom, hitems, htags,
    Option.bind_eq_bind, Option.bind_some]
  cases hfavorite : JsObject.get? record.fields "favorite" with
  | none => split <;> exact ⟨_, rfl⟩
  | some value =>
      obtain ⟨b, rfl⟩ := h.favorite value hfavorite
      split <;> exact ⟨_, rfl⟩

end Rows

/-! ### Writing -/

/-- `csvCell`: quoted when it holds a comma, quote or line break, with its quotes doubled. -/
def csvCell (value : Text) : Text :=
  if value.any (· ∈ ['"', ',', '\r', '\n']) then
    '"' :: (Escaping.escape '"' (· = '"') value ++ ['"'])
  else value

/-- `escapeFormula`. -/
def escapeFormula (value : Text) : Text :=
  match value with
  | c :: _ => if c ∈ ['=', '+', '-', '@', '\t', '\r'] then '\'' :: value else value
  | [] => value

/-- A row of a file: the cells, with the formulas of some columns escaped. -/
def csvRow (cells : CsvColumn → Text) : List Text :=
  csvColumns.map fun column =>
    if formulaEscaped column then escapeFormula (cells column) else cells column

/-- The row of the column names. -/
def csvHeader : List Text := csvColumns.map (·.name.toList)

/-- The lines of a file. -/
def csvText (rows : List (List Text)) : Text :=
  ['\r', '\n'].intercalate (rows.map fun row => [','].intercalate (row.map csvCell)) ++
    ['\r', '\n']

/-- The last of the vaults that have an id. -/
def vaultNameOf (vaults : List ExportVault) (vaultId : VaultId) : Option Text :=
  (vaults.reverse.find? (·.id = vaultId)).map (·.name)

/-- `exportToCsv`. -/
def exportToCsv (toText : Option Json → Option Text) (data : ExportData) : Option Text :=
  (data.records.mapM (csvCells toText (vaultNameOf data.vaults))).map fun records =>
    csvText (csvHeader :: records.map csvRow)

/-! ### Reading -/

/-- The variables of the loop of `parseCsv`. -/
structure CsvReader where
  rows : List (List Text)
  row : List Text
  cell : Text
  quoted : Bool
  deriving DecidableEq, Repr

namespace CsvReader

variable (reader : CsvReader)

/-- `cell += char`. -/
def addChar (c : Char) : CsvReader := { reader with cell := reader.cell ++ [c] }

def endCell : CsvReader := { reader with row := reader.row ++ [reader.cell], cell := [] }

/-- `endRow`: a blank row is skipped. -/
def endRow : CsvReader :=
  let row := reader.row ++ [reader.cell]
  { reader with
    rows := if 1 < row.length ∨ row.head? ≠ some [] then reader.rows ++ [row] else reader.rows
    row := []
    cell := [] }

end CsvReader

/-- The loop of `parseCsv`. -/
def readCsv (reader : CsvReader) (text : Text) : CsvReader :=
  match text with
  | [] => reader
  | c :: rest =>
    if reader.quoted then
      if c ≠ '"' then readCsv (reader.addChar c) rest
      else if rest.head? = some '"' then readCsv (reader.addChar '"') rest.tail
      else readCsv { reader with quoted := false } rest
    else if c = '"' then readCsv { reader with quoted := true } rest
    else if c = ',' then readCsv reader.endCell rest
    else if c = '\n' then readCsv reader.endRow rest
    else if c = '\r' then readCsv reader.endRow (if rest.head? = some '\n' then rest.tail else rest)
    else readCsv (reader.addChar c) rest
termination_by text.length
decreasing_by
  all_goals simp only [List.length_cons, List.length_tail]
  all_goals grind

/-- `parseCsv`. -/
def parseCsv (text : Text) : List (List Text) :=
  let input := if text.head? = some '\uFEFF' then text.tail else text
  let reader := readCsv ⟨[], [], [], false⟩ input
  if reader.cell ≠ [] ∨ reader.row ≠ [] then reader.endRow.rows else reader.rows

/-! ### What is read back -/

section Reading

variable (reader : CsvReader)

theorem readCsv_nil : readCsv reader [] = reader := by rw [readCsv]

variable {reader}

theorem readCsv_quoted {c : Char} (hquoted : reader.quoted = true) (hc : c ≠ '"') (rest : Text) :
    readCsv reader (c :: rest) = readCsv (reader.addChar c) rest := by
  rw [readCsv, if_pos hquoted, if_pos hc]

theorem readCsv_quoted_quote (hquoted : reader.quoted = true) (rest : Text) :
    readCsv reader ('"' :: '"' :: rest) = readCsv (reader.addChar '"') rest := by
  rw [readCsv, if_pos hquoted, if_neg (fun h => h rfl),
    if_pos (show ('"' :: rest).head? = some '"' from rfl)]
  rfl

theorem readCsv_quoted_end (hquoted : reader.quoted = true) {rest : Text}
    (hrest : rest.head? ≠ some '"') :
    readCsv reader ('"' :: rest) = readCsv { reader with quoted := false } rest := by
  rw [readCsv, if_pos hquoted, if_neg (fun h => h rfl), if_neg hrest]

theorem readCsv_quote (hplain : reader.quoted = false) (rest : Text) :
    readCsv reader ('"' :: rest) = readCsv { reader with quoted := true } rest := by
  rw [readCsv, hplain, if_neg Bool.false_ne_true, if_pos rfl]

theorem readCsv_comma (hplain : reader.quoted = false) (rest : Text) :
    readCsv reader (',' :: rest) = readCsv reader.endCell rest := by
  rw [readCsv, hplain, if_neg Bool.false_ne_true, if_neg (by decide), if_pos rfl]

theorem readCsv_line (hplain : reader.quoted = false) (rest : Text) :
    readCsv reader ('\r' :: '\n' :: rest) = readCsv reader.endRow rest := by
  rw [readCsv, hplain, if_neg Bool.false_ne_true, if_neg (by decide), if_neg (by decide),
    if_neg (by decide), if_pos rfl, if_pos (show ('\n' :: rest).head? = some '\n' from rfl)]
  rfl

theorem readCsv_plain {c : Char} (hplain : reader.quoted = false)
    (hc : c ∉ ['"', ',', '\r', '\n']) (rest : Text) :
    readCsv reader (c :: rest) = readCsv (reader.addChar c) rest := by
  simp only [List.mem_cons, List.not_mem_nil, or_false, not_or] at hc
  obtain ⟨hquote, hcomma, hcr, hlf⟩ := hc
  rw [readCsv, hplain, if_neg Bool.false_ne_true, if_neg hquote, if_neg hcomma, if_neg hlf,
    if_neg hcr]

/-- A cell that needs no quotes. -/
theorem readCsv_plainCell {value : Text} (hplain : reader.quoted = false)
    (hvalue : ∀ c ∈ value, c ∉ ['"', ',', '\r', '\n']) (rest : Text) :
    readCsv reader (value ++ rest) = readCsv { reader with cell := reader.cell ++ value } rest := by
  induction value generalizing reader with
  | nil => rw [List.nil_append, List.append_nil]
  | cons c value ih =>
      rw [List.cons_append, readCsv_plain hplain (hvalue c List.mem_cons_self),
        @ih (reader.addChar c) hplain fun c hc => hvalue c (List.mem_cons_of_mem _ hc)]
      unfold CsvReader.addChar
      dsimp only
      rw [List.append_assoc]
      rfl

/-- The rest of a cell in quotes, up to its closing one. -/
theorem readCsv_quotedCell (value : Text) (hquoted : reader.quoted = true) {rest : Text}
    (hrest : rest.head? ≠ some '"') :
    readCsv reader (Escaping.escape '"' (· = '"') value ++ '"' :: rest) =
      readCsv { reader with cell := reader.cell ++ value, quoted := false } rest := by
  induction value generalizing reader with
  | nil =>
      rw [Escaping.escape_nil, List.nil_append, List.append_nil]
      exact readCsv_quoted_end hquoted hrest
  | cons c value ih =>
      by_cases hc : c = '"'
      · subst hc
        have hescape : Escaping.escape '"' (· = '"') ('"' :: value) =
            '"' :: '"' :: Escaping.escape '"' (· = '"') value :=
          Escaping.escape_cons_of_delimits rfl value
        rw [hescape, List.cons_append, List.cons_append, readCsv_quoted_quote hquoted,
          @ih (reader.addChar '"') hquoted]
        unfold CsvReader.addChar
        dsimp only
        rw [List.append_assoc]
        rfl
      · have hescape : Escaping.escape '"' (· = '"') (c :: value) =
            c :: Escaping.escape '"' (· = '"') value :=
          @Escaping.escape_cons_of_not _ '"' (· = '"') c (decide_eq_false hc) value
        rw [hescape, List.cons_append, readCsv_quoted hquoted hc, @ih (reader.addChar c) hquoted]
        unfold CsvReader.addChar
        dsimp only
        rw [List.append_assoc]
        rfl

/-- **A cell is read back**, whatever it holds, before anything but another quote. -/
theorem readCsv_csvCell (value : Text) (hplain : reader.quoted = false) (hcell : reader.cell = [])
    {rest : Text} (hrest : rest.head? ≠ some '"') :
    readCsv reader (csvCell value ++ rest) = readCsv { reader with cell := value } rest := by
  unfold csvCell
  split
  · rw [List.cons_append, readCsv_quote hplain, List.append_assoc, List.singleton_append,
      readCsv_quotedCell value rfl hrest]
    dsimp only
    rw [hcell, List.nil_append, ← hplain]
  · next hnone =>
      have hvalue : ∀ c ∈ value, c ∉ ['"', ',', '\r', '\n'] := by
        intro c hc hspecial
        exact hnone (List.any_eq_true.2 ⟨c, hc, decide_eq_true hspecial⟩)
      rw [readCsv_plainCell hplain hvalue, hcell, List.nil_append]

/-- The cells of a row and the end of its line. -/
theorem readCsv_line_cells (value : Text) (values : List Text) (hplain : reader.quoted = false)
    (hcell : reader.cell = []) (rest : Text) :
    readCsv reader ([','].intercalate ((value :: values).map csvCell) ++ '\r' :: '\n' :: rest) =
      readCsv ({ reader with row := reader.row ++ (value :: values).dropLast
                             cell := (value :: values).getLast (List.cons_ne_nil _ _) }.endRow) rest := by
  induction values generalizing reader value with
  | nil =>
      have hline : [','].intercalate ([value].map csvCell) = csvCell value := by
        simp [List.intercalate]
      rw [hline, readCsv_csvCell value hplain hcell (by simp),
        @readCsv_line { reader with cell := value } hplain]
      simp
  | cons next values ih =>
      have hline : [','].intercalate ((value :: next :: values).map csvCell) =
          csvCell value ++ ',' :: [','].intercalate ((next :: values).map csvCell) := by
        simp [List.intercalate]
      rw [hline, List.append_assoc, List.cons_append,
        readCsv_csvCell value hplain hcell (by simp),
        @readCsv_comma { reader with cell := value } hplain,
        @ih ({ reader with cell := value } : CsvReader).endCell next hplain rfl]
      unfold CsvReader.endCell
      simp

end Reading

/-- A row that is not blank is added. -/
theorem readCsv_row {row : List Text} (hrow : 1 < row.length) (rows : List (List Text))
    (rest : Text) :
    readCsv ⟨rows, [], [], false⟩ ([','].intercalate (row.map csvCell) ++ '\r' :: '\n' :: rest) =
      readCsv ⟨rows ++ [row], [], [], false⟩ rest := by
  cases row with
  | nil => cases hrow
  | cons value values =>
      rw [readCsv_line_cells value values rfl rfl]
      unfold CsvReader.endRow
      dsimp only
      rw [List.nil_append, List.dropLast_append_getLast, if_pos (Or.inl hrow)]

theorem readCsv_rows {lines : List (List Text)} (hlines : ∀ row ∈ lines, 1 < row.length)
    (rows : List (List Text)) :
    readCsv ⟨rows, [], [], false⟩
        ((lines.map fun row => [','].intercalate (row.map csvCell)).flatMap (· ++ ['\r', '\n'])) =
      ⟨rows ++ lines, [], [], false⟩ := by
  induction lines generalizing rows with
  | nil =>
      rw [List.append_nil]
      exact readCsv_nil _
  | cons row lines ih =>
      rw [List.map_cons, List.flatMap_cons, List.append_assoc, List.cons_append, List.cons_append,
        List.nil_append, readCsv_row (hlines row List.mem_cons_self),
        ih fun row hrow => hlines row (List.mem_cons_of_mem _ hrow), List.append_assoc,
        List.singleton_append]

/-- Whatever the cells of some rows of more than one hold, the file of the rows is read back. -/
theorem parseCsv_csvText {rows : List (List Text)} (hne : rows ≠ [])
    (hrows : ∀ row ∈ rows, 1 < row.length) (hbom : (csvText rows).head? ≠ some '\uFEFF') :
    parseCsv (csvText rows) = rows := by
  obtain ⟨row, lines, rfl⟩ := List.exists_cons_of_ne_nil hne
  have htext : csvText (row :: lines) =
      (((row :: lines).map fun row => [','].intercalate (row.map csvCell)).flatMap
        (· ++ ['\r', '\n'])) := by
    have happend := Escaping.intercalate_append ['\r', '\n'] ([','].intercalate (row.map csvCell))
      (lines.map fun row => [','].intercalate (row.map csvCell)) []
    rwa [List.append_nil, List.append_nil] at happend
  unfold parseCsv
  rw [if_neg hbom, htext]
  dsimp only
  rw [readCsv_rows hrows]
  rfl

theorem length_csvRow (cells : CsvColumn → Text) : (csvRow cells).length = 15 := by
  rw [csvRow, List.length_map]
  rfl

/-- The rows of a file: the header, and the cells of the records. -/
theorem parseCsv_rows (records : List (CsvColumn → Text)) :
    parseCsv (csvText (csvHeader :: records.map csvRow)) = csvHeader :: records.map csvRow := by
  refine parseCsv_csvText (List.cons_ne_nil _ _) (fun row hrow => ?_) ?_
  · rcases List.mem_cons.1 hrow with rfl | hrow
    · decide
    · obtain ⟨cells, -, rfl⟩ := List.mem_map.1 hrow
      rw [length_csvRow]
      decide
  · -- the text starts with the name of the first column
    have hhead : (csvText (csvHeader :: records.map csvRow)).head? = some 'v' := by
      cases records with
      | nil => rfl
      | cons cells records => rfl
    rw [hhead]
    decide

/-- **A CSV export reads back**: of records of the types the source gives them a file is written, and
it is read as the header and one row for each record, in order, with the cells of the record,
whatever they hold. -/
theorem parseCsv_exportToCsv (toText : Option Json → Option Text) (data : ExportData)
    (h : ∀ record ∈ data.records, record.Typed) :
    ∃ records file, exportToCsv toText data = some file ∧
      parseCsv file = csvHeader :: records.map csvRow ∧
      List.Forall₂ (fun record cells =>
        csvCells toText (vaultNameOf data.vaults) record = some cells) data.records records := by
  have hcells : ∀ record ∈ data.records,
      ∃ cells, csvCells toText (vaultNameOf data.vaults) record = some cells :=
    fun record hrecord => (h record hrecord).csvCells (vaultNameOf data.vaults)
  obtain ⟨records, hrecords, hall⟩ := exists_mapM hcells
  refine ⟨records, csvText (csvHeader :: records.map csvRow), ?_, parseCsv_rows records, hall⟩
  unfold exportToCsv
  rw [hrecords]
  rfl

/-- A login with a formula for a title, quotes, commas and line breaks. -/
def quotedRecord : ExportRecord where
  fields := [("type", .string "login".toList), ("title", .string "=1+2".toList),
    ("username", .string "a,b".toList), ("password", .string ['x', '"', '"', ',']),
    ("websites", .array [.object [("value", .string "m.org".toList)],
      .object [("value", .string "n.org".toList)]]),
    ("note", .string ['l', '\r', '\n', '"', '\n', ' ']), ("tags", .array [.string " t".toList]),
    ("customFields", .array [.object [("title", .string "k".toList),
      ("value", .string "\rv".toList)]]),
    ("favorite", .bool true), ("pin", .string "-1".toList), ("hidden", .bool false),
    ("id", .string (uuidText 1)), ("vaultId", .string (uuidText 2)), ("createdAt", .null),
    ("updatedAt", .string "u".toList)]
  id := 1
  vaultId := 2
  createdAt := none
  updatedAt := "u".toList
  hid := rfl
  hvaultId := rfl
  hcreatedAt := rfl
  hupdatedAt := rfl

theorem quotedRecord_typed : quotedRecord.Typed where
  type := rfl
  title := rfl
  note value h := ⟨_, (Option.some.inj h).symm⟩
  favorite value h := ⟨_, (Option.some.inj h).symm⟩
  tags value h := by
    refine ⟨_, (Option.some.inj h).symm, fun item hitem => ?_⟩
    obtain rfl := List.mem_singleton.1 hitem
    exact ⟨_, rfl⟩
  websites value h := by
    refine ⟨_, (Option.some.inj h).symm, fun item hitem => ?_⟩
    rcases List.mem_cons.1 hitem with rfl | hitem
    · exact ⟨_, _, rfl, rfl⟩
    · obtain rfl := List.mem_singleton.1 hitem
      exact ⟨_, _, rfl, rfl⟩
  customFields value h := by
    refine ⟨_, (Option.some.inj h).symm, fun item hitem => ?_⟩
    obtain rfl := List.mem_singleton.1 hitem
    exact ⟨_, _, _, rfl, rfl, rfl⟩
  others := by
    have hothers : (quotedRecord.fields.filter fun field => !ownColumn field.1) =
        [("pin", .string "-1".toList), ("hidden", .bool false)] := by rfl
    intro field hfield hown
    have hmem : field ∈ quotedRecord.fields.filter fun field => !ownColumn field.1 :=
      List.mem_filter.2 ⟨hfield, by rw [hown]; rfl⟩
    rw [hothers] at hmem
    rcases List.mem_cons.1 hmem with rfl | hmem
    · exact Or.inl ⟨_, rfl⟩
    · obtain rfl := List.mem_singleton.1 hmem
      exact Or.inr ⟨_, rfl⟩

/-- The row that is read back of it, from a vault that is called `@home`. -/
theorem parseCsv_exportToCsv_quoted : ∃ file,
    exportToCsv (fun _ => none) ⟨[], [⟨2, "@home".toList, .shared⟩], [quotedRecord]⟩ = some file ∧
    parseCsv file = [csvHeader, ["'@home".toList, "login".toList, "'=1+2".toList, "a,b".toList, [],
      ['x', '"', '"', ','], ['m', '.', 'o', 'r', 'g', '\n', 'n', '.', 'o', 'r', 'g'], [],
      ['l', '\r', '\n', '"', '\n', ' '],
      "pin: -1".toList ++ '\n' :: "hidden: false".toList, "k: ".toList ++ ['\r', 'v'], " t".toList,
      "true".toList, [], "u".toList]] := by
  obtain ⟨records, file, hfile, hread, hall⟩ := parseCsv_exportToCsv (fun _ => none)
    ⟨[], [⟨2, "@home".toList, .shared⟩], [quotedRecord]⟩ fun record hrecord => by
      obtain rfl := List.mem_singleton.1 hrecord
      exact quotedRecord_typed
  refine ⟨file, hfile, hread.trans ?_⟩
  obtain ⟨cells, hcells, rfl⟩ : ∃ cells, csvCells (fun _ => none)
      (vaultNameOf [⟨2, "@home".toList, .shared⟩]) quotedRecord = some cells ∧
        records = [cells] := by
    cases hall with
    | cons hcells hnil =>
        cases hnil
        exact ⟨_, hcells, rfl⟩
  obtain rfl := Option.some.inj hcells
  rfl

end Passmgr

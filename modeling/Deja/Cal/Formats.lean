import Deja.Cal.Execute
import Deja.Codec.Types
import Deja.Lib.Delimited
import Deja.Lib.Occur

/-!
# Grains as delimited text

`FORMAT csv`, `triples` and `table` write a line a grain.  A reader that follows the rules
of the format gets back the grains written exactly when no field holds a character the
escaping of the format leaves out.
-/

namespace Deja.Cal

open Delimited Text

/-- `serde_json` for the values that are no strings: `Value::to_string`, and
`Value::as_f64` as TOON writes it. -/
structure Shown where
  display : Json → String
  number : Json → String

/-! ## Writing -/

section Source

variable (J : Shown)

/-- `json_field`. -/
def jsonField (g : GrainResult) (f : String) : Option Json := g.fields.lookup f

/-- A field as a string, if it is one. -/
def strField (g : GrainResult) (f : String) : Option (List Char) :=
  ((jsonField g f).bind Json.asStr).map String.toList

/-- `get_field`: a string is escaped, another value displayed. -/
def getField (escape : List Char → List Char) (g : GrainResult) (f : String) : List Char :=
  match jsonField g f with
  | some (.str s) => escape s.toList
  | some v => (J.display v).toList
  | none => []

/-- One line of `FORMAT triples`. -/
def tripleLine (g : GrainResult) : List Char :=
  (strField g "subject").getD ['_'] ++ '\t' :: (strField g "relation").getD ['_'] ++
    '\t' :: (strField g "object").getD ['_'] ++ ['\n']

/-- `FORMAT triples`. -/
def renderTriples (gs : List GrainResult) : List Char := gs.flatMap tripleLine

/-- A string of `FORMAT csv`: quoted if it holds a comma, a quote or a line feed. -/
def csvEscape (s : List Char) : List Char :=
  if ',' ∈ s ∨ '"' ∈ s ∨ '\n' ∈ s then '"' :: replace ['"'] ['"', '"'] s ++ ['"'] else s

/-- The fields csv and tables show. -/
def shownFields : List String := ["subject", "relation", "object", "confidence"]

/-- The columns of csv and tables. -/
def columns : List (List Char) :=
  ["hash".toList, "grain_type".toList, "subject".toList, "relation".toList, "object".toList,
    "confidence".toList]

/-- One line of `FORMAT csv`. -/
def csvLine (g : GrainResult) : List Char :=
  g.hash.toList ++ ',' :: g.grainType.toList ++ ',' :: getField J csvEscape g "subject" ++
    ',' :: getField J csvEscape g "relation" ++ ',' :: getField J csvEscape g "object" ++
    ',' :: getField J csvEscape g "confidence" ++ ['\n']

/-- `FORMAT csv`. -/
def renderCsv (gs : List GrainResult) : List Char :=
  "hash,grain_type,subject,relation,object,confidence\n".toList ++ gs.flatMap (csvLine J)

/-- A string of `FORMAT table`: bars are escaped. -/
def tableEscape (s : List Char) : List Char := replace ['|'] ['\\', '|'] s

/-- One line of `FORMAT table`. -/
def tableLine (g : GrainResult) : List Char :=
  '|' :: ' ' :: g.hash.toList.take 8 ++ ' ' :: '|' :: ' ' :: g.grainType.toList ++
    ' ' :: '|' :: ' ' :: getField J tableEscape g "subject" ++
    ' ' :: '|' :: ' ' :: getField J tableEscape g "relation" ++
    ' ' :: '|' :: ' ' :: getField J tableEscape g "object" ++
    ' ' :: '|' :: ' ' :: getField J tableEscape g "confidence" ++ [' ', '|', '\n']

/-- `FORMAT table`. -/
def renderTable (gs : List GrainResult) : List Char :=
  "| hash | grain_type | subject | relation | object | confidence |\n".toList ++
    "| --- | --- | --- | --- | --- | --- |\n".toList ++ gs.flatMap (tableLine J)

end Source

/-! ## Reading -/

/-- What stands before the first character of a kind, and the rest. -/
def upTo (stop : Char → Bool) (text : List Char) : List Char × List Char :=
  (text.takeWhile fun c => !stop c, text.dropWhile fun c => !stop c)

/-- Where a tab-separated cell ends. -/
def tsvEnd (c : Char) : Bool := c = '\t' ∨ c = '\n'

/-- A cell of a tab-separated line. -/
def tsvCell (text : List Char) : Option (List Char × List Char) := some (upTo tsvEnd text)

/-- Where a csv field without quotes ends. -/
def csvEnd (c : Char) : Bool := c = ',' ∨ c = '\n'

/-- A quoted field of RFC 4180 after its quote: two quotes stand for one. -/
def csvQuoted : List Char → Option (List Char × List Char)
  | [] => none
  | '"' :: '"' :: text => (csvQuoted text).map fun r => ('"' :: r.1, r.2)
  | '"' :: text => some ([], text)
  | c :: text => (csvQuoted text).map fun r => (c :: r.1, r.2)

/-- A field of RFC 4180: one without quotes holds no quote and no carriage return. -/
def csvCell : List Char → Option (List Char × List Char)
  | '"' :: text => csvQuoted text
  | text =>
    if '"' ∈ (upTo csvEnd text).1 ∨ '\r' ∈ (upTo csvEnd text).1 then none
    else some (upTo csvEnd text)

/-- The text of a table cell: up to a bar that is not escaped. -/
def tableText : List Char → List Char × List Char
  | [] => ([], [])
  | '\\' :: '|' :: text => ('|' :: (tableText text).1, (tableText text).2)
  | c :: text =>
    if c = '|' ∨ c = '\n' then ([], c :: text) else (c :: (tableText text).1, (tableText text).2)

/-- A table cell without the blanks around it; nothing stands outside the outer bars. -/
def tableCell (text : List Char) : Option (Option (List Char) × List Char) :=
  match tableText text with
  | ([], rest) => some (none, rest)
  | (' ' :: v, rest) => if v.getLast? = some ' ' then some (some v.dropLast, rest) else none
  | _ => none

/-! ## Grains with string fields -/

/-- A grain whose fields are strings. -/
structure TextGrain where
  hash : Hash
  grainType : GrainType
  fields : List (String × String)

namespace TextGrain

/-- The grain as a query answers it. -/
def result (g : TextGrain) : GrainResult :=
  ⟨g.hash.toHex, g.grainType.asStr, g.fields.map fun f => (f.1, .str f.2)⟩

/-- A field of a grain. -/
def field (g : TextGrain) (f : String) : Option (List Char) := (g.fields.lookup f).map String.toList

/-- What a triple says of a grain. -/
def triple (g : TextGrain) : List (List Char) :=
  ["subject", "relation", "object"].map fun f => (g.field f).getD ['_']

/-- What a csv record says of a grain. -/
def csvRecord (g : TextGrain) : List (List Char) :=
  g.hash.toHex.toList :: g.grainType.asStr.toList :: shownFields.map fun f => (g.field f).getD []

/-- What a table row says of a grain. -/
def tableRecord (g : TextGrain) : List (List Char) :=
  g.hash.toHex.toList.take 8 :: g.grainType.asStr.toList ::
    shownFields.map fun f => (g.field f).getD []

theorem jsonField_result (g : TextGrain) (f : String) :
    jsonField g.result f = (g.fields.lookup f).map Json.str := by
  have hlookup : ∀ fields : List (String × String),
      (fields.map fun f => (f.1, Json.str f.2)).lookup f = (fields.lookup f).map Json.str := by
    intro fields
    induction fields with
    | nil => rfl
    | cons x fields ih =>
      rw [List.map_cons, List.lookup_cons, List.lookup_cons, ih]
      cases f == x.1 <;> rfl
  exact hlookup g.fields

theorem strField_result (g : TextGrain) (f : String) : strField g.result f = g.field f := by
  rw [strField, jsonField_result, field]
  cases g.fields.lookup f <;> rfl

theorem getField_result {J : Shown} {escape : List Char → List Char} (hnil : escape [] = [])
    (g : TextGrain) (f : String) : getField J escape g.result f = escape ((g.field f).getD []) := by
  rw [getField, jsonField_result, field]
  cases g.fields.lookup f with
  | none => exact hnil.symm
  | some s => rfl

/-- The words of a grain that are no field hold letters and digits. -/
theorem isAlphanum_hash (g : TextGrain) {c : Char} (hc : c ∈ g.hash.toHex.toList) :
    c.isAlphanum = true := by
  have hdigit : ∀ n < 16, (hexDigit n).isAlphanum = true := by decide
  rw [Hash.toHex, String.toList_ofList, hexEncode, List.mem_flatMap] at hc
  obtain ⟨x, -, hx⟩ := hc
  have hlt := x.toNat_lt
  rw [List.mem_cons, List.mem_singleton] at hx
  rcases hx with rfl | rfl <;> exact hdigit _ (by omega)

theorem isAlphanum_grainType (g : TextGrain) {c : Char} (hc : c ∈ g.grainType.asStr.toList) :
    c.isAlphanum = true := by
  have hall : ∀ ty : GrainType, (ty.asStr.toList.all Char.isAlphanum) = true := by
    intro ty
    cases ty <;> decide +kernel
  exact List.all_eq_true.1 (hall g.grainType) c hc

end TextGrain

/-! ## Cells that read -/

theorem upTo_append {stop : Char → Bool} {v : List Char} (hv : ∀ c ∈ v, stop c = false)
    {d : Char} (hd : stop d = true) (rest : List Char) :
    upTo stop (v ++ d :: rest) = (v, d :: rest) := by
  unfold upTo
  rw [List.takeWhile_append_of_pos (by simpa using hv),
    List.dropWhile_append_of_pos (by simpa using hv),
    List.takeWhile_cons_of_neg (by simp [hd]), List.dropWhile_cons_of_neg (by simp [hd]),
    List.append_nil]

theorem upTo_fst {stop : Char → Bool} {text : List Char} {c : Char} (hc : c ∈ (upTo stop text).1) :
    stop c = false := by
  simpa using List.mem_takeWhile_imp hc

theorem replace_single (x : Char) (rep : List Char) (s : List Char) :
    replace [x] rep s = s.flatMap fun c => if c = x then rep else [c] := by
  induction s with
  | nil => rfl
  | cons c s ih =>
    rw [List.flatMap_cons, ← ih]
    by_cases hc : c = x
    · subst hc
      have h : replace [c] rep ([c] ++ s) = rep ++ replace [c] rep s :=
        replace_prefix (List.cons_ne_nil _ _)
      simpa using h
    · rw [replace_cons (by simpa [List.cons_prefix_cons] using fun h => hc h.symm), if_neg hc]
      rfl

/-- A cell of which the reader takes what stands before its end. -/
theorem tsvCell_cases (v : List Char) :
    (ReadsCell tsvCell '\t' (v, v) ∧ '\t' ∉ v ∧ '\n' ∉ v) ∨
      (MisreadsCell tsvCell '\t' (v, v) ∧ ¬ ('\t' ∉ v ∧ '\n' ∉ v)) := by
  by_cases h : '\t' ∉ v ∧ '\n' ∉ v
  · refine .inl ⟨fun d hd rest => ?_, h⟩
    refine congrArg some (upTo_append (fun c hc => ?_) (decide_eq_true hd) rest)
    refine decide_eq_false fun hend => ?_
    rcases hend with rfl | rfl
    · exact h.1 hc
    · exact h.2 hc
  · refine .inr ⟨fun d hd rest w rest' hread hw => h ?_, h⟩
    have hfst : v = (upTo tsvEnd (v ++ d :: rest)).1 :=
      hw.symm.trans (congrArg Prod.fst (Option.some.inj hread)).symm
    have hstop : ∀ c ∈ v, ¬(c = '\t' ∨ c = '\n') := by
      intro c hc
      rw [hfst] at hc
      exact of_decide_eq_false (upTo_fst hc)
    exact ⟨fun hc => hstop _ hc (.inl rfl), fun hc => hstop _ hc (.inr rfl)⟩

theorem csvQuoted_escape (v : List Char) {d : Char} (hd : d ≠ '"') (rest : List Char) :
    csvQuoted (replace ['"'] ['"', '"'] v ++ '"' :: d :: rest) = some (v, d :: rest) := by
  rw [replace_single]
  induction v with
  | nil =>
    rw [List.flatMap_nil, List.nil_append, csvQuoted]
    intro text htext
    exact hd (List.cons.inj htext).1
  | cons c v ih =>
    rw [List.flatMap_cons]
    by_cases hc : c = '"'
    · subst hc
      rw [if_pos rfl, List.append_assoc]
      show (csvQuoted (List.flatMap _ v ++ _)).map _ = _
      rw [ih]
      rfl
    · rw [if_neg hc, List.singleton_append, List.cons_append, csvQuoted]
      · rw [ih]
        rfl
      · exact fun text heq _ => hc heq
      · exact hc

/-- A csv field that is read: a carriage return is quoted only with one of the characters
that ask for quotes. -/
def CsvSafe (v : List Char) : Prop := '\r' ∈ v → ',' ∈ v ∨ '"' ∈ v ∨ '\n' ∈ v

theorem csvCell_cases (v : List Char) :
    (ReadsCell csvCell ',' (v, csvEscape v) ∧ CsvSafe v) ∨
      (MisreadsCell csvCell ',' (v, csvEscape v) ∧ ¬ CsvSafe v) := by
  by_cases hquote : ',' ∈ v ∨ '"' ∈ v ∨ '\n' ∈ v
  · refine .inl ⟨fun d hd rest => ?_, fun _ => hquote⟩
    have hd' : d ≠ '"' := by
      rcases hd with rfl | rfl <;> decide
    show csvCell (csvEscape v ++ d :: rest) = some (v, d :: rest)
    rw [csvEscape, if_pos hquote, List.append_assoc, List.cons_append]
    exact csvQuoted_escape v hd' rest
  · have hraw : csvEscape v = v := if_neg hquote
    simp only [not_or] at hquote
    have hplain : ∀ d, d = ',' ∨ d = '\n' → ∀ rest, csvCell (v ++ d :: rest) =
        if '"' ∈ v ∨ '\r' ∈ v then none else some (v, d :: rest) := by
      intro d hd rest
      have hup : upTo csvEnd (v ++ d :: rest) = (v, d :: rest) := by
        have hstop : csvEnd d = true := decide_eq_true hd
        refine upTo_append (fun c hc => ?_) hstop rest
        refine decide_eq_false fun hend => ?_
        rcases hend with rfl | rfl
        · exact hquote.1 hc
        · exact hquote.2.2 hc
      have hcell : csvCell (v ++ d :: rest) =
          if '"' ∈ (upTo csvEnd (v ++ d :: rest)).1 ∨ '\r' ∈ (upTo csvEnd (v ++ d :: rest)).1
          then none else some (upTo csvEnd (v ++ d :: rest)) := by
        cases v with
        | nil => rcases hd with rfl | rfl <;> rfl
        | cons c v =>
          rw [List.cons_append, csvCell]
          intro text heq
          refine hquote.2.1 ?_
          rw [(List.cons.inj heq).1]
          exact List.mem_cons_self
      rw [hcell, hup]
    by_cases hcr : '\r' ∈ v
    · refine .inr ⟨fun d hd rest w rest' hread => ?_, fun hsafe => ?_⟩
      · rw [hraw, hplain d hd rest, if_pos (.inr hcr)] at hread
        exact nomatch hread
      · rcases hsafe hcr with h | h | h
        · exact hquote.1 h
        · exact hquote.2.1 h
        · exact hquote.2.2 h
    · refine .inl ⟨fun d hd rest => ?_, fun h => absurd h hcr⟩
      show csvCell (csvEscape v ++ d :: rest) = some (v, d :: rest)
      rw [hraw, hplain d hd rest, if_neg (not_or.2 ⟨hquote.2.1, hcr⟩)]

theorem tableText_escape (v : List Char) (hv : '\n' ∉ v) {d : Char} (hd : d = '|' ∨ d = '\n')
    (rest : List Char) :
    tableText (tableEscape v ++ ' ' :: d :: rest) = (v ++ [' '], d :: rest) := by
  have hend : tableText (' ' :: d :: rest) = ([' '], d :: rest) := by
    rw [tableText, if_neg (by decide), tableText, if_pos hd]
    · rcases hd with rfl | rfl <;> simp
    · simp
  unfold tableEscape
  rw [replace_single]
  -- what is written begins with no bar, so a backslash before it stands for itself
  have hbar : ∀ (v text : List Char), (v.flatMap fun c => if c = '|' then ['\\', '|'] else [c]) ++
      ' ' :: d :: rest ≠ '|' :: text := by
    intro v text heq
    cases v with
    | nil => exact absurd (List.cons.inj heq).1 (by decide)
    | cons c v =>
      rw [List.flatMap_cons] at heq
      by_cases hc : c = '|'
      · rw [if_pos hc] at heq
        exact absurd (List.cons.inj heq).1 (by decide)
      · rw [if_neg hc] at heq
        exact hc (List.cons.inj heq).1
  induction v with
  | nil => exact hend
  | cons c v ih =>
    rw [List.mem_cons, not_or] at hv
    have hrest := ih hv.2
    rw [List.flatMap_cons]
    by_cases hc : c = '|'
    · subst hc
      rw [if_pos rfl, List.append_assoc]
      show ('|' :: (tableText (List.flatMap _ v ++ _)).1, (tableText (List.flatMap _ v ++ _)).2) = _
      rw [hrest]
      rfl
    · rw [if_neg hc, List.singleton_append, List.cons_append, tableText, if_neg, hrest]
      · rfl
      · exact not_or.2 ⟨hc, fun h => hv.1 h.symm⟩
      · exact fun text _ heq => hbar v text heq

/-- What a table cell is written as. -/
def tableWritten (v : List Char) : List Char := ' ' :: tableEscape v ++ [' ']

theorem tableText_stops {text v rest : List Char} (h : tableText text = (v, rest)) :
    '\n' ∉ v := by
  induction text using tableText.induct generalizing v rest with
  | case1 =>
    cases h
    exact List.not_mem_nil
  | case2 text ih =>
    rw [tableText] at h
    cases h
    rw [List.mem_cons, not_or]
    exact ⟨by decide, ih rfl⟩
  | case3 c text hno hend =>
    rw [tableText, if_pos hend] at h
    · cases h
      exact List.not_mem_nil
    · exact hno
  | case4 c text hno hend ih =>
    rw [tableText, if_neg hend] at h
    · cases h
      rw [List.mem_cons, not_or]
      exact ⟨fun heq => hend (.inr heq.symm), ih rfl⟩
    · exact hno

theorem tableCell_cases (v : List Char) :
    (ReadsCell tableCell '|' (some v, tableWritten v) ∧ '\n' ∉ v) ∨
      (MisreadsCell tableCell '|' (some v, tableWritten v) ∧ ¬ '\n' ∉ v) := by
  by_cases hv : '\n' ∉ v
  · refine .inl ⟨fun d hd rest => ?_, hv⟩
    have htext : tableText (tableWritten v ++ d :: rest) = (' ' :: (v ++ [' ']), d :: rest) := by
      have hrest := tableText_escape v hv hd rest
      have hwritten : tableWritten v ++ d :: rest =
          ' ' :: (tableEscape v ++ ' ' :: d :: rest) := by
        simp [tableWritten]
      rw [hwritten, tableText, if_neg (by decide), hrest]
      exact fun text heq => absurd heq (by decide)
    show tableCell (tableWritten v ++ d :: rest) = some (some v, d :: rest)
    rw [tableCell, htext]
    simp
  · refine .inr ⟨fun d hd rest w rest' hread hw => hv ?_, hv⟩
    change tableCell (tableWritten v ++ d :: rest) = some (w, rest') at hread
    rw [tableCell] at hread
    rcases htext : tableText (tableWritten v ++ d :: rest) with ⟨u, after⟩
    have hstops := tableText_stops htext
    rw [htext] at hread
    rw [show w = some v from hw] at hread
    split at hread
    · cases hread
    · next u' after' heq =>
      cases heq
      split_ifs at hread with hlast
      cases hread
      intro hmem
      exact hstops (List.mem_cons_of_mem _ (List.mem_of_mem_dropLast hmem))
    · cases hread

theorem tableCell_edge : ReadsCell tableCell '|' (none, []) := by
  intro d hd rest
  show tableCell (d :: rest) = some (none, d :: rest)
  have htext : tableText (d :: rest) = ([], d :: rest) := by
    rw [tableText, if_pos hd]
    exact fun text heq _ => by rcases hd with rfl | rfl <;> exact absurd heq (by decide)
  rw [tableCell, htext]

/-! ## The formats -/

namespace TextGrain

variable {J : Shown}

/-- The cells of a triple, as they are written. -/
def tripleCells (g : TextGrain) : List (List Char × List Char) := g.triple.map fun v => (v, v)

/-- The cells of a csv line, as they are written. -/
def csvCells (record : List (List Char)) : List (List Char × List Char) :=
  record.map fun v => (v, csvEscape v)

/-- A row of a table: nothing stands outside its outer bars. -/
def barred (record : List (List Char)) : List (Option (List Char)) :=
  none :: record.map some ++ [none]

/-- The cells of a table line, as they are written. -/
def tableCells (record : List (List Char)) : List (Option (List Char) × List Char) :=
  (none, []) :: (record.map fun v => (some v, tableWritten v)) ++ [(none, [])]

end TextGrain

open TextGrain

theorem renderTriples_eq (gs : List TextGrain) : renderTriples (gs.map TextGrain.result) =
    write '\t' (gs.map TextGrain.tripleCells) := by
  unfold renderTriples write
  rw [List.flatMap_map, List.flatMap_map]
  refine List.flatMap_congr fun g _ => ?_
  simp [tripleLine, TextGrain.strField_result, TextGrain.tripleCells, TextGrain.triple, writeRow]

/-- **`FORMAT triples` reads back exactly where no field of a triple holds a tab or a line
feed.** -/
theorem triples_read_iff (gs : List TextGrain) :
    read tsvCell '\t' (renderTriples (gs.map TextGrain.result)) = some (gs.map TextGrain.triple) ↔
      ∀ g ∈ gs, ∀ v ∈ g.triple, '\t' ∉ v ∧ '\n' ∉ v := by
  have hvalues : gs.map TextGrain.triple = (gs.map TextGrain.tripleCells).map values := by
    rw [List.map_map]
    refine List.map_congr_left fun g _ => ?_
    simp [values, TextGrain.tripleCells, Function.comp_def]
  rw [renderTriples_eq, hvalues, read_write_iff (by decide)]
  · simp only [List.forall_mem_map, TextGrain.tripleCells]
    refine forall₄_congr fun g _ v _ => ?_
    rcases tsvCell_cases v with ⟨hreads, hsafe⟩ | ⟨hmis, hsafe⟩
    · exact iff_of_true hreads hsafe
    · exact iff_of_false (fun h => h.not_misreads hmis) hsafe
  · intro row hrow
    obtain ⟨g, -, rfl⟩ := List.mem_map.1 hrow
    refine ⟨by simp [TextGrain.tripleCells, TextGrain.triple], fun c hc => ?_⟩
    obtain ⟨v, -, rfl⟩ := List.mem_map.1 hc
    exact (tsvCell_cases v).imp And.left And.left

/-- Letters and digits are not escaped. -/
theorem csvEscape_word {v : List Char} (hv : ∀ c ∈ v, c.isAlphanum = true) : csvEscape v = v := by
  refine if_neg fun h => ?_
  rcases h with h | h | h <;> exact absurd (hv _ h) (by decide)

theorem tableEscape_word {v : List Char} (hv : ∀ c ∈ v, c.isAlphanum = true) :
    tableEscape v = v := by
  unfold tableEscape
  rw [replace_single]
  induction v with
  | nil => rfl
  | cons c v ih =>
    rw [List.forall_mem_cons] at hv
    have hc : c ≠ '|' := by
      rintro rfl
      exact absurd hv.1 (by decide)
    rw [List.flatMap_cons, if_neg hc, ih hv.2]
    rfl

theorem renderCsv_eq (J : Shown) (gs : List TextGrain) : renderCsv J (gs.map TextGrain.result) =
    write ',' ((columns :: gs.map TextGrain.csvRecord).map csvCells) := by
  have hheader : "hash,grain_type,subject,relation,object,confidence\n".toList =
      writeRow ',' (csvCells columns) := by decide +kernel
  have hnil : csvEscape [] = [] := rfl
  unfold renderCsv write
  rw [List.map_cons, List.flatMap_cons, ← hheader, List.flatMap_map, List.map_map,
    List.flatMap_map]
  refine congrArg _ (List.flatMap_congr fun g _ => ?_)
  have hhash := csvEscape_word fun c => g.isAlphanum_hash
  have htype := csvEscape_word fun c => g.isAlphanum_grainType
  simp only [csvLine, getField_result hnil, Function.comp_apply, csvCells, csvRecord, shownFields,
    List.map_cons, List.map_nil, writeRow, hhash, htype]
  simp [TextGrain.result]

/-- **`FORMAT csv` reads back exactly where every carriage return is in a field that is
quoted** for another character. -/
theorem csv_read_iff (J : Shown) (gs : List TextGrain) :
    read csvCell ',' (renderCsv J (gs.map TextGrain.result)) =
        some (columns :: gs.map TextGrain.csvRecord) ↔
      ∀ g ∈ gs, ∀ v ∈ g.csvRecord, CsvSafe v := by
  have hvalues : ∀ rows : List (List (List Char)), (rows.map csvCells).map values = rows := by
    intro rows
    rw [List.map_map]
    refine (List.map_congr_left fun row _ => ?_).trans (List.map_id rows)
    simp [values, csvCells, Function.comp_def]
  have hcolumns : ∀ v ∈ columns, CsvSafe v := by
    unfold CsvSafe
    decide +kernel
  have hcell : ∀ v, ReadsCell csvCell ',' (v, csvEscape v) ↔ CsvSafe v := by
    intro v
    rcases csvCell_cases v with ⟨hreads, hsafe⟩ | ⟨hmis, hsafe⟩
    · exact iff_of_true hreads hsafe
    · exact iff_of_false (fun h => h.not_misreads hmis) hsafe
  have hrows : ∀ row ∈ (columns :: gs.map TextGrain.csvRecord).map csvCells, row ≠ [] ∧
      ∀ c ∈ row, ReadsCell csvCell ',' c ∨ MisreadsCell csvCell ',' c := by
    intro row hrow
    obtain ⟨record, hrecord, rfl⟩ := List.mem_map.1 hrow
    refine ⟨?_, fun c hc => ?_⟩
    · rcases List.mem_cons.1 hrecord with rfl | hrecord
      · exact List.cons_ne_nil _ _
      · obtain ⟨g, -, rfl⟩ := List.mem_map.1 hrecord
        exact List.cons_ne_nil _ _
    · obtain ⟨v, -, rfl⟩ := List.mem_map.1 hc
      exact (csvCell_cases v).imp And.left And.left
  have hread := read_write_iff (by decide) hrows
  rw [hvalues] at hread
  rw [renderCsv_eq, hread]
  simp only [List.map_cons, List.forall_mem_cons, List.forall_mem_map, csvCells, hcell]
  exact and_iff_right hcolumns

/-- The row that rules off the header. -/
def tableRule : List (List Char) := columns.map fun _ => ['-', '-', '-']

theorem renderTable_eq (J : Shown) (gs : List TextGrain) : renderTable J (gs.map TextGrain.result) =
    write '|' ((columns :: tableRule :: gs.map TextGrain.tableRecord).map tableCells) := by
  have hheader : "| hash | grain_type | subject | relation | object | confidence |\n".toList =
      writeRow '|' (tableCells columns) := by decide +kernel
  have hrule : "| --- | --- | --- | --- | --- | --- |\n".toList =
      writeRow '|' (tableCells tableRule) := by decide +kernel
  have hnil : tableEscape [] = [] := rfl
  unfold renderTable write
  rw [List.map_cons, List.map_cons, List.flatMap_cons, List.flatMap_cons, ← hheader, ← hrule,
    List.append_assoc, List.flatMap_map, List.map_map, List.flatMap_map]
  refine congrArg _ (congrArg _ (List.flatMap_congr fun g _ => ?_))
  have hhash := tableEscape_word (v := g.hash.toHex.toList.take 8) fun c hc =>
    g.isAlphanum_hash (List.mem_of_mem_take hc)
  have htype := tableEscape_word fun c => g.isAlphanum_grainType
  simp only [tableLine, getField_result hnil, Function.comp_apply, tableCells, tableRecord,
    shownFields, List.map_cons, List.map_nil, tableWritten, hhash, htype]
  simp [TextGrain.result, writeRow]

/-- **`FORMAT table` reads back exactly where no field holds a line feed.** -/
theorem table_read_iff (J : Shown) (gs : List TextGrain) :
    read tableCell '|' (renderTable J (gs.map TextGrain.result)) =
        some ((columns :: tableRule :: gs.map TextGrain.tableRecord).map barred) ↔
      ∀ g ∈ gs, ∀ v ∈ g.tableRecord, '\n' ∉ v := by
  have hvalues : ∀ rows : List (List (List Char)),
      rows.map barred = (rows.map tableCells).map values := by
    intro rows
    rw [List.map_map]
    refine List.map_congr_left fun row _ => ?_
    simp [values, tableCells, barred, Function.comp_def]
  have hcolumns : ∀ v ∈ columns, '\n' ∉ v := by decide +kernel
  have hrule : ∀ v ∈ tableRule, '\n' ∉ v := by decide +kernel
  rw [renderTable_eq, hvalues, read_write_iff (by decide)]
  · have hcell : ∀ v, ReadsCell tableCell '|' (some v, tableWritten v) ↔ '\n' ∉ v := by
      intro v
      rcases tableCell_cases v with ⟨hreads, hsafe⟩ | ⟨hmis, hsafe⟩
      · exact iff_of_true hreads hsafe
      · exact iff_of_false (fun h => h.not_misreads hmis) hsafe
    have hrow : ∀ record : List (List Char), (∀ c ∈ tableCells record, ReadsCell tableCell '|' c) ↔
        ∀ v ∈ record, '\n' ∉ v := by
      intro record
      simp only [tableCells, List.cons_append, List.forall_mem_cons, List.forall_mem_append,
        List.forall_mem_map, List.not_mem_nil, false_imp_iff, implies_true, hcell, tableCell_edge,
        true_and, and_true]
    simp only [List.map_cons, List.forall_mem_cons, List.forall_mem_map, hrow]
    exact (and_iff_right hcolumns).trans (and_iff_right hrule)
  · intro row hrow
    obtain ⟨record, -, rfl⟩ := List.mem_map.1 hrow
    refine ⟨List.cons_ne_nil _ _, fun c hc => ?_⟩
    simp only [tableCells, List.mem_append, List.mem_cons, List.mem_map, List.not_mem_nil,
      or_false] at hc
    rcases hc with (rfl | ⟨v, -, rfl⟩) | rfl
    · exact .inl tableCell_edge
    · exact (tableCell_cases v).imp And.left And.left
    · exact .inl tableCell_edge

end Deja.Cal

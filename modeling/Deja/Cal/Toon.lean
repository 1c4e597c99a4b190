import Deja.Authz.Grant
import Deja.Cal.Formats
import Deja.Cal.Section

/-!
# Grains as TOON

`FORMAT toon` writes a section for each type of grain: a header with the number of its
rows and the columns, and a row a grain.  A string is quoted if it holds a character that
means something to TOON, but not if it looks like a number.
-/

namespace Deja.Cal

open Delimited Text

/-! ## Writing -/

/-- Whether `toon_escape_simple` quotes a string that is not empty. -/
def needsQuoting (s : List Char) : Bool :=
  s != Deja.Authz.trim s || s = "true".toList || s = "false".toList || s = "null".toList ||
    [':', '"', '\\', '[', ']', openBrace, closeBrace, ',', '\n', '\r', '\t'].any (s.contains ·) ||
    s.head? = some '-'

/-- The escapes of a quoted string, applied one after the other. -/
def toonQuoted (s : List Char) : List Char :=
  replace ['\t'] ['\\', 't'] (replace ['\r'] ['\\', 'r'] (replace ['\n'] ['\\', 'n']
    (replace ['"'] ['\\', '"'] (replace ['\\'] ['\\', '\\'] s))))

/-- `toon_escape_simple`: a string that needs no quotes stands as it is, whether it looks
like a number or not. -/
def toonEscape (s : List Char) : List Char :=
  if s = [] then ['"', '"'] else if needsQuoting s then '"' :: toonQuoted s ++ ['"'] else s

/-- `toon_plural_name`. -/
def toonPlural : GrainType → String
  | .fact => "facts" | .event => "events" | .state => "states" | .workflow => "workflows"
  | .tool => "tools" | .observation => "observations" | .goal => "goals"
  | .reasoning => "reasonings" | .consensus => "consensuses" | .consent => "consents"
  | .skill => "skills" | .recommendation => "recommendations"

/-- `toon_columns_for_type`. -/
def toonColumns : GrainType → List String
  | .fact => ["subject", "content", "confidence"]
  | .event => ["role", "time", "content"]
  | .state => ["context", "content"]
  | .workflow => ["trigger", "content"]
  | .tool => ["tool", "phase", "content"]
  | .observation => ["observer", "content"]
  | .goal => ["subject", "content", "state"]
  | .reasoning => ["type", "content"]
  | .consensus => ["threshold", "count", "content"]
  | .consent => ["grantor", "grantee", "action", "content"]
  | .skill => ["name", "domain", "proficiency"]
  | .recommendation => ["target_ref", "severity", "content"]

/-- A column of a row: a string to escape, or text as it stands. -/
inductive ToonCell where
  | text (s : String)
  | raw (s : String)

section Row

variable (J : Shown) (fields : List (String × Json))

/-- `get_str`, or what stands for a string that is missing. -/
def strOr (f other : String) : String := ((fields.lookup f).bind Json.asStr).getD other

/-- The string in the first of two fields that is there. -/
def firstStr (f f' other : String) : String :=
  (((fields.lookup f).or (fields.lookup f')).bind Json.asStr).getD other

/-- `get_f64`, as `toon_canonicalize` writes it. -/
def numberText (f : String) : String :=
  match fields.lookup f with
  | some (.int i) => J.number (.int i)
  | some (.float x) => J.number (.float x)
  | _ => ""

/-- Whether a field is `true`. -/
def flag (f : String) : Bool := ((fields.lookup f).bind Json.asBool).getD false

/-- The length of an array. -/
def arrayLen (f : String) : ℕ := (((fields.lookup f).bind Json.asArray).map List.length).getD 0

/-- One of two strings, and both with something between. -/
def joined (s mid t : String) : String :=
  if s ≠ "" ∧ t ≠ "" then s ++ mid ++ t else if t ≠ "" then t else s

/-- The arguments of a summary, sorted. -/
def summaryArgs : String :=
  match (((fields.lookup "summary").bind (Json.get · "args"))) with
  | some (.obj args) => "; ".intercalate ((args.map fun a =>
      a.1 ++ "=" ++ match a.2 with
        | .str t => t
        | v => J.display v).mergeSort fun a b => decide (a ≤ b))
  | _ => ""

/-- `toon_row_from_fields` for a type of the registry. -/
def toonRow : GrainType → List ToonCell
  | .fact =>
    [.text (strOr fields "subject" ""),
      .text (joined (strOr fields "relation" "") " " (strOr fields "object" "")),
      .raw (numberText J fields "confidence")]
  | .event =>
    [.text (firstStr fields "role" "speaker" "user"), .text (strOr fields "created_at" ""),
      .text (strOr fields "content" "")]
  | .goal =>
    [.text (strOr fields "subject" (strOr fields "description" "")),
      .text (strOr fields "description" ""), .text (firstStr fields "goal_state" "state" "active")]
  | .tool =>
    [.text (strOr fields "tool_name" "unknown"),
      .text (if flag fields "is_error" then "fail" else "ok"),
      .text (firstStr fields "tool_content" "content" "")]
  | .observation =>
    [.text (strOr fields "observer_id" "?"),
      .text (joined (strOr fields "subject" "") ": " (strOr fields "object" ""))]
  | .reasoning =>
    let method := strOr fields "inference_method" ""
    [.text (if method = "" then "reasoning" else method), .text (strOr fields "conclusion" "")]
  | .state =>
    let data := (fields.lookup "context_data").bind fun v =>
      ((v.get "label").or (v.get "description")).or (v.get "title")
    let context := (data.bind Json.asStr).getD "state"
    [.text context, .text context]
  | .workflow =>
    [.text (strOr fields "trigger" ""),
      .text (toString (arrayLen fields "nodes") ++ " nodes, " ++
        toString (arrayLen fields "edges") ++ " edges")]
  | .consensus =>
    let threshold := strOr fields "threshold" ""
    let count := ((fields.lookup "agreement_count").bind Json.asI64).getD 0
    [.text (if threshold = "" then "-" else threshold), .raw (toString count),
      .text (strOr fields "agreed_content" "")]
  | .consent =>
    [.text (strOr fields "subject_did" ""), .text (strOr fields "grantee_did" ""),
      .text (if flag fields "is_withdrawal" then "withdraws" else "grants"),
      .text (strOr fields "scope" "")]
  | .skill =>
    [.text (strOr fields "name" ""), .text (strOr fields "domain" ""),
      .text (numberText J fields "proficiency")]
  | .recommendation =>
    let severity := strOr fields "severity" ""
    [.text (strOr fields "target_ref" ""), .text (if severity = "" then "info" else severity),
      .text (summaryArgs J fields)]

/-- A value as text, a string without its quotes. -/
def shown : Json → String
  | .str s => s
  | v => J.display v

end Row

/-- The type of a name of the registry. -/
def typeOf (name : String) : Option GrainType := GrainType.all.find? fun ty => ty.asStr = name

/-- `toon_row_from_fields`: all fields of a grain without a type of the registry. -/
def toonCells (J : Shown) (g : GrainResult) : List ToonCell :=
  match typeOf g.grainType with
  | some ty => toonRow J g.fields ty
  | none => g.fields.map fun f => .text (shown J f.2)

/-- A column as it is written. -/
def ToonCell.written : ToonCell → List Char
  | .text s => toonEscape s.toList
  | .raw s => s.toList

/-- A grain under its type, as in a `BTreeMap` of lists. -/
def insertGroup (g : GrainResult) :
    List (String × List GrainResult) → List (String × List GrainResult)
  | [] => [(g.grainType, [g])]
  | (k, members) :: groups =>
    if g.grainType = k then (k, members ++ [g]) :: groups
    else if g.grainType < k then (g.grainType, [g]) :: (k, members) :: groups
    else (k, members) :: insertGroup g groups

/-- The grains of each type, the types in order. -/
def typeGroups (gs : List GrainResult) : List (String × List GrainResult) :=
  gs.foldl (fun groups g => insertGroup g groups) []

/-- The header of a section. -/
def toonHeader (k : String) (n : ℕ) : List Char :=
  let plural := ((typeOf k).map toonPlural).getD k
  let columns := ((typeOf k).map toonColumns).getD ["content"]
  plural.toList ++ '[' :: (toString n).toList ++ ']' :: openBrace ::
    [','].intercalate (columns.map String.toList) ++ [closeBrace, ':']

/-- A section: its header and a row a grain. -/
def toonSection (J : Shown) (group : String × List GrainResult) : List Char :=
  toonHeader group.1 group.2.length ++
    group.2.flatMap fun g => '\n' :: [','].intercalate ((toonCells J g).map ToonCell.written)

/-- `FORMAT toon`. -/
def renderToon (J : Shown) (gs : List GrainResult) : List Char :=
  ['\n', '\n'].intercalate ((typeGroups gs).map (toonSection J))

/-! ## Reading -/

/-- Digits that end a number, after a sign or not. -/
def digitsEnd (s : List Char) : Bool := !s.isEmpty && s.all Char.isDigit

/-- The exponent of a number, if there is one. -/
def exponentEnd : List Char → Bool
  | [] => true
  | c :: s =>
    (c = 'e' || c = 'E') &&
      match s with
      | '+' :: s => digitsEnd s
      | '-' :: s => digitsEnd s
      | s => digitsEnd s

/-- The number tokens of TOON: those of JSON. -/
def isNumeric (s : List Char) : Bool :=
  let s := if s.head? = some '-' then s.tail else s
  let whole := s.takeWhile Char.isDigit
  (whole = ['0'] || (!whole.isEmpty && whole.head? != some '0')) &&
    match s.dropWhile Char.isDigit with
    | '.' :: r => !(r.takeWhile Char.isDigit).isEmpty && exponentEnd (r.dropWhile Char.isDigit)
    | r => exponentEnd r

/-- What a cell is read as. -/
inductive ToonValue where
  | absent
  | keyword (s : List Char)
  | number (s : List Char)
  | str (s : List Char)
  deriving DecidableEq

/-- A cell without quotes. -/
def bareValue (s : List Char) : ToonValue :=
  if s = [] then .absent
  else if s = "true".toList ∨ s = "false".toList ∨ s = "null".toList then .keyword s
  else if isNumeric s then .number s
  else .str s

/-- A quoted string after its quote. -/
def unquote : List Char → Option (List Char × List Char)
  | [] => none
  | '"' :: text => some ([], text)
  | '\\' :: '\\' :: text => (unquote text).map fun r => ('\\' :: r.1, r.2)
  | '\\' :: '"' :: text => (unquote text).map fun r => ('"' :: r.1, r.2)
  | '\\' :: 'n' :: text => (unquote text).map fun r => ('\n' :: r.1, r.2)
  | '\\' :: 'r' :: text => (unquote text).map fun r => ('\r' :: r.1, r.2)
  | '\\' :: 't' :: text => (unquote text).map fun r => ('\t' :: r.1, r.2)
  | c :: text => (unquote text).map fun r => (c :: r.1, r.2)

/-- A cell: whether it is quoted, and its value. -/
def toonCell : List Char → Option ((Bool × ToonValue) × List Char)
  | '"' :: text => (unquote text).map fun r => ((true, .str r.1), r.2)
  | text => some ((false, bareValue (upTo csvEnd text).1), (upTo csvEnd text).2)

/-- A line that opens a section ends in a colon outside quotes. -/
def isHeader (row : List (Bool × ToonValue)) : Bool :=
  match row.getLast? with
  | some (false, .str s) => s.getLast? = some ':'
  | _ => false

/-- A section as it is read: the values of its header and of its rows. -/
abbrev ToonSection := List ToonValue × List (List ToonValue)

/-- The sections of a text: a section ends at a blank line. -/
def sections : List (List (Bool × ToonValue)) → List ToonSection
  | [] => []
  | row :: rows =>
    if isHeader row then
      (row.map Prod.snd, (rows.takeWhile fun r => !isHeader r && r ≠ [(false, .absent)]).map
        (·.map Prod.snd)) :: sections rows
    else sections rows

/-- A document. -/
def readToon (text : List Char) : Option (List ToonSection) :=
  if text = [] then some [] else (read toonCell ',' (text ++ ['\n'])).map sections

/-- The value a column stands for. -/
def ToonCell.value : ToonCell → ToonValue
  | .text s => .str s.toList
  | .raw s => bareValue s.toList

/-- The cells of a header. -/
def headerCells (k : String) (n : ℕ) : List (List Char) :=
  let plural := ((typeOf k).map toonPlural).getD k
  let columns := ((typeOf k).map toonColumns).getD ["content"]
  (plural.toList ++ '[' :: (toString n).toList ++ [']', openBrace] ++
      (columns.head?.getD "").toList) ::
    columns.tail.dropLast.map String.toList ++
      [(columns.getLast?.getD "").toList ++ [closeBrace, ':']]

/-- What a section says. -/
def sectionValue (J : Shown) (group : String × List GrainResult) : ToonSection :=
  ((headerCells group.1 group.2.length).map bareValue,
    group.2.map fun g => (toonCells J g).map ToonCell.value)

/-! ## Cells -/

/-- What stands for a character of a quoted string. -/
def toonEntity (c : Char) : List Char :=
  if c = '\\' then ['\\', '\\']
  else if c = '"' then ['\\', '"']
  else if c = '\n' then ['\\', 'n']
  else if c = '\r' then ['\\', 'r']
  else if c = '\t' then ['\\', 't']
  else [c]

theorem toonQuoted_eq (s : List Char) : toonQuoted s = s.flatMap toonEntity := by
  unfold toonQuoted
  simp only [replace_single, List.flatMap_assoc]
  refine List.flatMap_congr fun c _ => ?_
  unfold toonEntity
  split_ifs with h₁ h₂ h₃ h₄ h₅
  · decide
  · subst h₂
    decide
  · subst h₃
    decide
  · subst h₄
    decide
  · subst h₅
    decide
  · simp [h₂, h₃, h₄, h₅]

theorem unquote_toonQuoted (s rest : List Char) :
    unquote (toonQuoted s ++ '"' :: rest) = some (s, rest) := by
  rw [toonQuoted_eq]
  induction s with
  | nil => rfl
  | cons c s ih =>
    rw [List.flatMap_cons, List.append_assoc, toonEntity]
    have hnil : ∀ text : List Char, [].append text = text := fun _ => rfl
    split_ifs with h₁ h₂ h₃ h₄ h₅
    · show (unquote _).map (fun r => ('\\' :: r.1, r.2)) = _
      rw [hnil, ih, h₁]
      rfl
    · show (unquote _).map (fun r => ('"' :: r.1, r.2)) = _
      rw [hnil, ih, h₂]
      rfl
    · show (unquote _).map (fun r => ('\n' :: r.1, r.2)) = _
      rw [hnil, ih, h₃]
      rfl
    · show (unquote _).map (fun r => ('\r' :: r.1, r.2)) = _
      rw [hnil, ih, h₄]
      rfl
    · show (unquote _).map (fun r => ('\t' :: r.1, r.2)) = _
      rw [hnil, ih, h₅]
      rfl
    · rw [List.singleton_append, unquote, ih]
      · rfl
      · exact h₂
      all_goals
        intros
        exact absurd ‹c = '\\'› h₁

/-- A string without quotes holds nothing that means something to TOON. -/
theorem needsQuoting_false {s : List Char} (h : needsQuoting s = false) :
    ',' ∉ s ∧ '\n' ∉ s ∧ '"' ∉ s ∧ ':' ∉ s ∧
      ¬(s = "true".toList ∨ s = "false".toList ∨ s = "null".toList) := by
  simp only [needsQuoting, Bool.or_eq_false_iff, List.any_eq_false, List.contains_iff_mem,
    decide_eq_false_iff_not, not_or] at h ⊢
  obtain ⟨⟨⟨⟨⟨-, htrue⟩, hfalse⟩, hnull⟩, hchars⟩, -⟩ := h
  exact ⟨hchars _ (by decide), hchars _ (by decide), hchars _ (by decide), hchars _ (by decide),
    htrue, hfalse, hnull⟩

/-- Text without a separator, a break or a quote is read as it stands. -/
theorem reads_bare {v : List Char} (hcomma : ',' ∉ v) (hbreak : '\n' ∉ v) (hquote : '"' ∉ v) :
    ReadsCell toonCell ',' ((false, bareValue v), v) := by
  intro d hd rest
  have hup : upTo csvEnd (v ++ d :: rest) = (v, d :: rest) := by
    have hstop : csvEnd d = true := decide_eq_true hd
    refine upTo_append (fun c hc => ?_) hstop rest
    refine decide_eq_false fun hend => ?_
    rcases hend with rfl | rfl
    · exact hcomma hc
    · exact hbreak hc
  have hcell : toonCell (v ++ d :: rest) =
      some ((false, bareValue (upTo csvEnd (v ++ d :: rest)).1),
        (upTo csvEnd (v ++ d :: rest)).2) := by
    cases v with
    | nil => rcases hd with rfl | rfl <;> rfl
    | cons c v =>
      rw [List.cons_append, toonCell]
      intro text heq
      refine hquote ?_
      rw [(List.cons.inj heq).1]
      exact List.mem_cons_self
  show toonCell (v ++ d :: rest) = _
  rw [hcell, hup]

namespace ToonCell

/-- What the cell of a column is read as. -/
def found : ToonCell → Bool × ToonValue
  | .text s =>
    if s.toList = [] ∨ needsQuoting s.toList = true then (true, .str s.toList)
    else (false, bareValue s.toList)
  | .raw s => (false, bareValue s.toList)

/-- Text that is not escaped and needs no escape. -/
def Plain : ToonCell → Prop
  | .text _ => True
  | .raw s => ',' ∉ s.toList ∧ '\n' ∉ s.toList ∧ '"' ∉ s.toList

/-- A string that is not read as a number. -/
def Safe : ToonCell → Prop
  | .text s => isNumeric s.toList = true → needsQuoting s.toList = true
  | .raw _ => True

/-- Every cell is read, as the string it is or as the number it looks like. -/
theorem reads_found {c : ToonCell} (hc : c.Plain) :
    ReadsCell toonCell ',' (c.found, c.written) := by
  cases c with
  | raw s => exact reads_bare hc.1 hc.2.1 hc.2.2
  | text s =>
    rw [found, written, toonEscape]
    by_cases hnil : s.toList = []
    · rw [if_pos (.inl hnil), if_pos hnil, hnil]
      intro d hd rest
      rfl
    · by_cases hquote : needsQuoting s.toList = true
      · rw [if_pos (.inr hquote), if_neg hnil, if_pos hquote]
        intro d hd rest
        show toonCell (('"' :: toonQuoted s.toList ++ ['"']) ++ d :: rest) = _
        rw [List.append_assoc, List.cons_append, toonCell, List.singleton_append,
          unquote_toonQuoted]
        rfl
      · rw [if_neg (not_or.2 ⟨hnil, hquote⟩), if_neg hnil, if_neg hquote]
        obtain ⟨hcomma, hbreak, hq, -, -⟩ := needsQuoting_false (Bool.eq_false_iff.2 hquote)
        exact reads_bare hcomma hbreak hq

theorem found_eq_value_iff (c : ToonCell) : c.found.2 = c.value ↔ c.Safe := by
  cases c with
  | raw s => exact iff_of_true rfl trivial
  | text s =>
    rw [found, value, Safe]
    by_cases hquote : s.toList = [] ∨ needsQuoting s.toList = true
    · rw [if_pos hquote]
      refine iff_of_true rfl fun hnum => hquote.resolve_left fun hnil => ?_
      rw [hnil] at hnum
      exact absurd hnum (by decide)
    · rw [if_neg hquote]
      rw [not_or] at hquote
      obtain ⟨-, -, -, -, hkey⟩ := needsQuoting_false (Bool.eq_false_iff.2 hquote.2)
      rw [bareValue, if_neg hquote.1, if_neg hkey]
      by_cases hnum : isNumeric s.toList = true
      · rw [if_pos hnum]
        exact iff_of_false (fun h => nomatch h) fun h => hquote.2 (h hnum)
      · rw [if_neg hnum]
        exact iff_of_true rfl fun h => absurd h hnum

/-- No cell of a row ends a header. -/
theorem found_ne_colon {c : ToonCell} (hc : ∀ s, c = .raw s → ':' ∉ s.toList) {s : List Char}
    (h : c.found = (false, .str s)) : s.getLast? ≠ some ':' := by
  have hbare : ∀ v : List Char, bareValue v = .str s → v = s := by
    intro v hv
    rw [bareValue] at hv
    split_ifs at hv
    exact ToonValue.str.inj hv
  have hlast : ':' ∉ s := by
    cases c with
    | raw t =>
      rw [← hbare _ (Prod.ext_iff.1 h).2]
      exact hc t rfl
    | text t =>
      rw [found] at h
      split_ifs at h with hquote
      · exact Bool.noConfusion (Prod.ext_iff.1 h).1
      rw [not_or] at hquote
      rw [← hbare _ (Prod.ext_iff.1 h).2]
      exact (needsQuoting_false (Bool.eq_false_iff.2 hquote.2)).2.2.2.1
  exact fun hcolon => hlast (List.mem_of_getLast? hcolon)

end ToonCell

/-! ## Groups -/

/-- Every group is of one type, and holds grains of the list. -/
structure Grouped (gs : List GrainResult) (groups : List (String × List GrainResult)) : Prop where
  perm : (groups.flatMap Prod.snd).Perm gs
  typed : ∀ group ∈ groups, group.2 ≠ [] ∧ ∀ g ∈ group.2, g.grainType = group.1

theorem Grouped.insert {gs : List GrainResult} {groups : List (String × List GrainResult)}
    (h : Grouped gs groups) (g : GrainResult) : Grouped (gs ++ [g]) (insertGroup g groups) := by
  have hsingle : [g] ≠ [] ∧ ∀ g' ∈ [g], g'.grainType = g.grainType := by
    refine ⟨List.cons_ne_nil _ _, fun g' hg' => ?_⟩
    rw [List.mem_singleton.1 hg']
  induction groups generalizing gs with
  | nil =>
    have hgs : gs = [] := List.nil_perm.1 h.perm
    subst hgs
    exact ⟨List.Perm.refl _, by simp [insertGroup]⟩
  | cons group groups ih =>
    obtain ⟨k, members⟩ := group
    have htyped := List.forall_mem_cons.1 h.typed
    have hmove : (members ++ [g] ++ groups.flatMap Prod.snd).Perm
        (members ++ groups.flatMap Prod.snd ++ [g]) := by
      rw [List.append_assoc, List.append_assoc]
      exact List.perm_append_comm.append_left members
    have hgs : (members ++ groups.flatMap Prod.snd).Perm gs := h.perm
    rw [insertGroup]
    split_ifs with hk hlt
    · refine ⟨hmove.trans (hgs.append_right [g]), List.forall_mem_cons.2 ⟨?_, htyped.2⟩⟩
      refine ⟨by simp, fun g' hg' => ?_⟩
      rcases List.mem_append.1 hg' with hg' | hg'
      · exact htyped.1.2 g' hg'
      · rw [List.mem_singleton.1 hg']
        exact hk
    · refine ⟨?_, List.forall_mem_cons.2 ⟨hsingle, h.typed⟩⟩
      have hlast : (g :: (members ++ groups.flatMap Prod.snd)).Perm
          (members ++ groups.flatMap Prod.snd ++ [g]) := (List.perm_append_singleton _ _).symm
      exact hlast.trans (hgs.append_right [g])
    · have hgrouped : Grouped (groups.flatMap Prod.snd) groups := ⟨List.Perm.refl _, htyped.2⟩
      have hrest := ih hgrouped
      refine ⟨?_, List.forall_mem_cons.2 ⟨htyped.1, hrest.typed⟩⟩
      refine (hrest.perm.append_left members).trans ?_
      rw [← List.append_assoc]
      exact hgs.append_right [g]

theorem grouped_typeGroups (gs : List GrainResult) : Grouped gs (typeGroups gs) := by
  have hfold : ∀ (gs seen : List GrainResult) (groups : List (String × List GrainResult)),
      Grouped seen groups →
      Grouped (seen ++ gs) (gs.foldl (fun groups g => insertGroup g groups) groups) := by
    intro gs
    induction gs with
    | nil =>
      intro seen groups h
      rwa [List.append_nil]
    | cons g gs ih =>
      intro seen groups h
      have hstep := ih (seen ++ [g]) _ (h.insert g)
      rwa [List.append_assoc] at hstep
  exact hfold gs [] [] ⟨List.Perm.refl _, fun group hgroup => nomatch hgroup⟩

/-! ## Rows -/

/-- The header of a section, as a row of cells. -/
def headerRow (k : String) (n : ℕ) : List ((Bool × ToonValue) × List Char) :=
  (headerCells k n).map fun v => ((false, bareValue v), v)

/-- The row of a grain. -/
def grainRow (J : Shown) (g : GrainResult) : List ((Bool × ToonValue) × List Char) :=
  (toonCells J g).map fun c => (c.found, c.written)

/-- The rows of a section. -/
def groupRows (J : Shown) (group : String × List GrainResult) :
    List (List ((Bool × ToonValue) × List Char)) :=
  headerRow group.1 group.2.length :: group.2.map (grainRow J)

/-- The rows of a text: a blank one stands between sections. -/
def allRows (J : Shown) :
    List (String × List GrainResult) → List (List ((Bool × ToonValue) × List Char))
  | [] => []
  | [group] => groupRows J group
  | group :: groups => groupRows J group ++ [((false, .absent), [])] :: allRows J groups

theorem writeRow_eq {α : Type} {cells : List (α × List Char)} (hne : cells ≠ []) :
    writeRow ',' cells = [','].intercalate (cells.map Prod.snd) ++ ['\n'] := by
  induction cells with
  | nil => exact absurd rfl hne
  | cons c cells ih =>
    cases cells with
    | nil => simp [writeRow, List.intercalate]
    | cons c' cells =>
      rw [writeRow, ih (List.cons_ne_nil _ _)]
      · simp [List.intercalate]
      · exact List.cons_ne_nil _ _

theorem typeOf_asStr (ty : GrainType) : typeOf ty.asStr = some ty := by
  cases ty <;> decide +kernel

theorem header_written (ty : GrainType) (n : ℕ) :
    toonHeader ty.asStr n ++ ['\n'] = writeRow ',' (headerRow ty.asStr n) := by
  rw [writeRow_eq (by simp [headerRow, headerCells])]
  refine congrArg (· ++ ['\n']) ?_
  have hcells : (headerRow ty.asStr n).map Prod.snd = headerCells ty.asStr n := by
    simp [headerRow, Function.comp_def]
  rw [hcells, toonHeader, headerCells, typeOf_asStr]
  cases ty <;> simp [toonColumns, List.intercalate]

theorem section_written {J : Shown} {ty : GrainType} {members : List GrainResult}
    (hcells : ∀ g ∈ members, toonCells J g ≠ []) :
    toonSection J (ty.asStr, members) ++ ['\n'] = write ',' (groupRows J (ty.asStr, members)) := by
  have hrows : ∀ members : List GrainResult, (∀ g ∈ members, toonCells J g ≠ []) →
      (members.flatMap fun g => '\n' :: [','].intercalate ((toonCells J g).map ToonCell.written)) ++
        ['\n'] = '\n' :: write ',' (members.map (grainRow J)) := by
    intro members
    induction members with
    | nil => exact fun _ => rfl
    | cons g members ih =>
      intro hcells
      rw [List.forall_mem_cons] at hcells
      have hrow : writeRow ',' (grainRow J g) =
          [','].intercalate ((toonCells J g).map ToonCell.written) ++ ['\n'] := by
        rw [writeRow_eq (by simpa [grainRow] using hcells.1)]
        simp [grainRow, Function.comp_def]
      have hwrite : write ',' ((g :: members).map (grainRow J)) =
          writeRow ',' (grainRow J g) ++ write ',' (members.map (grainRow J)) := rfl
      rw [List.flatMap_cons, List.append_assoc, ih hcells.2, hwrite, hrow]
      simp
  have hwrite : write ',' (groupRows J (ty.asStr, members)) =
      writeRow ',' (headerRow ty.asStr members.length) ++
        write ',' (members.map (grainRow J)) := rfl
  rw [toonSection, List.append_assoc, hrows members hcells, hwrite, ← header_written]
  simp

theorem text_written {J : Shown} {groups : List (String × List GrainResult)} (hne : groups ≠ [])
    (hgroups : ∀ group ∈ groups, (∃ ty : GrainType, group.1 = ty.asStr) ∧
      ∀ g ∈ group.2, toonCells J g ≠ []) :
    ['\n', '\n'].intercalate (groups.map (toonSection J)) ++ ['\n'] =
      write ',' (allRows J groups) := by
  induction groups with
  | nil => exact absurd rfl hne
  | cons group groups ih =>
    rw [List.forall_mem_cons] at hgroups
    obtain ⟨⟨⟨ty, hty⟩, hcells⟩, hrest⟩ := hgroups
    have hsection : toonSection J group ++ ['\n'] = write ',' (groupRows J group) := by
      obtain ⟨k, members⟩ := group
      rw [show k = ty.asStr from hty]
      exact section_written hcells
    cases groups with
    | nil =>
      rw [allRows, ← hsection]
      simp [List.intercalate]
    | cons group' groups =>
      have hwrite : write ',' (allRows J (group :: group' :: groups)) =
          write ',' (groupRows J group) ++ '\n' :: write ',' (allRows J (group' :: groups)) := by
        rw [allRows]
        · simp [write, writeRow]
        · exact List.cons_ne_nil _ _
      rw [hwrite, ← hsection, ← ih (List.cons_ne_nil _ _) hrest]
      simp [List.intercalate]

/-! ## Sections -/

/-- What the section of a group is read as. -/
def sectionFound (J : Shown) (group : String × List GrainResult) : ToonSection :=
  ((headerCells group.1 group.2.length).map bareValue,
    group.2.map fun g => (toonCells J g).map fun c => c.found.2)

/-- A row of a grain: at least two columns, none of which ends in a colon outside quotes. -/
def RowLike (J : Shown) (g : GrainResult) : Prop :=
  2 ≤ (toonCells J g).length ∧ ∀ c ∈ toonCells J g, ∀ s, c = .raw s → ':' ∉ s.toList

theorem grainRow_record {J : Shown} {g : GrainResult} (h : RowLike J g) :
    (!isHeader (values (grainRow J g)) && values (grainRow J g) ≠ [(false, .absent)]) = true := by
  have hvalues : values (grainRow J g) = (toonCells J g).map ToonCell.found := by
    simp [values, grainRow, Function.comp_def]
  rw [hvalues, Bool.and_eq_true, Bool.not_eq_true', decide_eq_true_iff]
  constructor
  · rw [isHeader]
    split
    · next s hlast =>
      obtain ⟨c, hc, hfound⟩ := List.mem_map.1 (List.mem_of_getLast? hlast)
      exact decide_eq_false (ToonCell.found_ne_colon (h.2 c hc) hfound)
    · rfl
  · intro heq
    have hlen := congrArg List.length heq
    rw [List.length_map] at hlen
    have htwo := h.1
    rw [hlen] at htwo
    exact absurd htwo (by decide)

theorem header_isHeader (ty : GrainType) (n : ℕ) :
    isHeader (values (headerRow ty.asStr n)) = true := by
  have hvalues : values (headerRow ty.asStr n) =
      (headerCells ty.asStr n).map fun v => (false, bareValue v) := by
    simp [values, headerRow, Function.comp_def]
  have hlast : ∀ ty : GrainType, ∃ s, bareValue (((toonColumns ty).getLast?.getD "").toList ++
      [closeBrace, ':']) = .str s ∧ s.getLast? = some ':' := by
    intro ty
    refine ⟨((toonColumns ty).getLast?.getD "").toList ++ [closeBrace, ':'], ?_, by simp⟩
    cases ty <;> decide +kernel
  obtain ⟨s, hs, hcolon⟩ := hlast ty
  have hend : ((headerCells ty.asStr n).map fun v => (false, bareValue v)).getLast? =
      some (false, .str s) := by
    rw [headerCells, typeOf_asStr]
    simp only [Option.map_some, Option.getD_some, List.map_append, List.map_cons, List.map_nil]
    rw [List.getLast?_concat, hs]
  rw [hvalues, isHeader, hend]
  exact decide_eq_true hcolon

theorem sections_rows {J : Shown} (ty : GrainType) {members : List GrainResult}
    (hmembers : ∀ g ∈ members, RowLike J g) {rest : List (List (Bool × ToonValue))}
    (hrest : rest = [] ∨ ∃ rows, rest = [(false, .absent)] :: rows) :
    sections ((groupRows J (ty.asStr, members)).map values ++ rest) =
      sectionFound J (ty.asStr, members) :: sections rest := by
  have hrecords : ∀ row ∈ (members.map (grainRow J)).map values,
      (!isHeader row && row ≠ [(false, .absent)]) = true := by
    intro row hrow
    rw [List.map_map] at hrow
    obtain ⟨g, hg, rfl⟩ := List.mem_map.1 hrow
    exact grainRow_record (hmembers g hg)
  have htake : rest.takeWhile (fun r => !isHeader r && r ≠ [(false, .absent)]) = [] := by
    rcases hrest with rfl | ⟨rows, rfl⟩
    · rfl
    · exact List.takeWhile_cons_of_neg (by simp)
  have hskip : ∀ rows : List (List (Bool × ToonValue)),
      (∀ row ∈ rows, (!isHeader row && row ≠ [(false, .absent)]) = true) →
      sections (rows ++ rest) = sections rest := by
    intro rows
    induction rows with
    | nil => exact fun _ => rfl
    | cons row rows ih =>
      intro hrows
      rw [List.forall_mem_cons, Bool.and_eq_true, Bool.not_eq_true'] at hrows
      rw [List.cons_append, sections, if_neg (by simp [hrows.1.1]), ih hrows.2]
  rw [groupRows, List.map_cons, List.cons_append, sections, if_pos (header_isHeader ty _),
    hskip _ hrecords, List.takeWhile_append_of_pos hrecords, htake, List.append_nil]
  refine congrArg (· :: sections rest) (Prod.ext ?_ ?_)
  · simp [sectionFound, values, headerRow, Function.comp_def]
  · simp [sectionFound, values, grainRow, Function.comp_def]

theorem sections_allRows {J : Shown} {groups : List (String × List GrainResult)}
    (hgroups : ∀ group ∈ groups, (∃ ty : GrainType, group.1 = ty.asStr) ∧
      ∀ g ∈ group.2, RowLike J g) :
    sections ((allRows J groups).map values) = groups.map (sectionFound J) := by
  induction groups with
  | nil => rfl
  | cons group groups ih =>
    rw [List.forall_mem_cons] at hgroups
    obtain ⟨⟨⟨ty, hty⟩, hrows⟩, hrest⟩ := hgroups
    obtain ⟨k, members⟩ := group
    obtain rfl : k = ty.asStr := hty
    cases groups with
    | nil =>
      have hone := sections_rows ty hrows (.inl rfl)
      rw [List.append_nil] at hone
      rw [allRows, hone]
      rfl
    | cons group' groups =>
      have hblank : sections
          ([(false, ToonValue.absent)] :: (allRows J (group' :: groups)).map values) =
          sections ((allRows J (group' :: groups)).map values) := by
        rw [sections, if_neg (by decide)]
      rw [allRows, List.map_append, List.map_cons]
      · have hfirst := sections_rows ty hrows
          (.inr ⟨(allRows J (group' :: groups)).map values, rfl⟩)
        refine hfirst.trans ?_
        rw [hblank, ih hrest]
        rfl
      · exact List.cons_ne_nil _ _

/-! ## Grains with string fields -/

/-- The digits of a number. -/
theorem isDigit_toString {n : ℕ} {c : Char} (hc : c ∈ (toString n).toList) : c.isDigit = true := by
  have hrepr : (toString n).toList = Nat.toDigits 10 n := by
    show (Nat.repr n).toList = _
    rw [Nat.repr, String.toList_ofList]
  have hten : 0 < 10 := by decide
  rw [hrepr] at hc
  exact Nat.isDigit_of_mem_toDigits hten (by decide) hc

/-- What a header holds besides its braces, brackets and colon. -/
theorem header_plain (ty : GrainType) (n : ℕ) {v : List Char} (hv : v ∈ headerCells ty.asStr n) :
    ',' ∉ v ∧ '\n' ∉ v ∧ '"' ∉ v := by
  have hwords : ∀ ty : GrainType, ((toonPlural ty :: toonColumns ty).all fun w =>
      w.toList.all fun c => c.isAlphanum || c = '_') = true := by
    intro ty
    cases ty <;> decide +kernel
  have hword : ∀ w : String, w = "" ∨ w = toonPlural ty ∨ w ∈ toonColumns ty → ∀ c ∈ w.toList,
      c.isAlphanum = true ∨ c = '_' := by
    intro w hw c hc
    have hall := List.all_eq_true.1 (hwords ty)
    rcases hw with rfl | hw
    · exact nomatch hc
    · have hchars := hall w (by rw [List.mem_cons]; exact hw)
      have hone := List.all_eq_true.1 hchars c hc
      rwa [Bool.or_eq_true, decide_eq_true_iff] at hone
  have hfirst : (toonColumns ty).head?.getD "" = "" ∨
      (toonColumns ty).head?.getD "" ∈ toonColumns ty := by
    cases toonColumns ty <;> simp
  have hlast : (toonColumns ty).getLast?.getD "" = "" ∨
      (toonColumns ty).getLast?.getD "" ∈ toonColumns ty := by
    cases hget : (toonColumns ty).getLast? with
    | none => exact .inl rfl
    | some w => exact .inr (List.mem_of_getLast? hget)
  have hchar : ∀ c ∈ v, c.isAlphanum = true ∨
      c = '_' ∨ c ∈ ['[', ']', openBrace, closeBrace, ':'] := by
    intro c hc
    rw [headerCells, typeOf_asStr] at hv
    simp only [Option.map_some, Option.getD_some, List.mem_append, List.mem_cons, List.mem_map,
      List.not_mem_nil, or_false] at hv
    rcases hv with (rfl | ⟨w, hw, rfl⟩) | rfl
    · simp only [List.mem_append, List.mem_cons, List.not_mem_nil, or_false] at hc
      rcases hc with ((hc | rfl | hc) | rfl | rfl) | hc
      · exact (hword _ (.inr (.inl rfl)) c hc).imp_right .inl
      · exact .inr (.inr (by decide))
      · refine .inl ?_
        have hdigit := isDigit_toString hc
        rw [Char.isAlphanum, hdigit, Bool.or_true]
      · exact .inr (.inr (by decide))
      · exact .inr (.inr (by decide))
      · exact (hword _ (hfirst.imp_right .inr) c hc).imp_right .inl
    · have hmem := List.mem_of_mem_tail (List.mem_of_mem_dropLast hw)
      exact (hword _ (.inr (.inr hmem)) c hc).imp_right .inl
    · simp only [List.mem_append, List.mem_cons, List.not_mem_nil, or_false] at hc
      rcases hc with hc | rfl | rfl
      · exact (hword _ (hlast.imp_right .inr) c hc).imp_right .inl
      · exact .inr (.inr (by decide))
      · exact .inr (.inr (by decide))
  have hout : ∀ c ∈ [',', '\n', '"'], c ∉ v := by
    intro c hc hmem
    have hno := hchar c hmem
    fin_cases hc <;> revert hno <;> decide
  exact ⟨hout _ (by decide), hout _ (by decide), hout _ (by decide)⟩

theorem toonCells_result (J : Shown) (g : TextGrain) :
    toonCells J g.result = toonRow J g.result.fields g.grainType := by
  show (match typeOf g.grainType.asStr with
    | some ty => toonRow J g.result.fields ty
    | none => _) = _
  rw [typeOf_asStr]

/-- The numbers of a grain whose fields are strings: none, or a count of nothing. -/
theorem raw_result {J : Shown} {g : TextGrain} {s : String} (h : .raw s ∈ toonCells J g.result) :
    s = "" ∨ s = "0" := by
  have hnumber : ∀ f, numberText J g.result.fields f = "" := by
    intro f
    have hfield := TextGrain.jsonField_result g f
    rw [jsonField] at hfield
    rw [numberText, hfield]
    cases g.fields.lookup f <;> rfl
  have hcount : ∀ f, ((g.result.fields.lookup f).bind Json.asI64).getD 0 = 0 := by
    intro f
    have hfield := TextGrain.jsonField_result g f
    rw [jsonField] at hfield
    rw [hfield]
    cases g.fields.lookup f <;> rfl
  rw [toonCells_result] at h
  cases hty : g.grainType <;> rw [hty] at h <;> simp [toonRow, hnumber, hcount] at h
  · exact .inl h
  · exact .inr h

theorem rowLike_result (J : Shown) (g : TextGrain) : RowLike J g.result := by
  constructor
  · rw [toonCells_result]
    cases g.grainType <;> simp [toonRow]
  · rintro c hc s rfl
    rcases raw_result hc with rfl | rfl <;> decide +kernel

theorem plain_result {J : Shown} {g : TextGrain} {c : ToonCell} (hc : c ∈ toonCells J g.result) :
    c.Plain := by
  cases c with
  | text s => trivial
  | raw s => rcases raw_result hc with rfl | rfl <;> exact by unfold ToonCell.Plain; decide +kernel

variable {J : Shown}

/-- The groups of grains whose fields are strings. -/
theorem group_result {gs : List TextGrain} {group : String × List GrainResult}
    (hgroup : group ∈ typeGroups (gs.map TextGrain.result)) :
    (∃ ty : GrainType, group.1 = ty.asStr) ∧
      ∀ g ∈ group.2, ∃ g' ∈ gs, g = TextGrain.result g' := by
  have hgrouped := grouped_typeGroups (gs.map TextGrain.result)
  have hmem : ∀ g ∈ group.2, ∃ g' ∈ gs, g = TextGrain.result g' := by
    intro g hg
    have hperm := hgrouped.perm.mem_iff.1 (List.mem_flatMap.2 ⟨group, hgroup, hg⟩)
    obtain ⟨g', hg', heq⟩ := List.mem_map.1 hperm
    exact ⟨g', hg', heq.symm⟩
  obtain ⟨hne, htype⟩ := hgrouped.typed group hgroup
  obtain ⟨g, hg⟩ := List.exists_mem_of_ne_nil _ hne
  obtain ⟨g', -, rfl⟩ := hmem g hg
  exact ⟨⟨g'.grainType, (htype _ hg).symm⟩, hmem⟩

/-- **Every grain is read in a row of its own**, under the header of its type. -/
theorem toon_read (J : Shown) (gs : List TextGrain) :
    readToon (renderToon J (gs.map TextGrain.result)) =
      some ((typeGroups (gs.map TextGrain.result)).map (sectionFound J)) := by
  have hgroups : ∀ group ∈ typeGroups (gs.map TextGrain.result),
      (∃ ty : GrainType, group.1 = ty.asStr) ∧ ∀ g ∈ group.2, RowLike J g := by
    intro group hgroup
    refine (group_result hgroup).imp_right fun h g hg => ?_
    obtain ⟨g', -, rfl⟩ := h g hg
    exact rowLike_result J g'
  have hcells : ∀ group ∈ typeGroups (gs.map TextGrain.result),
      (∃ ty : GrainType, group.1 = ty.asStr) ∧ ∀ g ∈ group.2, toonCells J g ≠ [] := by
    intro group hgroup
    refine (hgroups group hgroup).imp_right fun h g hg hnil => ?_
    have htwo := (h g hg).1
    rw [hnil] at htwo
    exact absurd htwo (by decide)
  have hreads : ∀ row ∈ allRows J (typeGroups (gs.map TextGrain.result)),
      row ≠ [] ∧ ∀ c ∈ row, ReadsCell toonCell ',' c := by
    have hrow : ∀ group ∈ typeGroups (gs.map TextGrain.result), ∀ row ∈ groupRows J group,
        row ≠ [] ∧ ∀ c ∈ row, ReadsCell toonCell ',' c := by
      intro group hgroup row hrow
      obtain ⟨⟨ty, hty⟩, hmembers⟩ := group_result hgroup
      rcases List.mem_cons.1 hrow with rfl | hrow
      · refine ⟨by simp [headerRow, headerCells], fun c hc => ?_⟩
        obtain ⟨v, hv, rfl⟩ := List.mem_map.1 hc
        rw [hty] at hv
        obtain ⟨hcomma, hbreak, hquote⟩ := header_plain ty _ hv
        exact reads_bare hcomma hbreak hquote
      · obtain ⟨g, hg, rfl⟩ := List.mem_map.1 hrow
        refine ⟨by simpa [grainRow] using (hcells group hgroup).2 g hg, fun c hc => ?_⟩
        obtain ⟨g', -, rfl⟩ := hmembers g hg
        obtain ⟨cell, hcell, rfl⟩ := List.mem_map.1 hc
        exact ToonCell.reads_found (plain_result hcell)
    have hblank : ReadsCell toonCell ',' ((false, ToonValue.absent), []) :=
      reads_bare List.not_mem_nil List.not_mem_nil List.not_mem_nil
    generalize typeGroups (gs.map TextGrain.result) = groups at hrow
    induction groups with
    | nil => exact fun row h => nomatch h
    | cons group groups ih =>
      rw [List.forall_mem_cons] at hrow
      cases groups with
      | nil => exact hrow.1
      | cons group' groups =>
        rw [allRows, List.forall_mem_append, List.forall_mem_cons]
        · refine ⟨hrow.1, ⟨List.cons_ne_nil _ _, fun c hc => ?_⟩, ih hrow.2⟩
          rw [List.mem_singleton.1 hc]
          exact hblank
        · exact List.cons_ne_nil _ _
  rw [renderToon]
  by_cases hne : typeGroups (gs.map TextGrain.result) = []
  · rw [hne]
    rfl
  · have hread := (read_write_iff (by decide) fun row hrow =>
      ⟨(hreads row hrow).1, fun c hc => .inl ((hreads row hrow).2 c hc)⟩).2
        fun row hrow => (hreads row hrow).2
    rw [← text_written hne hcells] at hread
    rw [readToon, if_neg, hread, Option.map_some, sections_allRows hgroups]
    intro hnil
    rw [hnil] at hread
    obtain ⟨group, groups, heq⟩ := List.exists_cons_of_ne_nil hne
    have hsome := congrArg (Option.map sections) hread
    rw [Option.map_some, sections_allRows hgroups, heq] at hsome
    have hblank : (read toonCell ',' ([] ++ ['\n'])).map sections = some [] := by decide +kernel
    rw [hblank] at hsome
    exact List.cons_ne_nil _ _ (Option.some.inj hsome).symm

/-- **`FORMAT toon` reads back exactly where no string that stands without quotes looks
like a number.** -/
theorem toon_read_iff (J : Shown) (gs : List TextGrain) :
    readToon (renderToon J (gs.map TextGrain.result)) =
        some ((typeGroups (gs.map TextGrain.result)).map (sectionValue J)) ↔
      ∀ g ∈ gs, ∀ c ∈ toonCells J g.result, c.Safe := by
  have hperm := (grouped_typeGroups (gs.map TextGrain.result)).perm
  have hall : (∀ g ∈ gs, ∀ c ∈ toonCells J g.result, c.Safe) ↔
      ∀ group ∈ typeGroups (gs.map TextGrain.result), ∀ g ∈ group.2,
        ∀ c ∈ toonCells J g, c.Safe := by
    constructor
    · intro h group hgroup g hg
      obtain ⟨g', hg', rfl⟩ := (group_result hgroup).2 g hg
      exact h g' hg'
    · intro h g hg
      have hmem := hperm.mem_iff.2 (List.mem_map_of_mem hg)
      obtain ⟨group, hgroup, hgmem⟩ := List.mem_flatMap.1 hmem
      exact h group hgroup _ hgmem
  rw [toon_read, Option.some_inj, List.map_inj_left, hall]
  refine forall₂_congr fun group _ => ?_
  rw [sectionFound, sectionValue, Prod.mk.injEq, and_iff_right rfl, List.map_inj_left]
  refine forall₂_congr fun g _ => ?_
  rw [List.map_inj_left]
  exact forall₂_congr fun c _ => c.found_eq_value_iff

end Deja.Cal

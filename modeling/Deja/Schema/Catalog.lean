import Deja.Authz.Grant
import Deja.Codec.Types
import Deja.Lib.Occur

/-!
# Tool catalogs as text

The four text adapters put the name, the description and the schema of a tool into an
envelope.  Each cleans another part of them, in one pass: what a pass takes out may
put a marker together, and names and schemas are cleaned by one adapter only.

* `renderText_unforged_iff` — when the text of a tool holds one envelope and no more.
* `llama31Sanitize_hasToken` — when a control token is left.
-/

namespace Deja.Catalog

open Text

/-! ## Sanitising -/

/-- `sml_escape` of one character. -/
def escapeChar : Char → List Char
  | '<' => "&lt;".toList
  | '>' => "&gt;".toList
  | '&' => "&amp;".toList
  | '"' => "&quot;".toList
  | '\'' => "&apos;".toList
  | c => [c]

/-- `sml_escape`. -/
def smlEscape (s : List Char) : List Char := s.flatMap escapeChar

def backticks : List Char := "```".toList

def tildes : List Char := "~~~".toList

/-- `markdown_fence`. -/
def markdownFence (content : List Char) : List Char :=
  if occurrences backticks content ≠ 0 then tildes else backticks

/-- `hermes_sanitize`: the cleaned description and the fence. -/
def hermesSanitize (description : List Char) : List Char × List Char :=
  let cleaned := replace "</tool>".toList "&lt;/tool&gt;".toList description
  let cleaned := replace "<tool>".toList "&lt;tool&gt;".toList cleaned
  let cleaned := replace "</parameters>".toList "&lt;/parameters&gt;".toList cleaned
  let cleaned := Authz.trim cleaned
  (cleaned, markdownFence cleaned)

def tokenOpen : List Char := "<|".toList

def tokenClose : List Char := "|>".toList

/-- `str::find`. -/
def find (pat : List Char) : List Char → Option ℕ
  | [] => none
  | c :: s => if pat.isPrefixOf (c :: s) then some 0 else (find pat s).map (· + 1)

/-- How long the control token at the start of a text is. -/
def tokenLength (s : List Char) : Option ℕ :=
  if tokenOpen.isPrefixOf s then (find tokenClose s).map (· + 2) else none

/-- The loop of `llama31_sanitize` once `skip` more characters of a token are passed
over. -/
def sanitizeFrom : ℕ → List Char → List Char
  | _, [] => []
  | skip + 1, _ :: s => sanitizeFrom skip s
  | 0, c :: s =>
    match tokenLength (c :: s) with
    | some n => sanitizeFrom (n - 1) s
    | none => c :: sanitizeFrom 0 s

/-- `llama31_sanitize`. -/
def llama31Sanitize (description : List Char) : List Char := sanitizeFrom 0 description

/-! ## Rendering -/

/-- The text adapters. -/
inductive TextFormat where
  | hermes
  | llama31
  | markdown
  | sml
  deriving DecidableEq

/-- `normalize_tool_name`. -/
def normalizeToolName (name : List Char) : List Char :=
  name.map fun c => if c = '.' then '_' else c

/-- `definition_parts`; the schema is written by `compact_json`. -/
def definitionParts (compactJson : JsonValue → List Char) (action : Tool) :
    Except String (List Char × List Char × List Char) :=
  if action.kind ≠ .definition then
    .error ("action " ++ action.toolName ++ " is not kind=definition")
  else
    match action.inputSchema with
    | none => .error ("action " ++ action.toolName ++ " missing input_schema")
    | some schema =>
      let description := ((action.toolDescription <|> action.content).getD "").toList
      .ok (normalizeToolName action.toolName.toList, description, compactJson schema)

/-- What an adapter writes around a name, a description and a schema. -/
def envelope : TextFormat → List Char → Frame Char
  | .hermes, fence => ⟨"<tool>\n  <name>".toList, "</name>\n  <description>".toList,
      "</description>\n  <parameters>\n".toList ++ fence ++ "json\n".toList,
      "\n".toList ++ fence ++ "\n  </parameters>\n</tool>".toList⟩
  | .llama31, _ => ⟨"Tool: ".toList, "\nDescription: ".toList, "\nParameters: ".toList, []⟩
  | .markdown, fence => ⟨"## ".toList, "\n\n".toList,
      "\n\n**Input schema:**\n".toList ++ fence ++ "json\n".toList, "\n".toList ++ fence⟩
  | .sml, _ => ⟨"<tool_use>\n  <tool_name>".toList, "</tool_name>\n  <description>".toList,
      "</description>\n  <parameters>".toList, "</parameters>\n</tool_use>".toList⟩

/-- The fence an adapter picks. -/
def fenceOf : TextFormat → List Char → List Char → List Char
  | .hermes, description, _ => (hermesSanitize description).2
  | .markdown, description, schema => markdownFence (description ++ '\n' :: schema)
  | .llama31, _, _ | .sml, _, _ => backticks

/-- The description as an adapter cleans it. -/
def cleaned : TextFormat → List Char → List Char
  | .hermes, description => (hermesSanitize description).1
  | .llama31, description => llama31Sanitize description
  | .markdown, description => description
  | .sml, description => smlEscape description

/-- The name or the schema as an adapter writes it. -/
def written : TextFormat → List Char → List Char
  | .sml, s => smlEscape s
  | _, s => s

/-- The `render` of an adapter. -/
def renderParts (fmt : TextFormat) (name description schema : List Char) : List Char :=
  (envelope fmt (fenceOf fmt description schema)).fill (written fmt name)
    (cleaned fmt description) (written fmt schema)

/-- `render_text` at a text adapter. -/
def renderText (compactJson : JsonValue → List Char) (fmt : TextFormat) (action : Tool) :
    Except String (List Char) := do
  let (name, description, schema) ← definitionParts compactJson action
  pure (renderParts fmt name description schema)

/-! ## One envelope -/

def hermesTags : List (List Char) := ["<tool>".toList, "</tool>".toList, "<name>".toList,
  "</name>".toList, "<description>".toList, "</description>".toList, "<parameters>".toList,
  "</parameters>".toList]

def llamaLabels : List (List Char) :=
  ["\nTool: ".toList, "\nDescription: ".toList, "\nParameters: ".toList]

def markdownLabel : List Char := "**Input schema:**".toList

def smlTags : List (List Char) := ["<tool_use>".toList, "</tool_use>".toList,
  "<tool_name>".toList, "</tool_name>".toList, "<description>".toList, "</description>".toList,
  "<parameters>".toList, "</parameters>".toList]

/-- What marks the parts of an envelope. -/
def markers : TextFormat → List Char → List (List Char)
  | .hermes, fence => fence :: hermesTags
  | .llama31, _ => llamaLabels
  | .markdown, fence => [markdownLabel, fence]
  | .sml, _ => smlTags

/-- A control token `<|...|>` stands in the text. -/
def hasToken : List Char → Bool
  | [] => false
  | c :: s => (tokenLength (c :: s)).isSome || hasToken s

/-- `sml_escape` undone: the entities of a text read back. -/
def smlUnescapeFrom : ℕ → List Char → List Char
  | _, [] => []
  | skip + 1, _ :: s => smlUnescapeFrom skip s
  | 0, c :: s =>
    if "&lt;".toList.isPrefixOf (c :: s) then '<' :: smlUnescapeFrom 3 s
    else if "&gt;".toList.isPrefixOf (c :: s) then '>' :: smlUnescapeFrom 3 s
    else if "&amp;".toList.isPrefixOf (c :: s) then '&' :: smlUnescapeFrom 4 s
    else if "&quot;".toList.isPrefixOf (c :: s) then '"' :: smlUnescapeFrom 5 s
    else if "&apos;".toList.isPrefixOf (c :: s) then '\'' :: smlUnescapeFrom 5 s
    else c :: smlUnescapeFrom 0 s

def smlUnescape (s : List Char) : List Char := smlUnescapeFrom 0 s

/-- Where a reader cuts a text: it drops what stands before the name, cuts at `name`,
drops `lead`, cuts at `description`, and drops `skip` and `last` around the schema. -/
structure Cuts where
  first : ℕ
  name : List Char
  lead : ℕ
  description : List Char
  skip : ℕ
  last : ℕ

/-- Read the name, the description and the schema out of an envelope. -/
def Cuts.read (k : Cuts) (text : List Char) : Option (List Char × List Char × List Char) := do
  let (name, rest) ← splitOnce k.name (text.drop k.first)
  let (description, rest) ← splitOnce k.description (rest.drop k.lead)
  pure (name, description, (rest.drop k.skip).take (rest.length - k.skip - k.last))

/-- The cuts of a format; the two fences are of one length. -/
def cuts : TextFormat → Cuts
  | .hermes => ⟨15, "</name>\n  <description>".toList, 0,
      "</description>\n  <parameters>\n".toList, 8, 28⟩
  | .llama31 => ⟨6, "\nDescription: ".toList, 0, "\nParameters: ".toList, 0, 0⟩
  | .markdown => ⟨3, "\n".toList, 1, "\n\n**Input schema:**\n".toList, 8, 4⟩
  | .sml => ⟨24, "</tool_name>\n  <description>".toList, 0,
      "</description>\n  <parameters>".toList, 0, 25⟩

/-- The text of a tool holds one envelope: its markers stand as often as the empty
envelope has them, no control token stands in it, and its parts can be read. -/
structure Unforged (fmt : TextFormat) (name description schema text : List Char) : Prop where
  marks : ∀ m ∈ markers fmt (fenceOf fmt description schema),
    occurrences m text =
      occurrences m ((envelope fmt (fenceOf fmt description schema)).fill [] [] [])
  tokens : fmt = .llama31 → hasToken text = false
  reads : (cuts fmt).read text =
    some (written fmt name, cleaned fmt description, written fmt schema)
  decodes : fmt = .sml → smlUnescape (smlEscape name) = name ∧
    smlUnescape (smlEscape description) = description ∧ smlUnescape (smlEscape schema) = schema

/-! ## What a description shows outside its control tokens -/

/-- The word is spelled from here on, control tokens skipped. -/
def spells : ℕ → List Char → List Char → Bool
  | _, [], _ => true
  | _, _ :: _, [] => false
  | skip + 1, x :: w, _ :: s => spells skip (x :: w) s
  | 0, x :: w, c :: s =>
    match tokenLength (c :: s) with
    | some n => spells (n - 1) (x :: w) s
    | none => x = c && spells 0 w s

/-- The word is spelled somewhere outside the control tokens. -/
def shows : ℕ → List Char → List Char → Bool
  | _, _, [] => false
  | skip + 1, w, _ :: s => shows skip w s
  | 0, w, c :: s =>
    match tokenLength (c :: s) with
    | some n => shows (n - 1) w s
    | none => spells 0 w (c :: s) || shows 0 w s

/-- The two halves of a control token are spelled outside the control tokens. -/
def showsToken : ℕ → List Char → Bool
  | _, [] => false
  | skip + 1, _ :: s => showsToken skip s
  | 0, c :: s =>
    match tokenLength (c :: s) with
    | some n => showsToken (n - 1) s
    | none => (spells 0 tokenOpen (c :: s) && (spells 0 tokenClose (c :: s) ||
        shows 0 tokenClose s)) || showsToken 0 s

theorem spells_eq (skip : ℕ) (w s : List Char) :
    spells skip w s = w.isPrefixOf (sanitizeFrom skip s) := by
  fun_induction spells skip w s with
  | case1 => simp
  | case2 => simp [sanitizeFrom]
  | case3 skip x w c s ih => rw [sanitizeFrom, ih]
  | case4 x w c s n hn ih => simp only [sanitizeFrom, hn, ih]
  | case5 x w c s hn ih =>
    simp only [sanitizeFrom, hn, List.isPrefixOf, ih]
    rfl

theorem shows_eq {w : List Char} (hw : w ≠ []) (skip : ℕ) (s : List Char) :
    shows skip w s = decide (occurrences w (sanitizeFrom skip s) ≠ 0) := by
  fun_induction shows skip w s with
  | case1 => simp [sanitizeFrom, occurrences]
  | case2 skip w c s ih => rw [sanitizeFrom, ih hw]
  | case3 w c s n hn ih => simp only [sanitizeFrom, hn, ih hw]
  | case4 w c s hn ih =>
    rw [spells_eq, ih hw]
    simp only [sanitizeFrom, hn, occurrences]
    cases w.isPrefixOf (c :: sanitizeFrom 0 s) <;> simp

theorem find_isSome (pat s : List Char) :
    (find pat s).isSome = decide (occurrences pat s ≠ 0) := by
  induction s with
  | nil => rfl
  | cons c s ih =>
    rw [find, occurrences]
    split_ifs with h
    · simp
    · simp [ih]

theorem tokenLength_isSome (s : List Char) : (tokenLength s).isSome =
    (tokenOpen.isPrefixOf s && decide (occurrences tokenClose s ≠ 0)) := by
  unfold tokenLength
  split_ifs with h
  · rw [Option.isSome_map, find_isSome, h, Bool.true_and]
  · rw [Bool.eq_false_iff.2 h]
    rfl

theorem showsToken_eq (skip : ℕ) (s : List Char) :
    showsToken skip s = hasToken (sanitizeFrom skip s) := by
  fun_induction showsToken skip s with
  | case1 => simp [sanitizeFrom, hasToken]
  | case2 skip c s ih => rw [sanitizeFrom, ih]
  | case3 c s n hn ih => simp only [sanitizeFrom, hn, ih]
  | case4 c s hn ih =>
    rw [spells_eq, spells_eq, shows_eq (by decide), ih]
    simp only [sanitizeFrom, hn, hasToken, tokenLength_isSome, occurrences]
    by_cases hclose : tokenClose.isPrefixOf (c :: sanitizeFrom 0 s) = true <;> simp [hclose]

/-- **When a control token is left**: when what stands outside the tokens spells the
two halves of one. -/
theorem llama31Sanitize_hasToken (description : List Char) :
    hasToken (llama31Sanitize description) = showsToken 0 description :=
  (showsToken_eq 0 description).symm

/-! ## Control tokens in a text -/

/-- Halves of a token on both sides of a seam make one. -/
theorem hasToken_append {a b : List Char} (hopen : Apart tokenOpen a b)
    (hclose : Apart tokenClose a b) : hasToken (a ++ b) = (hasToken a || hasToken b ||
      (decide (occurrences tokenOpen a ≠ 0) && decide (occurrences tokenClose b ≠ 0))) := by
  induction a with
  | nil => simp [hasToken, occurrences]
  | cons c a ih =>
    have hrest : ∀ {p : List Char}, Apart p (c :: a) b → Apart p a b := by
      intro p h u v hu hv hp hsuffix
      exact h u v hu hv hp (hsuffix.trans (List.suffix_cons c a))
    have hinit := isPrefixOf_append_of_apart hopen (List.cons_ne_nil c a)
    have hcount := occurrences_append hclose
    rw [List.cons_append] at hinit hcount ⊢
    rw [hasToken, hasToken, ih (hrest hopen) (hrest hclose), tokenLength_isSome,
      tokenLength_isSome, hinit, hcount]
    have hone : occurrences tokenOpen (c :: a) =
        (if tokenOpen.isPrefixOf (c :: a) then 1 else 0) + occurrences tokenOpen a := rfl
    rw [hone]
    generalize tokenOpen.isPrefixOf (c :: a) = starts, occurrences tokenClose (c :: a) = closed,
      occurrences tokenClose b = later, occurrences tokenOpen a = opened
    rw [Bool.eq_iff_iff]
    simp only [Bool.or_eq_true, Bool.and_eq_true, decide_eq_true_eq]
    grind

/-- A token that needs the halves of two parts. -/
def crosses (opened closed : ℕ) : Bool := decide (opened ≠ 0) && decide (closed ≠ 0)

/-- The tokens of a filled frame whose own pieces have no half of one. -/
theorem hasToken_fill {f : Frame Char} (hlast : f.last = [])
    (hpieces : ∀ t ∈ [f.first, f.second, f.third], hasToken t = false ∧
      ∀ p ∈ [tokenOpen, tokenClose], ApartLeft p t ∧ ApartRight p t ∧ occurrences p t = 0)
    (a b c : List Char) :
    hasToken (f.fill a b c) = (hasToken a || hasToken b || hasToken c ||
      crosses (occurrences tokenOpen a) (occurrences tokenClose b) ||
      crosses (occurrences tokenOpen a) (occurrences tokenClose c) ||
      crosses (occurrences tokenOpen b) (occurrences tokenClose c)) := by
  have hfill : f.fill a b c = f.first ++ (a ++ (f.second ++ (b ++ (f.third ++ c)))) := by
    simp [Frame.fill, hlast]
  have hpiece : ∀ t ∈ [f.first, f.second, f.third], ∀ s, hasToken (t ++ s) = hasToken s ∧
        ∀ p ∈ [tokenOpen, tokenClose], occurrences p (t ++ s) = occurrences p s := by
    intro t ht s
    have hcount : ∀ p ∈ [tokenOpen, tokenClose], occurrences p (t ++ s) = occurrences p s := by
      intro p hp
      obtain ⟨hleft, -, hzero⟩ := (hpieces t ht).2 p hp
      rw [occurrences_append (hleft.apart s), hzero, Nat.zero_add]
    refine ⟨?_, hcount⟩
    obtain ⟨hopen, -, hzero⟩ := (hpieces t ht).2 tokenOpen (by decide)
    obtain ⟨hclose, -, -⟩ := (hpieces t ht).2 tokenClose (by decide)
    rw [hasToken_append (hopen.apart s) (hclose.apart s), (hpieces t ht).1, hzero]
    simp
  have hseam : ∀ t ∈ [f.second, f.third], ∀ s r,
      hasToken (s ++ (t ++ r)) = (hasToken s || hasToken r ||
        crosses (occurrences tokenOpen s) (occurrences tokenClose r)) ∧
        ∀ p ∈ [tokenOpen, tokenClose],
          occurrences p (s ++ (t ++ r)) = occurrences p s + occurrences p r := by
    intro t ht s r
    have ht' : t ∈ [f.first, f.second, f.third] := List.mem_cons_of_mem _ ht
    obtain ⟨htoken, hcount⟩ := hpiece t ht' r
    refine ⟨?_, fun p hp => ?_⟩
    · rw [hasToken_append (((hpieces t ht').2 tokenOpen (by decide)).2.1.apart s r)
        (((hpieces t ht').2 tokenClose (by decide)).2.1.apart s r), htoken,
        hcount tokenClose (by decide)]
      rfl
    · rw [occurrences_append (((hpieces t ht').2 p hp).2.1.apart s r), hcount p hp]
  rw [hfill, (hpiece f.first (by simp) _).1, (hseam f.second (by simp) _ _).1,
    (hseam f.third (by simp) _ _).1, (hseam f.third (by simp) _ _).2 tokenClose (by decide)]
  unfold crosses
  rw [Bool.eq_iff_iff]
  simp only [Bool.or_eq_true, Bool.and_eq_true, decide_eq_true_eq]
  grind

/-! ## Entities -/

theorem smlUnescapeFrom_eq (skip : ℕ) (s : List Char) :
    smlUnescapeFrom skip s = smlUnescape (s.drop skip) := by
  induction s generalizing skip with
  | nil => cases skip <;> rfl
  | cons c s ih =>
    cases skip with
    | zero => rfl
    | succ skip => rw [smlUnescapeFrom, ih, List.drop_succ_cons]

theorem escapeChar_eq : escapeChar '<' = ['&', 'l', 't', ';'] ∧
    escapeChar '>' = ['&', 'g', 't', ';'] ∧ escapeChar '&' = ['&', 'a', 'm', 'p', ';'] ∧
    escapeChar '"' = ['&', 'q', 'u', 'o', 't', ';'] ∧
    escapeChar '\'' = ['&', 'a', 'p', 'o', 's', ';'] := by
  decide +kernel

/-- **Escaping can be undone.** -/
theorem smlUnescape_smlEscape (s : List Char) : smlUnescape (smlEscape s) = s := by
  induction s with
  | nil => rfl
  | cons c s ih =>
    have hcons : smlEscape (c :: s) = escapeChar c ++ smlEscape s := rfl
    rw [hcons]
    by_cases hc : c ∈ ['<', '>', '&', '"', '\'']
    · simp only [List.mem_cons, List.not_mem_nil, or_false] at hc
      obtain ⟨hlt, hgt, hamp, hquot, hapos⟩ := escapeChar_eq
      rcases hc with rfl | rfl | rfl | rfl | rfl
      all_goals
        simp only [hlt, hgt, hamp, hquot, hapos, List.cons_append, List.nil_append]
        rw [smlUnescape, smlUnescapeFrom]
        simp [smlUnescapeFrom_eq, List.isPrefixOf, ih]
    · simp only [List.mem_cons, List.not_mem_nil, or_false, not_or] at hc
      have hplain : escapeChar c = [c] := by
        unfold escapeChar
        split <;> simp_all
      have hamp : ('&' == c) = false := beq_false_of_ne (Ne.symm hc.2.2.1)
      rw [hplain, List.singleton_append, smlUnescape, smlUnescapeFrom]
      simp [List.isPrefixOf, hamp, smlUnescapeFrom_eq, ih]

/-- Escaped text has no tag. -/
theorem notMem_smlEscape (s : List Char) : '<' ∉ smlEscape s := by
  unfold smlEscape
  rw [List.mem_flatMap]
  rintro ⟨c, -, hc⟩
  unfold escapeChar at hc
  split at hc
  all_goals first | exact absurd hc (by decide) | skip
  rename_i hne _ _ _ _
  exact hne (List.mem_singleton.1 hc).symm

/-! ## The markers of an envelope -/

theorem fenceOf_cases (fmt : TextFormat) (description schema : List Char) :
    fenceOf fmt description schema = backticks ∨ fenceOf fmt description schema = tildes := by
  have hfence : ∀ s, markdownFence s = backticks ∨ markdownFence s = tildes := by
    intro s
    unfold markdownFence
    split_ifs
    · exact .inr rfl
    · exact .inl rfl
  cases fmt with
  | hermes | markdown => exact hfence _
  | llama31 | sml => exact .inl rfl

/-- No marker stands across an edge of its envelope. -/
theorem markers_clear (fmt : TextFormat) {fence : List Char}
    (hfence : fence = backticks ∨ fence = tildes) :
    ∀ m ∈ markers fmt fence, (envelope fmt fence).Clear m ∧ m ≠ [] := by
  rcases hfence with rfl | rfl <;> cases fmt <;> decide +kernel

/-- **One envelope, by its markers**: what is put into it has none of them. -/
theorem marks_iff (fmt : TextFormat) (name description schema : List Char) :
    (∀ m ∈ markers fmt (fenceOf fmt description schema),
      occurrences m (renderParts fmt name description schema) =
        occurrences m ((envelope fmt (fenceOf fmt description schema)).fill [] [] [])) ↔
      ∀ m ∈ markers fmt (fenceOf fmt description schema), ¬ m <:+: written fmt name ∧
        ¬ m <:+: cleaned fmt description ∧ ¬ m <:+: written fmt schema := by
  refine forall₂_congr fun m hm => ?_
  obtain ⟨hclear, hne⟩ := markers_clear fmt (fenceOf_cases fmt description schema) m hm
  exact hclear.occurrences_fill_iff hne

/-! ## The Hermes description -/

/-- The tags `hermes_sanitize` takes out. -/
def strippedTags : List (List Char) :=
  ["</tool>".toList, "<tool>".toList, "</parameters>".toList]

/-- The replacements of `hermes_sanitize`. -/
def hermesEscapes : List (List Char × List Char) :=
  [("</tool>".toList, "&lt;/tool&gt;".toList), ("<tool>".toList, "&lt;tool&gt;".toList),
    ("</parameters>".toList, "&lt;/parameters&gt;".toList)]

/-- One replacement takes its tag out and leaves the other markers. -/
theorem occurrences_escape {m : List Char} (hm : m ∈ backticks :: tildes :: hermesTags)
    {pat rep : List Char} (hr : (pat, rep) ∈ hermesEscapes) (s : List Char) :
    occurrences m (replace pat rep s) = if m = pat then 0 else occurrences m s := by
  have hall : ∀ r ∈ hermesEscapes, ∀ m ∈ backticks :: tildes :: hermesTags,
      (r.1.head? = some '<' ∧ r.2.head? = some '&') ∧ ('<' ∉ m.tail ∧ '&' ∉ m.tail) ∧
        (ApartLeft m r.1 ∧ ApartLeft m r.2) ∧ ¬ m <:+: r.2 ∧ (m ≠ r.1 → ¬ m <:+: r.1) ∧
        m ≠ [] := by decide +kernel
  obtain ⟨⟨hx, hy⟩, ⟨hxm, hym⟩, ⟨hpat, hrep⟩, hin, hother, hne⟩ := hall _ hr m hm
  exact occurrences_replace hx hy hxm hym hpat hrep hin hother hne s

/-- **What `hermes_sanitize` takes out** is its three tags; other markers stay. -/
theorem occurrences_hermesSanitize (description : List Char) {m : List Char}
    (hm : m ∈ backticks :: tildes :: hermesTags) : occurrences m (hermesSanitize description).1 =
      if m ∈ strippedTags then 0 else occurrences m description := by
  have hblank : ∀ m ∈ backticks :: tildes :: hermesTags,
      m ≠ [] ∧ (m.all fun c => !Authz.isWhitespace c) = true := by decide +kernel
  have hmerge : ∀ (p₁ p₂ p₃ : List Char) (n : ℕ),
      (if m = p₃ then 0 else if m = p₂ then 0 else if m = p₁ then 0 else n) =
        if m ∈ [p₁, p₂, p₃] then 0 else n := by
    intro p₁ p₂ p₃ n
    simp only [List.mem_cons, List.not_mem_nil, or_false]
    by_cases h₁ : m = p₁ <;> by_cases h₂ : m = p₂ <;> by_cases h₃ : m = p₃ <;> simp [h₁, h₂, h₃]
  obtain ⟨hne, hall⟩ := hblank m hm
  have hws : ∀ c ∈ m, Authz.isWhitespace c = false := fun c hc => by
    simpa using List.all_eq_true.1 hall c hc
  refine (occurrences_trim hne hws _).trans ?_
  refine (occurrences_escape hm (List.mem_of_getElem? (i := 2) rfl) _).trans ?_
  rw [occurrences_escape hm (List.mem_of_getElem? (i := 1) rfl),
    occurrences_escape hm (List.mem_of_getElem? (i := 0) rfl)]
  exact hmerge _ _ _ _

theorem hermesSanitize_fence (description : List Char) :
    (hermesSanitize description).2 = markdownFence description := by
  have hsame := occurrences_hermesSanitize description (List.mem_cons_self ..)
  rw [if_neg (by decide)] at hsame
  show markdownFence (hermesSanitize description).1 = _
  unfold markdownFence
  rw [hsame]

/-! ## When a text holds one envelope -/

/-- None of the texts has the marker. -/
def Lacks (m : List Char) (texts : List (List Char)) : Prop := ∀ s ∈ texts, ¬ m <:+: s

instance (m : List Char) (texts : List (List Char)) : Decidable (Lacks m texts) :=
  inferInstanceAs (Decidable (∀ s ∈ texts, _))

/-- No token is put together from the parts of a Llama text. -/
def TokenFree (name description schema : List Char) : Prop :=
  hasToken name = false ∧ showsToken 0 description = false ∧ hasToken schema = false ∧
    ¬ (tokenOpen <:+: name ∧ (shows 0 tokenClose description ∨ tokenClose <:+: schema)) ∧
    ¬ (shows 0 tokenOpen description ∧ tokenClose <:+: schema)

/-- The parts a format writes into one envelope. -/
def Harmless : TextFormat → List Char → List Char → List Char → Prop
  | .hermes, name, description, schema =>
    (∀ m ∈ hermesTags, Lacks m [name, schema] ∧ (m ∉ strippedTags → Lacks m [description])) ∧
      Lacks (markdownFence description) [name, description, schema]
  | .llama31, name, description, schema =>
    (∀ m ∈ llamaLabels, Lacks m [name, schema] ∧ shows 0 m description = false) ∧
      TokenFree name description schema
  | .markdown, name, description, schema =>
    '\n' ∉ name ∧ ∀ m ∈ [markdownLabel, markdownFence (description ++ '\n' :: schema)],
      Lacks m [name, description, schema]
  | .sml, _, _, _ => True

/-! ## Reading an envelope -/

/-- A reader that cuts a filled frame at its own pieces gets its parts. -/
theorem Cuts.read_fill {k : Cuts} {f : Frame Char} {a b c : List Char} (lead skip : List Char)
    (hfirst : k.first = f.first.length) (hlead : k.lead = lead.length)
    (hskip : k.skip = skip.length) (hlast : k.last = f.last.length)
    (hname : splitOnce k.name (a ++ (f.second ++ (b ++ (f.third ++ (c ++ f.last))))) =
      some (a, lead ++ (b ++ (f.third ++ (c ++ f.last)))))
    (hdescription : splitOnce k.description (b ++ (f.third ++ (c ++ f.last))) =
      some (b, skip ++ (c ++ f.last))) : k.read (f.fill a b c) = some (a, b, c) := by
  have hlength : (skip ++ (c ++ f.last)).length - skip.length - f.last.length = c.length := by
    rw [List.length_append, List.length_append]
    omega
  unfold Cuts.read
  rw [hfirst, Frame.drop_fill, hname]
  simp only [Option.bind_eq_bind, Option.bind_some, hlead, List.drop_left, hdescription, hskip,
    hlast, hlength, List.take_left]
  rfl

theorem notMem_of_splitOnce {x : Char} {s a b : List Char} (h : splitOnce [x] s = some (a, b)) :
    x ∉ a := by
  induction s generalizing a with
  | nil => simp [splitOnce] at h
  | cons c s ih =>
    rw [splitOnce] at h
    split_ifs at h with hx
    · cases h
      exact List.not_mem_nil
    · obtain ⟨⟨a', b'⟩, hs, heq⟩ := Option.map_eq_some_iff.1 h
      cases heq
      rw [List.mem_cons, not_or]
      refine ⟨fun hc => hx ?_, ih hs⟩
      simp [List.isPrefixOf, hc]

/-- **A text whose parts lack the markers is read back**, the heading on its line. -/
theorem read_renderParts (fmt : TextFormat) {name description schema : List Char}
    (hmarks : ∀ m ∈ markers fmt (fenceOf fmt description schema), ¬ m <:+: written fmt name ∧
      ¬ m <:+: cleaned fmt description ∧ ¬ m <:+: written fmt schema)
    (hline : fmt = .markdown → '\n' ∉ name) :
    (cuts fmt).read (renderParts fmt name description schema) =
      some (written fmt name, cleaned fmt description, written fmt schema) := by
  have hcount := (marks_iff fmt name description schema).2 hmarks
  have hfence := fenceOf_cases fmt description schema
  have hclear := markers_clear fmt hfence
  unfold renderParts at hcount ⊢
  generalize fenceOf fmt description schema = fence at *
  have hzero : ∀ m ∈ markers fmt fence, occurrences m (written fmt name) = 0 := fun m hm =>
    (occurrences_eq_zero_iff (hclear m hm).2).2 (hmarks m hm).1
  cases fmt with
  | hermes =>
    have hq : ∀ m ∈ ["</name>".toList, "</description>".toList],
        m ∈ markers .hermes fence ∧ occurrences m (envelope .hermes fence).first = 0 ∧
          occurrences m ((envelope .hermes fence).fill [] [] []) = 1 := by
      rcases hfence with rfl | rfl <;> decide +kernel
    obtain ⟨hm₁, hf₁, he₁⟩ := hq _ (List.mem_of_getElem? (i := 0) rfl)
    obtain ⟨hm₂, hf₂, he₂⟩ := hq _ (List.mem_of_getElem? (i := 1) rfl)
    refine Cuts.read_fill [] (fence ++ "json\n".toList) rfl rfl ?_ ?_ ?_ ?_
    · rcases hfence with rfl | rfl <;> rfl
    · rcases hfence with rfl | rfl <;> rfl
    · exact (hclear _ hm₁).1.splitOnce_second (hclear _ hm₁).2
        (show _ = [] ++ "</name>".toList ++ "\n  <description>".toList from rfl)
        (List.append_nil _).symm hf₁ ((hcount _ hm₁).trans he₁)
    · exact (hclear _ hm₂).1.splitOnce_third (hclear _ hm₂).2
        (show _ = [] ++ "</description>".toList ++ "\n  <parameters>\n".toList from rfl)
        (List.append_assoc _ _ _) hf₂ (by rcases hfence with rfl | rfl <;> rfl) (hzero _ hm₂)
        ((hcount _ hm₂).trans he₂)
  | llama31 =>
    have hq : ∀ m ∈ ["\nDescription: ".toList, "\nParameters: ".toList],
        m ∈ markers .llama31 fence ∧ occurrences m (envelope .llama31 fence).first = 0 ∧
          occurrences m ((envelope .llama31 fence).fill [] [] []) = 1 := by
      rcases hfence with rfl | rfl <;> decide +kernel
    obtain ⟨hm₁, hf₁, he₁⟩ := hq _ (List.mem_of_getElem? (i := 0) rfl)
    obtain ⟨hm₂, hf₂, he₂⟩ := hq _ (List.mem_of_getElem? (i := 1) rfl)
    refine Cuts.read_fill [] [] rfl rfl rfl rfl ?_ ?_
    · exact (hclear _ hm₁).1.splitOnce_second (hclear _ hm₁).2
        (show _ = [] ++ "\nDescription: ".toList ++ [] from rfl)
        (List.append_nil _).symm hf₁ ((hcount _ hm₁).trans he₁)
    · exact (hclear _ hm₂).1.splitOnce_third (hclear _ hm₂).2
        (show _ = [] ++ "\nParameters: ".toList ++ [] from rfl)
        (List.append_nil _).symm hf₂ rfl (hzero _ hm₂) ((hcount _ hm₂).trans he₂)
  | markdown =>
    have hq : ∀ m ∈ [markdownLabel], m ∈ markers .markdown fence ∧
        occurrences m (envelope .markdown fence).first = 0 ∧
          occurrences m ((envelope .markdown fence).fill [] [] []) = 1 := by
      rcases hfence with rfl | rfl <;> decide +kernel
    obtain ⟨hm, hf, he⟩ := hq _ (List.mem_singleton_self _)
    refine Cuts.read_fill ['\n'] (fence ++ "json\n".toList) rfl rfl ?_ ?_ ?_ ?_
    · rcases hfence with rfl | rfl <;> rfl
    · rcases hfence with rfl | rfl <;> rfl
    · have hsplit := @splitOnce_append _ _ '\n' [] name ('\n' :: (description ++
        ((envelope .markdown fence).third ++ (schema ++ (envelope .markdown fence).last))))
        (hline rfl)
      rw [List.append_assoc] at hsplit
      exact hsplit
    · exact (hclear _ hm).1.splitOnce_third (hclear _ hm).2
        (show _ = "\n\n".toList ++ markdownLabel ++ "\n".toList from rfl)
        (List.append_assoc _ _ _) hf (by rcases hfence with rfl | rfl <;> rfl) (hzero _ hm)
        ((hcount _ hm).trans he)
  | sml =>
    have hq : ∀ m ∈ ["</tool_name>".toList, "</description>".toList],
        m ∈ markers .sml fence ∧ occurrences m (envelope .sml fence).first = 0 ∧
          occurrences m ((envelope .sml fence).fill [] [] []) = 1 := by
      rcases hfence with rfl | rfl <;> decide +kernel
    obtain ⟨hm₁, hf₁, he₁⟩ := hq _ (List.mem_of_getElem? (i := 0) rfl)
    obtain ⟨hm₂, hf₂, he₂⟩ := hq _ (List.mem_of_getElem? (i := 1) rfl)
    refine Cuts.read_fill [] [] rfl rfl rfl rfl ?_ ?_
    · exact (hclear _ hm₁).1.splitOnce_second (hclear _ hm₁).2
        (show _ = [] ++ "</tool_name>".toList ++ "\n  <description>".toList from rfl)
        (List.append_nil _).symm hf₁ ((hcount _ hm₁).trans he₁)
    · exact (hclear _ hm₂).1.splitOnce_third (hclear _ hm₂).2
        (show _ = [] ++ "</description>".toList ++ "\n  <parameters>".toList from rfl)
        (List.append_nil _).symm hf₂ rfl (hzero _ hm₂) ((hcount _ hm₂).trans he₂)

/-! ## The four adapters -/

theorem lacks_one {m a : List Char} : Lacks m [a] ↔ ¬ m <:+: a := List.forall_mem_singleton

theorem lacks_two {m a b : List Char} : Lacks m [a, b] ↔ ¬ m <:+: a ∧ ¬ m <:+: b := by
  simp [Lacks]

theorem lacks_three {m a b c : List Char} :
    Lacks m [a, b, c] ↔ ¬ m <:+: a ∧ ¬ m <:+: b ∧ ¬ m <:+: c := by
  simp [Lacks]

/-- The markers of a Hermes text, by its parts. -/
theorem hermes_marks_iff {name description schema : List Char} :
    (∀ m ∈ markers .hermes (fenceOf .hermes description schema), ¬ m <:+: name ∧
      ¬ m <:+: cleaned .hermes description ∧ ¬ m <:+: schema) ↔
      Harmless .hermes name description schema := by
  have hshown : ∀ m ∈ backticks :: tildes :: hermesTags,
      (¬ m <:+: cleaned .hermes description ↔ m ∉ strippedTags → ¬ m <:+: description) := by
    intro m hm
    have hne : m ≠ [] := by
      revert m
      decide +kernel
    have hcount := occurrences_hermesSanitize description hm
    show ¬ m <:+: (hermesSanitize description).1 ↔ _
    rw [← occurrences_eq_zero_iff hne, ← occurrences_eq_zero_iff hne, hcount]
    split_ifs with hstripped <;> simp [hstripped]
  have hfence : fenceOf .hermes description schema = markdownFence description :=
    hermesSanitize_fence description
  have hmem : markdownFence description ∈ backticks :: tildes :: hermesTags ∧
      markdownFence description ∉ strippedTags := by
    unfold markdownFence
    split_ifs <;> decide +kernel
  rw [hfence]
  show (∀ m ∈ markdownFence description :: hermesTags, _) ↔ (∀ m ∈ hermesTags, _) ∧ Lacks _ _
  rw [List.forall_mem_cons, lacks_three, and_comm]
  refine and_congr (forall₂_congr fun m hm => ?_) ?_
  · rw [hshown m (List.mem_cons_of_mem _ (List.mem_cons_of_mem _ hm))]
    rw [lacks_two, lacks_one, ← and_assoc]
    exact and_right_comm
  · rw [hshown _ hmem.1]
    simp [hmem.2]

/-- **A text holds one envelope** when its parts lack the markers, no control token
stands in it, and a heading stays on its line. -/
theorem unforged_iff (fmt : TextFormat) (name description schema : List Char) :
    Unforged fmt name description schema (renderParts fmt name description schema) ↔
      (∀ m ∈ markers fmt (fenceOf fmt description schema), ¬ m <:+: written fmt name ∧
        ¬ m <:+: cleaned fmt description ∧ ¬ m <:+: written fmt schema) ∧
      (fmt = .llama31 → hasToken (renderParts fmt name description schema) = false) ∧
      (fmt = .markdown → '\n' ∉ name) := by
  constructor
  · intro h
    refine ⟨(marks_iff fmt name description schema).1 h.marks, h.tokens, ?_⟩
    rintro rfl
    have hreads := h.reads
    unfold Cuts.read at hreads
    obtain ⟨⟨a, rest⟩, hname, hreads⟩ := Option.bind_eq_some_iff.1 hreads
    obtain ⟨⟨b, rest'⟩, -, hreads⟩ := Option.bind_eq_some_iff.1 hreads
    cases hreads
    exact notMem_of_splitOnce hname
  · rintro ⟨hmarks, htokens, hline⟩
    exact ⟨(marks_iff fmt name description schema).2 hmarks, htokens,
      read_renderParts fmt hmarks hline, fun _ => ⟨smlUnescape_smlEscape name,
        smlUnescape_smlEscape description, smlUnescape_smlEscape schema⟩⟩

/-- No half of a control token stands in the pieces of a Llama envelope or across its
edges. -/
theorem llama31_pieces : ∀ t ∈ [(envelope .llama31 backticks).first,
    (envelope .llama31 backticks).second, (envelope .llama31 backticks).third],
    hasToken t = false ∧
      ∀ p ∈ [tokenOpen, tokenClose], ApartLeft p t ∧ ApartRight p t ∧ occurrences p t = 0 := by
  decide +kernel

theorem infix_iff_occurrences {m s : List Char} (hm : m ≠ []) :
    m <:+: s ↔ occurrences m s ≠ 0 := by
  rw [Ne, occurrences_eq_zero_iff hm, not_not]

theorem shows_iff {w : List Char} (hw : w ≠ []) (s : List Char) :
    shows 0 w s = true ↔ occurrences w (llama31Sanitize s) ≠ 0 := by
  rw [shows_eq hw]
  exact decide_eq_true_iff

/-- The tokens of a Llama text, by its parts. -/
theorem llama31_tokens_iff {name description schema : List Char} :
    hasToken (renderParts .llama31 name description schema) = false ↔
      TokenFree name description schema := by
  have hopen : tokenOpen ≠ [] := by decide
  have hclose : tokenClose ≠ [] := by decide
  unfold TokenFree
  rw [shows_iff hopen, shows_iff hclose, infix_iff_occurrences hopen,
    infix_iff_occurrences hclose, ← llama31Sanitize_hasToken]
  refine (iff_of_eq (congrArg (· = false) (hasToken_fill rfl llama31_pieces name
    (llama31Sanitize description) schema))).trans ?_
  unfold crosses
  simp only [Bool.or_eq_false_iff, Bool.and_eq_false_iff, decide_eq_false_iff_not]
  tauto

/-- **When the text of a tool holds one envelope**: when its parts have none of the
markers and, for Llama, spell no control token together; always for SML. -/
theorem renderText_unforged_iff {compactJson : JsonValue → List Char} {action : Tool}
    {name description schema : List Char}
    (h : definitionParts compactJson action = .ok (name, description, schema))
    (fmt : TextFormat) : ∃ text, renderText compactJson fmt action = .ok text ∧
      (Unforged fmt name description schema text ↔ Harmless fmt name description schema) := by
  refine ⟨renderParts fmt name description schema, ?_, ?_⟩
  · unfold renderText
    rw [h]
    rfl
  rw [unforged_iff]
  cases fmt with
  | hermes =>
    simp only [reduceCtorEq, false_implies, and_true]
    exact hermes_marks_iff
  | llama31 =>
    have hshows : ∀ m ∈ llamaLabels,
        (¬ m <:+: llama31Sanitize description ↔ shows 0 m description = false) := by
      intro m hm
      have hne : m ≠ [] := by
        revert m
        decide +kernel
      rw [shows_eq hne, ← occurrences_eq_zero_iff hne]
      simp [llama31Sanitize]
    simp only [reduceCtorEq, false_implies, and_true, true_implies, llama31_tokens_iff]
    refine and_congr_left fun _ => forall₂_congr fun m hm => ?_
    show ¬ m <:+: name ∧ ¬ m <:+: llama31Sanitize description ∧ ¬ m <:+: schema ↔ _
    rw [hshows m hm]
    rw [lacks_two, ← and_assoc]
    exact and_right_comm
  | markdown =>
    simp only [reduceCtorEq, false_implies, true_implies, true_and]
    rw [and_comm]
    refine and_congr_right fun _ => forall₂_congr fun m _ => ?_
    exact lacks_three.symm
  | sml =>
    simp only [reduceCtorEq, false_implies, and_true]
    refine iff_of_true (fun m hm => ?_) trivial
    have htag : ∀ m ∈ smlTags, '<' ∈ m := by decide +kernel
    have hfree : ∀ s, ¬ m <:+: smlEscape s := fun s hin =>
      notMem_smlEscape s (hin.subset (htag m hm))
    exact ⟨hfree _, hfree _, hfree _⟩

/-- A definition with the parts given. -/
def sampleTool (name description : String) : Tool where
  kind := .definition
  toolName := name
  toolDescription := some description
  inputSchema := some (.object [])
  input := none
  content := none
  isError := none
  error := none
  durationMs := none
  parentTaskId := none
  toolCallId := none
  callBatchId := none
  outputSchema := none
  strict := none
  executorUri := none
  lockedParams := none
  examples := none
  annotations := none
  specHash := none
  executorKind := none
  asyncMode := none
  status := none
  correlationId := none
  expiresAtSec := none
  transientDefinitionHash := none
  failureCause := none
  failureDetail := none
  actorExecutionEnvironment := none

/-- `compact_json` of an empty object. -/
def sampleJson (_ : JsonValue) : List Char := [Char.ofNat 0x7b, Char.ofNat 0x7d]

/-- A plain tool has one Hermes envelope. -/
theorem renderText_unforged_plain : ∃ text,
    renderText sampleJson .hermes (sampleTool "post" "Post a message") = .ok text ∧
      (Unforged .hermes "post".toList "Post a message".toList (sampleJson (.object [])) text ↔
        Harmless .hermes "post".toList "Post a message".toList (sampleJson (.object []))) :=
  renderText_unforged_iff rfl .hermes

/-- Taking the inner token out puts another one together. -/
theorem llama31_forged : ¬ ∀ (fmt : TextFormat) (action : Tool)
    (name description schema : List Char),
    definitionParts sampleJson action = .ok (name, description, schema) → ∃ text,
      renderText sampleJson fmt action = .ok text ∧ Unforged fmt name description schema text := by
  intro h
  obtain ⟨text, htext, hunforged⟩ := h .llama31 (sampleTool "x" "<<|x|>|y|>") _ _ _ rfl
  have hrender : renderText sampleJson .llama31 (sampleTool "x" "<<|x|>|y|>") =
      .ok (renderParts .llama31 "x".toList "<<|x|>|y|>".toList (sampleJson (.object []))) := rfl
  rw [hrender] at htext
  cases htext
  have htoken := hunforged.tokens rfl
  revert htoken
  decide +kernel

end Deja.Catalog

import Deja.Cal.Toon

/-!
# Grains as tagged text

`FORMAT sml` writes a tag a field.  The values are escaped and the names of the fields are
not, so a reader of tags gets back the grains written exactly when each name is one a tag
can have.
-/

namespace Deja.Cal

open Text

/-! ## Writing -/

/-- The tags around a document. -/
def grainsOpen : List Char := "<grains>\n".toList

def grainsClose : List Char := "</grains>".toList

/-- The tags around a grain, and around its attributes. -/
def grainOpen : List Char := "  <grain type=\"".toList

def grainClose : List Char := "  </grain>\n".toList

def relationOpen : List Char := " relation=\"".toList

/-- What opens a field. -/
def fieldOpen : List Char := "    <".toList

/-- `sml_escape`. -/
def smlEscape (s : List Char) : List Char :=
  replace ['"'] "&quot;".toList (replace ['>'] "&gt;".toList
    (replace ['<'] "&lt;".toList (replace ['&'] "&amp;".toList s)))

/-- The attribute that carries a relation. -/
def relationAttr (g : GrainResult) : List Char :=
  match strField g "relation" with
  | some rel => if rel = [] then [] else relationOpen ++ smlEscape rel ++ ['"']
  | none => []

/-- A field, as `render_grain_sml` writes it. -/
def smlField (J : Shown) (f : String × Json) : List Char :=
  let shown := match f.2 with
    | .str s => s.toList
    | v => (J.display v).toList
  fieldOpen ++ f.1.toList ++ '>' :: smlEscape shown ++ ['<', '/'] ++ f.1.toList ++
    ['>', '\n']

/-- `render_grain_sml`, at the indent of a list without groups. -/
def renderGrainSml (J : Shown) (g : GrainResult) : List Char :=
  grainOpen ++ g.grainType.toList ++ '"' :: relationAttr g ++ ['>', '\n'] ++
    g.fields.flatMap (smlField J) ++ grainClose

/-- `FORMAT sml`. -/
def renderSml (J : Shown) (gs : List GrainResult) : List Char :=
  grainsOpen ++ gs.flatMap (renderGrainSml J) ++ grainsClose

/-! ## Reading -/

/-- The characters a name begins with, in XML. -/
def nameStart (c : Char) : Bool :=
  c.isAlpha || c = '_' || c = ':' ||
    [(0xC0, 0xD6), (0xD8, 0xF6), (0xF8, 0x2FF), (0x370, 0x37D), (0x37F, 0x1FFF),
      (0x200C, 0x200D), (0x2070, 0x218F), (0x2C00, 0x2FEF), (0x3001, 0xD7FF), (0xF900, 0xFDCF),
      (0xFDF0, 0xFFFD), (0x10000, 0xEFFFF)].any fun r => r.1 ≤ c.toNat && c.toNat ≤ r.2

/-- The characters of a name, in XML. -/
def nameChar (c : Char) : Bool :=
  nameStart c || c.isDigit || c = '-' || c = '.' || c.toNat = 0xB7 ||
    (0x300 ≤ c.toNat && c.toNat ≤ 0x36F) || (0x203F ≤ c.toNat && c.toNat ≤ 0x2040)

/-- A name of XML. -/
def isName : List Char → Bool
  | [] => false
  | c :: cs => nameStart c && cs.all nameChar

/-- The four entities, read back. -/
def unescape : List Char → List Char
  | [] => []
  | '&' :: 'a' :: 'm' :: 'p' :: ';' :: text => '&' :: unescape text
  | '&' :: 'l' :: 't' :: ';' :: text => '<' :: unescape text
  | '&' :: 'g' :: 't' :: ';' :: text => '>' :: unescape text
  | '&' :: 'q' :: 'u' :: 'o' :: 't' :: ';' :: text => '"' :: unescape text
  | c :: text => c :: unescape text

/-- What stands before a character, and the rest. -/
def before (d : Char) (text : List Char) : List Char × List Char := upTo (· = d) text

/-- A field: its tag, its text and the tag that ends it. -/
def readField (text : List Char) : Option ((List Char × List Char) × List Char) := do
  let text ← text.dropPrefix? fieldOpen
  let (name, text) := before '>' text
  let text ← text.dropPrefix? ['>']
  let (value, text) := before '<' text
  let text ← text.dropPrefix? (['<', '/'] ++ name ++ ['>', '\n'])
  if isName name then some ((name, unescape value), text) else none

/-- The fields of a grain, up to the tag that ends it. -/
def readFields : ℕ → List Char → Option (List (List Char × List Char) × List Char)
  | 0, _ => none
  | n + 1, text =>
    match text.dropPrefix? grainClose with
    | some rest => some ([], rest)
    | none => do
      let (field, text) ← readField text
      let (fields, rest) ← readFields n text
      some (field :: fields, rest)

/-- A grain as its tag and its fields say it. -/
structure Tagged where
  grainType : List Char
  relation : Option (List Char)
  fields : List (List Char × List Char)
  deriving DecidableEq

/-- The attribute of a relation, if there is one. -/
def readRelation (text : List Char) : Option (Option (List Char) × List Char) :=
  match text.dropPrefix? relationOpen with
  | none => some (none, text)
  | some text => do
    let (value, text) := before '"' text
    let text ← text.dropPrefix? ['"']
    some (some (unescape value), text)

/-- A grain. -/
def readGrain (text : List Char) : Option (Tagged × List Char) := do
  let rest ← text.dropPrefix? grainOpen
  let (grainType, rest) := before '"' rest
  let rest ← rest.dropPrefix? ['"']
  let (relation, rest) ← readRelation rest
  let rest ← rest.dropPrefix? ['>', '\n']
  let (fields, rest) ← readFields text.length rest
  some (⟨grainType, relation, fields⟩, rest)

/-- The grains of a document, up to the tag that ends it. -/
def readGrains : ℕ → List Char → Option (List Tagged)
  | 0, _ => none
  | n + 1, text =>
    if text = grainsClose then some [] else do
      let (grain, rest) ← readGrain text
      let grains ← readGrains n rest
      some (grain :: grains)

/-- A document. -/
def readSml (text : List Char) : Option (List Tagged) := do
  let rest ← text.dropPrefix? grainsOpen
  readGrains text.length rest

namespace TextGrain

/-- What the tags say of a grain. -/
def tagged (g : TextGrain) : Tagged :=
  ⟨g.grainType.asStr.toList, (g.field "relation").filter fun rel => !rel.isEmpty,
    g.fields.map fun f => (f.1.toList, f.2.toList)⟩

end TextGrain

/-! ## Escaping -/

/-- What stands for a character. -/
def entity (c : Char) : List Char :=
  if c = '&' then "&amp;".toList
  else if c = '<' then "&lt;".toList
  else if c = '>' then "&gt;".toList
  else if c = '"' then "&quot;".toList
  else [c]

theorem smlEscape_eq (s : List Char) : smlEscape s = s.flatMap entity := by
  unfold smlEscape
  simp only [replace_single, List.flatMap_assoc]
  refine List.flatMap_congr fun c _ => ?_
  unfold entity
  split_ifs with h₁ h₂ h₃ h₄
  · decide
  · subst h₂
    decide
  · subst h₃
    decide
  · subst h₄
    decide
  · simp only [List.flatMap_singleton, if_neg h₂, if_neg h₃, if_neg h₄]

theorem unescape_smlEscape (s : List Char) : unescape (smlEscape s) = s := by
  rw [smlEscape_eq]
  induction s with
  | nil => rfl
  | cons c s ih =>
    rw [List.flatMap_cons, entity]
    split_ifs with h₁ h₂ h₃ h₄
    · show '&' :: unescape (s.flatMap entity) = _
      rw [ih, h₁]
    · show '<' :: unescape (s.flatMap entity) = _
      rw [ih, h₂]
    · show '>' :: unescape (s.flatMap entity) = _
      rw [ih, h₃]
    · show '"' :: unescape (s.flatMap entity) = _
      rw [ih, h₄]
    · rw [List.singleton_append, unescape, ih]
      all_goals
        intros
        exact absurd ‹c = '&'› h₁

/-- Nothing that is escaped opens a tag or ends an attribute. -/
theorem not_mem_smlEscape {d : Char} (hd : d = '<' ∨ d = '"') (s : List Char) :
    d ∉ smlEscape s := by
  rw [smlEscape_eq, List.mem_flatMap]
  rintro ⟨c, -, hc⟩
  unfold entity at hc
  split_ifs at hc with h₁ h₂ h₃ h₄
  · rcases hd with rfl | rfl <;> revert hc <;> decide
  · rcases hd with rfl | rfl <;> revert hc <;> decide
  · rcases hd with rfl | rfl <;> revert hc <;> decide
  · rcases hd with rfl | rfl <;> revert hc <;> decide
  · rcases hd with rfl | rfl
    · exact h₂ (List.mem_singleton.1 hc).symm
    · exact h₄ (List.mem_singleton.1 hc).symm

theorem before_append {d : Char} {v : List Char} (hv : d ∉ v) (rest : List Char) :
    before d (v ++ d :: rest) = (v, d :: rest) := by
  have hstop : ∀ c ∈ v, decide (c = d) = false := by
    intro c hc
    refine decide_eq_false ?_
    rintro rfl
    exact hv hc
  exact upTo_append hstop (decide_eq_true rfl) rest

theorem dropPrefix_append (p rest : List Char) : (p ++ rest).dropPrefix? p = some rest :=
  List.dropPrefix?_append_of_beq rest (beq_self_eq_true p)

/-! ## Names -/

theorem isName_not_mem {name : List Char} (h : isName name = true) : '>' ∉ name := by
  cases name with
  | nil => exact List.not_mem_nil
  | cons c cs =>
    rw [isName, Bool.and_eq_true, List.all_eq_true] at h
    rw [List.mem_cons, not_or]
    constructor
    · rintro rfl
      exact absurd h.1 (by decide)
    · intro hmem
      exact absurd (h.2 _ hmem) (by decide)

/-- Every name a reader of tags returns is one. -/
theorem readField_isName {text rest : List Char} {f : List Char × List Char}
    (h : readField text = some (f, rest)) : isName f.1 = true := by
  simp only [readField, Option.bind_eq_bind, Option.bind_eq_some_iff] at h
  obtain ⟨_, -, _, -, _, -, h⟩ := h
  split_ifs at h with hname
  cases h
  exact hname

theorem readFields_isName {n : ℕ} {text rest : List Char} {fs : List (List Char × List Char)}
    (h : readFields n text = some (fs, rest)) : ∀ f ∈ fs, isName f.1 = true := by
  induction n generalizing text fs with
  | zero => exact nomatch h
  | succ n ih =>
    rw [readFields] at h
    split at h
    · cases h
      exact fun f hf => nomatch hf
    · simp only [Option.bind_eq_bind, Option.bind_eq_some_iff] at h
      obtain ⟨⟨f, text'⟩, hfield, ⟨fs', rest'⟩, hfields, heq⟩ := h
      cases heq
      rw [List.forall_mem_cons]
      exact ⟨readField_isName hfield, ih hfields⟩

theorem readGrain_isName {text rest : List Char} {t : Tagged}
    (h : readGrain text = some (t, rest)) : ∀ f ∈ t.fields, isName f.1 = true := by
  simp only [readGrain, Option.bind_eq_bind, Option.bind_eq_some_iff] at h
  obtain ⟨_, -, _, -, _, -, _, -, ⟨fs, rest'⟩, hfields, heq⟩ := h
  cases heq
  exact readFields_isName hfields

theorem readGrains_isName {n : ℕ} {text : List Char} {ts : List Tagged}
    (h : readGrains n text = some ts) : ∀ t ∈ ts, ∀ f ∈ t.fields, isName f.1 = true := by
  induction n generalizing text ts with
  | zero => exact nomatch h
  | succ n ih =>
    rw [readGrains] at h
    split_ifs at h
    · cases h
      exact fun t ht => nomatch ht
    · simp only [Option.bind_eq_bind, Option.bind_eq_some_iff] at h
      obtain ⟨⟨t, rest⟩, hgrain, ts', hgrains, heq⟩ := h
      cases heq
      rw [List.forall_mem_cons]
      exact ⟨readGrain_isName hgrain, ih hgrains⟩

/-! ## What is written is read -/

theorem fieldOpen_eq : fieldOpen = [' ', ' ', ' ', ' ', '<'] := by decide +kernel

theorem grainClose_eq :
    grainClose = [' ', ' ', '<', '/', 'g', 'r', 'a', 'i', 'n', '>', '\n'] := by decide +kernel

theorem relationOpen_eq :
    relationOpen = [' ', 'r', 'e', 'l', 'a', 't', 'i', 'o', 'n', '=', '"'] := by decide +kernel

theorem grainOpen_eq : grainOpen =
    [' ', ' ', '<', 'g', 'r', 'a', 'i', 'n', ' ', 't', 'y', 'p', 'e', '=', '"'] := by
  decide +kernel

theorem grainsClose_eq : grainsClose = ['<', '/', 'g', 'r', 'a', 'i', 'n', 's', '>'] := by
  decide +kernel

/-- A field of a grain whose fields are strings. -/
theorem smlField_str (J : Shown) (k s : String) (rest : List Char) :
    smlField J (k, .str s) ++ rest = fieldOpen ++ (k.toList ++ '>' :: (smlEscape s.toList ++
      '<' :: '/' :: (k.toList ++ '>' :: '\n' :: rest))) := by
  simp [smlField]

theorem readField_smlField {J : Shown} {k : String} (hk : isName k.toList = true) (s : String)
    (rest : List Char) :
    readField (smlField J (k, .str s) ++ rest) = some ((k.toList, s.toList), rest) := by
  have hclose : '<' :: '/' :: (k.toList ++ '>' :: '\n' :: rest) =
      (['<', '/'] ++ k.toList ++ ['>', '\n']) ++ rest := by simp
  have hopen : ∀ text : List Char, ('>' :: text).dropPrefix? ['>'] = some text :=
    dropPrefix_append ['>']
  rw [smlField_str]
  simp only [readField, dropPrefix_append, Option.bind_eq_bind, Option.bind_some,
    before_append (isName_not_mem hk), hopen, before_append (not_mem_smlEscape (.inl rfl) _)]
  rw [hclose, dropPrefix_append, Option.bind_some, if_pos hk, unescape_smlEscape]

theorem readFields_smlFields {J : Shown} {fs : List (String × String)}
    (hfs : ∀ f ∈ fs, isName f.1.toList = true) {n : ℕ} (hn : fs.length < n) (rest : List Char) :
    readFields n ((fs.map fun f => (f.1, Json.str f.2)).flatMap (smlField J) ++
      (grainClose ++ rest)) =
      some (fs.map fun f => (f.1.toList, f.2.toList), rest) := by
  induction fs generalizing n with
  | nil =>
    obtain ⟨m, rfl⟩ : ∃ m, n = m + 1 := ⟨n - 1, by simp at hn; omega⟩
    rw [List.map_nil, List.flatMap_nil, List.nil_append, readFields, dropPrefix_append]
    rfl
  | cons f fs ih =>
    obtain ⟨m, rfl⟩ : ∃ m, n = m + 1 := ⟨n - 1, by simp at hn; omega⟩
    rw [List.forall_mem_cons] at hfs
    rw [List.map_cons, List.flatMap_cons, List.append_assoc, readFields]
    have hnone : ∀ text : List Char,
        (smlField J (f.1, .str f.2) ++ text).dropPrefix? grainClose = none := by
      intro text
      rw [smlField_str, fieldOpen_eq, grainClose_eq]
      rfl
    rw [hnone]
    simp only [readField_smlField hfs.1, Option.bind_eq_bind, Option.bind_some]
    rw [ih hfs.2 (by simp at hn; omega)]
    rfl

theorem readRelation_attr (g : TextGrain) (rest : List Char) :
    readRelation (relationAttr g.result ++ '>' :: rest) =
      some ((g.field "relation").filter fun rel => !rel.isEmpty, '>' :: rest) := by
  rw [relationAttr, TextGrain.strField_result]
  have hnone : readRelation ('>' :: rest) = some (none, '>' :: rest) := by
    rw [readRelation, relationOpen_eq]
    rfl
  cases g.field "relation" with
  | none => exact hnone
  | some rel =>
    simp only
    by_cases hrel : rel = []
    · rw [if_pos hrel, List.nil_append, hnone, hrel]
      rfl
    · have hquote : ∀ text : List Char, ('"' :: text).dropPrefix? ['"'] = some text :=
        dropPrefix_append ['"']
      rw [if_neg hrel, List.append_assoc, List.append_assoc, readRelation, dropPrefix_append]
      simp only [List.singleton_append, before_append (not_mem_smlEscape (.inr rfl) rel), hquote,
        Option.bind_eq_bind, Option.bind_some, unescape_smlEscape]
      simp [Option.filter, hrel]

theorem readGrain_render {J : Shown} {g : TextGrain}
    (hg : ∀ f ∈ g.fields, isName f.1.toList = true) (rest : List Char) :
    readGrain (renderGrainSml J g.result ++ rest) = some (g.tagged, rest) := by
  have hquote : '"' ∉ g.grainType.asStr.toList := by
    intro hmem
    exact absurd (g.isAlphanum_grainType hmem) (by decide)
  have htext : renderGrainSml J g.result ++ rest = grainOpen ++
      (g.grainType.asStr.toList ++ '"' :: (relationAttr g.result ++ '>' :: '\n' ::
        ((g.fields.map fun f => (f.1, Json.str f.2)).flatMap (smlField J) ++
          (grainClose ++ rest)))) := by
    simp [renderGrainSml, TextGrain.result]
  have hlen : ∀ text : List Char, ('"' :: text).dropPrefix? ['"'] = some text :=
    dropPrefix_append ['"']
  have hend : ∀ text : List Char, ('>' :: '\n' :: text).dropPrefix? ['>', '\n'] = some text :=
    dropPrefix_append ['>', '\n']
  have hfields : g.fields.length ≤
      ((g.fields.map fun f => (f.1, Json.str f.2)).flatMap (smlField J)).length := by
    induction g.fields with
    | nil => exact Nat.le_refl _
    | cons f fs ih =>
      have hpos : 0 < (smlField J (f.1, .str f.2)).length := by
        simp [smlField]
      rw [List.map_cons, List.flatMap_cons, List.length_append, List.length_cons]
      omega
  have hn : g.fields.length < (renderGrainSml J g.result ++ rest).length := by
    rw [htext]
    simp only [List.length_append, List.length_cons]
    omega
  rw [readGrain]
  generalize (renderGrainSml J g.result ++ rest).length = n at hn ⊢
  rw [htext, dropPrefix_append]
  simp only [Option.bind_eq_bind, Option.bind_some, before_append hquote, hlen,
    readRelation_attr, hend, readFields_smlFields hg hn]
  rfl

theorem readGrains_render {J : Shown} {gs : List TextGrain}
    (hgs : ∀ g ∈ gs, ∀ f ∈ g.fields, isName f.1.toList = true) {n : ℕ} (hn : gs.length < n) :
    readGrains n ((gs.map TextGrain.result).flatMap (renderGrainSml J) ++ grainsClose) =
      some (gs.map TextGrain.tagged) := by
  induction gs generalizing n with
  | nil =>
    obtain ⟨m, rfl⟩ : ∃ m, n = m + 1 := ⟨n - 1, by simp at hn; omega⟩
    rw [List.map_nil, List.flatMap_nil, List.nil_append, readGrains, if_pos rfl]
    rfl
  | cons g gs ih =>
    obtain ⟨m, rfl⟩ : ∃ m, n = m + 1 := ⟨n - 1, by simp at hn; omega⟩
    rw [List.forall_mem_cons] at hgs
    rw [List.map_cons, List.flatMap_cons, List.append_assoc, readGrains, if_neg]
    · simp only [readGrain_render hgs.1, Option.bind_eq_bind, Option.bind_some]
      rw [ih hgs.2 (by simp at hn; omega)]
      rfl
    · intro heq
      rw [renderGrainSml, grainOpen_eq, grainsClose_eq] at heq
      exact absurd (List.cons.inj heq).1 (by decide)

/-- **`FORMAT sml` reads back exactly where every name of a field is one a tag can have.** -/
theorem sml_read_iff (J : Shown) (gs : List TextGrain) :
    readSml (renderSml J (gs.map TextGrain.result)) = some (gs.map TextGrain.tagged) ↔
      ∀ g ∈ gs, ∀ f ∈ g.fields, isName f.1.toList = true := by
  constructor
  · intro h g hg f hf
    simp only [readSml, Option.bind_eq_bind, Option.bind_eq_some_iff] at h
    obtain ⟨rest, -, hgrains⟩ := h
    exact readGrains_isName hgrains _ (List.mem_map_of_mem hg) _ (List.mem_map_of_mem hf)
  · intro h
    have hlen : gs.length < (renderSml J (gs.map TextGrain.result)).length := by
      have hle : gs.length ≤ ((gs.map TextGrain.result).flatMap (renderGrainSml J)).length := by
        induction gs with
        | nil => exact Nat.le_refl _
        | cons g gs ih =>
          have hpos : 0 < (renderGrainSml J g.result).length := by
            simp [renderGrainSml]
          rw [List.forall_mem_cons] at h
          have hrest := ih h.2
          rw [List.map_cons, List.flatMap_cons, List.length_append, List.length_cons]
          omega
      rw [renderSml]
      simp only [List.length_append]
      have hopen : 0 < grainsOpen.length := by decide +kernel
      omega
    rw [readSml]
    generalize (renderSml J (gs.map TextGrain.result)).length = n at hlen ⊢
    rw [renderSml, List.append_assoc, dropPrefix_append]
    exact readGrains_render h hlen

/-! ## All formats -/

/-- Each format, read by its own rules, gives back the grains that were written. -/
structure ReadsBack (J : Shown) (gs : List TextGrain) : Prop where
  triples : Delimited.read tsvCell '\t' (renderTriples (gs.map TextGrain.result)) =
    some (gs.map TextGrain.triple)
  csv : Delimited.read csvCell ',' (renderCsv J (gs.map TextGrain.result)) =
    some (columns :: gs.map TextGrain.csvRecord)
  table : Delimited.read tableCell '|' (renderTable J (gs.map TextGrain.result)) =
    some ((columns :: tableRule :: gs.map TextGrain.tableRecord).map TextGrain.barred)
  toon : readToon (renderToon J (gs.map TextGrain.result)) =
    some ((typeGroups (gs.map TextGrain.result)).map (sectionValue J))
  sml : readSml (renderSml J (gs.map TextGrain.result)) = some (gs.map TextGrain.tagged)

/-- No field holds what the escaping of a format leaves out. -/
structure Escapable (J : Shown) (gs : List TextGrain) : Prop where
  triples : ∀ g ∈ gs, ∀ v ∈ g.triple, '\t' ∉ v ∧ '\n' ∉ v
  csv : ∀ g ∈ gs, ∀ v ∈ g.csvRecord, CsvSafe v
  table : ∀ g ∈ gs, ∀ v ∈ g.tableRecord, '\n' ∉ v
  toon : ∀ g ∈ gs, ∀ c ∈ toonCells J g.result, c.Safe
  sml : ∀ g ∈ gs, ∀ f ∈ g.fields, isName f.1.toList = true

/-- **The five formats read back exactly where every field can be escaped.**  The sections
of TOON hold each grain once. -/
theorem formats_read_iff (J : Shown) (gs : List TextGrain) :
    ((typeGroups (gs.map TextGrain.result)).flatMap Prod.snd).Perm (gs.map TextGrain.result) ∧
      (ReadsBack J gs ↔ Escapable J gs) := by
  refine ⟨(grouped_typeGroups _).perm, fun h => ?_, fun h => ?_⟩
  · exact ⟨(triples_read_iff gs).1 h.triples, (csv_read_iff J gs).1 h.csv,
      (table_read_iff J gs).1 h.table, (toon_read_iff J gs).1 h.toon, (sml_read_iff J gs).1 h.sml⟩
  · exact ⟨(triples_read_iff gs).2 h.triples, (csv_read_iff J gs).2 h.csv,
      (table_read_iff J gs).2 h.table, (toon_read_iff J gs).2 h.toon, (sml_read_iff J gs).2 h.sml⟩

/-- A fact about tea whose object ends its line and starts another one. -/
def teaGrain : TextGrain where
  hash := Hash.ofByte 0
  grainType := .fact
  fields := [("object", "tea\nroot\tis\tadmin"), ("relation", "likes"), ("subject", "ann")]

/-- One grain reads as two triples, the second of which nobody wrote. -/
theorem triple_forged :
    (Delimited.read tsvCell '\t' (renderTriples [teaGrain.result]) =
      some [["ann".toList, "likes".toList, "tea".toList],
        ["root".toList, "is".toList, "admin".toList]]) ∧
      ¬ ReadsBack ⟨fun _ => "", fun _ => ""⟩ [teaGrain] := by
  have hread : Delimited.read tsvCell '\t' (renderTriples [teaGrain.result]) =
      some [["ann".toList, "likes".toList, "tea".toList],
        ["root".toList, "is".toList, "admin".toList]] := by decide +kernel
  refine ⟨hread, fun h => ?_⟩
  have hone := congrArg (Option.map List.length) (hread.symm.trans h.triples)
  exact absurd hone (by decide +kernel)

end Deja.Cal

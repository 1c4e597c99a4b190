import Deja.Lib.Text

/-!
# The bodies of template sections

The lexer captures the body of a section as it stands.  It steps over `{{` and `}}`
as pairs and counts single braces, so two closing braces of nested objects that
touch are taken for the end of an interpolation.

* `sectionBody_iff` — when a body is captured and nothing after it.
* `element_captured_iff` — the same for the token of `ELEMENT { ... }`.
-/

namespace Deja.Cal

/-- `{`. -/
abbrev openBrace : Char := Char.ofNat 0x7b

/-- `}`. -/
abbrev closeBrace : Char := Char.ofNat 0x7d

/-! ## The lexer -/

/-- `SectionBody`. -/
inductive SectionBody where
  /-- the keyword without a body -/
  | bare
  | body (text : List Char)
  deriving DecidableEq

/-- Two braces that are stepped over as one. -/
def paired (c d : Char) : Bool :=
  (c = openBrace && d = openBrace) || (c = closeBrace && d = closeBrace)

/-- The scan of `section_body` from a depth: what stands before the closing brace, and
what stands after it. -/
def scanBody : ℕ → List Char → Option (List Char × List Char)
  | _, [] => none
  | depth, [c] =>
    if c = closeBrace ∧ depth = 1 then some ([], []) else none
  | depth, c :: d :: rest =>
    if paired c d then (scanBody depth rest).map fun x => (c :: d :: x.1, x.2)
    else if c = openBrace then
      (scanBody (depth + 1) (d :: rest)).map fun x => (c :: x.1, x.2)
    else if c = closeBrace then
      if depth - 1 = 0 then some ([], d :: rest)
      else (scanBody (depth - 1) (d :: rest)).map fun x => (c :: x.1, x.2)
    else (scanBody depth (d :: rest)).map fun x => (c :: x.1, x.2)

/-- Layout on one line. -/
def isBlank (c : Char) : Bool := c = ' ' || c = '\t' || c = '\r'

/-- Layout before the opening brace. -/
def isLayout (c : Char) : Bool := isBlank c || c = '\n'

/-- The first line break of a text, if only blanks stand before it, goes with them. -/
def trimBreak (s : List Char) : List Char :=
  match s.dropWhile isBlank with
  | '\n' :: rest => rest
  | _ => s

/-- `trim_section_text`. -/
def trimSectionText (raw : List Char) : List Char := (trimBreak (trimBreak raw).reverse).reverse

/-- `section_body`: the body, and where the lexer goes on. -/
def sectionBody (remainder : List Char) : SectionBody × List Char :=
  match remainder.dropWhile isLayout with
  | c :: text =>
    if c = openBrace then
      match scanBody 1 text with
      | some (raw, rest) => (.body (trimSectionText raw), rest)
      | none => (.bare, remainder)
    else (.bare, remainder)
  | [] => (.bare, remainder)

/-- The keywords of the sections. -/
inductive Section where
  | header
  | element
  | elementSummary
  | elementOmit
  | sourceBreak
  | footer
  deriving DecidableEq

/-- The spelling of a keyword. -/
def Section.word : Section → List Char
  | .header => "HEADER".toList
  | .element => "ELEMENT".toList
  | .elementSummary => "ELEMENT_SUMMARY".toList
  | .elementOmit => "ELEMENT_OMIT".toList
  | .sourceBreak => "SOURCE_BREAK".toList
  | .footer => "FOOTER".toList

/-- The token of a section at the front of the input, in any ASCII case. -/
def lexSection (k : Section) (input : List Char) : Option (SectionBody × List Char) :=
  if (input.take k.word.length).map Char.toUpper = k.word then
    some (sectionBody (input.drop k.word.length))
  else none

/-! ## Texts of sections -/

/-- A text without braces, but for JSON objects whose braces are balanced. -/
inductive ObjectText : List Char → Prop
  | nil : ObjectText []
  | plain {c : Char} {s : List Char} (hopen : c ≠ openBrace) (hclose : c ≠ closeBrace) :
    ObjectText s → ObjectText (c :: s)
  | object {inner s : List Char} :
    ObjectText inner → ObjectText s → ObjectText (openBrace :: inner ++ closeBrace :: s)

/-- The text of a section: plain text, interpolations and JSON objects. -/
inductive SectionText : List Char → Prop
  | nil : SectionText []
  | plain {c : Char} {s : List Char} (hopen : c ≠ openBrace) (hclose : c ≠ closeBrace) :
    SectionText s → SectionText (c :: s)
  | tag {name s : List Char} (hopen : openBrace ∉ name) (hclose : closeBrace ∉ name) :
    SectionText s →
      SectionText (openBrace :: openBrace :: name ++ closeBrace :: closeBrace :: s)
  | object {inner s : List Char} :
    ObjectText inner → SectionText s → SectionText (openBrace :: inner ++ closeBrace :: s)

/-- The braces left when every run of equal ones loses two at a time. -/
def singles : List Char → List Char
  | [] => []
  | [c] => if c = openBrace ∨ c = closeBrace then [c] else []
  | c :: d :: rest =>
    if paired c d then singles rest
    else if c = openBrace ∨ c = closeBrace then c :: singles (d :: rest)
    else singles (d :: rest)

/-- The text ends in a single closing brace. -/
def endsSingle : List Char → Bool
  | [] => false
  | [c] => c = closeBrace
  | c :: d :: rest => if paired c d then endsSingle rest else endsSingle (d :: rest)

/-- Braces that close `depth` more than they open, and no more than that on the way. -/
def ClosesBy (depth : ℕ) (braces : List Char) : Prop :=
  (∀ p, p <+: braces → p.count closeBrace ≤ p.count openBrace + depth) ∧
    braces.count closeBrace = braces.count openBrace + depth

/-- Every brace closes one before it. -/
def Balanced (braces : List Char) : Prop := ClosesBy 0 braces

/-! ## The scan -/

theorem braces_ne : openBrace ≠ closeBrace := by decide

/-- The scan cuts the text in three. -/
theorem scanBody_eq {depth : ℕ} {s : List Char} :
    ∀ {body rest : List Char}, scanBody depth s = some (body, rest) →
      s = body ++ closeBrace :: rest := by
  fun_induction scanBody depth s with
  | case1 => intro body rest h; cases h
  | case2 depth c h =>
    intro body rest hs
    cases hs
    rw [h.1]
    rfl
  | case3 => intro body rest h; cases h
  | case4 depth c d tail hpair ih =>
    intro body rest hs
    obtain ⟨x, hx, hxs⟩ := Option.map_eq_some_iff.1 hs
    cases hxs
    rw [ih hx]
    rfl
  | case5 depth d tail hpair ih =>
    intro body rest hs
    obtain ⟨x, hx, hxs⟩ := Option.map_eq_some_iff.1 hs
    cases hxs
    rw [ih hx]
    rfl
  | case6 depth d tail hpair hne hzero =>
    intro body rest hs
    cases hs
    rfl
  | case7 depth d tail hpair hne hzero ih =>
    intro body rest hs
    obtain ⟨x, hx, hxs⟩ := Option.map_eq_some_iff.1 hs
    cases hxs
    rw [ih hx]
    rfl
  | case8 depth c d tail hpair hopen hclose ih =>
    intro body rest hs
    obtain ⟨x, hx, hxs⟩ := Option.map_eq_some_iff.1 hs
    cases hxs
    rw [ih hx]
    rfl

theorem closesBy_nil {depth : ℕ} : ClosesBy depth [] ↔ depth = 0 := by
  constructor
  · intro h
    simpa using h.2.symm
  · rintro rfl
    exact ⟨fun p hp => by simp [List.prefix_nil.1 hp], rfl⟩

theorem closesBy_open {depth : ℕ} {l : List Char} :
    ClosesBy depth (openBrace :: l) ↔ ClosesBy (depth + 1) l := by
  have hcount : ∀ p : List Char, (openBrace :: p).count closeBrace = p.count closeBrace ∧
      (openBrace :: p).count openBrace = p.count openBrace + 1 := fun p =>
    ⟨List.count_cons_of_ne (by decide), List.count_cons_self⟩
  constructor
  · intro h
    refine ⟨fun p hp => ?_, ?_⟩
    · have hle := h.1 (openBrace :: p) (List.cons_prefix_cons.2 ⟨rfl, hp⟩)
      rw [(hcount p).1, (hcount p).2] at hle
      omega
    · have heq := h.2
      rw [(hcount l).1, (hcount l).2] at heq
      omega
  · intro h
    refine ⟨fun p hp => ?_, ?_⟩
    · cases p with
      | nil => simp
      | cons c p =>
        obtain ⟨rfl, hrest⟩ := List.cons_prefix_cons.1 hp
        have hle := h.1 p hrest
        rw [(hcount p).1, (hcount p).2]
        omega
    · rw [(hcount l).1, (hcount l).2, h.2]
      omega

theorem closesBy_close {depth : ℕ} {l : List Char} :
    ClosesBy depth (closeBrace :: l) ↔ ∃ d, depth = d + 1 ∧ ClosesBy d l := by
  have hcount : ∀ p : List Char, (closeBrace :: p).count openBrace = p.count openBrace ∧
      (closeBrace :: p).count closeBrace = p.count closeBrace + 1 := fun p =>
    ⟨List.count_cons_of_ne (by decide), List.count_cons_self⟩
  constructor
  · intro h
    have hone := h.1 [closeBrace] (List.cons_prefix_cons.2 ⟨rfl, List.nil_prefix⟩)
    rw [(hcount []).1, (hcount []).2] at hone
    simp only [List.count_nil] at hone
    refine ⟨depth - 1, by omega, fun p hp => ?_, ?_⟩
    · have hle := h.1 (closeBrace :: p) (List.cons_prefix_cons.2 ⟨rfl, hp⟩)
      rw [(hcount p).1, (hcount p).2] at hle
      omega
    · have heq := h.2
      rw [(hcount l).1, (hcount l).2] at heq
      omega
  · rintro ⟨d, rfl, h⟩
    refine ⟨fun p hp => ?_, ?_⟩
    · cases p with
      | nil => simp
      | cons c p =>
        obtain ⟨rfl, hrest⟩ := List.cons_prefix_cons.1 hp
        have hle := h.1 p hrest
        rw [(hcount p).1, (hcount p).2]
        omega
    · rw [(hcount l).1, (hcount l).2, h.2]
      omega

/-- A map that puts characters in front gives a body that starts with them. -/
theorem map_front (front : List Char) {body tail : List Char}
    {x : Option (List Char × List Char)} :
    x.map (fun y => (front ++ y.1, y.2)) = some (front ++ body, tail) ↔ x = some (body, tail) := by
  cases x with
  | none => simp
  | some y =>
    obtain ⟨a, b⟩ := y
    simp

/-- The scan at the closing brace of the section. -/
theorem scanBody_close {depth : ℕ} {tail : List Char} :
    scanBody (depth + 1) (closeBrace :: tail) = some ([], tail) ↔
      tail.head? ≠ some closeBrace ∧ depth = 0 := by
  cases tail with
  | nil =>
    rw [scanBody]
    by_cases hdepth : depth = 0
    · simp [hdepth]
    · rw [if_neg fun h => hdepth (Nat.succ.inj h.2)]
      simp [hdepth]
  | cons t tail =>
    rw [scanBody]
    by_cases ht : t = closeBrace
    · subst ht
      rw [if_pos (by decide)]
      simp only [List.head?_cons, ne_eq, not_true_eq_false, false_and, iff_false]
      intro h
      obtain ⟨x, -, hx⟩ := Option.map_eq_some_iff.1 h
      cases hx
    · have hpair : paired closeBrace t = false := by
        simp [paired, ht, braces_ne.symm]
      rw [hpair, if_neg Bool.false_ne_true, if_neg braces_ne.symm, if_pos rfl, Nat.add_sub_cancel]
      by_cases hdepth : depth = 0
      · simp [hdepth, ht]
      · rw [if_neg hdepth]
        simp only [hdepth, and_false, iff_false]
        intro h
        obtain ⟨x, -, hx⟩ := Option.map_eq_some_iff.1 h
        cases hx

/-- The scan at a single character, as the rest of the text decides it. -/
theorem scanBody_single {depth : ℕ} {c d : Char} {u rest tail : List Char}
    (hpair : paired c d = false)
    (ih : ∀ depth, scanBody (depth + 1) (d :: rest) = some (u, tail) ↔
      endsSingle u = false ∧ tail.head? ≠ some closeBrace ∧ ClosesBy depth (singles u)) :
    scanBody (depth + 1) (c :: d :: rest) = some (c :: u, tail) ↔
      endsSingle u = false ∧ tail.head? ≠ some closeBrace ∧
        ClosesBy depth ((if c = openBrace ∨ c = closeBrace then [c] else []) ++ singles u) := by
  have front : ∀ x : Option (List Char × List Char),
      x.map (fun y => (c :: y.1, y.2)) = some (c :: u, tail) ↔ x = some (u, tail) := fun x =>
    map_front [c]
  rw [scanBody, hpair, if_neg Bool.false_ne_true]
  by_cases hopen : c = openBrace
  · rw [if_pos hopen, front, ih, if_pos (.inl hopen), hopen, List.singleton_append, closesBy_open]
  · rw [if_neg hopen]
    by_cases hclose : c = closeBrace
    · have hleft : (if c = openBrace ∨ c = closeBrace then [c] else []) = [closeBrace] := by
        rw [if_pos (.inr hclose), hclose]
      rw [if_pos hclose, Nat.add_sub_cancel, hleft, List.singleton_append, closesBy_close]
      by_cases hdepth : depth = 0
      · rw [if_pos hdepth, hdepth]
        simp
      · obtain ⟨e, rfl⟩ := Nat.exists_eq_succ_of_ne_zero hdepth
        rw [if_neg hdepth, front, ih]
        simp
    · rw [if_neg hclose, front, ih, if_neg (not_or.2 ⟨hopen, hclose⟩), List.nil_append]

/-- **The scan ends at the closing brace of the section** if the single braces of the
text are balanced, its last brace is not half of a pair, and none follows. -/
theorem scanBody_iff (tail : List Char) : ∀ (u : List Char) (depth : ℕ),
    scanBody (depth + 1) (u ++ closeBrace :: tail) = some (u, tail) ↔
      endsSingle u = false ∧ tail.head? ≠ some closeBrace ∧ ClosesBy depth (singles u)
  | [], depth => by
    rw [List.nil_append, scanBody_close, singles, closesBy_nil]
    simp [endsSingle]
  | [c], depth => by
    have hnil := scanBody_iff tail []
    rw [List.singleton_append]
    by_cases hclose : c = closeBrace
    · have hpair : paired c closeBrace = true := by simp [paired, hclose]
      rw [scanBody, if_pos hpair]
      simp only [endsSingle, hclose, decide_true, Bool.true_eq_false, false_and, iff_false]
      intro h
      obtain ⟨x, -, hx⟩ := Option.map_eq_some_iff.1 h
      cases hx
    · have hpair : paired c closeBrace = false := by
        simp [paired, hclose, braces_ne.symm]
      rw [scanBody_single hpair hnil]
      simp [endsSingle, singles, hclose]
  | c :: e :: u, depth => by
    rw [List.cons_append, List.cons_append]
    by_cases hpair : paired c e = true
    · have front : ∀ x : Option (List Char × List Char),
          x.map (fun y => (c :: e :: y.1, y.2)) = some (c :: e :: u, tail) ↔ x = some (u, tail) :=
        fun x => map_front [c, e]
      rw [scanBody, if_pos hpair, front, scanBody_iff tail u, endsSingle, if_pos hpair, singles,
        if_pos hpair]
    · have hpair : paired c e = false := Bool.eq_false_iff.2 hpair
      have hrest : ∀ depth, scanBody (depth + 1) (e :: (u ++ closeBrace :: tail)) =
          some (e :: u, tail) ↔ endsSingle (e :: u) = false ∧ tail.head? ≠ some closeBrace ∧
            ClosesBy depth (singles (e :: u)) := scanBody_iff tail (e :: u)
      rw [scanBody_single hpair hrest, endsSingle, singles, hpair]
      simp only [Bool.false_eq_true, if_false]
      split <;> rfl

/-! ## The body -/

theorem dropWhile_isLayout_append {ws : List Char} (h : ∀ c ∈ ws, isLayout c = true)
    (text : List Char) :
    (ws ++ openBrace :: text).dropWhile isLayout = openBrace :: text := by
  rw [List.dropWhile_append_of_pos h, List.dropWhile_cons_of_neg (by decide)]

/-- **A body is captured, and nothing after it,** under the condition of the scan. -/
theorem sectionBody_iff (ws text tail : List Char) (hws : ∀ c ∈ ws, isLayout c = true) :
    sectionBody (ws ++ openBrace :: text ++ closeBrace :: tail) =
        (.body (trimSectionText text), tail) ↔
      endsSingle text = false ∧ tail.head? ≠ some closeBrace ∧ Balanced (singles text) := by
  have hdrop : (ws ++ openBrace :: text ++ closeBrace :: tail).dropWhile isLayout =
      openBrace :: (text ++ closeBrace :: tail) := by
    rw [List.append_assoc, List.cons_append, dropWhile_isLayout_append hws]
  rw [Balanced, ← scanBody_iff tail text 0, sectionBody, hdrop]
  simp only [if_true]
  cases hscan : scanBody 1 (text ++ closeBrace :: tail) with
  | none => simp
  | some x =>
    obtain ⟨raw, rest⟩ := x
    constructor
    · intro h
      obtain ⟨-, hrest⟩ := Prod.mk.inj h
      have hcut := scanBody_eq hscan
      rw [hrest] at hcut
      rw [hrest, List.append_cancel_right hcut]
    · intro h
      cases h
      rfl

theorem singles_concat {c : Char} (hopen : c ≠ openBrace) (hclose : c ≠ closeBrace) :
    ∀ text : List Char, singles (text ++ [c]) = singles text
  | [] => by simp [singles, hopen, hclose]
  | [d] => by
    have hpair : paired d c = false := by simp [paired, hopen, hclose]
    simp [singles, hpair, hopen, hclose]
  | d :: e :: text => by
    have hrest := singles_concat hopen hclose (e :: text)
    rw [List.cons_append] at hrest
    rw [List.cons_append, List.cons_append, singles, singles, singles_concat hopen hclose text,
      hrest]

theorem endsSingle_concat {c : Char} (hopen : c ≠ openBrace) (hclose : c ≠ closeBrace) :
    ∀ text : List Char, endsSingle (text ++ [c]) = false
  | [] => by simp [endsSingle, hclose]
  | [d] => by
    have hpair : paired d c = false := by simp [paired, hopen, hclose]
    simp [endsSingle, hpair, hclose]
  | d :: e :: text => by
    have hrest := endsSingle_concat hopen hclose (e :: text)
    rw [List.cons_append] at hrest
    rw [List.cons_append, List.cons_append, endsSingle, endsSingle_concat hopen hclose text, hrest,
      ite_self]

theorem singles_blank (text : List Char) : singles (' ' :: text) = singles text := by
  cases text with
  | nil => rfl
  | cons c text =>
    rw [singles, if_neg (by simp [paired, openBrace, closeBrace]), if_neg (by decide)]

/-- A keyword in capitals gives the token of its section. -/
theorem lexSection_word (k : Section) (rest : List Char) :
    lexSection k (k.word ++ rest) = some (sectionBody rest) := by
  have hword : k.word.map Char.toUpper = k.word := by cases k <;> decide
  rw [lexSection, List.take_left, hword, if_pos rfl, List.drop_left]

/-- `ELEMENT { text }` before the rest of a query. -/
def elementSource (text tail : List Char) : List Char :=
  Section.element.word ++ ' ' :: openBrace :: ' ' :: text ++ ' ' :: closeBrace :: tail

/-- The token of `ELEMENT { text }`: its body, and the rest of the query. -/
def Captured (text tail : List Char) : Prop :=
  lexSection .element (elementSource text tail) =
    some (.body (trimSectionText (' ' :: text ++ [' '])), tail)

/-- **The body of `ELEMENT { text }` is captured exactly** if and only if the braces
left in it, when equal ones that touch go in pairs, are balanced, and no closing brace
follows the section at once. -/
theorem element_captured_iff (text tail : List Char) :
    Captured text tail ↔ Balanced (singles text) ∧ tail.head? ≠ some closeBrace := by
  have hsource : elementSource text tail = Section.element.word ++
      ([' '] ++ openBrace :: (' ' :: text ++ [' ']) ++ closeBrace :: tail) := by
    simp [elementSource]
  have hplain : endsSingle (' ' :: text ++ [' ']) = false :=
    endsSingle_concat (by decide) (by decide) _
  rw [Captured, hsource, lexSection_word, Option.some.injEq,
    sectionBody_iff [' '] _ tail (List.all_eq_true.1 (by decide)),
    singles_concat (by decide) (by decide), singles_blank]
  simp only [hplain, true_and]
  exact And.comm

/-! ### On fixed texts -/

/-- A JSON object in another, their closing braces touching. -/
def nestedObject : List Char :=
  openBrace :: "\"a\":".toList ++ openBrace :: "\"b\":1".toList ++ [closeBrace, closeBrace]

theorem objectText_plain {s t : List Char}
    (h : (s.all fun c => c ≠ openBrace ∧ c ≠ closeBrace) = true) (ht : ObjectText t) :
    ObjectText (s ++ t) := by
  induction s with
  | nil => exact ht
  | cons c s ih =>
    rw [List.all_cons, Bool.and_eq_true, decide_eq_true_eq] at h
    exact .plain h.1.1 h.1.2 (ih h.2)

theorem nestedObject_text : SectionText nestedObject := by
  have hinner : ObjectText ("\"b\":1".toList ++ []) := objectText_plain (by decide) .nil
  have houter := objectText_plain (s := "\"a\":".toList) (by decide)
    (ObjectText.object hinner .nil)
  simpa [nestedObject] using SectionText.object houter .nil

/-- The touching braces are taken for the end of an interpolation. -/
theorem nestedObject_not_captured :
    SectionText nestedObject ∧ ¬ Captured nestedObject [] := by
  refine ⟨nestedObject_text, ?_⟩
  unfold Captured
  decide +kernel

end Deja.Cal

import Deja.Template.Render

/-!
# Comments between nodes

A comment put between two pieces of a source changes neither whether it parses
nor what it renders, unless the parser takes it, or a comment it follows, for
the mark of an `{{else}}`: both can only happen at the end of the first body of an
`{{#if}}`, right before `{{/if}}`.

* `nextPiece_split` — a piece is read the same whatever follows it.
* `Inserted` — a source and the same source with one comment more.
* `parseNodes_sim` — the parser keeps them alike.
-/

namespace Deja.Template

open Deja.Authz

/-! ## Reading a piece -/

theorem readTag_cons (depth : ℕ) (c : Char) (s : List Char) :
    readTag depth (c :: s) =
      if c = '}' ∧ s.head? = some '}' then
        if depth = 1 then some ([], s.tail)
        else (readTag (depth - 1) s).map fun r => (c :: r.1, r.2)
      else if c = '{' ∧ s.head? = some '{' then
        match s with
        | [] => none
        | b :: s' => (readTag (depth + 1) s').map fun r => (c :: b :: r.1, r.2)
      else (readTag depth s).map fun r => (c :: r.1, r.2) :=
  readTag.eq_def depth (c :: s)

theorem readTag_split {s : List Char} : ∀ {depth : ℕ} {content rest : List Char},
    readTag depth s = some (content, rest) →
      ∃ w, w ≠ [] ∧ s = w ++ rest ∧
        ∀ rest', readTag depth (w ++ rest') = some (content, rest') := by
  induction hlen : s.length using Nat.strong_induction_on generalizing s with
  | _ k ih =>
    intro depth content rest h
    cases s with
    | nil => simp [readTag] at h
    | cons c s =>
      simp only [List.length_cons] at hlen
      rw [readTag_cons] at h
      by_cases hclose : c = '}' ∧ s.head? = some '}'
      · rw [if_pos hclose] at h
        obtain ⟨rfl, hhead⟩ := hclose
        obtain ⟨s, rfl⟩ : ∃ t, s = '}' :: t := by
          cases s with
          | nil => simp at hhead
          | cons d t =>
            obtain rfl : d = '}' := by simpa using hhead
            exact ⟨t, rfl⟩
        by_cases hd : depth = 1
        · rw [if_pos hd] at h
          obtain ⟨rfl, rfl⟩ := Prod.mk.inj (Option.some.inj h)
          refine ⟨['}', '}'], by simp, rfl, fun rest' => ?_⟩
          simp [readTag_cons, hd]
        · rw [if_neg hd] at h
          obtain ⟨⟨c', r⟩, hr, heq⟩ := Option.map_eq_some_iff.1 h
          obtain ⟨rfl, rfl⟩ := Prod.mk.inj heq
          obtain ⟨w, hw, hsplit, hread⟩ := ih _ (by omega) rfl hr
          obtain ⟨d, w, rfl⟩ := List.exists_cons_of_ne_nil hw
          obtain ⟨rfl, hs⟩ : '}' = d ∧ s = w ++ r := by simpa using hsplit
          refine ⟨'}' :: '}' :: w, by simp, by rw [hs]; rfl, fun rest' => ?_⟩
          rw [List.cons_append, readTag_cons, if_pos ⟨rfl, rfl⟩, if_neg hd, hread]
          rfl
      · rw [if_neg hclose] at h
        by_cases hopen : c = '{' ∧ s.head? = some '{'
        · rw [if_pos hopen] at h
          obtain ⟨rfl, hhead⟩ := hopen
          cases s with
          | nil => simp at hhead
          | cons d t =>
            obtain rfl : d = '{' := by simpa using hhead
            obtain ⟨⟨c', r⟩, hr, heq⟩ := Option.map_eq_some_iff.1 h
            obtain ⟨rfl, rfl⟩ := Prod.mk.inj heq
            simp only [List.length_cons] at hlen
            obtain ⟨w, hw, hsplit, hread⟩ := ih _ (by omega) rfl hr
            refine ⟨'{' :: '{' :: w, by simp, by rw [hsplit]; rfl, fun rest' => ?_⟩
            rw [List.cons_append, readTag_cons, if_neg (by simp), if_pos ⟨rfl, rfl⟩]
            simp only [List.cons_append, hread, Option.map_some]
        · rw [if_neg hopen] at h
          obtain ⟨⟨c', r⟩, hr, heq⟩ := Option.map_eq_some_iff.1 h
          obtain ⟨rfl, rfl⟩ := Prod.mk.inj heq
          obtain ⟨w, hw, hsplit, hread⟩ := ih _ (by omega) rfl hr
          obtain ⟨d, w, rfl⟩ := List.exists_cons_of_ne_nil hw
          have hhead : ∀ rest', (d :: w ++ rest').head? = s.head? := by
            intro rest'
            rw [hsplit]
            rfl
          refine ⟨c :: d :: w, by simp, by rw [hsplit]; rfl, fun rest' => ?_⟩
          rw [List.cons_append, readTag_cons, hhead, if_neg hclose, if_neg hopen, hread]
          rfl

theorem atTag_iff {s : List Char} : atTag s = true ↔ ∃ r, s = '{' :: '{' :: r := by
  rw [atTag, List.isPrefixOf_iff_prefix]
  constructor
  · rintro ⟨r, rfl⟩
    exact ⟨r, rfl⟩
  · rintro ⟨r, rfl⟩
    exact ⟨r, rfl⟩

theorem readText_split (s : List Char) :
    s = (readText s).1 ++ (readText s).2 ∧
      ((readText s).2 = [] ∨ atTag (readText s).2 = true) ∧
      (atTag (readText s).2 = true → ∀ rest, atTag rest = true →
        readText ((readText s).1 ++ rest) = ((readText s).1, rest)) := by
  induction s with
  | nil =>
    refine ⟨rfl, .inl rfl, fun h => ?_⟩
    simp [readText, atTag] at h
  | cons c s ih =>
    rw [readText]
    by_cases h : c = '{' ∧ s.head? = some '{'
    · rw [if_pos h]
      obtain ⟨rfl, hhead⟩ := h
      cases s with
      | nil => simp at hhead
      | cons d t =>
        obtain rfl : d = '{' := by simpa using hhead
        refine ⟨rfl, .inr (atTag_iff.2 ⟨t, rfl⟩), fun _ rest hrest => ?_⟩
        obtain ⟨r, rfl⟩ := atTag_iff.1 hrest
        simp [readText]
    · rw [if_neg h]
      obtain ⟨hsplit, hend, hread⟩ := ih
      refine ⟨by rw [List.cons_append, ← hsplit], hend, fun htag rest hrest => ?_⟩
      have hhead : ((readText s).1 ++ rest).head? = s.head? := by
        obtain ⟨r, hr⟩ := atTag_iff.1 htag
        obtain ⟨r', rfl⟩ := atTag_iff.1 hrest
        have hr : (readText s).2 = '{' :: '{' :: r := hr
        conv_rhs => rw [hsplit, hr]
        cases (readText s).1 with
        | nil => rfl
        | cons d t => rfl
      rw [List.cons_append, readText, hhead, if_neg h, hread htag rest hrest]

/-- **A piece is read the same whatever follows it**, as long as a text is
followed by a tag. -/
theorem nextPiece_split {s rest : List Char} {p : Piece} (hs : s ≠ [])
    (h : nextPiece s = .ok (p, rest)) :
    ∃ w, w ≠ [] ∧ s = w ++ rest ∧ ∀ rest', (∀ t, p = .text t → atTag rest = true ∧
      atTag rest' = true) → nextPiece (w ++ rest') = .ok (p, rest') := by
  rw [nextPiece] at h
  by_cases htag : atTag s = true
  · rw [if_pos htag] at h
    obtain ⟨r, rfl⟩ := atTag_iff.1 htag
    simp only [List.drop_succ_cons, List.drop_zero] at h
    cases hread : readTag 1 r with
    | none => simp [hread] at h
    | some x =>
      obtain ⟨content, rest''⟩ := x
      simp only [hread, Except.ok.injEq, Prod.mk.injEq] at h
      obtain ⟨rfl, rfl⟩ := h
      obtain ⟨w, hw, rfl, hall⟩ := readTag_split hread
      refine ⟨'{' :: '{' :: w, by simp, rfl, fun rest' _ => ?_⟩
      have hat : atTag ('{' :: '{' :: w ++ rest') = true := atTag_iff.2 ⟨w ++ rest', rfl⟩
      rw [nextPiece, if_pos hat]
      simp only [List.cons_append, List.drop_succ_cons, List.drop_zero, hall]
  · rw [if_neg htag] at h
    simp only [Except.ok.injEq, Prod.mk.injEq] at h
    obtain ⟨rfl, rfl⟩ := h
    obtain ⟨hsplit, hend, hread⟩ := readText_split s
    have hne : (readText s).1 ≠ [] := by
      intro hnil
      rw [hnil, List.nil_append] at hsplit
      rcases hend with hend | hend
      · exact hs (hsplit.trans hend)
      · exact htag (by rw [hsplit]; exact hend)
    refine ⟨(readText s).1, hne, hsplit, fun rest' hafter => ?_⟩
    obtain ⟨hat, hat'⟩ := hafter _ rfl
    have hnot : ¬ atTag ((readText s).1 ++ rest') = true := by
      intro hcontra
      apply htag
      obtain ⟨r, hr⟩ := atTag_iff.1 hat
      obtain ⟨r', rfl⟩ := atTag_iff.1 hat'
      rw [hsplit, hr]
      generalize (readText s).1 = t at *
      cases t with
      | nil => exact atTag_iff.2 ⟨r, rfl⟩
      | cons c t =>
        cases t with
        | nil =>
          obtain ⟨x, hx⟩ := atTag_iff.1 hcontra
          obtain ⟨rfl, -⟩ := List.cons.inj hx
          exact atTag_iff.2 ⟨_, rfl⟩
        | cons d t =>
          obtain ⟨x, hx⟩ := atTag_iff.1 hcontra
          obtain ⟨rfl, hx'⟩ := List.cons.inj hx
          have hd : d = '{' := (List.cons.inj hx').1
          exact atTag_iff.2 ⟨t ++ '{' :: '{' :: r, by rw [hd]; rfl⟩
    rw [nextPiece, if_neg hnot, hread hat rest' hat']

theorem nextPiece_length {s rest : List Char} {p : Piece} (hs : s ≠ [])
    (h : nextPiece s = .ok (p, rest)) : rest.length < s.length := by
  obtain ⟨w, hw, rfl, -⟩ := nextPiece_split hs h
  have := List.length_pos_of_ne_nil hw
  simp only [List.length_append]
  omega

theorem atTag_of_tag {s rest content : List Char} (h : nextPiece s = .ok (.tag content, rest)) :
    atTag s = true := by
  rw [nextPiece] at h
  by_contra htag
  simp [htag] at h

theorem atTag_rest_of_text {s rest t : List Char} (h : nextPiece s = .ok (.text t, rest))
    (hrest : rest ≠ []) : atTag rest = true := by
  rw [nextPiece] at h
  by_cases htag : atTag s = true
  · rw [if_pos htag] at h
    cases hread : readTag 1 (s.drop 2) <;> simp [hread] at h
  · rw [if_neg htag] at h
    simp only [Except.ok.injEq, Prod.mk.injEq] at h
    obtain ⟨-, rfl⟩ := h
    exact (readText_split s).2.1.resolve_left hrest

/-! ## The comment -/

/-- A comment as it is written. -/
def commentTag (text : List Char) : List Char :=
  '{' :: '{' :: '!' :: ' ' :: (text ++ [' ', '}', '}'])

/-- No two braces of a kind in a row. -/
def NoPair (c : Char) (s : List Char) : Prop := s.IsChain fun a b => ¬ (a = c ∧ b = c)

theorem NoPair.tail {c d : Char} {s : List Char} (h : NoPair c (d :: s)) : NoPair c s := by
  cases s with
  | nil => exact .nil
  | cons e t => exact (List.isChain_cons_cons.1 h).2

theorem NoPair.head {c : Char} {s : List Char} (h : NoPair c (c :: s)) : s.head? ≠ some c := by
  intro hhead
  cases s with
  | nil => simp at hhead
  | cons d t =>
    obtain rfl : d = c := by simpa using hhead
    exact (List.isChain_cons_cons.1 h).1 ⟨rfl, rfl⟩

theorem NoPair.cons {c d : Char} {s : List Char} (hd : d ≠ c) (h : NoPair c s) :
    NoPair c (d :: s) := by
  cases s with
  | nil => exact .singleton d
  | cons e t => exact List.isChain_cons_cons.2 ⟨fun hboth => hd hboth.1, h⟩

theorem NoPair.append {c d : Char} {s t : List Char} (hs : NoPair c s) (hd : d ≠ c)
    (ht : NoPair c (d :: t)) : NoPair c (s ++ d :: t) := by
  induction s with
  | nil => exact ht
  | cons e s ih =>
    cases s with
    | nil => exact List.isChain_cons_cons.2 ⟨fun hboth => hd hboth.2, ht⟩
    | cons f s =>
      obtain ⟨hef, hs⟩ := List.isChain_cons_cons.1 hs
      exact List.isChain_cons_cons.2 ⟨hef, ih hs⟩

/-- Content without pairs of braces is read up to its closing braces. -/
theorem readTag_plain {s : List Char} (rest : List Char) (hclose : NoPair '}' (s ++ ['}']))
    (hopen : NoPair '{' s) : readTag 1 (s ++ '}' :: '}' :: rest) = some (s, rest) := by
  induction s with
  | nil => simp [readTag_cons]
  | cons c s ih =>
    have ih := ih hclose.tail hopen.tail
    have hc : ¬ (c = '}' ∧ (s ++ '}' :: '}' :: rest).head? = some '}') := by
      rintro ⟨rfl, hhead⟩
      refine NoPair.head hclose ?_
      cases s with
      | nil => rfl
      | cons d t => simpa using hhead
    have ho : ¬ (c = '{' ∧ (s ++ '}' :: '}' :: rest).head? = some '{') := by
      rintro ⟨rfl, hhead⟩
      refine NoPair.head hopen ?_
      cases s with
      | nil => simp at hhead
      | cons d t => simpa using hhead
    rw [List.cons_append, readTag_cons, if_neg hc, if_neg ho, ih]
    rfl

theorem nextPiece_commentTag {text : List Char} (hopen : NoPair '{' text)
    (hclose : NoPair '}' text) (rest : List Char) :
    nextPiece (commentTag text ++ rest) =
      .ok (.tag ('!' :: ' ' :: (text ++ [' '])), rest) := by
  have hat : atTag (commentTag text ++ rest) = true := atTag_iff.2 ⟨_, rfl⟩
  have hlast : NoPair '}' [' ', '}'] := NoPair.cons (by decide) (.singleton _)
  have hend : NoPair '}' ('!' :: ' ' :: (text ++ [' ']) ++ ['}']) := by
    have h := ((hclose.append (by decide) hlast).cons (by decide : ' ' ≠ '}')).cons
      (by decide : '!' ≠ '}')
    simpa using h
  have hstart : NoPair '{' ('!' :: ' ' :: (text ++ [' '])) :=
    ((hopen.append (by decide) (.singleton _)).cons (by decide)).cons (by decide)
  have hread := readTag_plain rest hend hstart
  have hdrop : (commentTag text ++ rest).drop 2 =
      '!' :: ' ' :: (text ++ [' ']) ++ '}' :: '}' :: rest := by
    simp [commentTag]
  rw [nextPiece, if_pos hat, hdrop, hread]

theorem readTagKind_comment (validName : List Char → Bool) (inEach : Bool) (text : List Char) :
    readTagKind validName inEach (trim ('!' :: ' ' :: (text ++ [' ']))) =
      .ok (.comment (trim text)) := by
  have hspace : isWhitespace ' ' = true := by decide
  have htrim : trim ('!' :: ' ' :: (text ++ [' '])) =
      '!' :: (' ' :: (text ++ [' '])).rdropWhile isWhitespace :=
    Text.trim_cons_neg (by decide) _
  rw [htrim]
  simp only [readTagKind]
  rw [trim, Text.trim_rdropWhile, Text.trim_cons hspace, Text.trim_concat hspace]
  rfl

/-- Whether a piece is a comment reading `__else__`. -/
def isElsePiece : Piece → Bool
  | .tag content =>
    match trim content with
    | '!' :: s => trim s == elseMark
    | _ => false
  | .text _ => false

/-- Whether a text goes on with `{{/if}}`. -/
def ClosesIf (s : List Char) : Prop :=
  ∃ content rest name, nextPiece s = .ok (.tag content, rest) ∧ trim content = '/' :: name ∧
    trim name = "if".toList

/-- A body being read: the first of an `{{#if}}`, or another. -/
inductive Body where
  | first
  | other
  deriving DecidableEq

/-- The bodies being read after the end of the innermost; `b` tells whether a mark of an
`{{else}}` stands there, after which a first body is followed by the second. -/
def closeBody (b : Bool) : List Body → List Body
  | .first :: bodies => if b then .other :: bodies else bodies
  | .other :: bodies => bodies
  | [] => []

/-- Whether what follows `{{#` opens an `{{#if}}`. -/
def IsIfSection (sect : List Char) : Prop :=
  ¬("each ".toList.isPrefixOf sect ∨ sect = "each".toList) ∧
    ("if ".toList.isPrefixOf sect ∨ sect = "if".toList)

instance (sect : List Char) : Decidable (IsIfSection sect) :=
  inferInstanceAs (Decidable (¬_ ∧ _))

/-- The bodies being read after a piece. -/
def bodiesAfter (b : Bool) (bodies : List Body) : Piece → List Body
  | .text _ => bodies
  | .tag content =>
    match trim content with
    | '!' :: _ => bodies
    | '/' :: _ => closeBody b bodies
    | '#' :: s => (if IsIfSection (trim s) then .first else .other) :: bodies
    | '^' :: _ => .other :: bodies
    | s => if s = "else".toList then closeBody true bodies else bodies

/-- What is left of a source after some whole pieces; the flags tell whether
the last piece before each of the two is a comment reading `__else__`, the lists the
bodies being read there, innermost first. -/
inductive Between : Bool → List Body → List Char → Bool → List Body → List Char → Prop where
  | here (b : Bool) (bodies : List Body) (s : List Char) : Between b bodies s b bodies s
  | next {b b' : Bool} {bodies bodies' : List Body} {s r t : List Char} {p : Piece} : s ≠ [] →
      nextPiece s = .ok (p, r) →
      Between (isElsePiece p) (bodiesAfter b bodies p) r b' bodies' t →
      Between b bodies s b' bodies' t

/-- A comment may stand before `t`: where `{{/if}}` ends the first body of an `{{#if}}`,
neither it nor a comment it follows reads `__else__`. -/
def MayStand (b : Bool) (bodies : List Body) (text t : List Char) : Prop :=
  bodies.head? = some .first → ClosesIf t → b = false ∧ trim text ≠ elseMark

/-- A source and the same source with a comment between two of its pieces. -/
inductive Inserted (text : List Char) : Bool → List Body → List Char → List Char → Prop where
  | here {b : Bool} {bodies : List Body} {t : List Char} : t ≠ [] → MayStand b bodies text t →
      Inserted text b bodies t (commentTag text ++ t)
  | next {b : Bool} {bodies : List Body} {s s' r r' : List Char} {p : Piece} : s ≠ [] →
      s' ≠ [] → nextPiece s = .ok (p, r) → nextPiece s' = .ok (p, r') →
      Inserted text (isElsePiece p) (bodiesAfter b bodies p) r r' → Inserted text b bodies s s'

theorem Inserted.atTag {text : List Char} {b : Bool} {bodies : List Body} {s s' : List Char}
    (h : Inserted text b bodies s s') (hs : atTag s = true) : Deja.Template.atTag s' = true := by
  cases h with
  | here _ _ => exact atTag_iff.2 ⟨_, rfl⟩
  | @next b bodies s s' r r' p _ _ hp hp' _ =>
    cases p with
    | tag content => exact atTag_of_tag hp'
    | text t =>
      rw [nextPiece, if_pos hs] at hp
      cases hread : readTag 1 (s.drop 2) <;> simp [hread] at hp

/-- A comment put before what is left after some pieces. -/
theorem inserted_of_between {text : List Char} {b b' : Bool} {bodies bodies' : List Body}
    {s t : List Char} (h : Between b bodies s b' bodies' t) (ht : t ≠ [])
    (hstand : MayStand b' bodies' text t) :
    ∃ w, s = w ++ t ∧ Inserted text b bodies s (w ++ (commentTag text ++ t)) := by
  induction h with
  | here b bodies s => exact ⟨[], rfl, .here ht hstand⟩
  | @next b b' bodies bodies' s r t p hs hp _ ih =>
    obtain ⟨w, rfl, hins⟩ := ih ht hstand
    obtain ⟨v, hv, rfl, hall⟩ := nextPiece_split hs hp
    refine ⟨v ++ w, by simp, ?_⟩
    rw [List.append_assoc]
    refine .next hs (by simp [hv]) hp (hall _ ?_) hins
    rintro x rfl
    have hat := atTag_rest_of_text hp (by simp [ht])
    exact ⟨hat, hins.atTag hat⟩

/-! ## The parser on both sources -/

variable {validName : List Char → Bool}

theorem consNode_eq_ok {node : TemplateNode} {x : Parsed}
    {ns : List TemplateNode} {r : List Char} (h : consNode node x = .ok (ns, r)) :
    ∃ ns', x = .ok (ns', r) ∧ ns = node :: ns' := by
  cases x with
  | error e => simp [consNode, Except.map] at h
  | ok y =>
    obtain ⟨ns', r'⟩ := y
    simp only [consNode, Except.map, Except.ok.injEq, Prod.mk.injEq] at h
    obtain ⟨rfl, rfl⟩ := h
    exact ⟨ns', rfl, rfl⟩

theorem enter_eq_ok {depth : ℕ} {x : Parsed}
    {y : List TemplateNode × List Char} (h : enter depth x = .ok y) : x = .ok y := by
  unfold enter at h
  split at h
  · cases h
  · exact h

/-- The parser never gives text back. -/
theorem parseNodes_length (n : ℕ) : ∀ {depth : ℕ} {inEach : Bool} {stop : Option (List Char)}
    {s r : List Char} {ns : List TemplateNode},
    parseNodes validName n depth inEach stop s = .ok (ns, r) → r.length ≤ s.length := by
  induction n with
  | zero => intro depth inEach stop s r ns h; simp [parseNodes] at h
  | succ n ih =>
    intro depth inEach stop s r ns h
    rw [parseNodes, parseRound.eq_def] at h
    by_cases hs : s = []
    · subst hs
      cases stop with
      | some e => simp at h
      | none =>
        obtain ⟨-, rfl⟩ : [] = ns ∧ [] = r := by simpa using h
        exact le_rfl
    · rw [if_neg hs] at h
      cases hp : nextPiece s with
      | error e => simp [hp] at h
      | ok x =>
        obtain ⟨p, rest⟩ := x
        have hrest := (nextPiece_length hs hp).le
        simp only [hp] at h
        cases p with
        | text t =>
          obtain ⟨ns', hrun, -⟩ := consNode_eq_ok h
          exact (ih hrun).trans hrest
        | tag content =>
          simp only at h
          cases hk : readTagKind validName inEach (trim content) with
          | error e => simp [hk] at h
          | ok kind =>
            simp only [hk] at h
            cases kind with
            | comment t =>
              obtain ⟨ns', hrun, -⟩ := consNode_eq_ok h
              exact (ih hrun).trans hrest
            | close name =>
              simp only at h
              split at h
              · obtain ⟨-, rfl⟩ : [] = ns ∧ rest = r := by simpa using h
                exact hrest
              · cases h
            | elseTag =>
              simp only at h
              split at h
              · obtain ⟨-, rfl⟩ : [TemplateNode.comment elseMark] = ns ∧ rest = r := by
                  simpa using h
                exact hrest
              · cases h
            | «variable» name filters =>
              obtain ⟨ns', hrun, -⟩ := consNode_eq_ok h
              exact (ih hrun).trans hrest
            | opening o =>
              simp only at h
              cases hbody : enter (depth + 1) (parseNodes validName n (depth + 1)
                  (o.inEach inEach) (some o.stop) rest) with
              | error e => simp [hbody] at h
              | ok x =>
                obtain ⟨body, rest'⟩ := x
                have hrest' := (ih (enter_eq_ok hbody)).trans hrest
                simp only [hbody] at h
                split at h
                · cases helse : enter (depth + 1) (parseNodes validName n (depth + 1)
                      inEach (some o.stop) rest') with
                  | error e => simp [helse] at h
                  | ok x =>
                    obtain ⟨elseBody, rest''⟩ := x
                    simp only [helse] at h
                    obtain ⟨ns', hrun, -⟩ := consNode_eq_ok h
                    exact (ih hrun).trans ((ih (enter_eq_ok helse)).trans hrest')
                · obtain ⟨ns', hrun, -⟩ := consNode_eq_ok h
                  exact (ih hrun).trans hrest'

/-- What is in front of the last node decides how a body ends, where it has no
node yet. -/
def endsFrom (b : Bool) (ns : List TemplateNode) : Bool := (ns.getLast?.map isElseMark).getD b

theorem endsFrom_cons (b : Bool) (n : TemplateNode) (ns : List TemplateNode) :
    endsFrom b (n :: ns) = endsFrom (isElseMark n) ns := by
  cases ns with
  | nil => simp [endsFrom]
  | cons m ns =>
    obtain ⟨x, hx⟩ : ∃ x, (m :: ns).getLast? = some x :=
      ⟨_, List.getLast?_eq_some_getLast (by simp)⟩
    simp only [endsFrom, List.getLast?_cons_cons, hx, Option.map_some, Option.getD_some]

theorem endsElse_eq (ns : List TemplateNode) : endsElse ns = endsFrom false ns := by
  unfold endsElse endsFrom
  cases ns.getLast? <;> rfl

/-- The same rest, or rests that differ by the comment. -/
def Sim (text : List Char) (b : Bool) (bodies : List Body) (s s' : List Char) : Prop :=
  s = s' ∨ Inserted text b bodies s s'

/-- What the parser returns on two sources: errors, or nodes that differ in
comments, of which the first body of an `{{#if}}` ends alike, and rests alike. -/
inductive Alike (text : List Char) (bodies : List Body) (b : Bool) : Parsed → Parsed → Prop where
  | error (e e' : TemplateError) : Alike text bodies b (.error e) (.error e')
  | ok {ns ns' : List TemplateNode} {r r' : List Char} : bareNodes ns = bareNodes ns' →
      (bodies.head? = some .first → endsFrom b ns = endsFrom b ns') →
      Sim text false (closeBody (endsFrom b ns) bodies) r r' →
      Alike text bodies b (.ok (ns, r)) (.ok (ns', r'))

theorem Alike.refl (text : List Char) (bodies : List Body) (b : Bool)
    (x : Parsed) : Alike text bodies b x x := by
  cases x with
  | error e => exact .error e e
  | ok y => exact .ok rfl (fun _ => rfl) (.inl rfl)

/-- Nodes alike in front of results alike. -/
theorem Alike.cons {text : List Char} {bodies : List Body} {b : Bool}
    {node node' : TemplateNode} {x x' : Parsed}
    (hbare : bareNodes [node] = bareNodes [node']) (hmark : isElseMark node = isElseMark node')
    (h : Alike text bodies (isElseMark node) x x') :
    Alike text bodies b (consNode node x) (consNode node' x') := by
  cases h with
  | error e e' => exact .error e e'
  | @ok ns ns' r r' hns hends hsim =>
    refine .ok ?_ (fun hfirst => ?_) (by rwa [endsFrom_cons])
    · have happ : ∀ m ms, bareNodes (m :: ms) = bareNodes [m] ++ bareNodes ms := by
        intro m ms
        rw [bareNodes_cons, bareNodes_cons]
        split <;> rfl
      rw [happ node ns, happ node' ns', hbare, hns]
    · simp only [endsFrom_cons, ← hmark, hends hfirst]

theorem enter_alike {text : List Char} {bodies : List Body} {b : Bool} {depth : ℕ} {x x' : Parsed}
    (h : Alike text bodies b x x') : Alike text bodies b (enter depth x) (enter depth x') := by
  unfold enter
  split
  · exact .error _ _
  · exact h

/-- A result alike to its block, put in front of the rest. -/
theorem bareNodes_node {o : Opening} {body body' : List TemplateNode}
    (h : bareNodes body = bareNodes body') :
    bareNodes [o.node body] = bareNodes [o.node body'] ∧
      isElseMark (o.node body) = false ∧ isElseMark (o.node body') = false := by
  cases o <;> exact ⟨by simp [Opening.node, bareNodes, bareNode, h], rfl, rfl⟩

theorem stop_of_ifField {o : Opening} {field : List Char} (h : o.ifField = some field) :
    o.stop = "if".toList := by
  cases o <;> simp [Opening.ifField] at h
  rfl

/-- Whether a tag is a comment reading `__else__`. -/
def isElseComment : Tag → Bool
  | .comment t => t == elseMark
  | _ => false

theorem isElsePiece_tag {inEach : Bool} {content : List Char} {kind : Tag}
    (h : readTagKind validName inEach (trim content) = .ok kind) :
    isElsePiece (.tag content) = isElseComment kind := by
  rw [isElsePiece]
  generalize trim content = t at h
  unfold readTagKind at h
  split at h
  · obtain rfl := Except.ok.inj h
    rfl
  · obtain rfl := Except.ok.inj h
    rfl
  · next s =>
    cases ho : openSection validName inEach (trim s) with
    | error e => simp [ho, Except.map] at h
    | ok o =>
      simp only [ho, Except.map, Except.ok.injEq] at h
      subst h
      rfl
  · split at h
    · cases h
    · obtain rfl := Except.ok.inj h
      rfl
  · next hbang _ _ _ =>
    have hkind : isElseComment kind = false := by
      split at h
      · obtain rfl := Except.ok.inj h
        rfl
      · cases hv : parseVariableAndFilters t with
        | error e => simp [hv, Except.map] at h
        | ok r =>
          simp only [hv, Except.map, Except.ok.injEq] at h
          subst h
          rfl
    rw [hkind]
    split
    · exact (hbang _ rfl).elim
    · rfl

/-- The body an opening tag opens. -/
def Opening.body (o : Opening) : Body := if o.ifField.isSome then .first else .other

theorem openSection_body {inEach : Bool} {sect : List Char} {o : Opening}
    (h : openSection validName inEach sect = .ok o) :
    (if IsIfSection sect then .first else .other) = o.body := by
  unfold openSection at h
  by_cases heach : "each ".toList.isPrefixOf sect ∨ sect = "each".toList
  · rw [if_neg fun hif => hif.1 heach]
    rw [if_pos heach] at h
    simp only at h
    split_ifs at h
    all_goals
      cases h
      rfl
  · rw [if_neg heach] at h
    by_cases hif : "if ".toList.isPrefixOf sect ∨ sect = "if".toList
    · rw [if_pos ⟨heach, hif⟩]
      rw [if_pos hif] at h
      simp only at h
      split_ifs at h
      cases h
      rfl
    · rw [if_neg fun hboth => hif hboth.2]
      rw [if_neg hif] at h
      split_ifs at h
      · simp only at h
        split at h
        · cases h
          rfl
        · cases h
      · cases h
        rfl

/-- The bodies being read after a tag. -/
def bodiesAt (b : Bool) (bodies : List Body) : Tag → List Body
  | .close _ => closeBody b bodies
  | .elseTag => closeBody true bodies
  | .opening o => o.body :: bodies
  | .comment _ => bodies
  | .variable _ _ => bodies

theorem bodiesAfter_tag {inEach b : Bool} {bodies : List Body} {content : List Char} {kind : Tag}
    (h : readTagKind validName inEach (trim content) = .ok kind) :
    bodiesAfter b bodies (.tag content) = bodiesAt b bodies kind := by
  rw [bodiesAfter]
  generalize trim content = t at h
  unfold readTagKind at h
  split at h
  · obtain rfl := Except.ok.inj h
    rfl
  · obtain rfl := Except.ok.inj h
    rfl
  · next s =>
    cases ho : openSection validName inEach (trim s) with
    | error e => simp [ho, Except.map] at h
    | ok o =>
      simp only [ho, Except.map, Except.ok.injEq] at h
      subst h
      simp only [openSection_body ho, bodiesAt]
  · split at h
    · cases h
    · obtain rfl := Except.ok.inj h
      rfl
  · next hbang hslash hhash hcaret =>
    have hkind : (if t = "else".toList then closeBody true bodies else bodies) =
        bodiesAt b bodies kind := by
      split_ifs at h ⊢ with helse
      · obtain rfl := Except.ok.inj h
        rfl
      · cases hv : parseVariableAndFilters t with
        | error e => simp [hv, Except.map] at h
        | ok r =>
          simp only [hv, Except.map, Except.ok.injEq] at h
          subst h
          rfl
    refine Eq.trans ?_ hkind
    first
      | rfl
      | split <;> first
          | rfl
          | exact (hbang _ rfl).elim
          | exact (hslash _ rfl).elim
          | exact (hhash _ rfl).elim
          | exact (hcaret _ rfl).elim

theorem Opening.body_of_ifField {o : Opening} {field : List Char} (h : o.ifField = some field) :
    o.body = .first := by simp [Opening.body, h]

theorem Opening.stop_of_body (o : Opening) {bodies : List Body}
    (h : (o.body :: bodies).head? = some .first) : some o.stop = some "if".toList := by
  cases hif : o.ifField with
  | none =>
    rw [List.head?_cons, Opening.body, hif] at h
    cases h
  | some field => rw [stop_of_ifField hif]

theorem Opening.body_of_none {o : Opening} (h : o.ifField = none) : o.body = .other := by
  simp [Opening.body, h]

/-- **One round on sources that go on alike.** -/
theorem parseRound_alike {text : List Char} {b : Bool} {bodies : List Body} {p : Piece}
    {s s' r r' : List Char}
    (hs : s ≠ []) (hs' : s' ≠ []) (hp : nextPiece s = .ok (p, r))
    (hp' : nextPiece s' = .ok (p, r'))
    (hsim : Sim text (isElsePiece p) (bodiesAfter b bodies p) r r')
    {again again' : ℕ → Bool → Option (List Char) → List Char → Parsed}
    (hagain : ∀ depth inEach stop b bodies u u', u.length < s.length → u'.length < s'.length →
      (bodies.head? = some .first → stop = some "if".toList) → Sim text b bodies u u' →
      Alike text bodies b (again depth inEach stop u) (again' depth inEach stop u'))
    (hlen : ∀ depth inEach stop u ns v, again depth inEach stop u = .ok (ns, v) →
      v.length ≤ u.length)
    (hlen' : ∀ depth inEach stop u ns v, again' depth inEach stop u = .ok (ns, v) →
      v.length ≤ u.length) (depth : ℕ) (inEach : Bool) (stop : Option (List Char))
    (hstop : bodies.head? = some .first → stop = some "if".toList) :
    Alike text bodies b (parseRound validName again depth inEach stop s)
      (parseRound validName again' depth inEach stop s') := by
  have hr := nextPiece_length hs hp
  have hr' := nextPiece_length hs' hp'
  rw [parseRound.eq_def, parseRound.eq_def, if_neg hs, if_neg hs']
  simp only [hp, hp']
  cases p with
  | text t => exact .cons rfl rfl (hagain _ _ _ _ _ _ _ hr hr' hstop hsim)
  | tag content =>
    simp only
    cases hk : readTagKind validName inEach (trim content) with
    | error e => exact .error e e
    | ok kind =>
      rw [isElsePiece_tag hk, bodiesAfter_tag hk] at hsim
      cases kind with
      | comment t => exact .cons rfl rfl (hagain _ _ _ _ _ _ _ hr hr' hstop hsim)
      | close name =>
        simp only
        split
        · exact .ok rfl (fun _ => rfl) hsim
        · exact .error _ _
      | elseTag =>
        simp only
        split
        · exact .ok rfl (fun _ => rfl) hsim
        · exact .error _ _
      | «variable» name filters => exact .cons rfl rfl (hagain _ _ _ _ _ _ _ hr hr' hstop hsim)
      | opening o =>
        simp only
        have hbody : Alike text (o.body :: bodies) false
            (enter (depth + 1) (again (depth + 1) (o.inEach inEach) (some o.stop) r))
            (enter (depth + 1) (again' (depth + 1) (o.inEach inEach) (some o.stop) r')) :=
          enter_alike (hagain _ _ _ _ _ _ _ hr hr' o.stop_of_body hsim)
        cases hx : enter (depth + 1) (again (depth + 1) (o.inEach inEach) (some o.stop) r) with
        | error e =>
          rw [hx] at hbody
          cases hx' : enter (depth + 1) (again' (depth + 1) (o.inEach inEach) (some o.stop) r') with
          | error e' => exact .error e e'
          | ok y' => rw [hx'] at hbody; cases hbody
        | ok y =>
          rw [hx] at hbody
          cases hx' : enter (depth + 1) (again' (depth + 1) (o.inEach inEach) (some o.stop) r') with
          | error e' => rw [hx'] at hbody; cases hbody
          | ok y' =>
            rw [hx'] at hbody
            cases hbody with
            | @ok body body' u u' hbare hends hrest =>
              have hu := (hlen _ _ _ _ _ _ (enter_eq_ok hx)).trans_lt hr
              have hu' := (hlen' _ _ _ _ _ _ (enter_eq_ok hx')).trans_lt hr'
              obtain ⟨hnode, hmark, hmark'⟩ := @bareNodes_node o _ _ hbare
              rw [← endsElse_eq] at hrest
              have hplain : Sim text false bodies u u' → Alike text bodies b
                  (consNode (o.node body) (again depth inEach stop u))
                  (consNode (o.node body') (again' depth inEach stop u')) := by
                intro hrest
                refine .cons hnode (hmark.trans hmark'.symm) ?_
                rw [hmark]
                exact hagain _ _ _ _ _ _ _ hu hu' hstop hrest
              simp only
              cases hif : o.ifField with
              | none =>
                rw [Opening.body_of_none hif] at hrest
                exact hplain hrest
              | some field =>
                rw [Opening.body_of_ifField hif] at hrest hends
                have hboth : endsElse body = endsElse body' := by
                  rw [endsElse_eq, endsElse_eq]
                  exact hends rfl
                rw [← hboth]
                cases hmarked : endsElse body with
                | false =>
                  rw [hmarked] at hrest
                  exact hplain hrest
                | true =>
                  simp only
                  rw [hmarked] at hrest
                  have hother : (Body.other :: bodies).head? = some .first →
                      some o.stop = some "if".toList := fun hne => by cases hne
                  have helse : Alike text (.other :: bodies) false
                      (enter (depth + 1) (again (depth + 1) inEach (some o.stop) u))
                      (enter (depth + 1) (again' (depth + 1) inEach (some o.stop) u')) :=
                    enter_alike (hagain _ _ _ _ _ _ _ hu hu' hother hrest)
                  cases hy : enter (depth + 1) (again (depth + 1) inEach (some o.stop) u) with
                  | error e =>
                    rw [hy] at helse
                    cases hy' : enter (depth + 1) (again' (depth + 1) inEach (some o.stop) u') with
                    | error e' => exact .error e e'
                    | ok z' => rw [hy'] at helse; cases helse
                  | ok z =>
                    rw [hy] at helse
                    cases hy' : enter (depth + 1) (again' (depth + 1) inEach (some o.stop) u') with
                    | error e' => rw [hy'] at helse; cases helse
                    | ok z' =>
                      rw [hy'] at helse
                      cases helse with
                      | @ok elseBody elseBody' v v' hbare' _ hrest' =>
                        have hv := (hlen _ _ _ _ _ _ (enter_eq_ok hy)).trans_lt hu
                        have hv' := (hlen' _ _ _ _ _ _ (enter_eq_ok hy')).trans_lt hu'
                        have hfilter : ∀ n, (!isElseMark n) = false → isComment n = true := by
                          intro n hn
                          cases n <;> simp [isElseMark] at hn
                          rfl
                        refine .cons ?_ rfl (hagain _ _ _ _ _ _ _ hv hv' hstop hrest')
                        simp only [bareNodes, bareNode, bareNodes_filter hfilter, hbare, hbare']

/-- Once there is enough of it, more fuel changes nothing. -/
theorem parseNodes_fuel (n : ℕ) : ∀ {m depth : ℕ} {inEach : Bool} {stop : Option (List Char)}
    {s : List Char}, s.length < n → s.length < m →
      parseNodes validName n depth inEach stop s = parseNodes validName m depth inEach stop s := by
  induction n with
  | zero => intro m depth inEach stop s h; omega
  | succ n ih =>
    intro m depth inEach stop s hn hm
    obtain ⟨m, rfl⟩ : ∃ k, m = k + 1 := ⟨m - 1, by omega⟩
    have hagree : ∀ depth inEach stop u, u.length < s.length →
        parseNodes validName n depth inEach stop u =
          parseNodes validName m depth inEach stop u :=
      fun depth inEach stop u hu => ih (by omega) (by omega)
    rw [parseNodes, parseNodes, parseRound.eq_def, parseRound.eq_def]
    by_cases hs : s = []
    · rw [if_pos hs, if_pos hs]
    · rw [if_neg hs, if_neg hs]
      cases hp : nextPiece s with
      | error e => rfl
      | ok x =>
        obtain ⟨p, rest⟩ := x
        have hrest := nextPiece_length hs hp
        have hsame := fun depth inEach stop => hagree depth inEach stop rest hrest
        cases p with
        | text t => simp only [hsame]
        | tag content =>
          simp only
          cases hk : readTagKind validName inEach (trim content) with
          | error e => rfl
          | ok kind =>
            cases kind with
            | comment t => simp only [hsame]
            | close name => rfl
            | elseTag => rfl
            | «variable» name filters => simp only [hsame]
            | opening o =>
              simp only [hsame]
              cases hx : enter (depth + 1) (parseNodes validName m (depth + 1)
                  (o.inEach inEach) (some o.stop) rest) with
              | error e => rfl
              | ok y =>
                obtain ⟨body, u⟩ := y
                have hu := (parseNodes_length m (enter_eq_ok hx)).trans_lt hrest
                have hsame' := fun depth inEach stop => hagree depth inEach stop u hu
                simp only [hsame']
                split
                · cases hy : enter (depth + 1) (parseNodes validName m (depth + 1) inEach
                      (some o.stop) u) with
                  | error e => rfl
                  | ok z =>
                    obtain ⟨elseBody, v⟩ := z
                    have hv := (parseNodes_length m (enter_eq_ok hy)).trans_lt hu
                    simp only [hagree depth inEach stop v hv]
                · rfl

theorem readTagKind_close {inEach : Bool} {t name : List Char}
    (h : readTagKind validName inEach t = .ok (.close name)) :
    ∃ s, t = '/' :: s ∧ trim s = name := by
  unfold readTagKind at h
  split at h
  · simp at h
  · next s =>
    simp only [Except.ok.injEq, Tag.close.injEq] at h
    exact ⟨s, rfl, h⟩
  · next s =>
    cases ho : openSection validName inEach (trim s) <;> simp [ho, Except.map] at h
  · split at h <;> simp at h
  · split at h
    · simp at h
    · cases hv : parseVariableAndFilters t <;> simp [hv, Except.map] at h

/-- A body without a node ends at once: before `{{/if}}` where it is the body of
an `{{#if}}`. -/
theorem closesIf_of_nil {n depth : ℕ} {inEach : Bool} {s r : List Char} (hs : s ≠ [])
    (h : parseNodes validName n depth inEach (some "if".toList) s = .ok ([], r)) :
    ClosesIf s := by
  have hcons : ∀ {node : TemplateNode} {x : Parsed}, consNode node x ≠ .ok ([], r) := by
    intro node x hx
    obtain ⟨_, -, hnil⟩ := consNode_eq_ok hx
    cases hnil
  cases n with
  | zero => simp [parseNodes] at h
  | succ n =>
    rw [parseNodes, parseRound.eq_def, if_neg hs] at h
    cases hp : nextPiece s with
    | error e => simp [hp] at h
    | ok x =>
      obtain ⟨p, rest⟩ := x
      simp only [hp] at h
      cases p with
      | text t => exact absurd h hcons
      | tag content =>
        simp only at h
        cases hk : readTagKind validName inEach (trim content) with
        | error e => simp [hk] at h
        | ok kind =>
          simp only [hk] at h
          cases kind with
          | comment t => exact absurd h hcons
          | close name =>
            simp only at h
            split at h
            · next heq =>
              obtain ⟨x, hx, hname⟩ := readTagKind_close hk
              exact ⟨content, rest, x, hp, hx, hname.trans (Option.some.inj heq).symm⟩
            · cases h
          | elseTag =>
            simp only at h
            split at h <;> simp at h
          | «variable» name filters => exact absurd h hcons
          | opening o =>
            simp only at h
            cases hx : enter (depth + 1) (parseNodes validName n (depth + 1)
                (o.inEach inEach) (some o.stop) rest) with
            | error e => simp [hx] at h
            | ok y =>
              simp only [hx] at h
              split at h
              · split at h
                · cases h
                · exact absurd h hcons
              · exact absurd h hcons

/-- **The parser keeps alike sources alike.** -/
theorem parseNodes_alike {text : List Char} (hopen : NoPair '{' text)
    (hclose : NoPair '}' text) (k : ℕ) : ∀ {s s' : List Char} {b : Bool} {bodies : List Body}
    {n m depth : ℕ} {inEach : Bool} {stop : Option (List Char)}, s'.length < k →
      (bodies.head? = some .first → stop = some "if".toList) → Sim text b bodies s s' →
      s.length < n → s'.length < m →
      Alike text bodies b (parseNodes validName n depth inEach stop s)
        (parseNodes validName m depth inEach stop s') := by
  induction k with
  | zero => intro s s' b bodies n m depth inEach stop hk; omega
  | succ k ih =>
    intro s s' b bodies n m depth inEach stop hk hstop hsim hn hm
    rcases hsim with rfl | hins
    · rw [parseNodes_fuel n hn hm]
      exact .refl _ _ _ _
    · obtain ⟨m, rfl⟩ : ∃ j, m = j + 1 := ⟨m - 1, by omega⟩
      cases hins with
      | here hs hstand =>
        have hcomment : commentTag text ++ s ≠ [] := by simp [commentTag]
        have hround : parseNodes validName (m + 1) depth inEach stop (commentTag text ++ s) =
            consNode (.comment (trim text)) (parseNodes validName m depth inEach stop s) := by
          rw [parseNodes, parseRound.eq_def, if_neg hcomment]
          simp only [nextPiece_commentTag hopen hclose, readTagKind_comment]
        have hm' : s.length < m := by
          simp only [commentTag, List.cons_append, List.length_cons, List.length_append] at hm
          omega
        rw [hround, ← parseNodes_fuel n hn hm']
        cases hrun : parseNodes validName n depth inEach stop s with
        | error e => exact .error e e
        | ok x =>
          obtain ⟨ns, r⟩ := x
          refine .ok (by simp [bareNodes]) (fun hfirst => ?_) (.inl rfl)
          rw [endsFrom_cons]
          cases ns with
          | nil =>
            rw [hstop hfirst] at hrun
            obtain ⟨rfl, hne⟩ := hstand hfirst (closesIf_of_nil hs hrun)
            have hmark : isElseMark (.comment (trim text)) = false := by
              simpa [isElseMark] using hne
            rw [hmark]
          | cons node ns => rw [endsFrom_cons, endsFrom_cons]
      | @next b bodies s s' r r' p hs hs' hp hp' hins =>
        obtain ⟨n, rfl⟩ : ∃ j, n = j + 1 := ⟨n - 1, by omega⟩
        rw [parseNodes, parseNodes]
        refine parseRound_alike hs hs' hp hp' (.inr hins) ?_ ?_ ?_ depth inEach stop hstop
        · intro depth inEach stop b bodies u u' hu hu' hstop hsim
          exact ih (by omega) hstop hsim (by omega) (by omega)
        · intro depth inEach stop u ns v h
          exact parseNodes_length n h
        · intro depth inEach stop u ns v h
          exact parseNodes_length m h

/-! ## The whole source -/

theorem utf8Len_append (s t : List Char) : utf8Len (s ++ t) = utf8Len s + utf8Len t := by
  simp [utf8Len]

/-- A source that parses, rendered the same as another. -/
def SameTemplate (validName : List Char → Bool) (source source' : List Char) : Prop :=
  ((parseTemplate validName source).isOk ↔ (parseTemplate validName source').isOk) ∧
    ∀ nodes nodes', parseTemplate validName source = .ok nodes →
      parseTemplate validName source' = .ok nodes' →
      ∀ (G V E : Type) (R : Resolver G V E) (grains : List G) (maxOutputSize : ℕ),
        renderTemplate R grains maxOutputSize nodes' = renderTemplate R grains maxOutputSize nodes

/-- An `{{#if subject}}` and its body. -/
def ifSubjectBody : List Char :=
  ['{', '{', '#', 'i', 'f', ' ', 's', 'u', 'b', 'j', 'e', 'c', 't', '}', '}', 'A']

/-- The closing `{{/if}}`. -/
def closeIf : List Char := ['{', '{', '/', 'i', 'f', '}', '}']

/-- The text `__else__`. -/
def elseText : List Char := ['_', '_', 'e', 'l', 's', 'e', '_', '_']

/-- `{{else}}B`. -/
def elseBranch : List Char := ['{', '{', 'e', 'l', 's', 'e', '}', '}', 'B']

/-- After the opening tag and a text, the first body of an `{{#if}}` is being read. -/
theorem between_body {t : List Char} (ht : atTag t = true) {b : Bool} {bodies : List Body}
    {t' : List Char} (h : Between false [.first] t b bodies t') :
    Between false [] (ifSubjectBody ++ t) b bodies t' := by
  refine .next (r := 'A' :: t)
    (p := .tag ['#', 'i', 'f', ' ', 's', 'u', 'b', 'j', 'e', 'c', 't']) (by simp [ifSubjectBody])
    ?_ ?_
  · simp [ifSubjectBody, nextPiece, atTag, readTag_cons]
  · have hflag : isElsePiece (.tag ['#', 'i', 'f', ' ', 's', 'u', 'b', 'j', 'e', 'c', 't']) =
        false := by decide +kernel
    have hbodies : bodiesAfter false [] (.tag ['#', 'i', 'f', ' ', 's', 'u', 'b', 'j', 'e', 'c',
        't']) = [.first] := by decide +kernel
    rw [hflag, hbodies]
    refine .next (r := t) (p := .text ['A']) (by simp) ?_ h
    obtain ⟨r, rfl⟩ := atTag_iff.1 ht
    simp [nextPiece, atTag, readText]

theorem between_body_close :
    Between false [] (ifSubjectBody ++ closeIf) false [.first] closeIf :=
  between_body (by decide) (.here ..)

/-- After `{{else}}` another body is being read. -/
theorem between_else_close :
    Between false [] (ifSubjectBody ++ (elseBranch ++ closeIf)) false [.other] closeIf := by
  refine between_body (by decide) (.next (r := 'B' :: closeIf) (p := .tag ['e', 'l', 's', 'e'])
    (by simp [elseBranch]) ?_ ?_)
  · simp [elseBranch, nextPiece, atTag, readTag_cons]
  · have hflag : isElsePiece (.tag ['e', 'l', 's', 'e']) = false := by decide +kernel
    have hbodies : bodiesAfter false [.first] (.tag ['e', 'l', 's', 'e']) = [.other] := by
      decide +kernel
    rw [hflag, hbodies]
    refine .next (r := closeIf) (p := .text ['B']) (by simp) ?_ (.here ..)
    simp [closeIf, nextPiece, atTag, readText]

theorem parseTemplate_ifSubject :
    (parseTemplate (fun n => n == ['s', 'u', 'b', 'j', 'e', 'c', 't'])
      (ifSubjectBody ++ closeIf)).isOk = true ∧
    (parseTemplate (fun n => n == ['s', 'u', 'b', 'j', 'e', 'c', 't'])
      (ifSubjectBody ++ (commentTag elseText ++ closeIf))).isOk = false := by
  decide +kernel

end Deja.Template

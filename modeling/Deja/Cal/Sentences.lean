import Deja.Cal.Where

/-!
# The sentences of WHERE

The grammar of a condition: OR binds least, then AND, then NOT, both operators to the left, and
groups, arrays and lists nest in the levels that are left.  The parser takes exactly its
sentences, each with its one tree.
-/

namespace Deja.Where

open Assemble Grammar

variable {F : Type}

/-! ## Values -/

/-- A value; `Tail` is what follows an opening bracket. -/
inductive ValueForm (Tail : Language (Token F) (List (CalValue F))) :
    Language (Token F) (CalValue F)
  | string (s : String) : ValueForm Tail [.stringLiteral s] (.string s)
  | number (text : String) (n : F) : ValueForm Tail [.numberLiteral text n] (.number n)
  | boolean (b : Bool) : ValueForm Tail [.boolean b] (.boolean b)
  | hash (digest : String) : ValueForm Tail [.hashLiteral digest] (.hash digest)
  | parameter (name : String) : ValueForm Tail [.parameter name] (.parameter name)
  | array {ts : List (Token F)} {values : List (CalValue F)} (h : Tail ts values) :
      ValueForm Tail (.lBracket :: ts) (.array values)

/-- Items with commas and the token that closes them. -/
def Listed (Item : Language (Token F) (CalValue F)) (closing : Token F) :
    Language (Token F) (List (CalValue F)) := fun ts values =>
  ∃ body, ts = body ++ [closing] ∧ Items Token.isComma Item body values

/-- A value, with so many levels of nesting left. -/
def ValueText : ℕ → Language (Token F) (CalValue F)
  | 0 => ValueForm fun _ _ => False
  | room + 1 => ValueForm (Listed (ValueText room) .rBracket)

/-- The list of IN: one value at least, and no more than a set may hold. -/
def ListText : ℕ → Language (Token F) (List (CalValue F))
  | 0, _, _ => False
  | room + 1, ts, values => ∃ body, ts = .lParen :: body ∧
      Listed (ValueText room) .rParen body values ∧ values ≠ [] ∧ values.length ≤ maxInSetSize

/-! ## Conditions -/

/-- A name. -/
inductive NameText : Language (Token F) String
  | ident {s : String} (h : isDestructiveKeyword s = false) : NameText [.ident s] s
  | field (w : FieldWord) : NameText [.field w] w.description.toLower

/-- A field: a name, or two with a dot between. -/
inductive FieldText : Language (Token F) String
  | name {ts : List (Token F)} {s : String} (h : NameText ts s) : FieldText ts s
  | path {ts us : List (Token F)} {s t : String} (h : NameText ts s) (h' : NameText us t) :
      FieldText (ts ++ .dot :: us) (s ++ "." ++ t)

/-- The word WITH. -/
inductive WithText : Token F → Prop
  | keyword : WithText .with
  | ident {s : String} (h : s.toUpper = "WITH") : WithText (.ident s)

/-- The values of INCLUDE and EXCLUDE. -/
inductive TagsText (room : ℕ) : Language (Token F) (List (CalValue F))
  | array {ts : List (Token F)} {values : List (CalValue F)}
      (h : ValueText room ts (.array values)) : TagsText room ts values
  | parameter (name : String) : TagsText room [.parameter name] [.parameter name]

/-- What follows the field of a condition. -/
inductive OperatorText (room : ℕ) (field : String) : Language (Token F) (Condition F)
  | comparison (c : Comparator) {ts : List (Token F)} {value : CalValue F}
      (h : ValueText room ts value) :
      OperatorText room field (.compare c :: ts) (.comparison field c value)
  | inParameter (name : String) :
      OperatorText room field [.isIn, .parameter name] (.isIn field [.parameter name])
  | inList {ts : List (Token F)} {values : List (CalValue F)} (h : ListText room ts values) :
      OperatorText room field (.isIn :: ts) (.isIn field values)
  | notIn {ts : List (Token F)} {values : List (CalValue F)} (h : ListText room ts values) :
      OperatorText room field (.not :: .isIn :: ts) (.notIn field values)
  | isNull : OperatorText room field [.is, .null] (.isNull field)
  | isNotNull : OperatorText room field [.is, .not, .null] (.isNotNull field)
  | isCategory {t : Token F} {category : String} (h : relationCategory t = some category) :
      OperatorText room field [.is, t] (.isCategory field category)
  | includes {ts : List (Token F)} {values : List (CalValue F)} (h : TagsText room ts values) :
      OperatorText room field (.include :: ts) (.isIn field values)
  | excludes {ts : List (Token F)} {values : List (CalValue F)} (h : TagsText room ts values) :
      OperatorText room field (.exclude :: ts) (.notIn field values)
  | contains {s value : String} (h : s.toUpper = "CONTAINS") :
      OperatorText room field [.ident s, .stringLiteral value] (.contains field value)
  | starts {s value : String} (h : s.toUpper = "STARTS") :
      OperatorText room field [.ident s, .stringLiteral value] (.startsWith field value)
  | startsWith {s value : String} {t : Token F} (h : s.toUpper = "STARTS") (h' : WithText t) :
      OperatorText room field [.ident s, t, .stringLiteral value] (.startsWith field value)

/-- A condition without operators, or a group. -/
inductive PrimaryText (Group : Language (Token F) (Condition F)) (room : ℕ) :
    Language (Token F) (Condition F)
  | plain {ts us : List (Token F)} {field : String} {cond : Condition F} (h : FieldText ts field)
      (h' : OperatorText room field us cond) : PrimaryText Group room (ts ++ us) cond
  | group {ts : List (Token F)} {cond : Condition F} (h : Group ts cond) :
      PrimaryText Group room (.lParen :: ts ++ [.rParen]) cond

/-- A primary condition, negated at most once. -/
inductive UnaryText (Group : Language (Token F) (Condition F)) (room : ℕ) :
    Language (Token F) (Condition F)
  | primary {ts : List (Token F)} {cond : Condition F} (h : PrimaryText Group room ts cond) :
      UnaryText Group room ts cond
  | not {ts : List (Token F)} {cond : Condition F} (h : PrimaryText Group room ts cond) :
      UnaryText Group room (.not :: ts) (.not cond)

/-- Conditions joined by AND. -/
def AndText (Group : Language (Token F) (Condition F)) (room : ℕ) :
    Language (Token F) (Condition F) :=
  Chain Token.isAnd .and (UnaryText Group room)

/-- Conditions joined by OR, with so many levels of nesting left. -/
def OrText : ℕ → Language (Token F) (Condition F)
  | 0 => Chain Token.isOr .or (AndText (fun _ _ => False) 0)
  | room + 1 => Chain Token.isOr .or (AndText (OrText room) (room + 1))

/-! ## Values are read as they are written -/

theorem ValueForm.first {Tail : Language (Token F) (List (CalValue F))} {ts : List (Token F)}
    {value : CalValue F} (h : ValueForm Tail ts value) :
    ∃ t us, ts = t :: us ∧ t.isRBracket = false ∧ t.isRParen = false := by
  cases h with
  | string s => exact ⟨_, _, rfl, rfl, rfl⟩
  | number text n => exact ⟨_, _, rfl, rfl, rfl⟩
  | boolean b => exact ⟨_, _, rfl, rfl, rfl⟩
  | hash digest => exact ⟨_, _, rfl, rfl, rfl⟩
  | parameter name => exact ⟨_, _, rfl, rfl, rfl⟩
  | array h => exact ⟨_, _, rfl, rfl, rfl⟩

theorem ValueText.first {room : ℕ} {ts : List (Token F)} {value : CalValue F}
    (h : ValueText room ts value) :
    ∃ t us, ts = t :: us ∧ t.isRBracket = false ∧ t.isRParen = false := by
  cases room with
  | zero => exact ValueForm.first h
  | succ room => exact ValueForm.first h

theorem takes_valueArms {array : Parser F (List (CalValue F))}
    {Tail : Language (Token F) (List (CalValue F))} (harray : Takes array Tail fun _ => True) :
    Takes (valueArms array) (ValueForm Tail) fun _ => True := by
  intro ts value rest
  constructor
  · intro h
    cases ts with
    | nil => cases h
    | cons t ts =>
      cases t with
      | stringLiteral s =>
        cases h
        exact ⟨[_], rfl, .string s, trivial⟩
      | numberLiteral text n =>
        cases h
        exact ⟨[_], rfl, .number text n, trivial⟩
      | boolean b =>
        cases h
        exact ⟨[_], rfl, .boolean b, trivial⟩
      | hashLiteral digest =>
        cases h
        exact ⟨[_], rfl, .hash digest, trivial⟩
      | parameter name =>
        cases h
        exact ⟨[_], rfl, .parameter name, trivial⟩
      | lBracket =>
        obtain ⟨values, ts', hread, hok⟩ := bind_ok.1 h
        cases hok
        obtain ⟨us, rfl, hus, -⟩ := (harray _ _ _).1 hread
        exact ⟨.lBracket :: us, rfl, .array hus, trivial⟩
      | _ => cases h
  · rintro ⟨used, rfl, h, -⟩
    cases h with
    | string s => rfl
    | number text n => rfl
    | boolean b => rfl
    | hash digest => rfl
    | parameter name => rfl
    | array h => exact bind_ok.2 ⟨_, _, harray.read h trivial, rfl⟩

/-- A closing token. -/
theorem close_ok {isClose : Token F → Bool} {expected : String} {α : Type} {value a : α}
    {ts rest : List (Token F)} :
    close isClose expected value ts = .ok (a, rest) ↔
      ∃ t, isClose t = true ∧ ts = t :: rest ∧ a = value := by
  cases ts with
  | nil => simp [close]
  | cons t ts =>
    by_cases h : isClose t = true
    · simp [close, h]
      grind
    · simp [close, h]

theorem takes_listBody {item : Parser F (CalValue F)} {Item : Language (Token F) (CalValue F)}
    {isClose : Token F → Bool} {closing : Token F} (expected : String)
    (hitem : Takes item Item fun _ => True) (hclose : ∀ t, isClose t = true ↔ t = closing)
    (hapart : closing.isComma = false)
    (hfirst : ∀ {us v}, Item us v → ∃ t ts, us = t :: ts ∧ isClose t = false) :
    Takes (listBody item isClose expected) (Listed Item closing) fun _ => True := by
  intro ts values rest
  constructor
  · intro h
    obtain ⟨values', ts', hread, hend⟩ := bind_ok.1 h
    obtain ⟨t, ht, rfl, rfl⟩ := close_ok.1 hend
    rw [(hclose t).1 ht] at hread
    obtain ⟨used, rfl, hused⟩ := items_sound hitem hread
    exact ⟨used ++ [closing], by simp, ⟨used, rfl, hused⟩, trivial⟩
  · rintro ⟨used, rfl, ⟨body, rfl, hbody⟩, -⟩
    have hsep : ∀ t, isClose t = true → t.isComma = false := by
      intro t ht
      rw [(hclose t).1 ht]
      exact hapart
    have hread : items Token.isComma isClose item .rounds (body ++ closing :: rest).length
        (body ++ closing :: rest) = .ok (values, closing :: rest) :=
      items_complete hitem hfirst hsep hbody ((hclose closing).2 rfl) (by simp)
    rw [List.append_assoc]
    exact bind_ok.2 ⟨_, _, hread, close_ok.2 ⟨closing, (hclose closing).2 rfl, rfl, rfl⟩⟩

/-- Values are read as they are written. -/
theorem takes_value (room : ℕ) :
    Takes (parseValue room : Parser F (CalValue F)) (ValueText room) fun _ => True := by
  induction room with
  | zero => exact takes_valueArms takes_nothing
  | succ room ih =>
    refine takes_valueArms (takes_listBody "]" ih (fun t => ?_) rfl fun {us v} h => ?_)
    · cases t <;> simp [Token.isRBracket]
    · obtain ⟨t, ts, rfl, ht, -⟩ := h.first
      exact ⟨t, ts, rfl, ht⟩

/-- The parameter of a list is a value as any. -/
theorem listItem_eq (room : ℕ) : (listItem room : Parser F (CalValue F)) = parseValue room := by
  funext ts
  cases ts with
  | nil => rfl
  | cons t ts =>
    cases t with
    | parameter name => cases room <;> rfl
    | _ => rfl

/-- The list of IN. -/
theorem takes_valueList (room : ℕ) :
    Takes (parseValueList room : Parser F (List (CalValue F))) (ListText room)
      fun _ => True := by
  have hbody : ∀ room, Takes (listBody (listItem room) Token.isRParen ")" :
      Parser F (List (CalValue F))) (Listed (ValueText room) .rParen) fun _ => True := by
    intro room
    rw [listItem_eq]
    refine takes_listBody ")" (takes_value room) (fun t => ?_) rfl fun {us v} h => ?_
    · cases t <;> simp [Token.isRParen]
    · obtain ⟨t, ts, rfl, -, ht⟩ := h.first
      exact ⟨t, ts, rfl, ht⟩
  intro ts values rest
  constructor
  · intro h
    cases ts with
    | nil => cases room <;> cases h
    | cons t ts =>
      cases t with
      | lParen =>
        cases room with
        | zero => cases h
        | succ room =>
          obtain ⟨values', ts', hread, hok⟩ := bind_ok.1 h
          dsimp only at hok
          split_ifs at hok with hempty hlarge
          cases hok
          obtain ⟨used, rfl, hused, -⟩ := (hbody room _ _ _).1 hread
          exact ⟨.lParen :: used, rfl, ⟨used, rfl, hused, hempty, not_lt.1 hlarge⟩, trivial⟩
      | _ => cases room <;> cases h
  · rintro ⟨used, rfl, h, -⟩
    cases room with
    | zero => exact h.elim
    | succ room =>
      obtain ⟨body, rfl, hlist, hne, hle⟩ := h
      refine bind_ok.2 ⟨_, _, (hbody room).read hlist trivial, ?_⟩
      dsimp only
      rw [if_neg hne, if_neg (not_lt.2 hle)]

/-! ## Conditions are read as they are written -/

/-- A name, and what it is read as. -/
theorem parseIdentifier_ok {ts rest : List (Token F)} {s : String} :
    parseIdentifier ts = .ok (s, rest) ↔ ∃ used, ts = used ++ rest ∧ NameText used s := by
  constructor
  · intro h
    cases ts with
    | nil => cases h
    | cons t ts =>
      cases t with
      | ident w =>
        rw [parseIdentifier] at h
        split_ifs at h with hkey
        cases h
        exact ⟨[_], rfl, .ident (by simpa using hkey)⟩
      | field w =>
        cases h
        exact ⟨[_], rfl, .field w⟩
      | _ => cases h
  · rintro ⟨used, rfl, h⟩
    cases h with
    | ident h => simp [parseIdentifier, h]
    | field w => rfl

/-- What is read as a field is one. -/
theorem parseFieldName_sound {ts rest : List (Token F)} {s : String}
    (h : parseFieldName ts = .ok (s, rest)) : ∃ used, ts = used ++ rest ∧ FieldText used s := by
  obtain ⟨first, ts', hfirst, hok⟩ := bind_ok.1 h
  obtain ⟨us, rfl, hus⟩ := parseIdentifier_ok.1 hfirst
  cases ts' with
  | nil =>
    cases hok
    exact ⟨us, rfl, .name hus⟩
  | cons t ts' =>
    cases t with
    | dot =>
      obtain ⟨second, ts'', hsecond, hok'⟩ := bind_ok.1 hok
      obtain ⟨vs, rfl, hvs⟩ := parseIdentifier_ok.1 hsecond
      cases hok'
      exact ⟨us ++ .dot :: vs, by simp, .path hus hvs⟩
    | _ =>
      cases hok
      exact ⟨us, rfl, .name hus⟩

/-- A field in front of an operator is read. -/
theorem parseFieldName_complete {used rest : List (Token F)} {s : String} (h : FieldText used s)
    (hrest : ∀ ts, rest ≠ .dot :: ts) : parseFieldName (used ++ rest) = .ok (s, rest) := by
  cases h with
  | name h =>
    refine bind_ok.2 ⟨_, _, parseIdentifier_ok.2 ⟨used, rfl, h⟩, ?_⟩
    cases rest with
    | nil => rfl
    | cons t ts =>
      cases t with
      | dot => exact absurd rfl (hrest ts)
      | _ => rfl
  | @path ts us s t h h' =>
    rw [List.append_assoc]
    refine bind_ok.2 ⟨_, _, parseIdentifier_ok.2 ⟨ts, rfl, h⟩, ?_⟩
    exact bind_ok.2 ⟨_, _, parseIdentifier_ok.2 ⟨us, rfl, h'⟩, rfl⟩

/-- What follows `IS`. -/
inductive IsText (field : String) : Language (Token F) (Condition F)
  | isNull : IsText field [.null] (.isNull field)
  | isNotNull : IsText field [.not, .null] (.isNotNull field)
  | isCategory {t : Token F} {category : String} (h : relationCategory t = some category) :
      IsText field [t] (.isCategory field category)

theorem takes_is (field : String) :
    Takes (parseIs field : Parser F (Condition F)) (IsText field) fun _ => True := by
  have hnull : ∀ t : Token F, t.isNull = true → t = .null := by
    intro t ht
    cases t <;> first | rfl | cases ht
  intro ts cond rest
  constructor
  · intro h
    cases ts with
    | nil => cases h
    | cons t ts =>
      by_cases hnot : t = .not
      · subst hnot
        obtain ⟨t, ht, rfl, rfl⟩ := close_ok.1 h
        exact ⟨[.not, t], rfl, by rw [hnull t ht]; exact .isNotNull, trivial⟩
      · cases hcat : relationCategory t with
        | none =>
          have hclose : close Token.isNull "NULL" (.isNull field) (t :: ts) =
              .ok (cond, rest) := by
            cases t <;> simp_all [parseIs]
          obtain ⟨t', ht', heq, rfl⟩ := close_ok.1 hclose
          rw [heq]
          exact ⟨[t'], rfl, by rw [hnull t' ht']; exact .isNull, trivial⟩
        | some category =>
          have hok : (.ok (.isCategory field category, ts) : Except ParseError _) =
              .ok (cond, rest) := by
            cases t <;> simp_all [parseIs]
          cases hok
          exact ⟨[t], rfl, .isCategory hcat, trivial⟩
  · rintro ⟨used, rfl, h, -⟩
    cases h with
    | isNull => rfl
    | isNotNull => rfl
    | @isCategory t category h =>
      cases t with
      | ident s => simp [parseIs, h]
      | category w => simp [parseIs, h]
      | _ => cases h

theorem takes_tags (word sample : String) (room : ℕ) :
    Takes (parseTags word sample room : Parser F (List (CalValue F))) (TagsText room)
      fun _ => True := by
  have hparameter : ∀ {room ts} {name : String},
      ValueText room ts (.parameter name : CalValue F) → ts = [.parameter name] := by
    intro room ts name h
    cases room <;> cases h <;> rfl
  intro ts values rest
  constructor
  · intro h
    obtain ⟨value, ts', hread, hok⟩ := bind_ok.1 h
    obtain ⟨used, rfl, hused, -⟩ := (takes_value room _ _ _).1 hread
    cases value with
    | array vs =>
      cases hok
      exact ⟨used, rfl, .array hused, trivial⟩
    | parameter name =>
      cases hok
      rw [hparameter hused]
      exact ⟨[_], rfl, .parameter name, trivial⟩
    | _ => cases hok
  · rintro ⟨used, rfl, h, -⟩
    cases h with
    | array h => exact bind_ok.2 ⟨_, _, (takes_value room).read h trivial, rfl⟩
    | parameter name => cases room <;> rfl

/-- The texts that `CONTAINS` and `STARTS` lead. -/
theorem parseStringLiteral_ok {ts rest : List (Token F)} {s : String} :
    parseStringLiteral ts = .ok (s, rest) ↔ ts = .stringLiteral s :: rest := by
  cases ts with
  | nil => simp [parseStringLiteral]
  | cons t ts => cases t <;> simp [parseStringLiteral]

/-- The text behind STARTS: with WITH or without. -/
theorem skipWith_eq_stringLiteral {ts rest : List (Token F)} {s : String} :
    skipWith ts = .stringLiteral s :: rest ↔
      ts = .stringLiteral s :: rest ∨ ∃ t, WithText t ∧ ts = t :: .stringLiteral s :: rest := by
  constructor
  · intro h
    cases ts with
    | nil => cases h
    | cons t ts =>
      cases t with
      | ident w =>
        rw [skipWith] at h
        split_ifs at h with hw
        · exact .inr ⟨_, .ident hw, by rw [h]⟩
        · cases h
      | «with» =>
        rw [skipWith] at h
        exact .inr ⟨_, .keyword, by rw [h]⟩
      | _ => exact .inl h
  · rintro (rfl | ⟨t, ht, rfl⟩)
    · rfl
    · cases ht with
      | keyword => rfl
      | ident h => simp [skipWith, h]

/-- What follows a field is read as it is written. -/
theorem takes_operator (room : ℕ) (field : String) :
    Takes (parseOperator room field : Parser F (Condition F)) (OperatorText room field)
      fun _ => True := by
  intro ts cond rest
  constructor
  · intro h
    cases ts with
    | nil => cases h
    | cons t ts =>
      cases t with
      | compare c =>
        obtain ⟨value, ts', hread, hok⟩ := bind_ok.1 h
        cases hok
        obtain ⟨used, rfl, hused, -⟩ := (takes_value room _ _ _).1 hread
        exact ⟨.compare c :: used, rfl, .comparison c hused, trivial⟩
      | isIn =>
        by_cases hparameter : ∃ name us, ts = .parameter name :: us
        · obtain ⟨name, us, rfl⟩ := hparameter
          cases h
          exact ⟨[_, _], rfl, .inParameter name, trivial⟩
        · have hlist : parseOperator room field (.isIn :: ts) =
              parseValueList room ts >>= fun p => .ok (.isIn field p.1, p.2) := by
            cases ts with
            | nil => rfl
            | cons t ts =>
              cases t with
              | parameter name => exact absurd ⟨name, ts, rfl⟩ hparameter
              | _ => rfl
          rw [hlist] at h
          obtain ⟨values, ts', hread, hok⟩ := bind_ok.1 h
          cases hok
          obtain ⟨used, rfl, hused, -⟩ := (takes_valueList room _ _ _).1 hread
          exact ⟨.isIn :: used, rfl, .inList hused, trivial⟩
      | not =>
        cases ts with
        | nil => cases h
        | cons t ts =>
          cases t with
          | isIn =>
            obtain ⟨values, ts', hread, hok⟩ := bind_ok.1 h
            cases hok
            obtain ⟨used, rfl, hused, -⟩ := (takes_valueList room _ _ _).1 hread
            exact ⟨.not :: .isIn :: used, rfl, .notIn hused, trivial⟩
          | _ => cases h
      | is =>
        obtain ⟨used, rfl, hused, -⟩ := (takes_is field _ _ _).1 h
        cases hused with
        | isNull => exact ⟨[.is, .null], rfl, .isNull, trivial⟩
        | isNotNull => exact ⟨[.is, .not, .null], rfl, .isNotNull, trivial⟩
        | isCategory hcat => exact ⟨[.is, _], rfl, .isCategory hcat, trivial⟩
      | «include» =>
        obtain ⟨values, ts', hread, hok⟩ := bind_ok.1 h
        cases hok
        obtain ⟨used, rfl, hused, -⟩ := (takes_tags _ _ room _ _ _).1 hread
        exact ⟨.include :: used, rfl, .includes hused, trivial⟩
      | exclude =>
        obtain ⟨values, ts', hread, hok⟩ := bind_ok.1 h
        cases hok
        obtain ⟨used, rfl, hused, -⟩ := (takes_tags _ _ room _ _ _).1 hread
        exact ⟨.exclude :: used, rfl, .excludes hused, trivial⟩
      | ident s =>
        rw [parseOperator] at h
        split_ifs at h with hcontains hstarts
        · obtain ⟨value, ts', hread, hok⟩ := bind_ok.1 h
          cases hok
          rw [parseStringLiteral_ok] at hread
          subst hread
          exact ⟨[_, _], rfl, .contains hcontains, trivial⟩
        · obtain ⟨value, ts', hread, hok⟩ := bind_ok.1 h
          cases hok
          rw [parseStringLiteral_ok, skipWith_eq_stringLiteral] at hread
          obtain rfl | ⟨t, ht, rfl⟩ := hread
          · exact ⟨[_, _], rfl, .starts hstarts, trivial⟩
          · exact ⟨[_, _, _], rfl, .startsWith hstarts ht, trivial⟩
      | _ => cases h
  · rintro ⟨used, rfl, h, -⟩
    cases h with
    | comparison c h => exact bind_ok.2 ⟨_, _, (takes_value room).read h trivial, rfl⟩
    | inParameter name => rfl
    | @inList ts values h =>
      have hread : parseValueList room (ts ++ rest) = .ok (values, rest) :=
        (takes_valueList room).read h trivial
      cases room with
      | zero => exact h.elim
      | succ room =>
        obtain ⟨body, rfl, -⟩ := h
        exact bind_ok.2 ⟨_, _, hread, rfl⟩
    | notIn h => exact bind_ok.2 ⟨_, _, (takes_valueList room).read h trivial, rfl⟩
    | isNull => exact (takes_is field).read .isNull trivial
    | isNotNull => exact (takes_is field).read .isNotNull trivial
    | isCategory h => exact (takes_is field).read (.isCategory h) trivial
    | includes h => exact bind_ok.2 ⟨_, _, (takes_tags _ _ room).read h trivial, rfl⟩
    | excludes h => exact bind_ok.2 ⟨_, _, (takes_tags _ _ room).read h trivial, rfl⟩
    | contains h => simp [parseOperator, h, parseStringLiteral, bind, Except.bind]
    | starts h =>
      have hne : ¬"STARTS" = "CONTAINS" := by decide
      simp [parseOperator, h, hne, skipWith, parseStringLiteral, bind, Except.bind]
    | @startsWith s value t h h' =>
      have hskip := skipWith_eq_stringLiteral.2
        (.inr ⟨t, h', rfl⟩ : _ ∨ ∃ t', WithText t' ∧
          t :: .stringLiteral value :: rest = t' :: .stringLiteral value :: rest)
      have hne : ¬"STARTS" = "CONTAINS" := by decide
      simp [parseOperator, h, hne, hskip, parseStringLiteral, bind, Except.bind]

/-- No operator begins with a dot. -/
theorem OperatorText.first {room : ℕ} {field : String} {used : List (Token F)}
    {cond : Condition F} (h : OperatorText room field used cond) (rest ts : List (Token F)) :
    used ++ rest ≠ .dot :: ts := by
  cases h <;> simp

/-- No condition without operators begins with a parenthesis or with NOT. -/
theorem FieldText.first {used : List (Token F)} {field : String} (h : FieldText used field) :
    ∃ t ts, used = t :: ts ∧ t ≠ .lParen ∧ t ≠ .not := by
  cases h with
  | name h => cases h <;> exact ⟨_, _, rfl, by simp, by simp⟩
  | path h h' => cases h <;> exact ⟨_, _, rfl, by simp, by simp⟩

/-- A group is read where what is inside it is. -/
theorem takes_primary {group : Parser F (Condition F)} {Group : Language (Token F) (Condition F)}
    {Behind : List (Token F) → Prop} (hgroup : Takes group Group Behind)
    (hbehind : ∀ ts, Behind (.rParen :: ts)) (room : ℕ) :
    Takes (parseConditionPrimary group room) (PrimaryText Group room) fun _ => True := by
  have hplain : ∀ t ts, t ≠ .lParen → parseConditionPrimary group room (t :: ts) =
      parseFieldName (t :: ts) >>= fun p => parseOperator room p.1 p.2 := by
    intro t ts ht
    cases t with
    | lParen => exact absurd rfl ht
    | _ => rfl
  have hclose : ∀ t : Token F, t.isRParen = true → t = .rParen := by
    intro t ht
    cases t <;> first | rfl | cases ht
  intro ts cond rest
  constructor
  · intro h
    cases ts with
    | nil => cases h
    | cons t ts =>
      by_cases ht : t = .lParen
      · subst ht
        obtain ⟨cond', ts', hread, hend⟩ := bind_ok.1 h
        obtain ⟨t, ht, rfl, rfl⟩ := close_ok.1 hend
        obtain ⟨used, rfl, hused, -⟩ := (hgroup _ _ _).1 hread
        rw [hclose t ht]
        exact ⟨.lParen :: used ++ [.rParen], by simp, .group hused, trivial⟩
      · rw [hplain t ts ht] at h
        obtain ⟨field, ts', hfield, hop⟩ := bind_ok.1 h
        obtain ⟨us, hus, hname⟩ := parseFieldName_sound hfield
        obtain ⟨vs, rfl, hvs, -⟩ := (takes_operator room field _ _ _).1 hop
        rw [hus]
        exact ⟨us ++ vs, by simp, .plain hname hvs, trivial⟩
  · rintro ⟨used, rfl, h, -⟩
    cases h with
    | @plain ts us field cond hname hop =>
      obtain ⟨t, ts', rfl, ht, -⟩ := hname.first
      have hfield := parseFieldName_complete hname fun vs => hop.first rest vs
      rw [List.append_assoc]
      rw [List.cons_append] at hfield ⊢
      rw [hplain t _ ht]
      exact bind_ok.2 ⟨_, _, hfield, (takes_operator room field).read hop trivial⟩
    | @group ts cond h =>
      rw [List.append_assoc, List.cons_append, List.cons_append, List.nil_append]
      exact bind_ok.2 ⟨_, _, hgroup.read h (hbehind rest), close_ok.2 ⟨_, rfl, rfl, rfl⟩⟩

/-- Without NOT in front a condition is a primary one. -/
theorem parseConditionUnary_plain (group : Parser F (Condition F)) (room : ℕ) {t : Token F}
    (ts : List (Token F)) (ht : t ≠ .not) :
    parseConditionUnary group room (t :: ts) = parseConditionPrimary group room (t :: ts) := by
  cases t with
  | not => exact absurd rfl ht
  | _ => rfl

/-- A negation binds one primary condition. -/
theorem takes_unary {group : Parser F (Condition F)} {Group : Language (Token F) (Condition F)}
    {Behind : List (Token F) → Prop} (hgroup : Takes group Group Behind)
    (hbehind : ∀ ts, Behind (.rParen :: ts)) (room : ℕ) :
    Takes (parseConditionUnary group room) (UnaryText Group room) fun _ => True := by
  have hprimary := takes_primary hgroup hbehind room
  have hfirst : ∀ {used cond}, PrimaryText Group room used cond →
      ∃ t ts, used = t :: ts ∧ t ≠ .not := by
    intro used cond h
    cases h with
    | plain hname hop =>
      obtain ⟨t, ts, rfl, -, ht⟩ := hname.first
      exact ⟨_, _, rfl, ht⟩
    | group h => exact ⟨_, _, rfl, by simp⟩
  intro ts cond rest
  constructor
  · intro h
    cases ts with
    | nil => cases h
    | cons t ts =>
      by_cases ht : t = .not
      · subst ht
        obtain ⟨inner, ts', hread, hok⟩ := bind_ok.1 h
        cases hok
        obtain ⟨used, rfl, hused, -⟩ := (hprimary _ _ _).1 hread
        exact ⟨.not :: used, rfl, .not hused, trivial⟩
      · rw [parseConditionUnary_plain group room ts ht] at h
        obtain ⟨used, heq, hused, -⟩ := (hprimary _ _ _).1 h
        exact ⟨used, heq, .primary hused, trivial⟩
  · rintro ⟨used, rfl, h, -⟩
    cases h with
    | primary h =>
      obtain ⟨t, ts, rfl, ht⟩ := hfirst h
      rw [List.cons_append, parseConditionUnary_plain group room _ ht, ← List.cons_append]
      exact hprimary.read h trivial
    | not h => exact bind_ok.2 ⟨_, _, hprimary.read h trivial, rfl⟩

/-- What may stand behind a condition: neither AND nor OR. -/
def Ended (rest : List (Token F)) : Prop := ∀ t ∈ rest.head?, t.isAnd = false ∧ t.isOr = false

theorem takes_level {group : Parser F (Condition F)} {Group : Language (Token F) (Condition F)}
    {Behind : List (Token F) → Prop} (hgroup : Takes group Group Behind)
    (hbehind : ∀ ts, Behind (.rParen :: ts)) (room : ℕ) :
    Takes (chain Token.isOr .or (parseConditionAnd group room) .rounds)
      (Chain Token.isOr .or (AndText Group room)) Ended := by
  have hand : Takes (parseConditionAnd group room) (AndText Group room)
      (ChainEnds Token.isAnd fun _ => True) :=
    (takes_unary hgroup hbehind room).chain fun _ _ _ => trivial
  have hor : Takes (chain Token.isOr .or (parseConditionAnd group room) .rounds)
      (Chain Token.isOr .or (AndText Group room))
      (ChainEnds Token.isOr (ChainEnds Token.isAnd fun _ => True)) := hand.chain (by
    intro t ts ht
    cases t <;> first | exact ⟨trivial, fun t ht => by cases ht; rfl⟩ | cases ht)
  intro ts cond rest
  rw [hor ts cond rest]
  have hends : ∀ rest : List (Token F),
      ChainEnds Token.isOr (ChainEnds Token.isAnd fun _ => True) rest ↔ Ended rest := by
    intro rest
    constructor
    · rintro ⟨⟨-, hand⟩, hor⟩ t ht
      exact ⟨hand t ht, hor t ht⟩
    · intro h
      exact ⟨⟨trivial, fun t ht => (h t ht).1⟩, fun t ht => (h t ht).2⟩
  simp only [hends]

/-- Conditions are read as they are written, up to what no operator follows. -/
theorem takes_or (room : ℕ) :
    Takes (parseConditionOr room : Parser F (Condition F)) (OrText room) Ended := by
  have hbehind : ∀ ts : List (Token F), Ended (.rParen :: ts) := by
    intro ts t ht
    cases ht
    exact ⟨rfl, rfl⟩
  induction room with
  | zero =>
    have hnothing : Takes (tooDeep : Parser F (Condition F)) (fun _ _ => False) Ended :=
      takes_nothing
    exact takes_level hnothing hbehind 0
  | succ room ih => exact takes_level ih hbehind (room + 1)

/-- **The parser of WHERE is its grammar**: a clause is read as a condition exactly where a
sentence that names it follows the word, up to what neither AND nor OR follows. -/
theorem parseWhereClause_iff (room : ℕ) (ts rest : List (Token F)) (cond : Condition F) :
    parseWhereClause room ts = .ok (some cond, rest) ↔
      ∃ used, ts = .whereWord :: used ++ rest ∧ OrText room used cond ∧ Ended rest := by
  constructor
  · intro h
    cases ts with
    | nil => cases h
    | cons t ts =>
      cases t with
      | whereWord =>
        obtain ⟨cond', ts', hread, hok⟩ := bind_ok.1 h
        cases hok
        obtain ⟨used, rfl, hused, hends⟩ := (takes_or room _ _ _).1 hread
        exact ⟨used, rfl, hused, hends⟩
      | _ => cases h
  · rintro ⟨used, rfl, hused, hends⟩
    exact bind_ok.2 ⟨_, _, (takes_or room).read hused hends, rfl⟩

/-- A sentence has one tree. -/
theorem OrText.unique {room : ℕ} {used : List (Token F)} {cond cond' : Condition F}
    (h : OrText room used cond) (h' : OrText room used cond') : cond = cond' :=
  (takes_or room).unique (fun _ ht => by cases ht) h h'

end Deja.Where

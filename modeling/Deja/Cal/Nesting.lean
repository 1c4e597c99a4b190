import Deja.Cal.Sentences

/-!
# The bound on nesting

With fewer levels left a WHERE clause is read as it is with more, or refused as nested too deep.
-/

namespace Deja.Where

open Assemble Grammar

variable {F : Type}

/-- The refusal where no level is left. -/
def deep : ParseError := .nestingTooDeep (maxNestingDepth + 1) maxNestingDepth

theorem within_valueArms {p q : Parser F (List (CalValue F))} (h : Within deep p q) :
    Within deep (valueArms p) (valueArms q) := by
  intro ts
  cases ts with
  | nil => exact .inl rfl
  | cons t ts =>
    cases t with
    | lBracket => exact (h ts).bind fun _ _ => .refl _
    | _ => exact .inl rfl

theorem within_listBody {p q : Parser F (CalValue F)} (h : Within deep p q)
    (isClose : Token F → Bool) (expected : String) :
    Within deep (listBody p isClose expected) (listBody q isClose expected) := fun ts =>
  (h.items Token.isComma isClose ts.length ts).bind fun _ _ => .refl _

theorem within_value (room : ℕ) :
    Within deep (parseValue room : Parser F (CalValue F)) (parseValue (room + 1)) := by
  induction room with
  | zero => exact within_valueArms within_error
  | succ room ih => exact within_valueArms (within_listBody ih _ _)

theorem within_valueList (room : ℕ) :
    Within deep (parseValueList room : Parser F (List (CalValue F)))
      (parseValueList (room + 1)) := by
  intro ts
  cases ts with
  | nil => cases room <;> exact .inl rfl
  | cons t ts =>
    cases t with
    | lParen =>
      cases room with
      | zero => exact .inr rfl
      | succ room =>
        have hitem : Within deep (listItem room : Parser F (CalValue F)) (listItem (room + 1)) := by
          rw [listItem_eq, listItem_eq]
          exact within_value room
        exact (within_listBody hitem Token.isRParen ")" ts).bind fun _ _ => .refl _
    | _ => cases room <;> exact .inl rfl

theorem within_tags (word sample : String) (room : ℕ) :
    Within deep (parseTags word sample room : Parser F (List (CalValue F)))
      (parseTags word sample (room + 1)) := fun ts =>
  (within_value room ts).bind fun _ _ => .refl _

theorem within_operator (room : ℕ) (field : String) :
    Within deep (parseOperator room field : Parser F (Condition F))
      (parseOperator (room + 1) field) := by
  intro ts
  cases ts with
  | nil => exact .inl rfl
  | cons t ts =>
    cases t with
    | compare c => exact (within_value room ts).bind fun _ _ => .refl _
    | isIn =>
      cases ts with
      | nil => exact (within_valueList room []).bind fun _ _ => .refl _
      | cons t ts =>
        cases t with
        | parameter name => exact .inl rfl
        | _ => exact (within_valueList room _).bind fun _ _ => .refl _
    | not =>
      cases ts with
      | nil => exact .inl rfl
      | cons t ts =>
        cases t with
        | isIn => exact (within_valueList room ts).bind fun _ _ => .refl _
        | _ => exact .inl rfl
    | «include» => exact (within_tags _ _ room ts).bind fun _ _ => .refl _
    | exclude => exact (within_tags _ _ room ts).bind fun _ _ => .refl _
    | _ => exact .inl rfl

theorem within_primary {p q : Parser F (Condition F)} (h : Within deep p q) (room : ℕ) :
    Within deep (parseConditionPrimary p room) (parseConditionPrimary q (room + 1)) := by
  have hplain : ∀ ts : List (Token F),
      Short deep (parseFieldName ts >>= fun p => parseOperator room p.1 p.2)
        (parseFieldName ts >>= fun p => parseOperator (room + 1) p.1 p.2) :=
    fun ts => (Short.refl (parseFieldName ts)).bind fun field ts => within_operator room field ts
  intro ts
  cases ts with
  | nil => exact hplain []
  | cons t ts =>
    cases t with
    | lParen => exact (h ts).bind fun _ _ => .refl _
    | _ => exact hplain _

theorem within_unary {p q : Parser F (Condition F)} (h : Within deep p q) (room : ℕ) :
    Within deep (parseConditionUnary p room) (parseConditionUnary q (room + 1)) := by
  intro ts
  cases ts with
  | nil => exact within_primary h room []
  | cons t ts =>
    by_cases ht : t = .not
    · subst ht
      exact (within_primary h room ts).bind fun _ _ => .refl _
    · rw [parseConditionUnary_plain p room ts ht, parseConditionUnary_plain q (room + 1) ts ht]
      exact within_primary h room (t :: ts)

theorem within_or (room : ℕ) :
    Within deep (parseConditionOr room : Parser F (Condition F)) (parseConditionOr (room + 1)) := by
  induction room with
  | zero => exact ((within_unary within_error 0).chain Token.isAnd .and).chain Token.isOr .or
  | succ room ih => exact ((within_unary ih (room + 1)).chain Token.isAnd .and).chain Token.isOr .or

/-- **The bound on nesting only refuses**: whatever levels the statements around a clause have
taken, it is read as the tree it has with more of them left, or refused as nested too deep. -/
theorem parseWhereClause_within (room more : ℕ) (ts : List (Token F)) :
    parseWhereClause room ts = parseWhereClause (room + more) ts ∨
      parseWhereClause room ts =
        .error (.nestingTooDeep (maxNestingDepth + 1) maxNestingDepth) := by
  have hwithin : Within deep (parseConditionOr room : Parser F (Condition F))
      (parseConditionOr (room + more)) := by
    induction more with
    | zero => exact fun ts => .refl _
    | succ more ih => exact fun ts => (ih ts).trans (within_or (room + more) ts)
  cases ts with
  | nil => exact .inl rfl
  | cons t ts =>
    cases t with
    | whereWord => exact (hwithin ts).bind fun _ _ => .refl _
    | _ => exact .inl rfl

end Deja.Where

import Deja.Cal.Sentences

/-!
# The loops of WHERE

The loops over operators and items have a round for each token: none of them runs out, and every
clause is read or refused with a reason of the source (`parseConditionOr_decided`).
-/

namespace Deja.Where

open Assemble Grammar

variable {F : Type}

theorem decided_valueArms {array : Parser F (List (CalValue F))}
    (h : Decided ParseError.rounds array) : Decided .rounds (valueArms array) := by
  intro ts
  cases ts with
  | nil => exact fun heq => by cases heq
  | cons t ts =>
    cases t with
    | lBracket => exact bind_ne_error (h ts) fun _ _ _ heq => by cases heq
    | _ => exact fun heq => by cases heq

theorem close_ne_rounds {α : Type} (isClose : Token F → Bool) (expected : String) (value : α)
    (ts : List (Token F)) : close isClose expected value ts ≠ .error .rounds := by
  cases ts with
  | nil => exact fun heq => by cases heq
  | cons t ts =>
    rw [close]
    split_ifs <;> exact fun heq => by cases heq

theorem decided_listBody {room : ℕ} (h : Decided .rounds (parseValue room : Parser F (CalValue F)))
    (isClose : Token F → Bool) (expected : String) :
    Decided .rounds (listBody (parseValue room) isClose expected) := fun _ =>
  bind_ne_error ((takes_value room).items_decided h _ _ (Nat.le_refl _))
    fun _ _ _ => close_ne_rounds _ _ _ _

theorem decided_value (room : ℕ) :
    Decided .rounds (parseValue room : Parser F (CalValue F)) := by
  induction room with
  | zero => exact decided_valueArms fun _ heq => by cases heq
  | succ room ih => exact decided_valueArms (decided_listBody ih _ _)

theorem decided_valueList (room : ℕ) :
    Decided .rounds (parseValueList room : Parser F (List (CalValue F))) := by
  intro ts
  cases ts with
  | nil => cases room <;> exact fun heq => by cases heq
  | cons t ts =>
    cases t with
    | lParen =>
      cases room with
      | zero => exact fun heq => by cases heq
      | succ room =>
        have hbody := decided_listBody (decided_value room) (Token.isRParen : Token F → Bool) ")" ts
        rw [← listItem_eq] at hbody
        refine bind_ne_error hbody fun values ts' _ => ?_
        dsimp only
        split_ifs <;> exact fun heq => by cases heq
    | _ => cases room <;> exact fun heq => by cases heq

theorem parseStringLiteral_ne_rounds (ts : List (Token F)) :
    parseStringLiteral ts ≠ .error .rounds := by
  cases ts with
  | nil => exact fun heq => by cases heq
  | cons t ts => cases t <;> exact fun heq => by cases heq

theorem decided_tags (word sample : String) (room : ℕ) :
    Decided .rounds (parseTags word sample room : Parser F (List (CalValue F))) := fun ts =>
  bind_ne_error (decided_value room ts) fun value _ _ => by
    cases value <;> exact fun heq => by cases heq

theorem decided_is (field : String) :
    Decided .rounds (parseIs field : Parser F (Condition F)) := by
  intro ts
  cases ts with
  | nil => exact fun heq => by cases heq
  | cons t ts =>
    by_cases hnot : t = .not
    · subst hnot
      exact close_ne_rounds _ _ _ _
    · cases hcat : relationCategory t with
      | none =>
        have hclose : parseIs field (t :: ts) =
            close Token.isNull "NULL" (.isNull field) (t :: ts) := by
          cases t <;> simp_all [parseIs]
        rw [hclose]
        exact close_ne_rounds _ _ _ _
      | some category =>
        have hok : parseIs field (t :: ts) = .ok (.isCategory field category, ts) := by
          cases t <;> simp_all [parseIs]
        rw [hok]
        exact fun heq => by cases heq

theorem decided_operator (room : ℕ) (field : String) :
    Decided .rounds (parseOperator room field : Parser F (Condition F)) := by
  intro ts
  cases ts with
  | nil => exact fun heq => by cases heq
  | cons t ts =>
    cases t with
    | compare c => exact bind_ne_error (decided_value room ts) fun _ _ _ heq => by cases heq
    | isIn =>
      cases ts with
      | nil => exact bind_ne_error (decided_valueList room []) fun _ _ _ heq => by cases heq
      | cons t ts =>
        cases t with
        | parameter name => exact fun heq => by cases heq
        | _ => exact bind_ne_error (decided_valueList room _) fun _ _ _ heq => by cases heq
    | not =>
      cases ts with
      | nil => exact fun heq => by cases heq
      | cons t ts =>
        cases t with
        | isIn => exact bind_ne_error (decided_valueList room ts) fun _ _ _ heq => by cases heq
        | _ => exact fun heq => by cases heq
    | is => exact decided_is field ts
    | «include» => exact bind_ne_error (decided_tags _ _ room ts) fun _ _ _ heq => by cases heq
    | exclude => exact bind_ne_error (decided_tags _ _ room ts) fun _ _ _ heq => by cases heq
    | ident s =>
      rw [parseOperator]
      split_ifs
      · exact bind_ne_error (parseStringLiteral_ne_rounds ts) fun _ _ _ heq => by cases heq
      · exact bind_ne_error (parseStringLiteral_ne_rounds _) fun _ _ _ heq => by cases heq
      · exact fun heq => by cases heq
    | _ => exact fun heq => by cases heq

theorem parseIdentifier_ne_rounds (ts : List (Token F)) : parseIdentifier ts ≠ .error .rounds := by
  cases ts with
  | nil => exact fun heq => by cases heq
  | cons t ts =>
    cases t with
    | ident s =>
      rw [parseIdentifier]
      split_ifs <;> exact fun heq => by cases heq
    | _ => exact fun heq => by cases heq

theorem parseFieldName_ne_rounds (ts : List (Token F)) : parseFieldName ts ≠ .error .rounds := by
  refine bind_ne_error (parseIdentifier_ne_rounds ts) fun first ts _ => ?_
  cases ts with
  | nil => exact fun heq => by cases heq
  | cons t ts =>
    cases t with
    | dot => exact bind_ne_error (parseIdentifier_ne_rounds ts) fun _ _ _ heq => by cases heq
    | _ => exact fun heq => by cases heq

theorem decided_primary {group : Parser F (Condition F)} (h : Decided ParseError.rounds group)
    (room : ℕ) : Decided .rounds (parseConditionPrimary group room) := by
  have hplain : ∀ ts : List (Token F),
      (parseFieldName ts >>= fun p => parseOperator room p.1 p.2) ≠ .error .rounds := fun ts =>
    bind_ne_error (parseFieldName_ne_rounds ts) fun field ts _ => decided_operator room field ts
  intro ts
  cases ts with
  | nil => exact hplain []
  | cons t ts =>
    cases t with
    | lParen => exact bind_ne_error (h ts) fun _ _ _ => close_ne_rounds _ _ _ _
    | _ => exact hplain _

theorem decided_unary {group : Parser F (Condition F)} (h : Decided ParseError.rounds group)
    (room : ℕ) : Decided .rounds (parseConditionUnary group room) := by
  intro ts
  cases ts with
  | nil => exact decided_primary h room []
  | cons t ts =>
    by_cases ht : t = .not
    · subst ht
      exact bind_ne_error (decided_primary h room ts) fun _ _ _ heq => by cases heq
    · rw [parseConditionUnary_plain group room ts ht]
      exact decided_primary h room (t :: ts)

/-- Every clause is read or refused with a reason of the source. -/
theorem parseConditionOr_decided (room : ℕ) :
    Decided .rounds (parseConditionOr room : Parser F (Condition F)) := by
  have hlevel : ∀ {group : Parser F (Condition F)} {Group : Language (Token F) (Condition F)}
      {Behind : List (Token F) → Prop}, Takes group Group Behind →
      (∀ ts, Behind (.rParen :: ts)) → Decided ParseError.rounds group → ∀ room,
      Decided .rounds (chain Token.isOr .or (parseConditionAnd group room) ParseError.rounds) := by
    intro group Group Behind htakes hbehind hgroup room
    have hand := (takes_unary htakes hbehind room).chain_decided (decided_unary hgroup room)
      Token.isAnd .and
    exact ((takes_unary htakes hbehind room).chain fun _ _ _ => trivial).chain_decided hand _ _
  have hbehind : ∀ ts : List (Token F), Ended (.rParen :: ts) := by
    intro ts t ht
    cases ht
    exact ⟨rfl, rfl⟩
  induction room with
  | zero =>
    have hnothing : Takes (tooDeep : Parser F (Condition F)) (fun _ _ => False) Ended :=
      takes_nothing
    exact hlevel hnothing hbehind (fun _ heq => by cases heq) 0
  | succ room ih => exact hlevel (takes_or room) hbehind ih (room + 1)

end Deja.Where

import Deja.Assemble.Single
import Deja.Lib.Grammar

/-!
# WHERE

The conditions of a WHERE clause: the parser over the tokens of the lexer, and the grammar of
what it reads.  A group, an array and the list of IN each nest one level deeper than what they
stand in.
-/

namespace Deja.Where

open Assemble Grammar

/-! ## Tokens -/

/-- The keywords a field name can be. -/
inductive FieldWord where
  | on | when | bind | priority | scope
  deriving DecidableEq

/-- `Token::description` of such a keyword. -/
def FieldWord.description : FieldWord → String
  | on => "ON"
  | when => "WHEN"
  | bind => "BIND"
  | priority => "PRIORITY"
  | scope => "SCOPE"

/-- The keywords of the relation categories. -/
inductive CategoryWord where
  | preference | knowledge | permission | interaction | agency | lifecycle | observation
  deriving DecidableEq

/-- `Token::description` of such a keyword. -/
def CategoryWord.description : CategoryWord → String
  | preference => "PREFERENCE"
  | knowledge => "KNOWLEDGE"
  | permission => "PERMISSION"
  | interaction => "INTERACTION"
  | agency => "AGENCY"
  | lifecycle => "LIFECYCLE"
  | observation => "OBSERVATION"

/-- The tokens of the lexer, as far as a condition tells them apart.  A number carries its text. -/
inductive Token (F : Type) where
  | ident (s : String)
  | stringLiteral (s : String)
  | numberLiteral (text : String) (n : F)
  | hashLiteral (digest : String)
  | parameter (name : String)
  | boolean (b : Bool)
  | field (w : FieldWord)
  | category (w : CategoryWord)
  | compare (c : Comparator)
  | whereWord | and | or | not | isIn | is | null | include | exclude | with
  | dot | comma | lParen | rParen | lBracket | rBracket
  | other (description : String)

/-- The sign of a comparison. -/
def sign : Comparator → String
  | .eq => "="
  | .notEq => "!="
  | .gte => ">="
  | .gt => ">"
  | .lte => "<="
  | .lt => "<"

variable {F : Type}

/-- `Token::description`. -/
def Token.description : Token F → String
  | ident s => s
  | stringLiteral s => "\"" ++ s ++ "\""
  | numberLiteral text _ => text
  | hashLiteral digest => "sha256:" ++ digest
  | parameter name => "$" ++ name
  | boolean true => "TRUE"
  | boolean false => "FALSE"
  | field w => w.description
  | category w => w.description
  | compare c => sign c
  | whereWord => "WHERE"
  | and => "AND"
  | or => "OR"
  | not => "NOT"
  | isIn => "IN"
  | is => "IS"
  | null => "NULL"
  | .include => "INCLUDE"
  | exclude => "EXCLUDE"
  | .with => "WITH"
  | dot => "."
  | comma => ","
  | lParen => "("
  | rParen => ")"
  | lBracket => "["
  | rBracket => "]"
  | other description => description

/-- What stands at the front of the tokens. -/
def found : List (Token F) → String
  | [] => "<end of query>"
  | t :: _ => t.description

/-- The refusals of the parser; `rounds` is a loop that runs out of rounds. -/
inductive ParseError where
  | unexpectedToken (expected found : String) (suggestion : Option String)
  | nestingTooDeep (depth max : ℕ)
  | inSetTooLarge (count max : ℕ)
  | rounds
  deriving DecidableEq

/-- A part of the parser. -/
abbrev Parser (F α : Type) := Reader (Token F) ParseError α

/-- `MAX_NESTING_DEPTH`. -/
def maxNestingDepth : ℕ := 8

/-- `MAX_IN_SET_SIZE`. -/
def maxInSetSize : ℕ := 100

/-- `enter_nesting` where no level is left. -/
def tooDeep {α : Type} : Parser F α := fun _ =>
  .error (.nestingTooDeep (maxNestingDepth + 1) maxNestingDepth)

def Token.isAnd : Token F → Bool
  | and => true
  | _ => false

def Token.isOr : Token F → Bool
  | or => true
  | _ => false

def Token.isComma : Token F → Bool
  | comma => true
  | _ => false

def Token.isRParen : Token F → Bool
  | rParen => true
  | _ => false

def Token.isRBracket : Token F → Bool
  | rBracket => true
  | _ => false

def Token.isNull : Token F → Bool
  | null => true
  | _ => false

/-- `expect_exact` of a closing token. -/
def close (isClose : Token F → Bool) (expected : String) {α : Type} (value : α) : Parser F α
  | t :: ts =>
    if isClose t then .ok (value, ts)
    else .error (.unexpectedToken expected t.description none)
  | [] => .error (.unexpectedToken expected "<end of query>" none)

/-! ## Values -/

/-- `parse_string_literal`. -/
def parseStringLiteral : Parser F String
  | .stringLiteral s :: ts => .ok (s, ts)
  | t :: _ => .error (.unexpectedToken "string literal" t.description
      (some "string values must be enclosed in double quotes"))
  | [] => .error (.unexpectedToken "string literal" "<end of query>" none)

/-- The arms of `parse_value`; `array` is what follows an opening bracket. -/
def valueArms (array : Parser F (List (CalValue F))) : Parser F (CalValue F)
  | .stringLiteral s :: ts => .ok (.string s, ts)
  | .numberLiteral _ n :: ts => .ok (.number n, ts)
  | .boolean b :: ts => .ok (.boolean b, ts)
  | .hashLiteral digest :: ts => .ok (.hash digest, ts)
  | .parameter name :: ts => .ok (.parameter name, ts)
  | .lBracket :: ts => do
    let (values, ts) ← array ts
    .ok (.array values, ts)
  | t :: _ => .error (.unexpectedToken
      "a value (string, number, boolean, hash, $parameter, or [array])" t.description none)
  | [] => .error (.unexpectedToken "a value" "<end of query>" none)

/-- The items of a list and its closing token. -/
def listBody (item : Parser F (CalValue F)) (isClose : Token F → Bool) (expected : String) :
    Parser F (List (CalValue F)) := fun ts => do
  let (values, ts) ← items Token.isComma isClose item .rounds ts.length ts
  close isClose expected values ts

/-- `parse_value`, with so many levels of nesting left. -/
def parseValue : ℕ → Parser F (CalValue F)
  | 0 => valueArms tooDeep
  | room + 1 => valueArms (listBody (parseValue room) Token.isRBracket "]")

/-- An item of `parse_value_list`: a parameter stands for an entire list. -/
def listItem (room : ℕ) : Parser F (CalValue F)
  | .parameter name :: ts => .ok (.parameter name, ts)
  | ts => parseValue room ts

/-- `parse_value_list`. -/
def parseValueList : ℕ → Parser F (List (CalValue F))
  | room, .lParen :: ts =>
    match room with
    | 0 => tooDeep ts
    | room + 1 => do
      let (values, ts) ← listBody (listItem room) Token.isRParen ")" ts
      if values = [] then
        .error (.unexpectedToken "at least one value inside IN ( ... )" "empty IN list"
          (some "IN requires one or more values."))
      else if maxInSetSize < values.length then
        .error (.inSetTooLarge values.length maxInSetSize)
      else .ok (values, ts)
  | _, ts => .error (.unexpectedToken "(" (found ts) none)

/-! ## Fields -/

/-- The words of `is_destructive_keyword`. -/
def destructiveKeywords : List String :=
  ["DELETE", "ERASE", "DESTROY", "TRUNCATE", "INSERT", "CREATE", "WRITE", "STORE", "KEY",
    "ENCRYPT", "DECRYPT", "ROTATE", "MASTER", "DEK", "SECRET", "POLICY", "SEAL", "UNSEAL",
    "TOKEN", "CONSENT", "RESTRICT", "SCHEMA", "PARTITION", "INDEX", "MIGRATION"]

/-- `is_destructive_keyword`. -/
def isDestructiveKeyword (word : String) : Bool := word.toUpper ∈ destructiveKeywords

/-- `parse_identifier`. -/
def parseIdentifier : Parser F String
  | .ident s :: ts =>
    if isDestructiveKeyword s then
      .error (.unexpectedToken "a field name or grain type" s
        (some ("CAL cannot destroy data in bulk. The only destructive CAL statement is " ++
          "FORGET <hash>; erasure, key rotation, and schema changes are host-level operations.")))
    else .ok (s, ts)
  | .field w :: ts => .ok (w.description.toLower, ts)
  | ts => .error (.unexpectedToken "identifier" (found ts) none)

/-- `parse_field_name`. -/
def parseFieldName : Parser F String := fun ts => do
  let (first, ts) ← parseIdentifier ts
  match ts with
  | .dot :: ts => do
    let (second, ts) ← parseIdentifier ts
    .ok (first ++ "." ++ second, ts)
  | ts => .ok (first, ts)

/-! ## Conditions -/

/-- `try_parse_relation_category` at one token. -/
def relationCategory : Token F → Option String
  | .category w => some w.description.toLower
  | .ident s =>
    if s.toUpper = "WORKFLOW" then some "workflow"
    else if s.toUpper = "CONSENSUS" then some "consensus"
    else if s.toUpper = "GOVERNANCE" then some "governance"
    else none
  | _ => none

/-- What follows `IS`. -/
def parseIs (field : String) : Parser F (Condition F)
  | .not :: ts => close Token.isNull "NULL" (.isNotNull field) ts
  | t :: ts =>
    match relationCategory t with
    | some category => .ok (.isCategory field category, ts)
    | none => close Token.isNull "NULL" (.isNull field) (t :: ts)
  | [] => close Token.isNull "NULL" (.isNull field) []

/-- `Value::type_name`. -/
def typeName : CalValue F → String
  | .string _ => "string"
  | .number _ => "number"
  | .boolean _ => "boolean"
  | .array _ => "array"
  | .hash _ => "hash"
  | .parameter _ => "parameter"

/-- What follows `INCLUDE` and `EXCLUDE`: an array, or a parameter for one. -/
def parseTags (word sample : String) (room : ℕ) : Parser F (List (CalValue F)) := fun ts => do
  let (value, ts) ← parseValue room ts
  match value with
  | .array values => .ok (values, ts)
  | .parameter name => .ok ([.parameter name], ts)
  | value => .error (.unexpectedToken ("array literal `[...]` after " ++ word) (typeName value)
      (some ("tags " ++ word ++ " requires an array, e.g. tags " ++ word ++ " " ++ sample)))

/-- The WITH that may follow `STARTS`. -/
def skipWith : List (Token F) → List (Token F)
  | .with :: ts => ts
  | .ident s :: ts => if s.toUpper = "WITH" then ts else .ident s :: ts
  | ts => ts

/-- What follows the field of a condition. -/
def parseOperator (room : ℕ) (field : String) : Parser F (Condition F)
  | .compare c :: ts => do
    let (value, ts) ← parseValue room ts
    .ok (.comparison field c value, ts)
  | .isIn :: .parameter name :: ts => .ok (.isIn field [.parameter name], ts)
  | .isIn :: ts => do
    let (values, ts) ← parseValueList room ts
    .ok (.isIn field values, ts)
  | .not :: .isIn :: ts => do
    let (values, ts) ← parseValueList room ts
    .ok (.notIn field values, ts)
  | .is :: ts => parseIs field ts
  | .include :: ts => do
    let (values, ts) ← parseTags "INCLUDE" "[\"tag1\", \"tag2\"]" room ts
    .ok (.isIn field values, ts)
  | .exclude :: ts => do
    let (values, ts) ← parseTags "EXCLUDE" "[\"tag1\"]" room ts
    .ok (.notIn field values, ts)
  | .ident s :: ts =>
    if s.toUpper = "CONTAINS" then do
      let (value, ts) ← parseStringLiteral ts
      .ok (.contains field value, ts)
    else if s.toUpper = "STARTS" then do
      let (value, ts) ← parseStringLiteral (skipWith ts)
      .ok (.startsWith field value, ts)
    else .error (.unexpectedToken ("comparison operator (=, !=, >=, <=, >, <), IN, IS, " ++
      "CONTAINS, STARTS WITH, INCLUDE, or EXCLUDE") s none)
  | t :: _ => .error (.unexpectedToken ("comparison operator (=, !=, >=, <=, >, <), IN, IS, " ++
      "CONTAINS, STARTS WITH, INCLUDE, or EXCLUDE") t.description none)
  | [] => .error (.unexpectedToken "comparison operator" "<end of query>" none)

/-- `parse_condition_primary`; `group` is what follows an opening parenthesis. -/
def parseConditionPrimary (group : Parser F (Condition F)) (room : ℕ) : Parser F (Condition F)
  | .lParen :: ts => do
    let (cond, ts) ← group ts
    close Token.isRParen ")" cond ts
  | ts => do
    let (field, ts) ← parseFieldName ts
    parseOperator room field ts

/-- `parse_condition_unary`. -/
def parseConditionUnary (group : Parser F (Condition F)) (room : ℕ) : Parser F (Condition F)
  | .not :: ts => do
    let (inner, ts) ← parseConditionPrimary group room ts
    .ok (.not inner, ts)
  | ts => parseConditionPrimary group room ts

/-- `parse_condition_and`. -/
def parseConditionAnd (group : Parser F (Condition F)) (room : ℕ) : Parser F (Condition F) :=
  chain Token.isAnd .and (parseConditionUnary group room) .rounds

/-- `parse_condition_or`, with so many levels of nesting left. -/
def parseConditionOr : ℕ → Parser F (Condition F)
  | 0 => chain Token.isOr .or (parseConditionAnd tooDeep 0) .rounds
  | room + 1 =>
    chain Token.isOr .or (parseConditionAnd (parseConditionOr room) (room + 1)) .rounds

/-- `parse_where_clause`. -/
def parseWhereClause (room : ℕ) : Parser F (Option (Condition F))
  | .whereWord :: ts => do
    let (cond, ts) ← parseConditionOr room ts
    .ok (some cond, ts)
  | ts => .ok (none, ts)

end Deja.Where

import Deja.Authz.Grant
import Mathlib.Algebra.GroupWithZero.Nat

/-!
# Templates: the parser

Text with tags between double braces.  A tag is a comment, a variable with its
filters, the opening or the closing of a block, or `else`.  Texts are lists of
characters; the closed set of variable names is a parameter (`validName`).

The parser calls itself for the body of a block and returns what is left of the
text; an `{{else}}` ends the first body of an `{{#if}}` with a comment node
reading `__else__`, by which the caller knows that a second body follows.
-/

namespace Deja.Template

open Deja.Authz

/-! ## Nodes -/

/-- A single filter in a variable's pipeline. -/
structure Filter where
  name : List Char
  arg : Option (List Char)
  deriving DecidableEq

/-- A single node in a parsed template tree. -/
inductive TemplateNode where
  | text (s : List Char)
  | variable (name : List Char) (filters : List Filter)
  | each (collection : List Char) (body : List TemplateNode)
  | condition (field : List Char) (ifBody elseBody : List TemplateNode)
  | invertedSection (field : List Char) (body : List TemplateNode)
  | grainTypeBlock (grainType : List Char) (body : List TemplateNode)
  | comment (s : List Char)

/-- The errors of the parser; `outOfFuel` is the bound of the recursion here. -/
inductive TemplateError where
  | tooLarge (size max : ℕ)
  | nestingTooDeep (max : ℕ)
  | nestedEach
  | syntaxError (detail : List Char)
  | unknownFilter (name : List Char)
  | unknownVariable (name : List Char)
  | outOfFuel
  deriving DecidableEq

/-- `MAX_TEMPLATE_SIZE`. -/
def maxTemplateSize : ℕ := 4096

/-- `MAX_TEMPLATE_NESTING`. -/
def maxTemplateNesting : ℕ := 5

/-- `str::len`. -/
def utf8Len (s : List Char) : ℕ := (s.map Char.utf8Size).sum

/-! ## Variables and filters -/

/-- `KNOWN_FILTERS`. -/
def knownFilters : List String :=
  ["truncate", "date", "relative", "humanize", "percent", "uppercase", "lowercase", "json",
    "default", "join"]

/-- `split_pipe`, from inside a quote or outside: the part being read and the
parts after it. -/
def splitPipeFrom : Option Char → List Char → List Char × List (List Char)
  | _, [] => ([], [])
  | some q, c :: s =>
    let r := splitPipeFrom (if c = q then none else some q) s
    (c :: r.1, r.2)
  | none, c :: s =>
    if c = '"' ∨ c = '\'' then
      let r := splitPipeFrom (some c) s
      (c :: r.1, r.2)
    else if c = '|' then
      let r := splitPipeFrom none s
      ([], r.1 :: r.2)
    else
      let r := splitPipeFrom none s
      (c :: r.1, r.2)

/-- Split an expression on `|` outside quotes; an empty last part is dropped
unless it is the only one. -/
def splitPipe (expr : List Char) : List (List Char) :=
  let r := splitPipeFrom none expr
  let parts := r.1 :: r.2
  if parts.getLast? = some [] ∧ 1 < parts.length then parts.dropLast else parts

/-- Remove surrounding quotes; nothing is left of an empty text. -/
def unquote (s : List Char) : Option (List Char) :=
  let t := trim s
  if 2 ≤ t.length ∧ ((t.head? = some '"' ∧ t.getLast? = some '"') ∨
      (t.head? = some '\'' ∧ t.getLast? = some '\'')) then some (t.drop 1).dropLast
  else if t = [] then none else some t

/-- `parse::<usize>`: an optional plus and digits, within 64 bits. -/
def parseUsize (s : List Char) : Option ℕ :=
  let digits := if s.head? = some '+' then s.tail else s
  if digits ≠ [] ∧ digits.all Char.isDigit then
    let n := digits.foldl (fun n c => 10 * n + (c.toNat - 48)) 0
    if n < 2 ^ 64 then some n else none
  else none

/-- The name and the argument of a filter: `name(arg)` or `name arg`. -/
def filterParts (segment : List Char) : List Char × Option (List Char) :=
  if '(' ∈ segment then
    let rest := (segment.dropWhile (· ≠ '(')).tail
    let inside := if ')' ∈ rest then (rest.rdropWhile (· ≠ ')')).dropLast else rest
    let raw := trim inside
    (trim (segment.takeWhile (· ≠ '(')), some ((unquote raw).getD raw))
  else
    let name := segment.takeWhile fun c => !isWhitespace c
    let raw := segment.dropWhile fun c => !isWhitespace c
    if raw = [] then (name, none) else (name, some ((unquote (trim raw)).getD (trim raw)))

/-- The check of a filter's argument. -/
def checkFilterArg (name : List Char) (arg : Option (List Char)) : Except TemplateError Unit :=
  match arg with
  | none => .ok ()
  | some a =>
    if name = "truncate".toList then
      match parseUsize a with
      | some n =>
        if 1 ≤ n ∧ n ≤ 100000 then .ok ()
        else .error (.syntaxError
          ("truncate argument ".toList ++ (toString n).toList ++
            " out of range [1, 100000]".toList))
      | none => .error (.syntaxError
          ("truncate argument \"".toList ++ a ++ "\" is not a valid number".toList))
    else if name = "date".toList then
      if 256 < utf8Len a then
        .error (.syntaxError ("date format string too long (".toList ++
          (toString (utf8Len a)).toList ++ " chars, max 256)".toList))
      else .ok ()
    else .ok ()

/-- `parse_single_filter`. -/
def parseSingleFilter (segment : List Char) : Except TemplateError Filter :=
  let segment := trim segment
  if segment = [] then .error (.syntaxError "empty filter name".toList)
  else
    let (name, arg) := filterParts segment
    if String.ofList name ∈ knownFilters then
      match checkFilterArg name arg with
      | .error e => .error e
      | .ok () => .ok ⟨name, arg⟩
    else .error (.unknownFilter name)

/-- `parse_variable_and_filters`. -/
def parseVariableAndFilters (expr : List Char) :
    Except TemplateError (List Char × List Filter) :=
  match splitPipe expr with
  | [] => .error (.syntaxError "empty variable expression".toList)
  | first :: parts =>
    if trim first = [] then .error (.syntaxError "empty variable name".toList)
    else
      match parts.mapM fun part => parseSingleFilter (trim part) with
      | .error e => .error e
      | .ok filters => .ok (trim first, filters)

/-! ## Pieces of a source -/

/-- A piece of a source: what stands between the braces of a tag, or literal
text. -/
inductive Piece where
  | tag (content : List Char)
  | text (s : List Char)
  deriving DecidableEq

/-- `read_tag` past the opening braces: the content and what follows the closing
braces.  Braces inside are counted. -/
def readTag : ℕ → List Char → Option (List Char × List Char)
  | _, [] => none
  | depth, c :: s =>
    if c = '}' ∧ s.head? = some '}' then
      if depth = 1 then some ([], s.tail)
      else (readTag (depth - 1) s).map fun r => (c :: r.1, r.2)
    else if c = '{' ∧ s.head? = some '{' then
      match s with
      | [] => none
      | b :: s' => (readTag (depth + 1) s').map fun r => (c :: b :: r.1, r.2)
    else (readTag depth s).map fun r => (c :: r.1, r.2)

/-- Literal text up to the next tag. -/
def readText : List Char → List Char × List Char
  | [] => ([], [])
  | c :: s =>
    if c = '{' ∧ s.head? = some '{' then ([], c :: s)
    else
      let r := readText s
      (c :: r.1, r.2)

/-- Whether a text starts with the braces of a tag. -/
def atTag (s : List Char) : Bool := ['{', '{'].isPrefixOf s

/-- The next piece of a source and the rest. -/
def nextPiece (s : List Char) : Except TemplateError (Piece × List Char) :=
  if atTag s then
    match readTag 1 (s.drop 2) with
    | some (content, rest) => .ok (.tag content, rest)
    | none => .error (.syntaxError "unclosed template tag (missing `\x7d\x7d`)".toList)
  else
    let r := readText s
    .ok (.text r.1, r.2)

/-! ## Tags -/

/-- The tags that open a block. -/
inductive Opening where
  | each (collection : List Char)
  | ifTag (field : List Char)
  | grainType (grainType : List Char)
  | section (field : List Char)
  | inverted (field : List Char)

namespace Opening

/-- The name the block is closed by. -/
def stop : Opening → List Char
  | each _ => "each".toList
  | ifTag _ => "if".toList
  | grainType _ => "grain_type".toList
  | .section field => field
  | inverted field => field

/-- Whether the body is inside an `{{#each}}`. -/
def inEach (outer : Bool) : Opening → Bool
  | each _ => true
  | _ => outer

/-- The node of a block with one body. -/
def node (body : List TemplateNode) : Opening → TemplateNode
  | each collection => .each collection body
  | ifTag field => .condition field body []
  | grainType gt => .grainTypeBlock gt body
  | .section field => .condition field body []
  | inverted field => .invertedSection field body

/-- The field of an `{{#if}}`. -/
def ifField : Opening → Option (List Char)
  | ifTag field => some field
  | _ => none

end Opening

/-- What a tag is. -/
inductive Tag where
  | comment (s : List Char)
  | close (name : List Char)
  | elseTag
  | opening (o : Opening)
  | variable (name : List Char) (filters : List Filter)

/-- `{{#...}}`. -/
def openSection (validName : List Char → Bool) (inEach : Bool) (sect : List Char) :
    Except TemplateError Opening :=
  if "each ".toList.isPrefixOf sect ∨ sect = "each".toList then
    let collection := trim (sect.drop 4)
    let collection := if collection = [] then "grains".toList else collection
    if inEach then .error .nestedEach
    else if collection = "grains".toList then .ok (.each collection)
    else .error (.syntaxError ("\x7b\x7b#each\x7d\x7d only supports \"grains\", got \"".toList ++
      collection ++ "\"".toList))
  else if "if ".toList.isPrefixOf sect ∨ sect = "if".toList then
    let field := trim (sect.drop 2)
    if field = [] then
      .error (.syntaxError "\x7b\x7b#if\x7d\x7d requires a field name".toList)
    else .ok (.ifTag field)
  else if "grain_type ".toList.isPrefixOf sect then
    let rest := trim (sect.drop 10)
    match unquote rest with
    | some grainType => .ok (.grainType grainType)
    | none => .error (.syntaxError
        ("\x7b\x7b#grain_type\x7d\x7d requires a quoted type name, got \"".toList ++ rest ++
          "\"".toList))
  else if sect.any isWhitespace then
    .error (.syntaxError ("unknown section type \"".toList ++ sect ++ "\"".toList))
  else if validName sect then .ok (.section sect)
  else .error (.unknownVariable sect)

/-- What the trimmed content of a tag says. -/
def readTagKind (validName : List Char → Bool) (inEach : Bool) (trimmed : List Char) :
    Except TemplateError Tag :=
  match trimmed with
  | '!' :: s => .ok (.comment (trim s))
  | '/' :: s => .ok (.close (trim s))
  | '#' :: s => (openSection validName inEach (trim s)).map .opening
  | '^' :: s =>
    if trim s = [] then .error (.syntaxError "\x7b\x7b^\x7d\x7d requires a field name".toList)
    else .ok (.opening (.inverted (trim s)))
  | s =>
    if s = "else".toList then .ok .elseTag
    else (parseVariableAndFilters s).map fun r => .variable r.1 r.2

/-! ## The parser -/

/-- The text of the comment that stands for `{{else}}`. -/
def elseMark : List Char := "__else__".toList

/-- A comment reading `__else__`. -/
def isElseMark : TemplateNode → Bool
  | .comment s => s == elseMark
  | _ => false

/-- Whether the last node is the mark. -/
def endsElse (nodes : List TemplateNode) : Bool := nodes.getLast?.any isElseMark

/-- What the parser returns: the nodes up to the closing tag, and the rest of
the text. -/
abbrev Parsed := Except TemplateError (List TemplateNode × List Char)

/-- A node in front of what the rest of the loop returns. -/
def consNode (node : TemplateNode) (r : Parsed) : Parsed := r.map fun x => (node :: x.1, x.2)

/-- The check at the start of `parse_nodes`. -/
def enter (depth : ℕ) (r : Parsed) : Parsed :=
  if maxTemplateNesting < depth then .error (.nestingTooDeep maxTemplateNesting) else r

/-- One round of the loop of `parse_nodes`; `again` is the parser itself, for
the rest of the loop and for the bodies of blocks. -/
def parseRound (validName : List Char → Bool)
    (again : ℕ → Bool → Option (List Char) → List Char → Parsed)
    (depth : ℕ) (inEach : Bool) (stop : Option (List Char)) (s : List Char) : Parsed :=
  if s = [] then
    match stop with
    | some expected => .error (.syntaxError
        ("unclosed \x7b\x7b#".toList ++ expected ++ "\x7d\x7d block".toList))
    | none => .ok ([], [])
  else
    match nextPiece s with
    | .error e => .error e
    | .ok (.text t, rest) => consNode (.text t) (again depth inEach stop rest)
    | .ok (.tag content, rest) =>
      match readTagKind validName inEach (trim content) with
      | .error e => .error e
      | .ok (.comment t) => consNode (.comment t) (again depth inEach stop rest)
      | .ok (.close name) =>
        if stop = some name then .ok ([], rest)
        else .error (.syntaxError
          ("unexpected closing tag \"".toList ++ name ++ "\"".toList))
      | .ok .elseTag =>
        if stop.any fun e => e == "if".toList || "if:".toList.isPrefixOf e then
          .ok ([.comment elseMark], rest)
        else .error (.syntaxError
          "\x7b\x7belse\x7d\x7d without matching \x7b\x7b#if\x7d\x7d".toList)
      | .ok (.variable name filters) =>
        consNode (.variable name filters) (again depth inEach stop rest)
      | .ok (.opening o) =>
        match enter (depth + 1) (again (depth + 1) (o.inEach inEach) (some o.stop) rest) with
        | .error e => .error e
        | .ok (body, rest') =>
          match o.ifField, endsElse body with
          | some field, true =>
            match enter (depth + 1) (again (depth + 1) inEach (some o.stop) rest') with
            | .error e => .error e
            | .ok (elseBody, rest'') =>
              consNode (.condition field (body.filter (!isElseMark ·)) elseBody)
                (again depth inEach stop rest'')
          | _, _ => consNode (o.node body) (again depth inEach stop rest')

/-- `parse_nodes`. -/
def parseNodes (validName : List Char → Bool) :
    ℕ → ℕ → Bool → Option (List Char) → List Char → Parsed
  | 0 => fun _ _ _ _ => .error .outOfFuel
  | n + 1 => parseRound validName (parseNodes validName n)

mutual

/-- `validate_variables`, one node. -/
def validateNode (validName : List Char → Bool) : TemplateNode → Except TemplateError Unit
  | .variable name _ => if validName name then .ok () else .error (.unknownVariable name)
  | .each _ body => validateVariables validName body
  | .condition field ifBody elseBody =>
    if validName field then
      match validateVariables validName ifBody with
      | .error e => .error e
      | .ok () => validateVariables validName elseBody
    else .error (.unknownVariable field)
  | .invertedSection field body =>
    if validName field then validateVariables validName body
    else .error (.unknownVariable field)
  | .grainTypeBlock _ body => validateVariables validName body
  | .text _ => .ok ()
  | .comment _ => .ok ()

/-- `validate_variables`. -/
def validateVariables (validName : List Char → Bool) :
    List TemplateNode → Except TemplateError Unit
  | [] => .ok ()
  | node :: nodes =>
    match validateNode validName node with
    | .error e => .error e
    | .ok () => validateVariables validName nodes

end

/-- `parse_template`: the nodes of a source. -/
def parseTemplate (validName : List Char → Bool) (source : List Char) :
    Except TemplateError (List TemplateNode) :=
  if maxTemplateSize < utf8Len source then .error (.tooLarge (utf8Len source) maxTemplateSize)
  else
    match enter 0 (parseNodes validName (source.length + 1) 0 false none source) with
    | .error e => .error e
    | .ok (nodes, _) =>
      match validateVariables validName nodes with
      | .error e => .error e
      | .ok () => .ok nodes

end Deja.Template

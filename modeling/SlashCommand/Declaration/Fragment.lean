import SlashCommand.Argument
import SlashCommand.Declaration.Payload
import SlashCommand.Declaration.Pieces

/-!
# Fragments

A fragment is a piece of a declaration together with the parameter it declares:
`<name>` is required, `[name]` optional, `(-f name)` a flag, and a bareword names
a command or subcommand by its position.  A positional name may carry a datatype
behind a colon and three dots for a variadic parameter.
-/

namespace SlashCommand.Declaration

inductive Grammar where
  /-- In the declaration of a whole command the first piece names the command, a
  bareword in second place a group and any later one a subcommand. -/
  | command
  /-- In the declaration of one parameter a bareword names a subcommand and
  stands in first or second place. -/
  | parameter
deriving DecidableEq

/-- A piece of a declaration and the parameter it declares. -/
structure Fragment where
  /-- The place among the pieces, from zero on. -/
  position : Nat
  source : String
  argument : Argument
  choices : Option (List String)

/-- The parameter of a payload: its kind and name, the description of the
payload, and the marks of its piece. -/
def argumentOf (payload : Payload) (kind : ArgumentKind) (name : String) : Argument :=
  { kind := kind
    name := name
    description := payload.description.getD Payload.blankDescription
    optional := false
    variadic := false
    datatype := .string
    token := none
    min := none
    max := none
    subarguments := [] }

/-! ## Parts of a piece -/

def dots : List Char :=
  ['.', '.', '.']

/-- A text without the dots at its end, and whether there were any.  Blanks
behind the dots do not count. -/
def stripDots (text : List Char) : List Char × Bool :=
  match Text.beforeEnd? dots (Text.trimEnd text) with
  | some stripped => (stripped, true)
  | none => (text, false)

/-- The text between the opening bracket of a piece and its closing one, given
what follows the opening bracket. -/
def inner (piece : String) (closing : Char) (rest : List Char) :
    Except Malformed (List Char) :=
  if rest.getLast? = some closing then
    .ok rest.dropLast
  else
    .error ⟨piece, .missingClosing closing⟩

/-- A name must be non-empty and hold no blank. -/
def checkName (piece : String) (name : List Char) : Except Malformed Unit :=
  if name.isEmpty then
    .error ⟨piece, .missingName⟩
  else if name.any Text.isBlank then
    .error ⟨piece, .blankInName (String.ofList name)⟩
  else
    .ok ()

def typedName (piece : String) (head : List Char) : Except Malformed (List Char × DataType) :=
  match Text.splitAtFirst? (· == ':') head with
  | none => .ok (Text.trim head, .string)
  | some (name, datatype) =>
      match DataType.parse? datatype with
      | some known => .ok (Text.trim name, known)
      | none => .error ⟨piece, .unknownDatatype (String.ofList (Text.trim datatype))⟩

/-- A piece in angle or square brackets, given what follows the opening bracket.
The dots may stand behind the head or at the end of the piece. -/
def positional (piece : String) (closing : Char) (optional : Bool) (rest : List Char) :
    Except Malformed (Argument × Option (List String)) := do
  let content ← inner piece closing rest
  let (body, variadicPiece) := stripDots content
  let payload := Payload.read body
  let (head, variadicHead) := stripDots payload.head.toList
  let (name, datatype) ← typedName piece head
  checkName piece name
  let argument :=
    { argumentOf payload .positional (String.ofList name) with
      optional := optional
      variadic := variadicPiece || variadicHead
      datatype := datatype }
  return (argument, payload.choices)

def withoutDashes (token : List Char) : List Char :=
  token.dropWhile (· == '-')

/-- The token and the name of a flag: the name is the token without its dashes
unless one is given. -/
def flagWords (piece : String) (head : List Char) : Except Malformed (List Char × List Char) :=
  match Text.words head with
  | [] => .ok ([], [])
  | [token] => .ok (token, withoutDashes token)
  | [token, name] => .ok (token, name)
  | _ => .error ⟨piece, .severalFlagNames⟩

def flag (piece : String) (rest : List Char) :
    Except Malformed (Argument × Option (List String)) := do
  if rest.head? ≠ some '-' then
    throw ⟨piece, .missingDash⟩
  let content ← inner piece ')' rest
  let payload := Payload.read content
  let (token, name) ← flagWords piece payload.head.toList
  checkName piece name
  if (withoutDashes token).isEmpty then
    throw ⟨piece, .missingFlagToken⟩
  if (Text.beforeEnd? dots name).isSome then
    throw ⟨piece, .variadicFlag⟩
  let argument :=
    { argumentOf payload .flag (String.ofList name) with
      optional := true
      token := some (String.ofList token) }
  return (argument, payload.choices)

def roleAt? (grammar : Grammar) (position : Nat) : Option CommandRole :=
  match grammar, position with
  | .command, 0 => some .root
  | .command, 1 => some .group
  | .command, _ => some .sub
  | .parameter, position => if position ≤ 1 then some .sub else none

def bareword (grammar : Grammar) (position : Nat) (piece : String) :
    Except Malformed Argument :=
  match piece.toList.find? fun c => (openingFor? c).isSome with
  | some closing => .error ⟨piece, .strayClosing closing⟩
  | none =>
      match roleAt? grammar position with
      | none => .error ⟨piece, .misplacedSubcommand⟩
      | some role => do
          let payload := Payload.read piece.toList
          checkName piece payload.head.toList
          return argumentOf payload (.command role) payload.head

def declared (grammar : Grammar) (position : Nat) (piece : String) :
    Except Malformed (Argument × Option (List String)) :=
  match piece.toList with
  | [] => .error ⟨piece, .emptyFragment⟩
  | '<' :: rest => positional piece '>' false rest
  | '[' :: rest => positional piece ']' true rest
  | '(' :: rest => flag piece rest
  | _ => (bareword grammar position piece).map fun argument => (argument, none)

/-! ## Declarations -/

def Fragment.parse (grammar : Grammar) (position : Nat) (piece : String) :
    Except Malformed Fragment :=
  (declared grammar position piece).map fun (argument, choices) =>
    { position := position
      source := piece
      argument := argument
      choices := choices }

def Fragment.parseFrom (grammar : Grammar) (position : Nat) :
    List String → Except Malformed (List Fragment)
  | [] => .ok []
  | piece :: rest => do
      let fragment ← Fragment.parse grammar position piece
      let fragments ← Fragment.parseFrom grammar (position + 1) rest
      return fragment :: fragments

/-- The fragments of a declaration, in order.  A blank declaration has none. -/
def fragments (grammar : Grammar) (text : String) : Except Malformed (List Fragment) := do
  Fragment.parseFrom grammar 0 (← pieces text)

/-- The declaration of one parameter, under a subcommand or not. -/
structure Parameter where
  subcommand : Option Fragment
  fragment : Fragment

/-- Reads the declaration of one parameter: exactly one parameter fragment, behind
at most one bareword that names its subcommand. -/
def Parameter.parse (text : String) : Except Malformed Parameter := do
  let found ← fragments .parameter text
  match found.filter fun fragment => !fragment.argument.isCommand with
  | [fragment] =>
      match found.filter fun fragment => fragment.argument.isCommand with
      | [] => return { subcommand := none, fragment := fragment }
      | [subcommand] =>
          if fragment.position < subcommand.position then
            throw ⟨text, .subcommandAfterParameter⟩
          else
            return { subcommand := some subcommand, fragment := fragment }
      | _ => throw ⟨text, .nestedSubcommands⟩
  | _ => throw ⟨text, .notOneParameter⟩

end SlashCommand.Declaration

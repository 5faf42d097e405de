import SlashCommand.Text.Split
import SlashCommand.Text.Letter

/-!
# Command parameters

The parameters a command declares: positional ones, flags with a short token,
and subcommands that own parameters of their own.  A scope key names a parameter
within the command or within one of its subcommands.
-/

namespace SlashCommand

/-! ## Datatypes -/

inductive DataType where
  | string
  | number
  | integer
  | boolean
  | user
  | channel
  | role
  | mention
deriving DecidableEq, Inhabited

namespace DataType

def name : DataType → String
  | .string => "string"
  | .number => "number"
  | .integer => "integer"
  | .boolean => "boolean"
  | .user => "user"
  | .channel => "channel"
  | .role => "role"
  | .mention => "mention"

def spellings : List (String × DataType) :=
  [("string", .string), ("str", .string), ("text", .string),
    ("number", .number), ("num", .number), ("float", .number),
    ("integer", .integer), ("int", .integer), ("intg", .integer),
    ("boolean", .boolean), ("bool", .boolean),
    ("user", .user), ("channel", .channel), ("role", .role),
    ("mention", .mention), ("mentionable", .mention)]

/-- The datatype of a spelling, in any case and between any blanks. -/
def parse? (text : List Char) : Option DataType :=
  spellings.lookup (String.ofList (Text.lower (Text.trim text)))

/-- The datatypes that take bounds. -/
def isNumeric : DataType → Bool
  | .number => true
  | .integer => true
  | _ => false

end DataType

/-! ## Parameters -/

/-- The part a bareword plays in a command. -/
inductive CommandRole where
  | root
  | group
  | sub
deriving DecidableEq

inductive ArgumentKind where
  | command (role : CommandRole)
  | positional
  | flag
deriving DecidableEq

structure Argument where
  kind : ArgumentKind
  name : String
  description : String
  optional : Bool
  /-- A variadic parameter takes every word that is left. -/
  variadic : Bool
  datatype : DataType
  /-- The token that introduces a flag, such as `-f`. -/
  token : Option String
  min : Option Float
  max : Option Float
  subarguments : List Argument

namespace Argument

def subcommand (name description : String) : Argument :=
  { kind := .command .sub
    name := name
    description := description
    optional := false
    variadic := false
    datatype := .string
    token := none
    min := none
    max := none
    subarguments := [] }

def isCommand (argument : Argument) : Bool :=
  match argument.kind with
  | .command _ => true
  | _ => false

def isFlag (argument : Argument) : Bool :=
  argument.kind == .flag

mutual

/-- Two parameters agree in every part.  Bounds are compared as numbers, so one
that is no number agrees with none. -/
def agrees : Argument → Argument → Bool
  | ⟨kind₁, name₁, description₁, optional₁, variadic₁, datatype₁, token₁, min₁, max₁, sub₁⟩,
    ⟨kind₂, name₂, description₂, optional₂, variadic₂, datatype₂, token₂, min₂, max₂, sub₂⟩ =>
      kind₁ == kind₂ && name₁ == name₂ && description₁ == description₂ &&
        optional₁ == optional₂ && variadic₁ == variadic₂ && datatype₁ == datatype₂ &&
        token₁ == token₂ && min₁ == min₂ && max₁ == max₂ && allAgree sub₁ sub₂

def allAgree : List Argument → List Argument → Bool
  | [], [] => true
  | argument₁ :: rest₁, argument₂ :: rest₂ => agrees argument₁ argument₂ && allAgree rest₁ rest₂
  | _, _ => false

end

instance : BEq Argument :=
  ⟨agrees⟩

/-- The short form of a parameter in a usage line, such as `[name...]`. -/
def usage (argument : Argument) : String :=
  let dots := if argument.variadic then "..." else ""
  match argument.kind with
  | .command _ => argument.name
  | .flag => "(" ++ argument.token.getD "" ++ " " ++ argument.name ++ ")"
  | .positional =>
      if argument.optional then
        "[" ++ argument.name ++ dots ++ "]"
      else
        "<" ++ argument.name ++ dots ++ ">"

end Argument

/-- The place of a parameter: its name, and the subcommand that owns it if any. -/
structure ScopeKey where
  subcommand : Option String
  name : String
deriving DecidableEq

namespace ScopeKey

def top (name : String) : ScopeKey :=
  ⟨none, name⟩

/-- The text of a key: the name, behind the subcommand and a colon if it has one. -/
def display (key : ScopeKey) : String :=
  match key.subcommand with
  | none => key.name
  | some subcommand => subcommand ++ ":" ++ key.name

/-- Keys of the command itself come first, then those of each subcommand. -/
instance : Ord ScopeKey :=
  ⟨compareLex (compareOn ScopeKey.subcommand) (compareOn ScopeKey.name)⟩

instance : Std.TransOrd ScopeKey :=
  inferInstanceAs <|
    Std.TransCmp (compareLex (compareOn ScopeKey.subcommand) (compareOn ScopeKey.name))

instance : Std.LawfulEqOrd ScopeKey where
  eq_of_compare {first second} h := by
    have hlex : compareLex (compareOn ScopeKey.subcommand) (compareOn ScopeKey.name)
        first second = .eq := h
    simp only [compareLex_eq_eq, compareOn, Std.LawfulEqCmp.compare_eq_iff_eq] at hlex
    obtain ⟨hsubcommand, hname⟩ := hlex
    cases first
    cases second
    simp_all

end ScopeKey

end SlashCommand

import SlashCommand.Command

/-!
# Registration schemas

What a platform is told about a command when it is registered: the kind of the
command, an option for every parameter, nested under an option for every
subcommand, and the restrictions the platform is to enforce.
-/

namespace SlashCommand

/-! ## Options -/

inductive OptionKind where
  | subcommand
  | subcommandGroup
  | string
  | integer
  | boolean
  | user
  | channel
  | role
  | mentionable
  | number
deriving DecidableEq

namespace OptionKind

def code : OptionKind → Nat
  | .subcommand => 1
  | .subcommandGroup => 2
  | .string => 3
  | .integer => 4
  | .boolean => 5
  | .user => 6
  | .channel => 7
  | .role => 8
  | .mentionable => 9
  | .number => 10

def ofDataType : DataType → OptionKind
  | .string => .string
  | .number => .number
  | .integer => .integer
  | .boolean => .boolean
  | .user => .user
  | .channel => .channel
  | .role => .role
  | .mention => .mentionable

/-- The kind of option a parameter is registered as.  A flag is a text with its
token as the only choice. -/
def ofArgument (argument : Argument) : OptionKind :=
  match argument.kind with
  | .command .group => .subcommandGroup
  | .command _ => .subcommand
  | .flag => .string
  | .positional => .ofDataType argument.datatype

end OptionKind

/-- A registered option.  The options of a subcommand are its parameters. -/
structure OptionSchema where
  kind : OptionKind
  name : String
  description : String
  required : Bool
  choices : List String
  autocomplete : Bool
  min : Option Float
  max : Option Float
  options : List OptionSchema

/-- What a platform is told about a command. -/
structure Schema where
  type : CommandType
  name : String
  description : String
  options : List OptionSchema
  permissions : List String
  roles : List String
  channels : List String
  guilds : List String

namespace OptionSchema

variable {α : Type}

def ofParts (command : Command α) (scope : Option String) (argument : Argument)
    (nested : List OptionSchema) : OptionSchema :=
  let key : ScopeKey := ⟨scope, argument.name⟩
  { kind := .ofArgument argument
    name := argument.name
    description := argument.description
    required := !argument.isCommand && !argument.optional
    choices := (command.choices.get? key).getD []
    autocomplete := command.autocomplete.contains key
    min := argument.min
    max := argument.max
    options := if argument.isCommand then nested else [] }

mutual

def ofArgument (command : Command α) (scope : Option String) : Argument → OptionSchema
  | ⟨kind, name, description, optional, variadic, datatype, token, min, max, subarguments⟩ =>
      ofParts command scope
        ⟨kind, name, description, optional, variadic, datatype, token, min, max, subarguments⟩
        (ofArguments command (some name) subarguments)

def ofArguments (command : Command α) (scope : Option String) :
    List Argument → List OptionSchema
  | [] => []
  | argument :: rest => ofArgument command scope argument :: ofArguments command scope rest

end

end OptionSchema

namespace Command

variable {α : Type}

def schema (command : Command α) : Schema :=
  { type := command.type
    name := command.name
    description := command.description
    options := OptionSchema.ofArguments command none command.arguments
    permissions := command.permissions
    roles := command.roles
    channels := command.channels.toList
    guilds := command.guilds.toList }

end Command

/-! ## JSON form -/

/-- A field that is left out when its list is empty. -/
def listField (name : String) : List Json → List (String × Json)
  | [] => []
  | items => [(name, .list items)]

/-- A field that is left out unless it is true. -/
def markField (name : String) (mark : Bool) : List (String × Json) :=
  if mark then [(name, .bool true)] else []

/-- A field that is left out when there is no bound. -/
def boundField (name : String) : Option Float → List (String × Json)
  | none => []
  | some bound => [(name, .ofFloat bound)]

/-- A choice, which is its own name and value. -/
def choiceToJson (choice : String) : Json :=
  .object [("name", .text choice), ("value", .text choice)]

namespace OptionSchema

mutual

def toJson : OptionSchema → Json
  | ⟨kind, name, description, required, choices, autocomplete, min, max, options⟩ =>
      .object <|
        [("type", .integer kind.code), ("name", .text name), ("description", .text description)] ++
          markField "required" required ++
          listField "choices" (choices.map choiceToJson) ++
          markField "autocomplete" autocomplete ++
          boundField "min_value" min ++
          boundField "max_value" max ++
          listField "options" (listToJson options)

def listToJson : List OptionSchema → List Json
  | [] => []
  | option :: rest => toJson option :: listToJson rest

end

end OptionSchema

def Schema.toJson (schema : Schema) : Json :=
  .object <|
    [("type", .integer schema.type.code), ("name", .text schema.name),
      ("description", .text schema.description)] ++
      listField "options" (OptionSchema.listToJson schema.options) ++
      listField "permissions" (schema.permissions.map .text) ++
      listField "roles" (schema.roles.map .text) ++
      listField "channels" (schema.channels.map .text) ++
      listField "guilds" (schema.guilds.map .text)

end SlashCommand

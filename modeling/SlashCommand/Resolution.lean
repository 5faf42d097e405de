import SlashCommand.Dict
import SlashCommand.Value

/-!
# Resolutions

The result of matching an invocation with a command: an entry for every
parameter in scope, flags apart, and the active subcommand.  The argument object
handed to the action of a command gathers the present entries by name.
-/

namespace SlashCommand

/-! ## Entries -/

structure Entry where
  name : String
  /-- The value, absent if none was given and there is no default. -/
  value : Option Value
  /-- The token of a flag; only flags have one. -/
  flag : Option String
  subcommand : Option String
  /-- The value is the declared default. -/
  defaulted : Bool

/-- Flags are the entries with a token. -/
def Entry.isFlag (entry : Entry) : Bool :=
  entry.flag.isSome

structure Resolution where
  /-- The entries that are no flags, in declaration order. -/
  args : List Entry
  flags : List Entry
  subcommand : Option String

namespace Resolution

def ofEntries (entries : List Entry) (subcommand : Option String) : Resolution :=
  { args := entries.filter fun entry => !entry.isFlag
    flags := entries.filter Entry.isFlag
    subcommand := subcommand }

/-- The first entry with a name that is no flag. -/
def arg? (resolution : Resolution) (name : String) : Option Entry :=
  resolution.args.find? fun entry => entry.name == name

def flag? (resolution : Resolution) (name : String) : Option Entry :=
  resolution.flags.find? fun entry => entry.name == name

end Resolution

/-! ## The argument object -/

/-- The present arguments of an invocation.  A given flag is recorded under its
name, its token and the text of its value. -/
structure Arguments where
  values : Dict String Value
  flags : OrderedSet String
  subcommand : Option String

namespace Arguments

/-- What a flag is recorded under, nothing when it was not given. -/
def flagMarks (entry : Entry) : List String :=
  match entry.value with
  | none => []
  | some value => entry.name :: (entry.flag.toList ++ [value.display])

def present? (entry : Entry) : Option (String × Value) :=
  entry.value.map fun value => (entry.name, value)

/-- The argument object of a resolution.  Of two present entries with one name
the later one counts. -/
def ofResolution (resolution : Resolution) : Arguments :=
  { values := Dict.ofList (resolution.args.filterMap present?)
    flags := (resolution.flags.flatMap flagMarks).foldl (fun set mark => set.add mark) ∅
    subcommand := resolution.subcommand }

def get? (arguments : Arguments) (name : String) : Option Value :=
  arguments.values.get? name

def text? (arguments : Arguments) (name : String) : Option String :=
  (arguments.get? name).bind Value.text?

def integer? (arguments : Arguments) (name : String) : Option Int64 :=
  (arguments.get? name).bind Value.integer?

def number? (arguments : Arguments) (name : String) : Option Float :=
  (arguments.get? name).bind Value.number?

def bool? (arguments : Arguments) (name : String) : Option Bool :=
  (arguments.get? name).bind Value.bool?

/-- The items of a name.  A single value reads as a list of its text. -/
def list? (arguments : Arguments) (name : String) : Option (List String) :=
  (arguments.get? name).map fun value => value.list?.getD [value.display]

def contains (arguments : Arguments) (name : String) : Bool :=
  arguments.values.contains name

/-- A flag was given, going by its name, its token or its value. -/
def flag (arguments : Arguments) (mark : String) : Bool :=
  arguments.flags.contains mark

/-- The document of an argument object: the values by name, and under the
reserved names `flags` and `subcommand` the marks of the given flags and the
active subcommand. -/
def toJson (arguments : Arguments) : Json :=
  let marks := arguments.flags.toList.map fun mark => (mark, Json.bool true)
  let subcommand := Json.ofOption .text arguments.subcommand
  .object <| Dict.entries <|
    ((arguments.values.mapValues Value.toJson).insert "flags" (.object marks)).insert
      "subcommand" subcommand

end Arguments

end SlashCommand

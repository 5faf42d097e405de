/-!
# Command-line options

The options of the console host: the path of a configuration file, and whether to
print the registration schemas instead of starting a session.
-/

namespace SlashCommand.Console

structure Options where
  config : Option String := none
  /-- Print the registration schemas and end. -/
  schema : Bool := false
deriving DecidableEq

namespace Options

/-- An argument that is an option rather than a value.  A single dash is a value. -/
def isOption (argument : String) : Bool :=
  match argument.toList with
  | ['-'] => false
  | '-' :: _ => true
  | _ => false

/-- Sets the path of the configuration file, once. -/
def setConfig? (options : Options) (path : String) : Option Options :=
  match options.config with
  | some _ => none
  | none => some { options with config := some path }

def setSchema? (options : Options) : Option Options :=
  if options.schema then none else some { options with schema := true }

/-- The value written in the same argument as an option, behind an equals sign or,
with the short option, right behind it. -/
def attached? (argument : String) : Option String :=
  match argument.toList with
  | '-' :: '-' :: 'c' :: 'o' :: 'n' :: 'f' :: 'i' :: 'g' :: '=' :: path => some (String.ofList path)
  | '-' :: 'c' :: '=' :: path => some (String.ofList path)
  | '-' :: 'c' :: c :: path => some (String.ofList (c :: path))
  | _ => none

/-- Reads arguments, starting from the options found before them.  Unknown and
incomplete arguments are refused. -/
def parseFrom? (options : Options) : List String → Option Options
  | [] => some options
  | "--" :: rest => if rest.isEmpty then some options else none
  | "--schema" :: rest => (options.setSchema?).bind fun next => parseFrom? next rest
  | [argument] => (attached? argument).bind options.setConfig?
  | argument :: value :: rest =>
      if argument = "--config" ∨ argument = "-c" then
        if isOption value then
          none
        else
          (options.setConfig? value).bind fun next => parseFrom? next rest
      else
        ((attached? argument).bind options.setConfig?).bind fun next =>
          parseFrom? next (value :: rest)

def parse? (arguments : List String) : Option Options :=
  parseFrom? {} arguments

end Options

end SlashCommand.Console

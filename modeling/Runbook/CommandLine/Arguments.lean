/-!
The arguments of the command line.

They are read from left to right, and the first that asks for help or the version, or that cannot
stand where it does, decides.
-/
namespace Runbook

/-- What is to be done with a file. -/
inductive Command where
  /-- Compile it, and show the compiled routine if `emit` holds. -/
  | check (file : String) (emit : Bool)
  /-- Perform it, in a configuration that is kept in a file; show the result as JSON if `json`
  holds. -/
  | run (file : String) (json : Bool) (config : Option String)
  deriving DecidableEq, Repr

/-- What a command line asks for. -/
inductive Request where
  | perform (command : Command)
  | version
  | help
  /-- It cannot be understood. -/
  | misused
  deriving DecidableEq, Repr

/-- The flags and values that have been read. -/
structure Arguments where
  file : Option String
  /-- The flag of the command: to show the routine, or JSON. -/
  flag : Bool
  config : Option String
  deriving DecidableEq, Repr

namespace Arguments

def start : Arguments := ⟨none, false, none⟩

/-- Is the argument a name or value, and no option? -/
def isPlain (argument : String) : Bool := argument = "-" || !argument.startsWith "-"

/-- Adds the file, which is named once. -/
def withFile? (arguments : Arguments) (file : String) : Option Arguments :=
  if arguments.file.isSome ∨ file = "" then none else some { arguments with file := some file }

/-- Adds the flag, which is given once. -/
def withFlag? (arguments : Arguments) : Option Arguments :=
  if arguments.flag then none else some { arguments with flag := true }

/-- Adds the configuration, which is named once. -/
def withConfig? (arguments : Arguments) (path : String) : Option Arguments :=
  if arguments.config.isSome ∨ path = "" then none else some { arguments with config := some path }

end Arguments

structure Options where
  flag : String
  config : Bool
  deriving DecidableEq, Repr

/-- The path that an argument names together with its option. -/
def configOf? (argument : String) : Option String :=
  let option := "--config="
  if argument.startsWith option then
    some (String.ofList (argument.toList.drop option.length))
  else none

/-- Reads what follows a command; `finish` makes the command of it. -/
def Options.read (options : Options) (finish : String → Arguments → Command) :
    Arguments → List String → Request
  | arguments, [] =>
    match arguments.file with
    | some file => .perform (finish file arguments)
    | none => .misused
  | arguments, "--" :: rest =>
    match rest.foldlM Arguments.withFile? arguments with
    | some arguments =>
      match arguments.file with
      | some file => .perform (finish file arguments)
      | none => .misused
    | none => .misused
  | arguments, argument :: rest =>
    let go : Option Arguments → Request
      | some arguments => options.read finish arguments rest
      | none => .misused
    if Arguments.isPlain argument then go (arguments.withFile? argument)
    else if argument = "--help" ∨ argument.startsWith "-h" then .help
    else if argument = options.flag then go arguments.withFlag?
    else if options.config ∧ argument = "--config" then
      match rest with
      | [] => .misused
      | path :: rest =>
        if Arguments.isPlain path then
          match arguments.withConfig? path with
          | some arguments => options.read finish arguments rest
          | none => .misused
        else .misused
    else if options.config then go ((configOf? argument).bind arguments.withConfig?)
    else .misused

def Request.ofArguments : List String → Request
  | [] => .misused
  | argument :: rest =>
    if argument = "check" then
      Options.read ⟨"--emit-ir", false⟩ (fun file arguments => .check file arguments.flag) .start rest
    else if argument = "run" then
      Options.read ⟨"--json", true⟩ (fun file arguments => .run file arguments.flag arguments.config)
        .start rest
    else if argument = "help" then
      if rest.isEmpty ∨ rest = ["check"] ∨ rest = ["run"] ∨ rest = ["help"] then .help
      else .misused
    else if argument = "--version" ∨ argument.startsWith "-V" then .version
    else if argument = "--help" ∨ argument.startsWith "-h" then .help
    else .misused

end Runbook

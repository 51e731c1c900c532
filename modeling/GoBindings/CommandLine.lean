import GoBindings.Response

/-!
# The command line

The command reads a request and writes the response, or a summary of the request. Nothing is
written before all of the answer is ready.
-/

namespace GoBindings.CommandLine

structure Options where
  input : Option String := none
  output : Option String := none
  describe : Bool := false
  deriving DecidableEq, Repr, Inhabited

inductive Task where
  | run (options : Options)
  | help
  /-- The arguments make no sense. -/
  | misuse
  deriving DecidableEq, Repr, Inhabited

inductive PathOption where
  | input
  | output
  deriving DecidableEq, Repr, Inhabited

/-- Sets a path, which must not be empty nor given before. -/
def setPath (o : Options) (option : PathOption) (path : String) : Option Options :=
  match option, o.input, o.output with
  | .input, none, _ => if path = "" then none else some { o with input := some path }
  | .output, _, none => if path = "" then none else some { o with output := some path }
  | _, _, _ => none

/-- The argument after an option is its path, unless it looks like an option itself. -/
def isPath (arg : String) : Bool :=
  match arg.toList with
  | '-' :: _ :: _ => false
  | _ => true

/-- The path in the argument of an option with its letter, with an equals sign before or not. -/
def attached : List Char → String
  | '=' :: path => String.ofList path
  | path => String.ofList path

inductive Arg where
  | describe
  | help
  /-- An option whose path is the next argument. -/
  | path (option : PathOption)
  | pathIs (option : PathOption) (path : String)
  | stop
  | unknown
  deriving DecidableEq, Repr, Inhabited

def Arg.ofString (arg : String) : Arg :=
  match arg.toList with
  | ['-', '-'] => .stop
  | '-' :: '-' :: long =>
    match Text.cutFirst? '=' long with
    | some (name, value) =>
      if name = "input".toList then .pathIs .input (String.ofList value)
      else if name = "output".toList then .pathIs .output (String.ofList value)
      else .unknown
    | none =>
      if long = "input".toList then .path .input
      else if long = "output".toList then .path .output
      else if long = "describe".toList then .describe
      else if long = "help".toList then .help
      else .unknown
  | ['-', 'i'] => .path .input
  | ['-', 'o'] => .path .output
  | '-' :: 'i' :: value => .pathIs .input (attached value)
  | '-' :: 'o' :: value => .pathIs .output (attached value)
  | '-' :: 'h' :: _ => .help
  | _ => .unknown

/-- Reads arguments from left to right up to the first that is wrong. -/
def parse (o : Options) : List String → Task
  | [] => .run o
  | arg :: args =>
    match Arg.ofString arg with
    | .describe => if o.describe then .misuse else parse { o with describe := true } args
    | .help => .help
    | .pathIs option path =>
      match setPath o option path with
      | some o => parse o args
      | none => .misuse
    | .path option =>
      match args with
      | path :: args =>
        if isPath path then
          match setPath o option path with
          | some o => parse o args
          | none => .misuse
        else .misuse
      | [] => .misuse
    | .stop => if args.isEmpty then .run o else .misuse
    | .unknown => .misuse

def answer (o : Options) (request : List UInt8) : Except Error (List UInt8) :=
  if o.describe then do
    return Text.Utf8.encode ((← describe request) ++ "\n")
  else generateBytes request

/-- The means of a command to read and write. -/
structure Channels (m : Type → Type) where
  readInput : m (Except Error (List UInt8))
  load : String → m (Except Error (List UInt8))
  writeOutput : List UInt8 → m (Except Error Unit)
  save : String → List UInt8 → m (Except Error Unit)
  report : String → m Unit

def usage : String := "Usage: protoc-gen-go [OPTIONS]\n"

def helpText : String :=
  "Generate Go source from a protoc CodeGeneratorRequest\n\n" ++ usage ++ "\n" ++
  "Options:\n" ++
  "  -i, --input <INPUT>    Read the serialized request from this file instead of stdin\n" ++
  "  -o, --output <OUTPUT>  Write the serialized response to this file instead of stdout\n" ++
  "      --describe         Print a JSON summary of the request instead of generating\n" ++
  "  -h, --help             Print help\n"

variable {m : Type → Type} [Monad m] (c : Channels m)

def execute (o : Options) : ExceptT Error m Unit := do
  let request ← ExceptT.mk (match o.input with
    | some path => c.load path
    | none => c.readInput)
  let out ← answer o request
  ExceptT.mk (match o.output with
    | some path => c.save path out
    | none => c.writeOutput out)

def run (args : List String) : m UInt32 := do
  match parse {} args with
  | .run options =>
    match ← (execute c options).run with
    | .ok _ => return 0
    | .error error =>
      c.report ("protoc-gen-go: error: " ++ error.message ++ "\n")
      return 1
  | .help =>
    let _ ← c.writeOutput (Text.Utf8.encode helpText)
    return 0
  | .misuse =>
    c.report usage
    return 2

end GoBindings.CommandLine

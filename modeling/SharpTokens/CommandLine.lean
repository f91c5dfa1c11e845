import SharpTokens.Server

/-!
# The command line of the server

The server takes requests on its standard input and answers on its standard output. Options set its
limits; others print something instead of serving.
-/

namespace SharpTokens.CommandLine

open Text

/-! ### Arguments

What an argument looks like is told apart from what it means. -/

inductive Argument where
  /-- two dashes, a name, and possibly a value after an equals sign -/
  | long (name : String) (value : Option String)
  /-- a dash, a letter, and whatever follows it -/
  | short (letter : Char) (attached : List Char)
  /-- two dashes: no option follows -/
  | divider
  | plain
  deriving DecidableEq, Repr

def splitValue (cs : List Char) : Argument :=
  match cs.span (· != '=') with
  | (name, []) => .long (String.ofList name) none
  | (name, _ :: value) => .long (String.ofList name) (some (String.ofList value))

/-- What an argument looks like. A single dash is not an option. -/
def Argument.ofString (s : String) : Argument :=
  match s.toList with
  | ['-', '-'] => .divider
  | '-' :: '-' :: rest => splitValue rest
  | '-' :: letter :: rest => .short letter rest
  | _ => .plain

/-- A number below 2^64, in decimal digits, possibly after a plus sign. -/
def number? (s : String) : Option Nat :=
  let digits := match s.toList with
    | '+' :: rest => rest
    | cs => cs
  if digits.isEmpty || !digits.all Char.isDigit then none
  else
    let n := digits.foldl (fun n c => 10 * n + (c.toNat - '0'.toNat)) 0
    if n ≤ Guard.unlimited then some n else none

/-! ### Options

Options are taken one after another. That for help and that for the version count at once, whatever
follows them. -/

inductive Setting where
  | maxFrame | maxDepth | logLevel
  deriving DecidableEq, Repr

def Setting.ofName? : String → Option Setting
  | "max-frame-len" => some .maxFrame
  | "max-depth" => some .maxDepth
  | "log-level" => some .logLevel
  | _ => none

structure Options where
  maxFrame : Option Nat
  maxDepth : Option Nat
  logLevel : Option String
  printLegend : Bool
  deriving DecidableEq, Repr

inductive Command where
  | serve (limit depth : Nat)
  | printLegend
  | version
  | help
  deriving DecidableEq, Repr

namespace Options

def none : Options := ⟨.none, .none, .none, false⟩

/-- Gives an option its value. That can be done once, and numbers have to be numbers. -/
def set (o : Options) (setting : Setting) (value : String) : Option Options :=
  match setting with
  | .maxFrame =>
      if o.maxFrame.isSome then .none else (number? value).map ({ o with maxFrame := some · })
  | .maxDepth =>
      if o.maxDepth.isSome then .none else (number? value).map ({ o with maxDepth := some · })
  | .logLevel => if o.logLevel.isSome then .none else some { o with logLevel := some value }

def command (o : Options) : Command :=
  if o.printLegend then .printLegend
  else
    .serve (Frame.clampLimit (o.maxFrame.getD Frame.defaultLimit))
      (o.maxDepth.getD Guard.defaultLimit)

def isValue (s : String) : Bool := Argument.ofString s == .plain

/-- What arguments ask for, after some options. There is no answer if they are wrong. -/
def parse (o : Options) : List String → Option Command
  | [] => some o.command
  | arg :: rest =>
    match Argument.ofString arg with
    | .plain => .none
    | .divider => if rest.isEmpty then some o.command else .none
    | .short 'V' _ => some .version
    | .short 'h' _ => some .help
    | .short 'l' (c :: cs) =>
      let value := if c = '=' then cs else c :: cs
      (o.set .logLevel (String.ofList value)).bind (parse · rest)
    | .short 'l' [] =>
      match rest with
      | value :: rest =>
          if isValue value then (o.set .logLevel value).bind (parse · rest) else .none
      | [] => .none
    | .short _ _ => .none
    | .long "version" .none => some .version
    | .long "help" .none => some .help
    | .long "print-legend" .none =>
      if o.printLegend then .none else parse { o with printLegend := true } rest
    | .long name (some value) =>
      ((Setting.ofName? name).bind (o.set · value)).bind (parse · rest)
    | .long name .none =>
      match rest with
      | value :: rest =>
        if isValue value then ((Setting.ofName? name).bind (o.set · value)).bind
          (parse · rest) else .none
      | [] => .none

end Options

def parse (args : List String) : Option Command := Options.none.parse args

/-! ### Running

The input is all there before the server starts, and what it leaves behind is a function of it. -/

def versionText : String := "semtok-server 0.0.1\n"

def helpText : String :=
  "Semantic token server for C# over stdio\n\n" ++
  "Usage: semtok-server [OPTIONS]\n\n" ++
  "Options:\n" ++
  "      --max-frame-len <N>    Largest frame accepted or sent, in bytes (at least 64)\n" ++
  "      --max-depth <N>        Deepest nesting parsed before a construct is skipped\n" ++
  "  -l, --log-level <WORD>     Log level (trace, debug, info, warn, error)\n" ++
  "      --print-legend         Print the token legend as JSON and exit\n" ++
  "  -h, --help                 Print help\n" ++
  "  -V, --version              Print version\n"

def legendText : Bytes := Legend.standard.render .indented ++ [0x0A]

/-- The server with some limits. A text may be as long as a frame. -/
def server (limit depth : Nat) : Server Grammar.Label :=
  ⟨.csharp .standard limit depth, limit⟩

/-- What the program leaves behind: its exit code and what it wrote. -/
structure Outcome where
  exitCode : Nat
  output : Bytes
  deriving DecidableEq, Repr

def exitCode : Except ServeError Served → Nat
  | .ok _ => 0
  | .error _ => 1

def usageError : Nat := 2

def run (args : List String) (input : Bytes) : Outcome :=
  match parse args with
  | none => ⟨usageError, []⟩
  | some .version => ⟨0, encodeUtf8 versionText⟩
  | some .help => ⟨0, encodeUtf8 helpText⟩
  | some .printLegend => ⟨0, legendText⟩
  | some (.serve limit depth) =>
    let fed := (server limit depth).feed (.initial (.ofRoom none)) input
    let result :=
      match fed.failure with
      | some e => .error e
      | none => Server.finish fed.state
    ⟨exitCode result, fed.state.sink.bytes⟩

end SharpTokens.CommandLine

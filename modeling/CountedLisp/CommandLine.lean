import CountedLisp.Program
import CountedLisp.Text.Quoted

/-!
# The command line

Without a command a line session is started; `run` evaluates arguments, and `help` describes a
command. Flags may stand anywhere up to `--`, also after arguments, and short flags may be combined.
A wrong use is answered with a message and the usage of the command.
-/
namespace CountedLisp.CommandLine

inductive Command where
  | root | run | help
  deriving Repr, DecidableEq

inductive Flag where
  | config | debug | expression | print | help
  deriving Repr, DecidableEq

namespace Flag

def name : Flag → Text
  | config => "config"
  | debug => "debug"
  | expression => "expression"
  | print => "print"
  | help => "help"

def letter : Flag → UInt8
  | config => 'c'.toUInt8
  | debug => 'd'.toUInt8
  | expression => 'e'.toUInt8
  | print => 'p'.toUInt8
  | help => 'h'.toUInt8

def takesValue : Flag → Bool
  | config => true
  | _ => false

end Flag

def Command.flags : Command → List Flag
  | .run => [.expression, .print, .config, .debug]
  | _ => [.config, .debug]

structure Options where
  request : Program.Request := {}
  help : Bool := false
  deriving Repr, DecidableEq

def Options.switch (o : Options) (on : Bool) : Flag → Options
  | .debug => { o with request := { o.request with debug := on } }
  | .expression => { o with request := { o.request with asExpressions := on } }
  | .print => { o with request := { o.request with print := on } }
  | .help => { o with help := on }
  | .config => o

def bool? (t : Text) : Option Bool :=
  let oneOf (names : List String) : Bool := names.any fun name => Text.ofString name = t
  if oneOf ["1", "t", "T", "TRUE", "true", "True"] then some true
  else if oneOf ["0", "f", "F", "FALSE", "false", "False"] then some false
  else none

def badValue (f : Flag) (value : Text) : Text :=
  "invalid argument " ++ value.quoted ++ " for " ++
    Text.quoted ("-" ++ [f.letter] ++ ", --" ++ f.name) ++
    " flag: strconv.ParseBool: parsing " ++ value.quoted ++ ": invalid syntax"

def Options.assign (o : Options) (f : Flag) (value : Text) : Except Text Options :=
  if f.takesValue then .ok { o with request := { o.request with config := value } }
  else
    match bool? value with
    | some on => .ok (o.switch on f)
    | none => .error (badValue f value)

def Options.argue (o : Options) (args : List Text) : Options :=
  { o with request := { o.request with args := o.request.args ++ args } }

def quotedByte (b : UInt8) : Text :=
  let code := b.toNat
  let bytes : Text :=
    if code < 128 then [b] else [(0xC0 + code / 64).toUInt8, (0x80 + code % 64).toUInt8]
  let shown : Text :=
    if b == Byte.singleQuote then "\\'" else if b == Byte.doubleQuote then [b] else
      Text.escapeChar code bytes
  "'" ++ shown ++ "'"

/-- The state between two words of a command line: what was said so far, and the complaint to make
if the value that a flag waits for is missing. -/
abbrev Parsing := Options × Option Text

/-- Takes a long flag, given without its dashes. -/
def takeLong (known : List Flag) (o : Options) (word : Text) : Except Text Parsing :=
  let (name, value) := word.span (· != Byte.equals)
  if word.head? == some Byte.minus || word.head? == some Byte.equals then
    .error ("bad flag syntax: --" ++ word)
  else
    match known.find? (·.name = name) with
    | none => .error ("unknown flag: --" ++ name)
    | some f =>
      match value with
      | _ :: value => (o.assign f value).map (·, none)
      | [] =>
        if f.takesValue then .ok (o, some ("flag needs an argument: --" ++ word))
        else .ok (o.switch true f, none)

def takeShort (known : List Flag) (o : Options) : Text → Except Text Parsing
  | [] => .ok (o, none)
  | b :: rest =>
    match known.find? (·.letter = b) with
    | none => .error ("unknown shorthand flag: " ++ quotedByte b ++ " in -" ++ [b] ++ rest)
    | some f =>
      match rest with
      | Byte.equals :: v :: value => (o.assign f (v :: value)).map (·, none)
      | _ =>
        if !f.takesValue then takeShort known (o.switch true f) rest
        else if rest.isEmpty then
          .ok (o, some ("flag needs an argument: " ++ quotedByte b ++ " in -" ++ [b]))
        else (o.assign f rest).map (·, none)

def isFlagWord : Text → Bool
  | Byte.minus :: _ :: _ => true
  | _ => false

def takeWords (known : List Flag) : Parsing → List Text → Except Text Options
  | (o, none), [] => .ok o
  | (_, some complaint), [] => .error complaint
  | (o, some _), value :: rest => do
    let o ← o.assign .config value
    takeWords known (o, none) rest
  | (o, none), word :: rest =>
    match word with
    | [Byte.minus, Byte.minus] => .ok (o.argue rest)
    | Byte.minus :: Byte.minus :: name => do
      let next ← takeLong known o name
      takeWords known next rest
    | Byte.minus :: b :: letters => do
      let next ← takeShort known o (b :: letters)
      takeWords known next rest
    | arg => takeWords known (o.argue [arg], none) rest

def options (c : Command) (words : List Text) : Except Text Options :=
  takeWords (c.flags ++ [.help]) ({}, none) words

/-- Whether the word after this one is the value of a flag, as long as the help flag is unknown. -/
def awaitsValue (known : List Flag) : Text → Bool
  | Byte.minus :: Byte.minus :: name =>
    !name.contains Byte.equals && !(known.any fun f => f.name = name && !f.takesValue)
  | [Byte.minus, b] => !(known.any fun f => f.letter = b && !f.takesValue) && b != Byte.equals
  | _ => false

/-- The first word that is neither a flag nor the value of a flag, and its position. -/
def firstArgument? (known : List Flag) : (position : Nat) → List Text → Option (Nat × Text)
  | _, [] => none
  | position, word :: rest =>
    if word = Text.ofString "--" then none
    else if awaitsValue known word then
      match rest with
      | _ :: rest => if rest.isEmpty then none else firstArgument? known (position + 2) rest
      | [] => none
    else if word.isEmpty || word.head? == some Byte.minus then
      firstArgument? known (position + 1) rest
    else some (position, word)

def findCommand (words : List Text) : Command × List Text :=
  match firstArgument? Command.root.flags 0 words with
  | some (position, word) =>
    if word = Text.ofString "run" then (.run, words.eraseIdx position)
    else if word = Text.ofString "help" then (.help, words.eraseIdx position)
    else (.root, words)
  | none => (.root, words)

def Command.description : Command → Text
  | .root =>
    "A small lisp interpreter with reference counted memory and lambdas\n" ++
    "applied by substitution.  Without a subcommand an interactive repl is started."
  | .run => "Run lisp code provided supplied via the command line or a file."
  | .help =>
    "Help provides help for any command in the application.\n" ++
    "Simply type badlisp help [path to command] for full details."

def sharedFlags : Text :=
  "  -c, --config string   YAML configuration file\n" ++
  "  -d, --debug           Start with debugging output enabled\n"

def Command.usage : Command → Text
  | .root =>
    "Usage:\n  badlisp [flags]\n  badlisp [command]\n\nAvailable Commands:\n" ++
    "  completion  Generate the autocompletion script for the specified shell\n" ++
    "  help        Help about any command\n  run         Run lisp code\n\nFlags:\n" ++
    sharedFlags ++ "  -h, --help            help for badlisp\n\n" ++
    "Use \"badlisp [command] --help\" for more information about a command.\n"
  | .run =>
    "Usage:\n  badlisp run [flags]\n\nFlags:\n" ++
    "  -e, --expression   Interpret arguments as lisp expressions\n" ++
    "  -h, --help         help for run\n" ++
    "  -p, --print        Print expression values to stdout\n\nGlobal Flags:\n" ++ sharedFlags
  | .help =>
    "Usage:\n  badlisp help [command] [flags]\n\nFlags:\n  -h, --help   help for help\n\n" ++
    "Global Flags:\n" ++ sharedFlags

def helpFor (c : Command) : Program.Outcome :=
  ⟨0, c.description ++ "\n\n" ++ c.usage, []⟩

def misuse (c : Command) (complaint : Text) : Program.Outcome :=
  ⟨1, [], "Error: " ++ complaint ++ "\n" ++ c.usage ++ "\n" ++ complaint ++ "\n"⟩

inductive Action where
  | converse (r : Program.Request)
  | run (r : Program.Request)
  | answer (o : Program.Outcome)
  deriving Repr, DecidableEq

def action (words : List Text) : Action :=
  let (c, words) := findCommand words
  match options c words with
  | .error complaint => .answer (misuse c complaint)
  | .ok o =>
    if o.help then .answer (helpFor c)
    else
      match c with
      | .run => .run o.request
      | .help => .answer (helpFor (findCommand o.request.args).1)
      | .root =>
        match o.request.args with
        | [] => .converse o.request
        | arg :: _ =>
          .answer (misuse .root ("unknown command " ++ arg.quoted ++ " for \"badlisp\""))

def outcome (files : Program.Files) (fuel : Nat) (input : Text) (words : List Text) :
    Program.Outcome :=
  match action words with
  | .answer o => o
  | .run r => Program.run files fuel r
  | .converse r => Program.converse files fuel r input

end CountedLisp.CommandLine

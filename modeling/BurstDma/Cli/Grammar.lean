/-!
# Command lines

A command line is a list of words. Options have a long name, some a short one, and some
take a value, either attached or as the next word; short options can share a word.
Whatever is wrong with a line is found from the left, and **a request for help wins over
everything to its right**.
-/

namespace BurstDma.Cli

/-- Why a command line asks for no work. -/
inductive Ending where
  | help
  | version
  | misuse (text : String)
deriving Repr, DecidableEq, Inhabited

/-- What an option does. -/
inductive Action where
  | flag
  /-- Takes a value, if it can be one. -/
  | value (accepts : String → Bool)
  | help
  | version

/-- An option. -/
structure Opt where
  long : String
  short : Option Char := none
  action : Action := .flag

/-- A value that stands by its position. -/
structure Positional where
  name : String
  accepts : String → Bool

/-- What may stand on a command line. -/
structure Grammar where
  options : List Opt := []
  positionals : List Positional := []
  /-- Whether the first word that is no option belongs to a line of its own. -/
  hasCommands : Bool := false

/-- What stands on a command line: the options by their long names, and the values that
stand by their position. -/
structure Given where
  options : List (String × String) := []
  positionals : List String := []
deriving Repr, DecidableEq, Inhabited

namespace Given

/-- Whether an option is there. -/
def has (g : Given) (long : String) : Bool :=
  g.options.any (·.1 == long)

/-- The value of an option. -/
def value? (g : Given) (long : String) : Option String :=
  g.options.lookup long

/-- One more option. None may be there twice. -/
def add (g : Given) (long value : String) : Except Ending Given :=
  if g.has long then .error (.misuse s!"the argument '--{long}' cannot be used multiple times")
  else .ok { g with options := g.options ++ [(long, value)] }

/-- One more option with a value. -/
def addValue (g : Given) (long : String) (accepts : String → Bool) (value : String) :
    Except Ending Given :=
  if accepts value then g.add long value
  else .error (.misuse s!"invalid value '{value}' for '--{long}'")

/-- One more value that stands by its position. -/
def addPositional (g : Given) (grammar : Grammar) (value : String) : Except Ending Given :=
  match grammar.positionals[g.positionals.length]? with
  | none => .error (.misuse s!"unexpected argument '{value}' found")
  | some p =>
    if p.accepts value then .ok { g with positionals := g.positionals ++ [value] }
    else .error (.misuse s!"invalid value '{value}' for '{p.name}'")

end Given

/-- The forms of a word. -/
inductive Word where
  /-- Two dashes alone: only values follow. -/
  | escape
  | long (name : String) (value : Option String)
  | shorts (letters : List Char)
  | plain
deriving Repr, DecidableEq, Inhabited

/-- A long option cut at its first equals sign. -/
def splitValue (s : List Char) : Word :=
  let name := String.ofList (s.takeWhile (· != '='))
  match s.dropWhile (· != '=') with
  | [] => .long name none
  | _ :: value => .long name (some (String.ofList value))

/-- The form of a word. A dash alone is a plain word. -/
def Word.of (s : String) : Word :=
  match s.toList with
  | ['-', '-'] => .escape
  | '-' :: '-' :: rest => splitValue rest
  | ['-'] => .plain
  | '-' :: letters => .shorts letters
  | _ => .plain

namespace Grammar

variable (grammar : Grammar)

/-- No such option. -/
def unexpected {α : Type} (option : String) : Except Ending α :=
  .error (.misuse s!"unexpected argument '{option}' found")

/-- No value for an option. -/
def valueMissing {α : Type} (o : Opt) : Except Ending α :=
  .error (.misuse s!"a value is required for '--{o.long}' but none was supplied")

/-- Short options that share a word. The last of them may take the rest of the word as
its value, or, if there is no rest, the next word; then it is in the answer. -/
def readShorts (g : Given) : List Char → Except Ending (Given × Option Opt)
  | [] => .ok (g, none)
  | letter :: rest =>
    match grammar.options.find? (·.short == some letter) with
    | none => unexpected (String.ofList ['-', letter])
    | some o =>
      match o.action with
      | .help => .error .help
      | .version => .error .version
      | .flag => do readShorts (← g.add o.long "") rest
      | .value accepts =>
        match rest with
        | [] => .ok (g, some o)
        | '=' :: value => do
          return (← g.addValue o.long accepts (String.ofList value), none)
        | value => do
          return (← g.addValue o.long accepts (String.ofList value), none)

/-- A long option. One that takes its value from the next word is in the answer. -/
def readLong (g : Given) (name : String) (value : Option String) :
    Except Ending (Given × Option Opt) :=
  match grammar.options.find? (·.long == name) with
  | none => unexpected ("--" ++ name)
  | some o =>
    match o.action, value with
    | .value accepts, some value => do return (← g.addValue o.long accepts value, none)
    | .value _, none => .ok (g, some o)
    | _, some value => .error (.misuse s!"unexpected value '{value}' for '--{name}' found")
    | .help, none => .error .help
    | .version, none => .error .version
    | .flag, none => do return (← g.add o.long "", none)

/-- Takes a word as the value of an option that waits for one. Options are no values. -/
def readWaiting (g : Given) (o : Opt) (word : String) : Except Ending Given :=
  match o.action, Word.of word with
  | .value accepts, .plain => g.addValue o.long accepts word
  | _, _ => valueMissing o

/-- Reads words from the left. `waiting` is the option whose value comes next, and
`escaped` says that no options follow. The answer has the words that were left for a
command. -/
def scan : (waiting : Option Opt) → (escaped : Bool) → Given → List String →
    Except Ending (Given × List String)
  | none, _, g, [] => .ok (g, [])
  | some o, _, _, [] => valueMissing o
  | some o, _, g, word :: rest => do scan none false (← readWaiting g o word) rest
  | none, true, g, word :: rest => do scan none true (← g.addPositional grammar word) rest
  | none, false, g, word :: rest =>
    match Word.of word with
    | .escape => scan none true g rest
    | .long name value => do
      let (g, waiting) ← grammar.readLong g name value
      scan waiting false g rest
    | .shorts letters => do
      let (g, waiting) ← grammar.readShorts g letters
      scan waiting false g rest
    | .plain =>
      if grammar.hasCommands then .ok (g, word :: rest)
      else do scan none false (← g.addPositional grammar word) rest

/-- What stands on a command line, and the words of the command in it. -/
def read (words : List String) : Except Ending (Given × List String) :=
  grammar.scan none false {} words

end Grammar

end BurstDma.Cli

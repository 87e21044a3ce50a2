/-!
# Arguments of the command

The command has three parts, each with options and operands of its own. Arguments are read from left
to right, and the first that is wrong, or that asks for help, decides. Options may stand anywhere
among the operands; after two hyphens alone everything is an operand.
-/

namespace FourGL

/-- What the command can be told to do. -/
inductive Command where
  /-- Reports what is wrong in source files. -/
  | check (configuration : Option String) (paths : List String)
  /-- Lists the tokens of a file, line by line if wanted. -/
  | tokens (file : String) (byLine : Bool)
  /-- Describes the grammar, with its conflicts if wanted. -/
  | grammar (conflicts : Bool)
  deriving DecidableEq, Repr

/-- What help is about. -/
inductive Topic where
  | program
  | check
  | tokens
  | grammar
  | help
  deriving DecidableEq, Repr

/-- What the arguments ask for. -/
inductive Request where
  | run (c : Command)
  | help (t : Topic)
  | version
  deriving DecidableEq, Repr

/-- What is wrong with arguments. -/
inductive Misuse where
  | unknown (argument : String)
  | repeated (option : String)
  | unwantedValue (option : String)
  | noValue (option : String)
  | missing (operand : String)
  deriving DecidableEq, Repr

def Misuse.message : Misuse → String
  | .unknown a => s!"unexpected argument '{a}' found"
  | .repeated o => s!"the argument '--{o}' cannot be used multiple times"
  | .unwantedValue o => s!"unexpected value for '--{o}' found"
  | .noValue o => s!"a value is required for '--{o}' but none was supplied"
  | .missing o => s!"the following required argument was not provided: {o}"

/-! ## Options and operands -/

/-- An option. -/
structure OptionUsage where
  long : String
  short : Option Char := none
  takesValue : Bool := false

/-- The options and operands of a part of the command. -/
structure Usage where
  options : List OptionUsage
  /-- The most operands; any number without it. -/
  maxOperands : Option Nat := none
  /-- Whether an operand may be empty. -/
  allowEmpty : Bool := false

/-- What has been given: options with their values, and operands, the last one first. -/
structure Given where
  options : List (String × String) := []
  operands : List String := []

namespace Given

def has (g : Given) (option : String) : Bool := (g.options.lookup option).isSome

end Given

namespace Usage

/-- What the arguments of a part of the command come to. -/
inductive Reading where
  | given (g : Given)
  | help
  | version

/-- The option that every part of the command has, and the one that asks for help. -/
def common : List OptionUsage :=
  [{ long := "verbose", short := some 'v' }, { long := "help", short := some 'h' }]

/-- Notes an option that takes no value; two options end the reading. -/
def note (g : Given) (o : OptionUsage) : Except Misuse (Given ⊕ Reading) :=
  if o.long = "help" then .ok (.inr .help)
  else if o.long = "version" then .ok (.inr .version)
  else if g.has o.long then .error (.repeated o.long)
  else .ok (.inl { g with options := (o.long, "") :: g.options })

/-- Notes an option with its value. -/
def noteValue (g : Given) (o : OptionUsage) (value : String) : Except Misuse Given :=
  if value = "" then .error (.noValue o.long)
  else if g.has o.long then .error (.repeated o.long)
  else .ok { g with options := (o.long, value) :: g.options }

/-- Notes an operand. -/
def noteOperand (u : Usage) (g : Given) (operand : String) : Except Misuse Given :=
  if u.maxOperands.any (· ≤ g.operands.length) || (operand = "" && !u.allowEmpty) then
    .error (.unknown operand)
  else .ok { g with operands := operand :: g.operands }

/-- Notes options that are written as letters behind one hyphen. -/
def noteLetters (u : Usage) (g : Given) : List Char → Except Misuse (Given ⊕ Reading)
  | [] => .ok (.inl g)
  | c :: cs =>
    match u.options.find? (·.short == some c) with
    | none => .error (.unknown (String.ofList ['-', c]))
    | some o => do
      match ← note g o with
      | .inl g => u.noteLetters g cs
      | .inr r => .ok (.inr r)

/-- The name and the value of an option that is written in full. -/
def splitLong (text : List Char) : String × Option String :=
  let name := text.takeWhile (· != '=')
  (String.ofList name,
    if name.length < text.length then some (String.ofList (text.drop (name.length + 1))) else none)

/-- How an argument is written. -/
inductive Form where
  | separator
  | long (name : String) (value : Option String)
  | letters (cs : List Char)
  | operand

/-- The form of an argument. A hyphen alone is an operand. -/
def formOf (argument : String) : Form :=
  match argument.toList with
  | ['-', '-'] => .separator
  | '-' :: '-' :: cs => .long (splitLong cs).1 (splitLong cs).2
  | '-' :: c :: cs => .letters (c :: cs)
  | _ => .operand

/-- Whether an argument can be the value of the option before it. -/
def isValue (argument : String) : Bool :=
  match formOf argument with
  | .operand => true
  | _ => false

/-- Reads arguments, after what has been given already. `awaiting` is the option whose value is due.
-/
def read (u : Usage) (awaiting : Option OptionUsage) (g : Given) :
    List String → Except Misuse Reading
  | [] =>
    match awaiting with
    | some o => .error (.noValue o.long)
    | none => .ok (.given g)
  | a :: rest =>
    match awaiting with
    | some o =>
      if isValue a then do u.read none (← noteValue g o a) rest else .error (.noValue o.long)
    | none =>
      match formOf a with
      | .separator => .given <$> rest.foldlM u.noteOperand g
      | .operand => do u.read none (← u.noteOperand g a) rest
      | .letters cs => do
        match ← u.noteLetters g cs with
        | .inl g => u.read none g rest
        | .inr r => .ok r
      | .long name value =>
        match u.options.find? (·.long == name), value with
        | none, _ => .error (.unknown a)
        | some o, some v =>
          if o.takesValue then do u.read none (← noteValue g o v) rest
          else .error (.unwantedValue name)
        | some o, none =>
          if o.takesValue then u.read (some o) g rest
          else do
            match ← note g o with
            | .inl g => u.read none g rest
            | .inr r => .ok r

end Usage

/-! ## The parts of the command -/

namespace Request

/-- The usage of the part that checks files. -/
def checkUsage : Usage where
  options := { long := "config", takesValue := true } :: Usage.common
  allowEmpty := true

/-- The usage of the part that lists tokens. -/
def tokensUsage : Usage where
  options := { long := "lines" } :: Usage.common
  maxOperands := some 1

/-- The usage of the part that describes the grammar. -/
def grammarUsage : Usage where
  options := { long := "conflicts" } :: Usage.common
  maxOperands := some 0

/-- The request that a part of the command makes of what it is given. -/
def ofReading (t : Topic) (command : Given → Except Misuse Command) :
    Usage.Reading → Except Misuse Request
  | .given g => .run <$> command g
  | .help => .ok (.help t)
  | .version => .ok .version

/-- Checking takes at least one path. -/
def checkCommand (g : Given) : Except Misuse Command :=
  match g.operands.reverse with
  | [] => .error (.missing "<PATH>...")
  | paths => .ok (.check (g.options.lookup "config") paths)

/-- Listing tokens takes one file. -/
def tokensCommand (g : Given) : Except Misuse Command :=
  match g.operands with
  | [file] => .ok (.tokens file (g.has "lines"))
  | _ => .error (.missing "<FILE>")

/-- Describing the grammar takes nothing. -/
def grammarCommand (g : Given) : Except Misuse Command := .ok (.grammar (g.has "conflicts"))

/-- The topic that help is asked about by name. -/
def topicOf : List String → Except Misuse Topic
  | [] => .ok .program
  | ["check"] => .ok .check
  | ["tokens"] => .ok .tokens
  | ["grammar"] => .ok .grammar
  | ["help"] => .ok .help
  | a :: _ => .error (.unknown a)

/-- What a part of the command is asked for. -/
def ofPart (name : String) (rest : List String) : Except Misuse Request := do
  match name with
  | "check" => ofReading .check checkCommand (← checkUsage.read none {} rest)
  | "tokens" => ofReading .tokens tokensCommand (← tokensUsage.read none {} rest)
  | "grammar" => ofReading .grammar grammarCommand (← grammarUsage.read none {} rest)
  | "help" => .help <$> topicOf rest
  | _ => .error (.unknown name)

/-- The options in front of a part of the command. -/
def frontUsage : Usage where
  options := Usage.common ++ [{ long := "version", short := some 'V' }]
  maxOperands := some 0

/-- What the arguments of the command ask for: options, and then a part of it with its own
arguments. -/
def ofArguments (arguments : List String) : Except Misuse Request := do
  let front := arguments.takeWhile (!Usage.isValue ·)
  match ← frontUsage.read none {} front with
  | .help => .ok (.help .program)
  | .version => .ok .version
  | .given _ =>
    match front.contains "--", arguments.drop front.length with
    | false, name :: rest => ofPart name rest
    | _, _ => .error (.missing "<COMMAND>")

end Request

end FourGL

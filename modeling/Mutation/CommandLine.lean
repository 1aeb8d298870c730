import Mutation.Program

/-!
# The command line

The words of a command line: a command with its options, and the log level before or among them.
Words are read from the left. An option has one value, after a `=` or as the next word, which
then does not begin with `-`. An option with a `=` is *settled* at once, one whose value is the
next word when the next option comes or the words end: it is refused when it has no value, has a
value that it does not take, or is repeated though it may not be. A word that asks for help or
for the version settles the option before it and ends the reading, whatever follows it.
-/

namespace Mutation

/-- What a command line asks for. -/
inductive Invocation where
  | run (command : Command)
  | version
  | help
  /-- The words make no sense. -/
  | refused

/-- The options of a command line with their values, in order. -/
abbrev Options := List (String × String)

/-- The first value of an option. -/
def Options.value? (given : Options) (name : String) : Option String := given.lookup name

/-- The values of an option. -/
def Options.values (given : Options) (name : String) : List String :=
  (given.filter fun (n, _) => n = name).map (·.2)

namespace Invocation

/-- An option: its name, the values it takes, and whether it may be repeated. -/
structure Rule where
  name : String
  accepts : String → Bool := fun _ => true
  repeats : Bool := false

/-- The levels a log may have. -/
def levels : List String := ["trace", "debug", "info", "warn", "error"]

/-- A path, which is not empty. -/
def isPath (value : String) : Bool := !value.isEmpty

/-- The option for the log level. -/
def levelRule : Rule := { name := "--log-level", accepts := levels.contains }

/-- The options of a scan. -/
def scanRules : List Rule :=
  [levelRule, { name := "--tree", accepts := isPath }, { name := "--out", accepts := isPath },
    { name := "--only", repeats := true }]

/-- The options of a mutation. -/
def mutateRules : List Rule :=
  [levelRule, { name := "--tree", accepts := isPath }, { name := "--at" }, { name := "--op" },
    { name := "--arg" }, { name := "--out", accepts := isPath },
    { name := "--max-cascade-depth", accepts := fun v => (Text.readWord64? v.toList).isSome }]

/-- The name of an option and its value after a `=`. -/
def splitOption (word : String) : String × Option String :=
  match Text.splitFirst '=' word.toList with
  | some (name, value) => (String.ofList name, some (String.ofList value))
  | none => (word, none)

/-- The options read so far: those that are settled, and the last one when it is not. -/
structure Reading where
  settled : Options := []
  last : Option (Rule × Option String) := none

namespace Reading

/-- The last option waits for its value. -/
def waiting (r : Reading) : Option Rule :=
  match r.last with
  | some (rule, none) => some rule
  | _ => none

/-- Adds an option to those that are settled. -/
def add (r : Reading) (rule : Rule) (value : String) : Option Reading :=
  if !rule.repeats && (r.settled.lookup rule.name).isSome then none
  else if rule.accepts value then some { settled := r.settled ++ [(rule.name, value)] }
  else none

/-- Settles the last option; `none` when it is refused. -/
def settle (r : Reading) : Option Reading :=
  match r.last with
  | none => some r
  | some (_, none) => none
  | some (rule, some value) => r.add rule value

end Reading

/-- What comes of the words up to one that is neither an option nor a value. -/
inductive Parsed where
  /-- The words end. -/
  | options (given : Options)
  /-- A word stands by itself; the option before it need not be settled. -/
  | word (reading : Reading) (word : String) (rest : List String)
  | version
  | help
  | refused

/-- What a word for help or the version comes to after the options before it. -/
def Parsed.after (r : Reading) (p : Parsed) : Parsed := if r.settle.isSome then p else .refused

/-- Reads options; the version can be asked for when `versioned` holds. -/
def readOptions (versioned : Bool) (rules : List Rule) : Reading → List String → Parsed
  | r, [] =>
    match r.settle with
    | some r => .options r.settled
    | none => .refused
  | r, word :: rest =>
    if word = "--" then
      match rest, r.settle with
      | [], some r => .options r.settled
      | _, _ => .refused
    else if word.startsWith "--" then
      let (name, value) := splitOption word
      match rules.find? (·.name = name), value with
      | some rule, some value =>
        match r.settle.bind (·.add rule value) with
        | some r => readOptions versioned rules r rest
        | none => .refused
      | some rule, none =>
        match r.settle with
        | some r => readOptions versioned rules { r with last := some (rule, none) } rest
        | none => .refused
      | none, _ =>
        if word = "--help" then Parsed.after r .help
        else if versioned && word = "--version" then Parsed.after r .version
        else .refused
    else if word.startsWith "-" && word ≠ "-" then
      if word.startsWith "-h" then Parsed.after r .help
      else if versioned && word.startsWith "-V" then Parsed.after r .version
      else .refused
    else
      match r.waiting with
      | some rule =>
        readOptions versioned rules { r with last := some (rule, some word) } rest
      | none => .word r word rest

/-- A scan with these options. -/
def scanCommand (given : Options) : Option Command := do
  return .scan (← given.value? "--tree") (given.value? "--out") (given.values "--only")

/-- A mutation with these options. -/
def mutateCommand (given : Options) : Option Command := do
  let limit := (given.value? "--max-cascade-depth").bind fun v => Text.readWord64? v.toList
  return .mutate (← given.value? "--tree") (← given.value? "--at") (← given.value? "--op")
    (given.value? "--arg") (given.value? "--out")
    ((limit.map UInt64.toNat).getD defaultCascadeLimit)

/-- The invocation by the words after a command, which `before` must admit too. -/
def ofCommand (before : Reading) (rules : List Rule) (make : Options → Option Command)
    (words : List String) : Invocation :=
  match readOptions false rules {} words with
  | .help => .help
  | .options given =>
    match make given, before.settle with
    | some command, some _ => .run command
    | _, _ => .refused
  | _ => .refused

/-- The invocation by the words after `help`, which may name a command. -/
def ofHelp (words : List String) : Invocation :=
  match words with
  | [] => .help
  | [word] => if ["scan", "mutate", "help"].contains word then .help else .refused
  | _ => .refused

/-- The invocation by the words of a command line. -/
def read (words : List String) : Invocation :=
  match readOptions true [levelRule] {} words with
  | .version => .version
  | .help => .help
  | .word before "scan" rest => ofCommand before scanRules scanCommand rest
  | .word before "mutate" rest => ofCommand before mutateRules mutateCommand rest
  | .word _ "help" rest => ofHelp rest
  | _ => .refused

end Invocation

/-- The text that names the program and its version. -/
def versionText : String := "vermut 0.1.0"

end Mutation

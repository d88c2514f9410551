import Detachment.Settings
import Detachment.Text.Numeral

/-! # Arguments

What the arguments of the program ask for. Options are written `--name value` or `--name=value`; a
value that starts with a dash needs the second form. The options for the axioms and for
necessitation stand before or behind the name of the command, and the one behind it counts.

A value in an argument of its own is looked at when the next argument is read. So a request for help
on a command is met even if the last value before the command's name cannot be used.

* `Request.parse?` reads the arguments. -/

namespace Detachment.CommandLine

/-- Where the filter runs. -/
inductive Placement where
  /-- In this process, on a number of ranks. -/
  | here (ranks : Option Nat)
  /-- On one rank of a group of hosts. -/
  | host (rank : Nat) (hosts : List String)
  deriving DecidableEq, Repr

/-- What the program can do, with the values of all options. -/
inductive Command where
  /-- Collect representatives up to a length. -/
  | generate (length : Nat) (data : String) (workers : Option Nat) (combined : Bool)
      (unfilteredFrom : Option Nat) (withConclusions : Bool)
  /-- Show what a proof proves. -/
  | parse (proof : String)
  /-- Filter a length that was collected without filter. -/
  | filter (length : Nat) (data : String) (unfilteredFrom : Nat) (placement : Placement)
  deriving DecidableEq, Repr

/-- What there is help on; `Topic.ofName?` reads the names of commands. -/
inductive Topic where
  /-- The program as a whole. -/
  | program
  /-- The command that collects. -/
  | generate
  /-- The command that shows what a proof proves. -/
  | parse
  /-- The command that filters. -/
  | filter
  /-- Help itself. -/
  | help
  deriving DecidableEq, Repr

/-- What the arguments ask for. -/
inductive Request where
  /-- The version. -/
  | version
  /-- Help on a topic. -/
  | help (topic : Topic)
  /-- A command, with the axioms and the limit on necessitations. -/
  | run (axioms : Option String) (necessitation : NecessitationLimit) (command : Command)
  deriving DecidableEq, Repr

/-! ## Options -/

/-- The options of all commands. `Topic.flags` says which of them a command has. -/
inductive Flag where
  | axioms
  | necessitation
  | length
  | data
  | workers
  | combined
  | unfilteredFrom
  | withConclusions
  | ranks
  | rank
  | hosts
  deriving DecidableEq, Repr

namespace Flag

/-- The name of an option, without its dashes: `--unfiltered-from` is the option
`unfilteredFrom`. -/
def name : Flag → String
  | axioms => "axioms"
  | necessitation => "necessitation"
  | length => "length"
  | data => "data"
  | workers => "workers"
  | combined => "combined"
  | unfilteredFrom => "unfiltered-from"
  | withConclusions => "with-conclusions"
  | ranks => "ranks"
  | rank => "rank"
  | hosts => "hosts"

/-- Whether an option has a value. Otherwise it is given or not (`Found.has`). -/
def hasValue : Flag → Bool
  | combined => false
  | withConclusions => false
  | _ => true

/-- Whether an option may be given more than once; only `hosts` may. -/
def isRepeatable : Flag → Bool
  | hosts => true
  | _ => false

/-- The options that every command has, and the program before the command's name. -/
def common : List Flag := [axioms, necessitation]

end Flag

/-- The options of a topic, those in `Flag.common` first. -/
def Topic.flags : Topic → List Flag
  | program => Flag.common
  | generate =>
    Flag.common ++ [.length, .data, .workers, .combined, .unfilteredFrom, .withConclusions]
  | parse => Flag.common
  | filter => Flag.common ++ [.length, .data, .unfilteredFrom, .ranks, .rank, .hosts]
  | help => []

/-- The number of arguments that are no options: the proof that `parse` reads. -/
def Topic.positionals : Topic → Nat
  | parse => 1
  | _ => 0

/-- The topic with a name; `program` has none. -/
def Topic.ofName? : String → Option Topic
  | "generate" => some generate
  | "parse" => some parse
  | "filter" => some filter
  | "help" => some help
  | _ => none

/-- A number of 32 bits, below `Text.bound32`; zero may have a minus sign. -/
def number32? (text : String) : Option Nat :=
  match text.toList with
  | '-' :: digits =>
    if !digits.isEmpty && digits.all (· = '0') then some 0 else none
  | chars => Text.readNumeral? Text.bound32 chars

/-- A number of 64 bits, below `Text.bound64`. -/
def number64? (text : String) : Option Nat :=
  Text.readNumeral? Text.bound64 text.toList

/-- Whether an option takes a value. It is asked when the value is added (`Found.addOption?`). -/
def Flag.accepts : Flag → String → Bool
  | necessitation, text => (NecessitationLimit.parse text).isOk
  | length, text => (number32? text).isSome
  | unfilteredFrom, text => (number32? text).isSome
  | data, text => !text.isEmpty
  | workers, text => (number64? text).isSome
  | ranks, text => (number64? text).isSome
  | rank, text => (number64? text).isSome
  | _, _ => true

/-! ## Scanning -/

/-- The options and other arguments found so far, first ones first. -/
structure Found where
  /-- The options with their values. -/
  options : List (Flag × String)
  /-- The other arguments. -/
  positionals : List String
  /-- The option whose value was the last argument. -/
  waiting : Option (Flag × String)
  deriving DecidableEq, Repr

namespace Found

/-- Nothing found. -/
def empty : Found := ⟨[], [], none⟩

/-- The values of an option, in the order in which they were given. -/
def values (f : Found) (flag : Flag) : List String :=
  (f.options.filter (·.1 = flag)).map (·.2)

/-- The value of an option, the first of its `values`. -/
def value? (f : Found) (flag : Flag) : Option String :=
  (f.values flag).head?

/-- Whether an option was given, with a value or without. -/
def has (f : Found) (flag : Flag) : Bool :=
  !(f.values flag).isEmpty

/-- Add an option, unless it was given before or does not take the value (`Flag.accepts`). -/
def addOption? (f : Found) (flag : Flag) (value : String) : Option Found :=
  if (f.has flag && !flag.isRepeatable) || !flag.accepts value then none
  else some { f with options := f.options ++ [(flag, value)] }

/-- Let an option wait with its value, until the next argument is read (`settle?`). -/
def await (f : Found) (flag : Flag) (value : String) : Found :=
  { f with waiting := some (flag, value) }

/-- Add the option that is `waiting`, if there is one. -/
def settle? (f : Found) : Option Found :=
  match f.waiting with
  | none => some f
  | some (flag, value) => addOption? { f with waiting := none } flag value

/-- Add another argument, unless there are enough (`Topic.positionals`). -/
def addPositional? (topic : Topic) (f : Found) (text : String) : Option Found :=
  if f.positionals.length < topic.positionals then
    some { f with positionals := f.positionals ++ [text] }
  else none

end Found

/-- An argument as it is written, before it is known which options there are. -/
inductive Token where
  /-- A long option, with a value behind an equals sign or without. -/
  | long (name : String) (value : Option String)
  /-- Short options. -/
  | short (letter : Char)
  /-- The mark behind which there are no options. -/
  | mark
  /-- Anything else. -/
  | plain (text : String)
  deriving DecidableEq, Repr

/-- Read an argument. A dash alone is no option, and `--name=value` is cut at the first equals
sign. -/
def Token.ofText (text : String) : Token :=
  match text.toList with
  | ['-', '-'] => mark
  | '-' :: '-' :: rest =>
    match rest.span (· ≠ '=') with
    | (name, []) => long (String.ofList name) none
    | (name, _ :: value) => long (String.ofList name) (some (String.ofList value))
  | '-' :: letter :: _ => short letter
  | _ => plain text

/-- What stops reading the arguments before there is a `Command`. -/
inductive Stop where
  /-- The arguments are not well formed. -/
  | misuse
  /-- They ask for help. -/
  | help (topic : Topic)
  /-- They ask for the version. -/
  | version
  deriving DecidableEq, Repr

/-- How reading the arguments of a topic ended: at the name of a command, or at the end. -/
inductive Scanned where
  /-- At an argument that is no option, with the rest behind it. -/
  | word (found : Found) (text : String) (rest : List String)
  /-- At the end. -/
  | done (found : Found)
  deriving DecidableEq, Repr

/-- Only the program as a whole has a version; elsewhere asking for it is a `misuse`. -/
def Topic.version (topic : Topic) : Stop :=
  if topic = .program then .version else .misuse

/-- Add all that is left behind a `mark` as arguments that are no options. -/
def scanPlain (topic : Topic) : Found → List String → Except Stop Scanned
  | f, [] => .ok (.done f)
  | f, text :: rest =>
    match f.addPositional? topic text with
    | some f => scanPlain topic f rest
    | none => .error .misuse

/-- Read the arguments of a topic from left to right. The first thing that is wrong, and the first
that asks for help or the version, ends it (`Stop`). At the name of a command an option may still
wait. -/
def scan (topic : Topic) : Found → List String → Except Stop Scanned
  | f, [] =>
    match f.settle? with
    | some f => .ok (.done f)
    | none => .error .misuse
  | f, text :: rest =>
    match topic, Token.ofText text with
    | .program, .plain text => .ok (.word f text rest)
    | topic, token =>
      match f.settle?, token with
      | none, _ => .error .misuse
      | some f, .mark => scanPlain topic f rest
      | some _, .short 'h' => .error (.help topic)
      | some _, .short 'V' => .error topic.version
      | some _, .short _ => .error .misuse
      | some f, .plain text =>
        match f.addPositional? topic text with
        | some f => scan topic f rest
        | none => .error .misuse
      | some _, .long "help" none => .error (.help topic)
      | some _, .long "version" none => .error topic.version
      | some f, .long name value =>
        match topic.flags.find? (·.name = name), value, rest with
        | none, _, _ => .error .misuse
        | some flag, some value, rest =>
          match if flag.hasValue then f.addOption? flag value else none with
          | some f => scan topic f rest
          | none => .error .misuse
        | some flag, none, rest =>
          if !flag.hasValue then
            match f.addOption? flag "" with
            | some f => scan topic f rest
            | none => .error .misuse
          else
            match rest with
            | [] => .error .misuse
            | value :: rest =>
              match Token.ofText value with
              | .plain value => scan topic (f.await flag value) rest
              | _ => .error .misuse

/-! ## Commands -/

/-- The names of the hosts, divided by commas, of all values of `hosts`. -/
def hostNames (texts : List String) : List String :=
  texts.flatMap fun text => (text.toList.splitOn ',').map String.ofList

/-- Where the filter runs. A `rank` belongs to a list of `hosts` and the other way round, and
neither goes with a number of `ranks`. -/
def placement? (f : Found) : Option Placement :=
  match f.value? .ranks, f.value? .rank, f.values .hosts with
  | ranks, none, [] =>
    match ranks with
    | none => some (.here none)
    | some ranks => (number64? ranks).map fun n => .here (some n)
  | none, some rank, hosts@(_ :: _) => (number64? rank).map fun rank => .host rank (hostNames hosts)
  | _, _, _ => none

/-- The value of an option as a number of 32 bits, if it was given. -/
def Found.number32? (f : Found) (flag : Flag) : Option Nat :=
  (f.value? flag).bind CommandLine.number32?

/-- The command of a topic, unless something is missing: `generate` and `filter` need a `length`,
and `filter` also needs `data`, `unfilteredFrom` and a `placement?`. -/
def Topic.command? (topic : Topic) (f : Found) : Option Command :=
  match topic with
  | program => none
  | help => none
  | generate =>
    match f.number32? .length with
    | none => none
    | some length =>
      some (.generate length ((f.value? .data).getD "data") ((f.value? .workers).bind number64?)
        (f.has .combined) (f.number32? .unfilteredFrom) (f.has .withConclusions))
  | parse => f.positionals.head?.map .parse
  | filter =>
    match f.number32? .length, f.value? .data, f.number32? .unfilteredFrom, placement? f with
    | some length, some data, some unfilteredFrom, some placement =>
      some (.filter length data unfilteredFrom placement)
    | _, _, _, _ => none

/-- The limit on necessitations; without one, necessitation is `disabled`. -/
def limitOf (text : Option String) : NecessitationLimit :=
  match text.map NecessitationLimit.parse with
  | some (.ok limit) => limit
  | _ => .disabled

/-- The topic that a request for help names; the program without a name. -/
def helpTopic? : List String → Option Topic
  | [] => some .program
  | [name] => Topic.ofName? name
  | _ => none

/-- Read the arguments behind the name of a command (`scan`), and only then what waits `before` it.
Of the common options, the one behind the name counts. -/
def parseCommand (before : Found) (topic : Topic) (arguments : List String) : Except Stop Request :=
  match scan topic .empty arguments with
  | .error stop => .error stop
  | .ok (.word _ _ _) => .error .misuse
  | .ok (.done f) =>
    match topic.command? f, before.settle? with
    | some command, some before =>
      let common := fun flag => (f.value? flag).or (before.value? flag)
      .ok (.run (common .axioms) (limitOf (common .necessitation)) command)
    | _, _ => .error .misuse

/-- Read the arguments up to a reason to stop: first those of the program, then those of the command
(`parseCommand`). -/
def parseArguments (arguments : List String) : Except Stop Request :=
  match scan .program .empty arguments with
  | .error stop => .error stop
  | .ok (.done _) => .error .misuse
  | .ok (.word before name rest) =>
    match Topic.ofName? name with
    | none => .error .misuse
    | some .help =>
      match helpTopic? rest with
      | some topic => .error (.help topic)
      | none => .error .misuse
    | some topic => parseCommand before topic rest

/-- Read the arguments (`parseArguments`); none if they are not well formed. -/
def Request.parse? (arguments : List String) : Option Request :=
  match parseArguments arguments with
  | .ok request => some request
  | .error (.help topic) => some (.help topic)
  | .error .version => some .version
  | .error .misuse => none

end Detachment.CommandLine

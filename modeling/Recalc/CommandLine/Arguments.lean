/-!
# Arguments

The arguments name a command and its notebook. Options may stand before and after the notebook, up to
two dashes, after which everything is taken as it is. Arguments are read from left to right, and the
first that asks for help or the version, or is wrong, decides.
-/

namespace Recalc

inductive Command
  | check (path : String)
  | run (path : String) (maxTicks : Option Nat) (json : Bool)
  | graph (path : String)
  deriving DecidableEq, Repr

inductive Invocation
  | command (command : Command)
  | version
  | help
  | usageError
  deriving DecidableEq, Repr

namespace Invocation

inductive Verb
  | check
  | run
  | graph
  deriving DecidableEq, Repr

def verb? : String → Option Verb
  | "check" => some .check
  | "run" => some .run
  | "graph" => some .graph
  | _ => none

structure Options where
  path : Option String
  verbose : Bool
  maxTicks : Option Nat
  json : Bool
  deriving DecidableEq, Repr

def noOptions : Options := ⟨none, false, none, false⟩

/-- A number of ticks: digits, a plus sign allowed before them, of at most 64 bits. -/
def ticks? (text : String) : Option Nat :=
  let digits :=
    match text.toList with
    | '+' :: rest => rest
    | cs => cs
  if digits.isEmpty ∨ !digits.all Char.isDigit then none
  else
    let n := digits.foldl (fun n c => 10 * n + (c.toNat - '0'.toNat)) 0
    if n < Nat.pow 2 64 then some n else none

def isOption (arg : String) : Bool := arg.startsWith "-" && arg != "-"

/-- The text after a beginning, if an argument has that beginning. -/
def after? (start arg : String) : Option String :=
  if start.toList.isPrefixOf arg.toList then some (String.ofList (arg.toList.drop start.length))
  else none

def finish (verb : Verb) (o : Options) : Invocation :=
  match o.path with
  | none => .usageError
  | some path =>
    match verb with
    | .check => .command (.check path)
    | .run => .command (.run path o.maxTicks o.json)
    | .graph => .command (.graph path)

def withPath? (o : Options) (path : String) : Option Options :=
  match o.path with
  | none => some { o with path := some path }
  | some _ => none

def withTicks? (verb : Verb) (o : Options) (text : String) : Option Options :=
  if verb = .run ∧ o.maxTicks.isNone then
    (ticks? text).map fun n => { o with maxTicks := some n }
  else none

/-- A group of one-letter options: the options with them, or what they ask for. -/
def letters (o : Options) : List Char → Except Invocation Options
  | [] => .ok o
  | 'v' :: rest => if o.verbose then .error .usageError else letters { o with verbose := true } rest
  | 'h' :: _ => .error .help
  | _ => .error .usageError

/-- Whatever follows two dashes is a path. -/
def readPaths (verb : Verb) : Options → List String → Invocation
  | o, [] => finish verb o
  | o, path :: rest =>
    match withPath? o path with
    | some o => readPaths verb o rest
    | none => .usageError

def readOptions (verb : Verb) : Options → List String → Invocation
  | o, [] => finish verb o
  | o, "--" :: rest => readPaths verb o rest
  | _, "--help" :: _ => .help
  | o, "--verbose" :: rest =>
    if o.verbose then .usageError else readOptions verb { o with verbose := true } rest
  | o, "--json" :: rest =>
    if verb = .run ∧ o.json = false then readOptions verb { o with json := true } rest
    else .usageError
  | o, "--max-ticks" :: value :: rest =>
    if isOption value then .usageError
    else
      match withTicks? verb o value with
      | some o => readOptions verb o rest
      | none => .usageError
  | o, arg :: rest =>
    match after? "--max-ticks=" arg with
    | some value =>
      match withTicks? verb o value with
      | some o => readOptions verb o rest
      | none => .usageError
    | none =>
      if arg.startsWith "--" then .usageError
      else if isOption arg then
        match letters o (arg.toList.drop 1) with
        | .ok o => readOptions verb o rest
        | .error invocation => invocation
      else
        match withPath? o arg with
        | some o => readOptions verb o rest
        | none => .usageError

/-- A group of one-letter options before the command: whether one of them is `v`, or what they ask
for. -/
def leadingLetters (verbose : Bool) : List Char → Except Invocation Bool
  | [] => .ok verbose
  | 'v' :: rest => if verbose then .error .usageError else leadingLetters true rest
  | 'h' :: _ => .error .help
  | 'V' :: _ => .error .version
  | _ => .error .usageError

/-- The topic that help is asked for: nothing, or the name of one command. -/
def isTopic : List String → Bool
  | [] => true
  | [name] => (verb? name).isSome || name == "help"
  | _ => false

def read (verbose : Bool) : List String → Invocation
  | [] => .usageError
  | "--version" :: _ => .version
  | "--help" :: _ => .help
  | "--verbose" :: rest => if verbose then .usageError else read true rest
  | "help" :: topics => if isTopic topics then .help else .usageError
  | arg :: rest =>
    match verb? arg with
    | some verb => readOptions verb noOptions rest
    | none =>
      if isOption arg ∧ !arg.startsWith "--" then
        match leadingLetters verbose (arg.toList.drop 1) with
        | .ok verbose => read verbose rest
        | .error invocation => invocation
      else .usageError

def ofArguments (args : List String) : Invocation := read false args

end Invocation

end Recalc

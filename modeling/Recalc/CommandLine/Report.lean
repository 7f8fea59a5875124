import Recalc.Codec.Record
import Recalc.CommandLine.Arguments
import Recalc.CommandLine.Files
import Recalc.Engine.Tick
import Recalc.NotebookFile

/-!
# What the commands print

`check` lists the cells of a notebook and says which can run, `run` runs them and lists their results,
and `graph` prints the dependency graph. A command that fails says why on the error output.
-/

namespace Recalc

structure Response where
  exit : Nat
  stdout : String
  stderr : List String
  /-- Whether the last line goes on with the time that was spent. -/
  timed : Bool
  deriving DecidableEq, Repr

namespace Response

def success (stdout : String) : Response := ⟨0, stdout, [], false⟩

def failure (stdout message : String) : Response := ⟨1, stdout, ["Error: " ++ message], false⟩

end Response

namespace Report

def styled (code : String) (text : String) : String := "\x1b[" ++ code ++ "m" ++ text ++ "\x1b[0m"

def bold : String → String := styled "1"

def dim : String → String := styled "2"

def red : String → String := styled "31"

def green : String → String := styled "32"

def yellow : String → String := styled "33"

def cyan : String → String := styled "36"

def line (text : String) : String := text ++ "\n"

def rule : String := "".pushn '─' 50

def header (action path : String) : String :=
  line ("\n" ++ bold "Ignition" ++ " - " ++ action ++ " " ++ cyan (FileTree.displayName path)) ++
    line rule

def noCells : String := line ("\n" ++ yellow "No code cells found in notebook.")

/-- The notebook at a path, or the lines that say why there is none. -/
def load (path : String) (located : Located) : Except (List String) (Notebook LiteralCode) :=
  match located with
  | .missing => .error ["Error: Notebook not found: " ++ path]
  | .directory => .error ["Error: Failed to read " ++ path]
  | .file content =>
    match String.fromUTF8? content with
    | none => .error ["Error: Failed to read " ++ path]
    | some text =>
      match NotebookFile.parse text with
      | .ok nb => .ok nb
      | .error e =>
        let cause :=
          match e with
          | .invalid => "    0: " ++ e.message
          | .refused _ => "    " ++ e.message
        .error ["Error: Failed to load " ++ path, "", "Caused by:", cause]

def linkNames (links : List Link) : String := ", ".intercalate (links.map Link.output)

def describe (nb : Notebook LiteralCode) (id : CellId) : String :=
  match (nb.cell? id).bind fun c => c.content.program? with
  | none => ""
  | some p =>
    match p.imports, p.exports with
    | [], [] => ""
    | [], exports => "exports " ++ linkNames exports
    | imports, [] => "imports " ++ linkNames imports
    | imports, exports => "imports " ++ linkNames imports ++ "; exports " ++ linkNames exports

def entryLine (nb : Notebook LiteralCode) : Entry LiteralCode → String
  | .runnable r =>
    line ("  " ++ green "✓" ++ " " ++ r.node.id.display ++ " " ++ dim (describe nb r.node.id))
  | .faulty f => line ("  " ++ red "✗" ++ " " ++ f.node.id.display ++ " " ++ f.fault.message)

def check (path : String) (nb : Notebook LiteralCode) : Response :=
  let plan := Plan.draft nb
  let count := plan.entries.length
  let broken := plan.faults.length
  if plan.entries.isEmpty then .success (header "Checking" path ++ noCells)
  else
    let listing :=
      header "Checking" path ++ String.join (plan.entries.map (entryLine nb)) ++ line rule
    if broken > 0 then .failure listing s!"{broken} of {count} cells cannot run"
    else .success (listing ++ line (green s!"All {count} cells can run"))

/-- The values of a run by name; members of the values themselves keep their order. -/
def valuesText (bindings : Bindings Json) : String := (Bindings.encode bindings).compact

def resultLine (s : Snapshot Json) : String :=
  let name := s.id.display ++ ": "
  match s.result with
  | .returned (some bindings) => line ("  " ++ green "✓" ++ " " ++ name ++ valuesText bindings)
  | .returned none => line ("  " ++ dim "-" ++ " " ++ name ++ dim (s.status.name.capitalize))
  | .threw fault =>
    if s.status = .error then line ("  " ++ red "✗" ++ " " ++ name ++ red fault.message)
    else line ("  " ++ dim "-" ++ " " ++ name ++ dim (s.status.name.capitalize))

def isFailed (s : Snapshot Json) : Bool := s.status == .error && s.result.isThrow

def resultJson (s : Snapshot Json) : Json :=
  let value :=
    match s.result.bindings? with
    | some bindings => [("value", Bindings.encode bindings)]
    | none => []
  let error :=
    match s.result.fault? with
    | some fault => [("error", Json.string fault.message)]
    | none => []
  .object (("status", s.status.encode) :: (value ++ error))

/-- The final state of all cells by the order of their names. -/
def resultsJson (e : Engine LiteralCode Json) : Json :=
  .object (Json.sortMembers (e.snapshots.map fun s => (s.id.display, resultJson s)))

/-- The ticks a notebook is given to settle when no limit is set: more than are ever counted. -/
def patience : Nat := Nat.pow 2 64

/-- The number of ticks it took to settle, or why the notebook did not settle. -/
def ticksOrMessage : Settling → Except String Nat
  | .settled ticks => .ok ticks
  | .limitReached limit => .error (Settling.limitMessage limit)
  | .unfinished => .error (Settling.limitMessage patience)

def run (path : String) (maxTicks : Option Nat) (json : Bool) (nb : Notebook LiteralCode) :
    Response :=
  let settings := { Settings.standard with maxTicks := maxTicks }
  let (settling, e) := (Engine.start settings).settle Literal.run nb patience
  match json, ticksOrMessage settling with
  | true, .error message => .failure "" message
  | true, .ok _ => .success (line (resultsJson e).pretty)
  | false, .error message => .failure (header "Running" path) message
  | false, .ok ticks =>
    if e.records.isEmpty then .success (header "Running" path ++ noCells)
    else
      let results := nb.codeIds.filterMap e.snapshot?
      let failed := (results.filter isFailed).length
      { exit := 0
        stdout :=
          header "Running" path ++ line ("\n" ++ bold "Outputs:") ++
            String.join (results.map resultLine) ++ line ("\n" ++ rule) ++ green "Completed" ++
            s!" {e.records.size} cells in {ticks} ticks ({failed} failed)"
        stderr := []
        timed := true }

def arcJson (a : Arc) : Json :=
  .object [("from", .string a.source.display), ("to", .string a.target.display),
    ("input", .string a.link.input), ("output", .string a.link.output)]

def graph (nb : Notebook LiteralCode) : Response :=
  let plan := Plan.draft nb
  .success
    (line
      (Json.object
        [("order", .array (plan.order.map fun id => .string id.display)),
          ("edges", .array (plan.graph.arcs.map arcJson))]).pretty)

/-- The response for a notebook that can be loaded, or the lines that say why there is none. -/
def loading (path : String) (located : Located) (report : Notebook LiteralCode → Response) :
    Response :=
  match load path located with
  | .error lines => ⟨1, "", lines, false⟩
  | .ok nb => report nb

/-- The response to a command; `locate` says what stands at a path. -/
def respond (locate : String → Located) : Command → Response
  | .check path => loading path (locate path) (check path)
  | .run path maxTicks json => loading path (locate path) (run path maxTicks json)
  | .graph path => loading path (locate path) graph

def version : String := "ignition 0.1.0"

def usage : String :=
  "Reactive notebook scheduler\n\nUsage: ignition [OPTIONS] <COMMAND>\n\nCommands:\n" ++
    "  check  Report which cells can run and why the others cannot\n" ++
    "  run    Run a notebook until every cell is up to date\n" ++
    "  graph  Print the dependency graph as JSON\n\nOptions:\n" ++
    "  -v, --verbose  Enable verbose logging\n  -h, --help     Print help\n" ++
    "  -V, --version  Print version\n"

def usageErrorLines : List String :=
  ["error: unexpected arguments", "", "For more information, try '--help'."]

def ofInvocation (locate : String → Located) : Invocation → Response
  | .command command => respond locate command
  | .version => .success (line version)
  | .help => .success usage
  | .usageError => ⟨2, "", usageErrorLines, false⟩

end Report

end Recalc

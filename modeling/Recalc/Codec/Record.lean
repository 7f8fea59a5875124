import Recalc.Codec.Graph
import Recalc.Engine.Basic

/-!
# Serialized results, snapshots and events
-/

namespace Recalc

inductive CellKind
  | code
  | text
  deriving DecidableEq, Repr

namespace CellKind

def encode : CellKind → Json
  | code => .string "code"
  | text => .string "text"

def decode? (v : Json) : Option CellKind :=
  match v.variant? .direct with
  | some "code" => some code
  | some "text" => some text
  | _ => none

end CellKind

def Content.kind {κ : Type} : Content κ → CellKind
  | text _ => .text
  | code _ => .code

namespace Status

def name : Status → String
  | idle => "idle"
  | waiting => "waiting"
  | running => "running"
  | success => "success"
  | error => "error"

def encode (s : Status) : Json := .string s.name

def decode? (v : Json) : Option Status :=
  match v.variant? .direct with
  | some "idle" => some idle
  | some "waiting" => some waiting
  | some "running" => some running
  | some "success" => some success
  | some "error" => some error
  | _ => none

end Status

namespace Fault

def encodeNames (names : List Name) : Json := .array (names.map .string)

def decodeNames? (v : Json) : Option (List Name) := v.list? Json.string?

def encode : Fault → Json
  | compile message => .object [("kind", .string "compile"), ("detail", .string message)]
  | topLevelReturn => .object [("kind", .string "top_level_return")]
  | multipleDefinitions names =>
    .object [("kind", .string "multiple_definitions"), ("detail", encodeNames names)]
  | cyclicDependency paths =>
    .object [("kind", .string "cyclic_dependency"), ("detail", .array (paths.map encodeNames))]
  | runtime message => .object [("kind", .string "runtime"), ("detail", .string message)]

/-- The names of the kinds of faults. -/
def kinds : List String :=
  ["compile", "top_level_return", "multiple_definitions", "cyclic_dependency", "runtime"]

def decode? (r : Json.Reading) (v : Json) : Option Fault := do
  match ← v.tagged? r "kind" "detail" kinds with
  | ("compile", _, some detail) => pure (compile (← detail.string?))
  | ("top_level_return", _, none) => pure topLevelReturn
  | ("top_level_return", _, some .null) => pure topLevelReturn
  | ("multiple_definitions", _, some detail) =>
    pure (multipleDefinitions (← decodeNames? detail))
  | ("cyclic_dependency", _, some detail) => pure (cyclicDependency (← detail.list? decodeNames?))
  | ("runtime", _, some detail) => pure (runtime (← detail.string?))
  | _ => none

end Fault

namespace Bindings

def encode (b : Bindings Json) : Json := .object b.entries

def decode? (v : Json) : Option (Bindings Json) := v.object?.map Table.ofList

end Bindings

namespace Result

def encode : Result Json → Json
  | returned none => .object [("type", .string "return"), ("value", .null)]
  | returned (some b) => .object [("type", .string "return"), ("value", Bindings.encode b)]
  | threw fault => .object [("type", .string "throw"), ("value", fault.encode)]

def decode? (r : Json.Reading) (v : Json) : Option (Result Json) := do
  match ← v.tagged? r "type" "value" ["return", "throw"] with
  | ("return", _, value) => pure (returned (← Json.optional? Bindings.decode? value))
  | ("throw", inner, some value) => pure (threw (← Fault.decode? inner value))
  | _ => none

end Result

namespace Snapshot

def encode (s : Snapshot Json) : Json :=
  .object [("id", s.id.encode), ("last_run", s.answered.encode),
    ("last_internal_run", s.computed.encode), ("running", .bool s.running),
    ("waiting", .bool s.waiting), ("result", s.result.encode)]

def decode? (r : Json.Reading) (v : Json) : Option (Snapshot Json) := do
  match ← v.fields? ["id", "last_run", "last_internal_run", "running", "waiting", "result"] with
  | [some id, some answered, some computed, some running, some waiting, some result] =>
    pure ⟨← CellId.decode? id, ← Time.decode? r answered, ← Time.decode? r computed,
      ← running.bool?, ← waiting.bool?, ← Result.decode? r result⟩
  | _ => none

end Snapshot

namespace Event

def encode : Event Json → Json
  | created s => .object [("type", .string "created"), ("snapshot", s.encode)]
  | updated s => .object [("type", .string "updated"), ("snapshot", s.encode)]
  | removed id => .object [("type", .string "removed"), ("id", id.encode)]

/-- An event of a type by its fields, which were set aside. -/
def ofType? (type : String) (rest : Json) : Option (Event Json) := do
  match type, ← rest.fields? ["snapshot"], ← rest.fields? ["id"] with
  | "created", [some s], _ => pure (created (← Snapshot.decode? .deferred s))
  | "updated", [some s], _ => pure (updated (← Snapshot.decode? .deferred s))
  | "removed", _, [some id] => pure (removed (← CellId.decode? id))
  | _, _, _ => none

/-- The type of an event stands among its fields, or before them in an array. -/
def decode? : Json → Option (Event Json)
  | .object members => do
    match ← (Json.object members).fields? ["type"] with
    | [some (.string type)] => ofType? type (.object members)
    | _ => none
  | .array (.string type :: rest) => ofType? type (.array rest)
  | _ => none

end Event

end Recalc

import Recalc.Cell
import Recalc.Codec.Basic

/-!
# Serialized times, interfaces and nodes
-/

namespace Recalc

namespace Time

def encode : Time → Json
  | earliest => .string "earliest"
  | tick n => .object [("at", .nat n)]
  | latest => .string "latest"

def decode? (r : Json.Reading) : Json → Option Time
  | .object [("at", n)] => n.nat?.map tick
  | v =>
    match v.variant? r with
    | some "earliest" => some earliest
    | some "latest" => some latest
    | _ => none

end Time

namespace CellId

def encode (id : CellId) : Json := .nat id.number

def decode? (v : Json) : Option CellId := v.nat?.map CellId.mk

end CellId

namespace Link

def encode (p : Link) : Json := .object [("input", .string p.input), ("output", .string p.output)]

def decode? (v : Json) : Option Link := do
  match ← v.fields? ["input", "output"] with
  | [some input, some output] => pure ⟨← input.string?, ← output.string?⟩
  | _ => none

end Link

namespace Interface

def encode (c : Interface) : Json :=
  .object [("id", c.id.encode), ("imports", .array (c.imports.map Link.encode)),
    ("exports", .array (c.exports.map Link.encode))]

def decode? (v : Json) : Option Interface := do
  match ← v.fields? ["id", "imports", "exports"] with
  | [some id, imports, exports] =>
    pure ⟨← CellId.decode? id, ← Json.listOrEmpty? Link.decode? imports,
      ← Json.listOrEmpty? Link.decode? exports⟩
  | _ => none

end Interface

namespace Node

def encodeEnd (p : CellId × Link) : Json := .array [p.1.encode, p.2.encode]

def decodeEnd? : Json → Option (CellId × Link)
  | .array [id, link] => do pure (← CellId.decode? id, ← Link.decode? link)
  | _ => none

def encode (n : Node) : Json :=
  .object [("id", n.id.encode), ("inputs", .array (n.inputs.map encodeEnd)),
    ("outputs", .array (n.outputs.map encodeEnd))]

def decode? (v : Json) : Option Node := do
  match ← v.fields? ["id", "inputs", "outputs"] with
  | [some id, some inputs, some outputs] =>
    pure ⟨← CellId.decode? id, ← inputs.list? decodeEnd?, ← outputs.list? decodeEnd?⟩
  | _ => none

end Node

namespace Program

def encode (p : Program Json) : Json :=
  .object [("imports", .array (p.imports.map Link.encode)),
    ("exports", .array (p.exports.map Link.encode)), ("code", p.code),
    ("result_name", .ofString? p.resultName), ("has_top_level_return", .bool p.topLevelReturn)]

def decode? (v : Json) : Option (Program Json) := do
  match ← v.fields? ["imports", "exports", "code", "result_name", "has_top_level_return"] with
  | [imports, exports, some code, resultName, topLevelReturn] =>
    pure
      { imports := ← Json.listOrEmpty? Link.decode? imports
        exports := ← Json.listOrEmpty? Link.decode? exports
        code := code
        resultName := ← Json.optional? Json.string? resultName
        topLevelReturn := ← Json.boolOrFalse? topLevelReturn }
  | _ => none

end Program

end Recalc

import Recalc.Codec.Basic
import Recalc.Json.Reader
import Recalc.Literal
import Recalc.Notebook.Basic

/-!
# Notebook files

A notebook file is a JSON object with a list of cells, which become the cells of a notebook in that
order. A cell has a kind. A code cell lists imports, exports with their literals, or the error of a
compiler; a text cell has its text. A cell may bring its number.

Other members are passed over. A member that is known must not be repeated, save the names of
exports, where the last literal counts at the place of the first.
-/

namespace Recalc

namespace NotebookFile

/-- A cell of a file: its number, if it brings one, and its content. -/
structure FileCell where
  id : Option CellId
  content : Content LiteralCode

inductive Error
  | invalid
  | refused (refusal : Refusal)
  deriving DecidableEq, Repr

def Error.message : Error → String
  | invalid => "Invalid notebook file"
  | refused refusal => refusal.message

def decodeImport? : Json → Option Link
  | .string name => some (Link.same name)
  | .object members => do
    match ← (Json.object members).fields? ["input", "output"] with
    | [some input, some output] => pure ⟨← input.string?, ← output.string?⟩
    | _ => none
  | _ => none

/-- The literals of the exports, each name once. -/
def decodeExports? : Option Json → Option LiteralCode
  | none => some []
  | some v => v.collapse.object?

def decodeId? (v : Option Json) : Option (Option CellId) :=
  Json.optional? (fun v => v.nat?.map CellId.mk) v

/-- A code cell by its fields. The error of a compiler takes the place of a program. -/
def decodeCode? (v : Json) : Option FileCell := do
  match ← v.fields? ["id", "imports", "exports", "error", "top_level_return", "result_name"] with
  | [id, imports, exports, error, topLevelReturn, resultName] =>
    let id ← decodeId? id
    let imports ← Json.listOrEmpty? decodeImport? imports
    let code ← decodeExports? exports
    let error ← Json.optional? Json.string? error
    let topLevelReturn ← Json.boolOrFalse? topLevelReturn
    let resultName ← Json.optional? Json.string? resultName
    let source : Compilation LiteralCode :=
      match error with
      | some message => .error message
      | none => .ok ⟨imports, code.map fun b => Link.same b.1, code, resultName, topLevelReturn⟩
    pure ⟨id, .code source⟩
  | _ => none

def decodeText? (v : Json) : Option FileCell := do
  match ← v.fields? ["id", "text"] with
  | [id, some text] => pure ⟨← decodeId? id, .text (← text.string?)⟩
  | _ => none

def ofKind? (kind : String) (rest : Json) : Option FileCell :=
  match kind with
  | "code" => decodeCode? rest
  | "text" => decodeText? rest
  | _ => none

/-- The kind of a cell stands among its fields, or before them in an array. -/
def decodeCell? : Json → Option FileCell
  | .object members => do
    match ← (Json.object members).fields? ["kind"] with
    | [some (.string kind)] => ofKind? kind (.object members)
    | _ => none
  | .array (.string kind :: rest) => ofKind? kind (.array rest)
  | _ => none

/-- The members of a file up to the closing brace; the value of `cells` is kept. -/
def readMembers? : Nat → Option Json → List Char → Option (Json × List Char)
  | 0, _, _ => none
  | steps + 1, cells, cs => do
    let (name, rest) ← Json.readName? cs
    let (cells, rest) ←
      if name = "cells" then
        if cells.isSome then none
        else
          (Json.readValue? (Json.stepsFor rest) (Json.depthLimit - 1) rest).map
            fun (v, rest) => (some v, rest)
      else (Json.skipValue? (Json.stepsFor rest) rest).map fun rest => (cells, rest)
    match Json.skipBlank rest with
    | ',' :: rest => readMembers? steps cells rest
    | '\x7d' :: rest => cells.map fun v => (v, rest)
    | _ => none

/-- The value of `cells` in the text of a file. A file may also be an array with that value alone. -/
def readCells? (text : String) : Option Json := do
  let cs := text.toList
  let (cells, rest) ←
    match Json.skipBlank cs with
    | '\x7b' :: rest => readMembers? rest.length none rest
    | '[' :: rest => do
      let (v, rest) ← Json.readValue? (Json.stepsFor rest) (Json.depthLimit - 1) rest
      match Json.skipBlank rest with
      | ']' :: rest => pure (v, rest)
      | _ => none
    | _ => none
  if Json.skipBlank rest = [] then pure cells else none

def decode? (text : String) : Option (List FileCell) := do
  (← readCells? text).list? decodeCell?

/-- The call that a cell makes: it is inserted under its number, or added if it brings none. -/
def FileCell.call (c : FileCell) : Call LiteralCode :=
  match c.id, c.content with
  | some id, content => .insert id content
  | none, .code source => .addCode source
  | none, .text body => .addText body

/-- The notebook after the call of a cell, unless the call is refused. -/
def place (nb : Notebook LiteralCode) (c : FileCell) : Except Refusal (Notebook LiteralCode) :=
  match nb.refusal? c.call with
  | some refusal => .error refusal
  | none => .ok (nb.apply c.call)

/-- The notebook of a list of cells, or the refusal of the first cell that has no place. -/
def assemble (cells : List FileCell) : Except Refusal (Notebook LiteralCode) :=
  cells.foldlM place Notebook.empty

def parse (text : String) : Except Error (Notebook LiteralCode) :=
  match decode? text with
  | none => .error .invalid
  | some cells =>
    match assemble cells with
    | .error refusal => .error (.refused refusal)
    | .ok nb => .ok nb

end NotebookFile

end Recalc

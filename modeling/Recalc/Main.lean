import Recalc.CommandLine.Report

/-!
# The command line
-/

namespace Recalc

/-- The code of the system for an attempt to read a directory. -/
def directoryCode : UInt32 := 21

/-- What stands at a path of the file system. Where nothing can be read there may still be something:
a directory, or a file that must not be read. A path that leads through a file leads nowhere. -/
def locateFile (path : String) : IO Located := do
  if path.isEmpty then return .missing
  match ← (IO.FS.readBinFile path).toBaseIO with
  | .ok content => return .file content
  | .error (.noFileOrDirectory _ _ _) => return .missing
  | .error (.inappropriateType _ code _) =>
    return if code = directoryCode then .directory else .missing
  | .error _ => return .directory

def neededPath? : Invocation → Option String
  | .command (.check path) => some path
  | .command (.run path _ _) => some path
  | .command (.graph path) => some path
  | _ => none

def timingText (milliseconds : Nat) : String :=
  let hundredths := (milliseconds + 5) / 10
  s!" in {hundredths / 100}.{hundredths / 10 % 10}{hundredths % 10}s\n"

def runProgram (args : List String) : IO UInt32 := do
  let start ← IO.monoMsNow
  let invocation := Invocation.ofArguments args
  let located ←
    match neededPath? invocation with
    | some path => locateFile path
    | none => pure .missing
  let response := Report.ofInvocation (fun _ => located) invocation
  IO.print response.stdout
  if response.timed then
    let stop ← IO.monoMsNow
    IO.print (timingText (stop - start))
  response.stderr.forM fun text => IO.eprintln text
  return UInt32.ofNat response.exit

end Recalc

def main (args : List String) : IO UInt32 := Recalc.runProgram args

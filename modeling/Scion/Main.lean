import Scion.Command.Outcome

/-!
The command line tool: reads the files that a command names, carries the command out, and prints.
-/

namespace Scion

/-- The regular files among the given paths, with their texts. -/
def readFiles (paths : List String) : IO (List (String × String)) :=
  paths.filterMapM fun (path : String) => do
    try
      return some (path, ← IO.FS.readFile path)
    catch _ => return none

def runTool (words : List String) : IO UInt32 := do
  let started ← IO.monoMsNow
  let paths := match Command.parse? words with
    | some command => command.files
    | none => []
  let texts ← readFiles paths
  let outcome := Outcome.ofWords (fun path => texts.lookup path) words
  IO.print outcome.output
  let elapsed := Report.duration ((← IO.monoMsNow) - started)
  for note in outcome.notes do
    IO.eprintln (note.render elapsed)
  return outcome.code.toUInt32

end Scion

def main (words : List String) : IO UInt32 := Scion.runTool words

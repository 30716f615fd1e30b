import Scion.Command
import Scion.Config.File
import Scion.Grammar.Reachability
import Scion.Grammar.Text
import Scion.Report

/-!
Carrying out a command on given files. The outcome is an exit code, the text for the standard output,
and notes for the user; only the note on success needs to know how long the work took.
-/

namespace Scion

inductive Note where
  | success (results : Nat) (stats : GraftStats)
  | warning (text : String)
  | error (text : String)
  | info (text : String)

def Note.render (elapsed : String) : Note → String
  | success results stats =>
    "✅ " ++ toString results ++ " result(s) in " ++ elapsed ++ " (" ++ toString stats.candidates
      ++ " candidates, " ++ toString stats.rejected ++ " rejected, " ++ toString stats.extensions
      ++ " extensions)"
  | warning text => "⚠️ " ++ text
  | error text => "❌ " ++ text
  | info text => "ℹ️ " ++ text

structure Outcome where
  code : Nat := 0
  output : String := ""
  notes : List Note := []

namespace Outcome

def versionText : String := "grafter 0.3.0\n"

/-- A format on the command line goes before that of the file. -/
def configFor (files : Files) (o : CommonOptions) : Except Failure GraftConfig := do
  let c ← match o.config? with
    | some path => GraftConfig.load files path
    | none => .ok {}
  match o.format? with
  | some format => return { c with output := { c.output with format := format } }
  | none => return c

def loadGrammar (files : Files) (path : String) : Except Failure Grammar := do
  files.require path "Grammar file"
  Grammar.load files path

def loadTree (files : Files) (path description : String) : Except Failure ParseTree := do
  files.require path description
  ParseTree.load files path

def placementIn (target : DerivationTree) :
    Option (Relation × Path) → Except Failure (Option Placement)
  | none => .ok none
  | some (relation, path) =>
    match target.subtreeAt path with
    | .ok reference => .ok (some ⟨relation, reference.id⟩)
    | .error e =>
      .error ⟨["reference node for --" ++ relation.name ++ " not found"], .graft e⟩

def runInsert (files : Files) (common : CommonOptions) (o : InsertOptions) :
    Except Failure Outcome := do
  let config ← configFor files common
  let grammar ← loadGrammar files common.grammar
  let targetShape ← loadTree files o.target "Target tree"
  let insertShape ← loadTree files o.insert "Insert tree"
  let (target, next) := targetShape.instantiate 1
  let (insert, next) := insertShape.instantiate next
  let placement? ← placementIn target o.placement?
  let settings := match o.maxSolutions with
    | some n => { config.insertion with maxSolutions := some n }
    | none => config.insertion
  let graph := ProductionGraph.ofGrammar grammar
  let request : GraftRequest :=
    { grammar, paths := graph.shortestPath?, target, insert, placement?, settings }
  let (results, run) := (request.start next).results
  return {
    output := Report.results config.output results run.stats
    notes :=
      if results.isEmpty then [.warning "No insertion found"]
      else if common.verbose then [.success results.length run.stats]
      else [] }

def runParents (files : Files) (common : CommonOptions) (symbol : String) :
    Except Failure Outcome := do
  let config ← configFor files common
  let grammar ← loadGrammar files common.grammar
  let parents := grammar.possibleParents ⟨symbol⟩
  return {
    output := Report.symbols config.output.format false ("Parents of " ++ symbol) parents
    notes := if parents.isEmpty then [.info (symbol ++ " has no parents")] else [] }

def runPath (files : Files) (common : CommonOptions) (start goal : String) :
    Except Failure Outcome := do
  let config ← configFor files common
  let grammar ← loadGrammar files common.grammar
  match (ProductionGraph.ofGrammar grammar).shortestPath? ⟨start⟩ ⟨goal⟩ with
  | some path =>
    return { output := Report.symbols config.output.format false (start ++ " → " ++ goal) path }
  | none => .error ⟨[], .invalid (goal ++ " is not reachable from " ++ start)⟩

def run (files : Files) : Command → Except Failure Outcome
  | .version => .ok { output := versionText }
  | .insert common o => runInsert files common o
  | .parents common symbol => runParents files common symbol
  | .path common start goal => runPath files common start goal

/-- The outcome for the words of a command line. Words that are not understood end with code 2, a
command that fails with code 1. -/
def ofWords (files : Files) (words : List String) : Outcome :=
  match Command.parse? words with
  | none => { code := 2 }
  | some command =>
    match run files command with
    | .ok o => o
    | .error f => { code := 1, notes := [.error f.message] }

end Outcome

end Scion

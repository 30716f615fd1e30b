import Scion.Config
import Scion.Derivation.Text
import Scion.Derivation.Yield
import Scion.Graft.Run

/-!
What the tool prints: results and lists of symbols, as plain lines or as JSON.
-/

namespace Scion.Report

open Json (Value)

def count (n : Nat) : Value := .number (.integer n)

def entry (showOpen : Bool) (t : DerivationTree) : Value :=
  .object [("text", .string (t.render showOpen)), ("tree", ParseTree.toJson t.shape)]

/-- Nodes that were examined in vain are not reported. -/
def statistics (s : GraftStats) : Value :=
  .object [("candidates", count s.candidates), ("rejected", count s.rejected),
    ("duplicates", count s.duplicates), ("extensions", count s.extensions),
    ("emitted", count s.emitted)]

def ofRun (showOpen : Bool) (ts : List DerivationTree) (s : GraftStats) : Value :=
  .object [("results", .array (ts.map (entry showOpen))), ("stats", statistics s)]

def lines (ls : List String) : String := String.join (ls.map (· ++ "\n"))

/-- One line for each result, or one value for the whole run. -/
def results (settings : OutputSettings) (ts : List DerivationTree) (s : GraftStats) : String :=
  match settings.format with
  | .text => lines (ts.map (·.render settings.showOpen))
  | .json => lines [(ofRun settings.showOpen ts s).spread]

def boldBlue : List Char := "\x1b[1;34m".toList

def plainStyle : List Char := "\x1b[0m".toList

/-- Text in bold blue; where the text itself ends a style, the style is taken up again. `skip` counts
characters already written. -/
def restyle : Nat → List Char → List Char
  | _, [] => []
  | skip + 1, c :: rest => c :: (if skip = 0 then boldBlue else []) ++ restyle skip rest
  | 0, c :: rest =>
    if plainStyle.isPrefixOf (c :: rest) then c :: restyle (plainStyle.length - 1) rest
    else c :: restyle 0 rest

def emphasize (s : String) : String :=
  String.ofList (boldBlue ++ restyle 0 s.toList ++ plainStyle)

/-- A header and a line for each symbol, or one list. -/
def symbols (format : OutputFormat) (color : Bool) (header : String) (ss : List Symbol) : String :=
  match format with
  | .text =>
    lines ((if color then emphasize header else header) :: ss.map fun s => "  • " ++ s.text)
  | .json => lines [(Value.array (ss.map fun s => .string s.text)).compact]

/-- Milliseconds alone below one second, else seconds with three places. -/
def duration (milliseconds : Nat) : String :=
  let rest := toString (milliseconds % 1000)
  if milliseconds < 1000 then rest ++ "ms"
  else toString (milliseconds / 1000) ++ "." ++ "".pushn '0' (3 - rest.length) ++ rest ++ "s"

end Scion.Report

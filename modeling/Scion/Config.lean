import Scion.Failure
import Scion.Graft.Settings
import Scion.Text.Lowercase

/-!
The configuration of the tool: settings of a run and of its output, and which settings are refused or
worth a warning.
-/

namespace Scion

inductive OutputFormat where
  | text
  | json
deriving DecidableEq, Repr, Inhabited

namespace OutputFormat

def name : OutputFormat → String
  | text => "text"
  | json => "json"

/-- The exact name, as a configuration file gives it. -/
def ofName? (s : String) : Option OutputFormat :=
  if s = "text" then some text else if s = "json" then some json else none

/-- On the command line either case and a short form are understood. -/
def parse (s : String) : Except String OutputFormat :=
  let lowered := Text.lowercase s
  if lowered = "text" ∨ lowered = "txt" then .ok text
  else if lowered = "json" then .ok json
  else .error ("Unknown output format: " ++ lowered)

theorem ofName?_name (f : OutputFormat) : ofName? f.name = some f := by
  cases f <;> rfl

end OutputFormat

structure OutputSettings where
  format : OutputFormat := .text
  /-- Show open positions by their symbols. -/
  showOpen : Bool := false
deriving DecidableEq, Repr, Inhabited

structure GraftConfig where
  version : String := "1.0"
  insertion : GraftSettings := {}
  output : OutputSettings := {}
deriving DecidableEq, Repr, Inhabited

namespace GraftConfig

/-- No results at all is not a sensible bound. -/
def isValid (c : GraftConfig) : Bool := c.insertion.maxSolutions ≠ some 0

def warnings (c : GraftConfig) : List String :=
  (if c.insertion.maxSolutions.isNone && c.insertion.maxExtensions.isNone then
    ["Neither max_solutions nor max_extensions is set; recursive grammars may produce long result streams"]
  else []) ++
  (if c.insertion.checkValidity then []
  else ["Validity oracle disabled; unvalidated candidates will be emitted"])

def validate (c : GraftConfig) : Except Failure (List String) :=
  if c.isValid then .ok c.warnings
  else .error ⟨[], .invalid "insertion.max_solutions must be greater than zero"⟩

end GraftConfig

end Scion

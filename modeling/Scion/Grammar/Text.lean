import Scion.Failure
import Scion.Grammar
import Scion.Grammar.Compact
import Scion.Json.Reader

/-!
Grammars written as a JSON object. Each member gives the alternatives of one head, in declaration
order; an alternative is a list of symbols or one text in compact notation.
-/

namespace Scion

/-- Why a well-formed text does not describe a list of rules. -/
inductive GrammarTextFault where
  | notObject
  | notList (head : String)
  | notStrings (head : String)
  | unsupported (head : String) (value : Json.Value)

def GrammarTextFault.message : GrammarTextFault → String
  | notObject => "Grammar must be a JSON object"
  | notList head => "Alternatives of " ++ head ++ " must be an array"
  | notStrings head => "Canonical alternative of " ++ head ++ " must contain only strings"
  | unsupported head value => "Unsupported alternative for " ++ head ++ ": " ++ value.compact

namespace Grammar

def symbolsOfJson? : List Json.Value → Option Alternative
  | [] => some []
  | .string s :: rest => (symbolsOfJson? rest).map (⟨s⟩ :: ·)
  | _ :: _ => none

def alternativeOfJson (head : String) : Json.Value → Except GrammarTextFault Alternative
  | .string s => .ok ((Compact.split s).map Symbol.mk)
  | .array items =>
    match symbolsOfJson? items with
    | some symbols => .ok symbols
    | none => .error (.notStrings head)
  | v => .error (.unsupported head v)

def ruleOfJson (head : String) : Json.Value → Except GrammarTextFault Rule
  | .array items => (items.mapM (alternativeOfJson head)).map (Rule.mk ⟨head⟩)
  | _ => .error (.notList head)

def rulesOfJson : Json.Value → Except GrammarTextFault (List Rule)
  | .object members => members.mapM fun (head, v) => ruleOfJson head v
  | _ => .error .notObject

def ofRulesOrFail (rules : List Rule) : Except GraftError Grammar :=
  match ofRules rules with
  | .ok g => .ok g
  | .error fault => .error (.malformedGrammar fault.message)

def parse (text : String) : Except Failure Grammar :=
  match Json.Value.parse? text with
  | none => .error ⟨["Grammar is not valid JSON"], .malformed .json⟩
  | some v =>
    match rulesOfJson v with
    | .error fault => .error ⟨[], .invalid fault.message⟩
    | .ok rules =>
      match ofRulesOrFail rules with
      | .ok g => .ok g
      | .error e => .error ⟨[], .graft e⟩

def load (files : Files) (path : String) : Except Failure Grammar :=
  match files.read path ("Failed to read grammar from " ++ path) with
  | .error f => .error f
  | .ok text =>
    match parse text with
    | .ok g => .ok g
    | .error f => .error (f.within ("Failed to load grammar from " ++ path))

end Grammar

end Scion

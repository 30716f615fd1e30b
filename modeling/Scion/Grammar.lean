import Scion.Error
import Scion.Grammar.Parents
import Scion.Text.Quoted

/-!
Context-free grammars as lists of rules in declaration order. A grammar has no fault: each head is a
nonterminal declared once, and every nonterminal that is used has a rule. It keeps the index of
possible parents beside the rules.
-/

namespace Scion

inductive GrammarFault where
  | headNotNonterminal (head : Symbol)
  | duplicateRule (head : Symbol)
  | undefinedSymbol (head symbol : Symbol)
deriving DecidableEq, Repr

def GrammarFault.message : GrammarFault → String
  | headNotNonterminal head => "rule head " ++ Text.quoted head.text ++ " is not a nonterminal"
  | duplicateRule head => "duplicate rule for " ++ head.text
  | undefinedSymbol head symbol =>
    head.text ++ " refers to undefined nonterminal " ++ symbol.text

namespace Rule

/-- The first head that is no nonterminal or was declared before. -/
def headFault? (declared : List Symbol) : List Rule → Option GrammarFault
  | [] => none
  | r :: rest =>
    if r.head.isTerminal then some (.headNotNonterminal r.head)
    else if declared.contains r.head then some (.duplicateRule r.head)
    else headFault? (r.head :: declared) rest

/-- The first nonterminal of an alternative that has no rule. -/
def undefined? (heads : List Symbol) (r : Rule) : Option GrammarFault :=
  (r.symbols.find? fun s => s.isNonterminal && !heads.contains s).map (.undefinedSymbol r.head)

/-- Heads are examined before alternatives. -/
def fault? (rules : List Rule) : Option GrammarFault :=
  headFault? [] rules <|> rules.findSome? (undefined? (rules.map head))

end Rule

structure Grammar where
  rules : List Rule
  parentIndex : ParentIndex
  faultless : Rule.fault? rules = none
  parentIndex_eq : parentIndex = ParentIndex.ofRules rules

namespace Grammar

def ofRules (rules : List Rule) : Except GrammarFault Grammar :=
  match h : Rule.fault? rules with
  | some fault => .error fault
  | none => .ok ⟨rules, ParentIndex.ofRules rules, h, rfl⟩

def nonterminals (g : Grammar) : List Symbol := g.rules.map Rule.head

def start? (g : Grammar) : Option Symbol := g.nonterminals.head?

def size (g : Grammar) : Nat := g.rules.length

def isEmpty (g : Grammar) : Bool := g.rules.isEmpty

def productionCount (g : Grammar) : Nat := (g.rules.flatMap Rule.alternatives).length

def rule? (g : Grammar) (s : Symbol) : Option Rule := g.rules.find? (·.head = s)

def isDefined (g : Grammar) (s : Symbol) : Bool := (g.rule? s).isSome

/-- Empty for terminals and for symbols without a rule. -/
def alternatives (g : Grammar) (s : Symbol) : List Alternative :=
  match g.rule? s with
  | some r => r.alternatives
  | none => []

/-- The nonterminals that can directly contain a symbol. -/
def possibleParents (g : Grammar) (s : Symbol) : List Symbol := g.parentIndex.parents s

/-- The only alternative, when there is just one and it consists of terminals. -/
def trivialExpansion? (g : Grammar) (s : Symbol) : Option Alternative :=
  match g.alternatives s with
  | [alternative] => if alternative.all Symbol.isTerminal then some alternative else none
  | _ => none

theorem trivialExpansion?_eq_some {g : Grammar} {s : Symbol} {a : Alternative} :
    g.trivialExpansion? s = some a ↔ g.alternatives s = [a] ∧ ∀ x ∈ a, x.isTerminal := by
  rw [trivialExpansion?]
  split
  · rename_i b hb
    rw [hb, List.cons.injEq, ← List.all_eq_true]
    grind
  · rename_i several
    exact ⟨by simp, fun h => absurd h.1 (several a)⟩

theorem ofRules_ok_iff {rules : List Rule} :
    (∃ g, ofRules rules = .ok g ∧ g.rules = rules) ↔ Rule.fault? rules = none := by
  unfold ofRules
  split <;> simp_all

theorem ofRules_error_iff {rules : List Rule} {fault : GrammarFault} :
    ofRules rules = .error fault ↔ Rule.fault? rules = some fault := by
  unfold ofRules
  split <;> simp_all

end Grammar

end Scion

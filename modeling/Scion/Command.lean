import Scion.Config
import Scion.Graft.Placement
import Scion.Path.Notation

/-!
The command line. Options come in a long and, most of them, in a short form; a value follows as the
next word or behind an equals sign. Each option is given at most once, and a word that begins with a
dash is never taken for a value.
-/

namespace Scion

/-- Options that every command understands. -/
structure CommonOptions where
  grammar : String
  config? : Option String
  format? : Option OutputFormat
  verbose : Bool

structure InsertOptions where
  target : String
  insert : String
  maxSolutions : Option Nat
  placement? : Option (Relation × Path)

inductive Command where
  | version
  | insert (common : CommonOptions) (options : InsertOptions)
  | parents (common : CommonOptions) (symbol : String)
  | path (common : CommonOptions) (start goal : String)

namespace Command

inductive Opt where
  | grammar
  | target
  | insert
  | maxSolutions
  | before
  | after
  | config
  | format
  | verbose
deriving DecidableEq

def Opt.takesValue (o : Opt) : Bool := o ≠ .verbose

/-- The options of all commands, and those of insertion. -/
def sharedNames : List (Opt × String × Option Char) :=
  [(.grammar, "grammar", some 'g'), (.config, "config", some 'c'), (.format, "format", none),
   (.verbose, "verbose", some 'v')]

def insertNames : List (Opt × String × Option Char) :=
  [(.target, "target", some 't'), (.insert, "insert", some 'i'),
   (.maxSolutions, "max-solutions", some 'n'), (.before, "before", none), (.after, "after", none)]

/-- The words of a command line, sorted into options and operands. -/
structure Words where
  options : List (Opt × String) := []
  operands : List String := []

def Words.has (w : Words) (o : Opt) : Bool := w.options.any fun e => e.1 = o

def Words.value? (w : Words) (o : Opt) : Option String :=
  (w.options.find? fun e => e.1 = o).map (·.2)

/-- No option is given twice. -/
def Words.enter? (w : Words) (o : Opt) (value : String) : Option Words :=
  if w.has o then none else some { w with options := (o, value) :: w.options }

def Words.operand (w : Words) (s : String) : Words := { w with operands := w.operands ++ [s] }

/-- A single dash is an ordinary word. -/
def isOption (cs : List Char) : Bool :=
  match cs with
  | '-' :: _ :: _ => true
  | _ => false

/-- What a word with short options asks for: to go on, or to take the next word as a value. -/
inductive Reading where
  | finished (words : Words)
  | awaiting (words : Words) (option : Opt)

/-- Short options may share one dash; the rest of the word behind one with a value is its value. -/
def shortOptions? (names : List (Opt × String × Option Char)) (w : Words) :
    List Char → Option Reading
  | [] => some (.finished w)
  | c :: rest => do
    let (o, _) ← names.find? fun e => e.2.2 = some c
    if o.takesValue then
      match rest with
      | [] => some (.awaiting w o)
      | '=' :: value => (w.enter? o (String.ofList value)).map .finished
      | value => (w.enter? o (String.ofList value)).map .finished
    else
      let w ← w.enter? o ""
      shortOptions? names w rest

def longOption? (names : List (Opt × String × Option Char)) (w : Words) (cs : List Char) :
    Option Reading := do
  let (name, value) := cs.span (· ≠ '=')
  let (o, _) ← names.find? fun e => e.2.1.toList = name
  match value with
  | [] => if o.takesValue then some (.awaiting w o) else (w.enter? o "").map .finished
  | _ :: value =>
    if o.takesValue then (w.enter? o (String.ofList value)).map .finished else none

def option? (names : List (Opt × String × Option Char)) (w : Words) :
    List Char → Option Reading
  | '-' :: '-' :: name => longOption? names w name
  | '-' :: letters => shortOptions? names w letters
  | _ => none

/-- Sorts the words; `awaiting` is the option whose value comes next. Behind a double dash all words
are operands. -/
def sort? (names : List (Opt × String × Option Char)) (awaiting : Option Opt) (w : Words) :
    List String → Option Words
  | [] => if awaiting.isNone then some w else none
  | s :: rest =>
    match awaiting with
    | some o =>
      if isOption s.toList then none
      else
        match w.enter? o s with
        | some w => sort? names none w rest
        | none => none
    | none =>
      if s = "--" then some (rest.foldl Words.operand w)
      else if isOption s.toList then
        match option? names w s.toList with
        | some (.finished w) => sort? names none w rest
        | some (.awaiting w o) => sort? names (some o) w rest
        | none => none
      else sort? names none (w.operand s) rest

/-- The value of an option that may be missing, but not wrong. -/
def Words.optional? {α : Type} (w : Words) (o : Opt) (parse? : String → Option α) :
    Option (Option α) :=
  match w.value? o with
  | none => some none
  | some s => (parse? s).map some

def filePath? (s : String) : Option String := if s.isEmpty then none else some s

def count? (s : String) : Option Nat := Path.index? s.toList

def common? (w : Words) : Option CommonOptions := do
  let grammar ← filePath? (← w.value? .grammar)
  let config? ← w.optional? .config filePath?
  let format? ← w.optional? .format fun s => (OutputFormat.parse s).toOption
  return ⟨grammar, config?, format?, w.has .verbose⟩

/-- At most one of the two sides may be asked for. -/
def placement? (w : Words) : Option (Option (Relation × Path)) := do
  match ← w.optional? .before Path.parse?, ← w.optional? .after Path.parse? with
  | some _, some _ => none
  | some p, none => return some (.before, p)
  | none, some p => return some (.after, p)
  | none, none => return none

def insert? (w : Words) : Option Command := do
  let common ← common? w
  let target ← filePath? (← w.value? .target)
  let insert ← filePath? (← w.value? .insert)
  let maxSolutions ← w.optional? .maxSolutions count?
  let placement? ← placement? w
  match w.operands with
  | [] => return .insert common ⟨target, insert, maxSolutions, placement?⟩
  | _ => none

/-- The command that the words ask for; there is none when they are not understood. -/
def parse? : List String → Option Command
  | [] => none
  | name :: rest =>
    if name = "--version" ∨ name = "-V" then some .version
    else if name = "insert" then (sort? (sharedNames ++ insertNames) none {} rest).bind insert?
    else if name = "parents" then do
      let w ← sort? sharedNames none {} rest
      let common ← common? w
      match w.operands with
      | [symbol] => return .parents common symbol
      | _ => none
    else if name = "path" then do
      let w ← sort? sharedNames none {} rest
      let common ← common? w
      match w.operands with
      | [start, goal] => return .path common start goal
      | _ => none
    else none

def files : Command → List String
  | version => []
  | insert common options =>
    common.grammar :: options.target :: options.insert :: common.config?.toList
  | parents common _ => common.grammar :: common.config?.toList
  | path common _ _ => common.grammar :: common.config?.toList

end Command

end Scion

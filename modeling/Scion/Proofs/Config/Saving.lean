import Mathlib.Logic.Function.Basic
import Scion.Config.File
import Scion.Proofs.Toml.Document

/-!
Configurations that are saved and loaded again. What is saved is a text of simple lines, one for each
setting that is there; a bound that is left open has no line, and reading gives it back because it is
open by default. Saving does not validate, and loading does: so a configuration comes back as it was,
or it is refused for the reason that validation gives.
-/

namespace Scion

open Toml (Statement Value)

namespace GraftConfig

open Toml.Statement (Line assignmentLine headerLine IsBare Denotes)

/-! ### The lines of a saved configuration -/

/-- A line with what it says. -/
abbrev SavedLine := List Char × Option Statement

def assigns (key : String) (text : List Char) (v : Value) : SavedLine :=
  (assignmentLine key text, some (.assignment [key] v))

def opens (key : String) : SavedLine := (headerLine key, some (.header [key]))

def blankLine : SavedLine := (['\n'], none)

def countLines (key : String) : Option Nat → List SavedLine
  | none => []
  | some n => [assigns key (toString n).toList (.integer n)]

def flagLine (key : String) (b : Bool) : SavedLine := assigns key (flagText b).toList (.boolean b)

def textLine (key : String) (text : String) : SavedLine :=
  assigns key (Toml.Quoted.write text.toList) (.string text)

def savedLines (c : GraftConfig) : List SavedLine :=
  [textLine "version" c.version, blankLine, opens "insertion"]
    ++ countLines "max_solutions" c.insertion.maxSolutions
    ++ countLines "max_extensions" c.insertion.maxExtensions
    ++ [flagLine "check_validity" c.insertion.checkValidity,
      flagLine "expand_trivial" c.insertion.expandTrivial, blankLine, opens "output",
      textLine "format" c.output.format.name, flagLine "show_open" c.output.showOpen]

theorem toList_countLine (key : String) (n? : Option Nat) :
    (countLine key n?).toList = (countLines key n?).flatMap Prod.fst := by
  cases n? with
  | none => rfl
  | some n =>
    simp [countLine, countLines, assigns, assignmentLine]

theorem toList_toToml (c : GraftConfig) : c.toToml.toList = c.savedLines.flatMap Prod.fst := by
  unfold toToml
  simp [savedLines, toList_countLine, textLine, flagLine, opens, blankLine, assigns,
    assignmentLine, headerLine]

/-! ### Reading the lines -/

theorem line_assigns {key : String} {text : List Char} {v : Value} (bare : IsBare key.toList)
    (denotes : Denotes text v) : Line (assigns key text v).1 (assigns key text v).2 :=
  .assignment bare denotes

theorem line_textLine {key : String} (bare : IsBare key.toList) (text : String) :
    Line (textLine key text).1 (textLine key text).2 := by
  have denotes := Toml.Statement.denotes_write text.toList
  rw [String.ofList_toList] at denotes
  exact line_assigns bare denotes

theorem line_flagLine {key : String} (bare : IsBare key.toList) (b : Bool) :
    Line (flagLine key b).1 (flagLine key b).2 := by
  refine line_assigns bare (Toml.Statement.denotes_word (List.all_eq_true.1 ?_) ?_ ?_)
  · cases b <;> decide
  · cases b <;> rfl
  · cases b <;> decide

theorem line_countLines {key : String} (bare : IsBare key.toList) {n? : Option Nat}
    (small : ∀ n ∈ n?, n ≤ Toml.maxInteger) : ∀ l ∈ countLines key n?, Line l.1 l.2 := by
  cases n? with
  | none => simp [countLines]
  | some n =>
    have bound : n < Toml.Scalar.integerLimit := Nat.lt_of_le_pred (by decide) (small n rfl)
    have digits : (toString n).toList = Nat.toDigits 10 n := by
      rw [Nat.toString_eq_repr, Nat.toList_repr]
    rw [countLines, List.forall_mem_singleton, digits]
    refine line_assigns bare (Toml.Statement.denotes_word ?_ ?_ Nat.toDigits_ne_nil)
    · intro c hc
      exact Toml.Scalar.isWordChar_of_isDigit (Toml.Scalar.isDigit_of_mem hc)
    · exact Toml.Scalar.ofWord?_toDigits bound

theorem isExpressible_iff {c : GraftConfig} : c.isExpressible ↔
    (∀ n ∈ c.insertion.maxSolutions, n ≤ Toml.maxInteger) ∧
      ∀ n ∈ c.insertion.maxExtensions, n ≤ Toml.maxInteger := by
  simp [isExpressible, Option.all_eq_true]

theorem line_savedLines {c : GraftConfig} (expressible : c.isExpressible) :
    ∀ l ∈ c.savedLines, Line l.1 l.2 := by
  obtain ⟨solutions, extensions⟩ := isExpressible_iff.1 expressible
  simp only [savedLines, List.forall_mem_append, List.forall_mem_cons, List.not_mem_nil,
    false_imp_iff, implies_true, and_true]
  refine ⟨⟨⟨⟨?_, ?_, ?_⟩, ?_⟩, ?_⟩, ?_, ?_, ?_, ?_, ?_, ?_⟩
  · exact line_textLine (by decide) c.version
  · exact .blank
  · exact .header (by decide)
  · exact line_countLines (by decide) solutions
  · exact line_countLines (by decide) extensions
  · exact line_flagLine (by decide) c.insertion.checkValidity
  · exact line_flagLine (by decide) c.insertion.expandTrivial
  · exact .blank
  · exact .header (by decide)
  · exact line_textLine (by decide) c.output.format.name
  · exact line_flagLine (by decide) c.output.showOpen

/-! ### What the lines say -/

/-- The statements are carried out and the table is read, whichever bounds are there. -/
theorem config?_savedLines (c : GraftConfig) :
    ((Toml.Document.carryOutAll {} (c.savedLines.flatMap fun l => l.2.toList)).bind fun d =>
      Toml.reading.config? (.table .header d.entries)) = some c := by
  obtain ⟨version, ⟨solutions, extensions, validity, trivial⟩, ⟨format, showOpen⟩⟩ := c
  cases solutions <;> cases extensions <;> cases format <;> rfl

/-- What can be written is read as the same configuration. -/
theorem ofToml?_toToml {c : GraftConfig} (expressible : c.isExpressible) :
    ofToml? c.toToml = some c := by
  have text := toList_toToml c
  have begins : c.toToml.toList.head? ≠ some '\ufeff' := by
    rw [text]
    exact fun mark => absurd (Option.some.inj mark) (by decide)
  rw [ofToml?, Toml.parse?_lines (line_savedLines expressible) text begins, Option.bind_map]
  exact config?_savedLines c

/-! ### Saving and loading -/

variable {isWritable : String → Bool} {path : String}

theorem save_eq_ok_iff (writable : isWritable path) {c : GraftConfig} {text : String} :
    c.save isWritable path = .ok text ↔ c.isExpressible ∧ text = c.toToml := by
  rw [save, if_pos writable]
  by_cases expressible : c.isExpressible
  · simp [expressible, eq_comm]
  · simp [expressible]

/-- A file is read as the configuration in it, when that is valid, and refused otherwise. -/
theorem loadToml_of_written {files : Files} {c : GraftConfig} (expressible : c.isExpressible)
    (written : files path = some c.toToml) :
    loadToml files path = c.validate.map fun _ => c := by
  simp only [loadToml, loadWith, Files.read, written, ofToml?_toToml expressible]
  cases c.validate <;> rfl

/-- Where a file can be written, a configuration is saved just when the format has its integers.
Loading the file that was written gives the configuration back just when it is valid; otherwise
loading fails as validation does, and it never gives another configuration. -/
theorem save_load (c : GraftConfig) (files : Files) (writable : isWritable path) :
    ((∃ text, c.save isWritable path = .ok text) ↔
      (∀ n ∈ c.insertion.maxSolutions, n ≤ Nat.pow 2 63 - 1) ∧
        ∀ n ∈ c.insertion.maxExtensions, n ≤ Nat.pow 2 63 - 1) ∧
    ∀ text, c.save isWritable path = .ok text →
      let loaded := loadToml (Function.update files path (some text)) path
      (loaded = .ok c ↔ ∃ warnings, c.validate = .ok warnings) ∧
      (∀ f, c.validate = .error f → loaded = .error f) ∧
      ∀ d, loaded = .ok d → d = c := by
  refine ⟨?_, fun text saved => ?_⟩
  · rw [← Toml.maxInteger, ← isExpressible_iff]
    constructor
    · rintro ⟨text, saved⟩
      exact ((save_eq_ok_iff writable).1 saved).1
    · intro expressible
      exact ⟨c.toToml, (save_eq_ok_iff writable).2 ⟨expressible, rfl⟩⟩
  · obtain ⟨expressible, rfl⟩ := (save_eq_ok_iff writable).1 saved
    intro loaded
    have read : loaded = c.validate.map fun _ => c :=
      loadToml_of_written expressible (Function.update_self _ _ _)
    rw [read]
    cases c.validate with
    | ok warnings => simp [Except.map, eq_comm]
    | error f => simp [Except.map]

/-- A version that is written with escapes between tripled quotes, and the greatest number that can be
written. -/
theorem save_load_awkward :
    let c : GraftConfig := {
      version := "\\\x07'''\"\"\"\n"
      insertion := { maxSolutions := some 9223372036854775807 }
      output := { format := .json } }
    let isWritable (path : String) : Bool := path = "c.toml"
    isWritable "c.toml" ∧ ∃ text, c.save isWritable "c.toml" = .ok text ∧
      loadToml (Function.update (fun _ => none) "c.toml" (some text)) "c.toml" = .ok c := by
  intro c isWritable
  have writable : isWritable "c.toml" := rfl
  have small : (∀ n ∈ c.insertion.maxSolutions, n ≤ Nat.pow 2 63 - 1) ∧
      ∀ n ∈ c.insertion.maxExtensions, n ≤ Nat.pow 2 63 - 1 := by
    simp [c]
  obtain ⟨saves, loads⟩ := save_load c (fun _ => none) writable
  obtain ⟨text, saved⟩ := saves.2 small
  exact ⟨writable, text, saved, (loads text saved).1.2 ⟨_, rfl⟩⟩

end GraftConfig

end Scion

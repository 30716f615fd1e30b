import Scion.Error

/-!
Failures on the way from a file to a value. A failure tells its story from the outermost context to
the cause.
-/

namespace Scion

inductive Format where
  | json
  | toml
  | yaml
deriving DecidableEq, Repr

def Format.name : Format → String
  | json => "JSON"
  | toml => "TOML"
  | yaml => "YAML"

inductive Cause where
  | unreadable
  | unwritable
  | malformed (format : Format)
  /-- A value that the format cannot express. -/
  | inexpressible (format : Format)
  | graft (error : GraftError)
  | invalid (text : String)
deriving DecidableEq, Repr

def Cause.message : Cause → String
  | unreadable | unwritable => "No such file or directory (os error 2)"
  | malformed format => "not well-formed " ++ format.name
  | inexpressible format => "no value of " ++ format.name
  | graft error => error.message
  | invalid text => text

structure Failure where
  context : List String
  cause : Cause
deriving DecidableEq, Repr

namespace Failure

def within (context : String) (f : Failure) : Failure := { f with context := context :: f.context }

def message (f : Failure) : String := ": ".intercalate (f.context ++ [f.cause.message])

/-- The outermost part of the story. -/
def headline (f : Failure) : String :=
  match f.context with
  | context :: _ => context
  | [] => f.cause.message

end Failure

/-- The texts of the regular files, by path. -/
abbrev Files := String → Option String

namespace Files

def require (files : Files) (path description : String) : Except Failure Unit :=
  if (files path).isSome then .ok ()
  else .error ⟨[], .invalid (description ++ " does not exist: " ++ path)⟩

def read (files : Files) (path context : String) : Except Failure String :=
  match files path with
  | some text => .ok text
  | none => .error ⟨[context], .unreadable⟩

end Files

end Scion

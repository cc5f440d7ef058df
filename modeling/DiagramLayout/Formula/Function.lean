import DiagramLayout.Formula.Basic

namespace DiagramLayout

/-- A parameter and the value that stands for it when no argument does. -/
structure Parameter (α : Type) where
  name : String
  default : Option (Value α) := none

/-- A function that builds a term from a value for each of its parameters. -/
structure TermFunction (α : Type) where
  parameters : List (Parameter α)
  body : List (Value α) → Formula α (Value α)

/-- Functions by name. -/
abbrev Dictionary (α : Type) : Type := List (String × TermFunction α)

/-- Defaults for parameters without an argument; the first that has none is missing. -/
def Parameter.defaults {α : Type} : List (Parameter α) → Except Misbinding (List (Value α))
  | [] => .ok []
  | p :: ps =>
    match p.default with
    | some v => (defaults ps).map (v :: ·)
    | none => .error (.missing (Text.quoted p.name))

namespace TermFunction

variable {α : Type}

/-- A value for each parameter: the arguments from the left, then defaults. -/
def bind (parameters : List (Parameter α)) (arguments : List (Value α)) :
    Except Misbinding (List (Value α)) :=
  if parameters.length < arguments.length then .error .tooMany
  else (Parameter.defaults (parameters.drop arguments.length)).map (arguments ++ ·)

/-- A call; arguments that do not fit the parameters are refused. -/
def call (f : TermFunction α) (arguments : List (Value α)) : Formula α (Value α) :=
  match bind f.parameters arguments with
  | .ok values => f.body values
  | .error _ => .fault .wrongForm

end TermFunction

end DiagramLayout

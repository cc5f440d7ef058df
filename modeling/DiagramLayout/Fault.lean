import DiagramLayout.Term.Kind

namespace DiagramLayout

/-- A condition on the arguments or on the state of an operation. -/
inductive Rule where
  | vectorLengths
  | planeVector
  | inputIndex
  | ownHandle
  | termName
  | termKind
  | variableCount
  | constraintScale
  | finiteWeight
  | inputLength
  | memorySize
  | pairCount
  | pairsWithinMemory
  | memoryComplete
  | gradientShape
  | searchConstants
  | searchInterval
  | searchLimit
  | searchStart
  | initialWeight
  | weightGrowth
  | phaseStop
  | roundStop
  | historySize
  | fixedStep
  | budget
  | callLimit
  | objectiveReady
  | energyReady
  | weightGrows
  /-- The status, as a text, is none in which a step can be made. -/
  | knownStatus (status : String)
  | tableName
  | tableRows
deriving DecidableEq, Repr

/-- The text of a broken rule. -/
def Rule.message : Rule → String
  | vectorLengths => "vector length mismatch"
  | planeVector => "rot90 expects a 2D vector"
  | inputIndex => "input index must be non-negative"
  | ownHandle => "cannot mix nodes from different graphs"
  | termName => "term name must be a non-empty string"
  | termKind => "opt_type must be 'objective' or 'constraint'"
  | variableCount => "num_varying must be non-negative"
  | constraintScale => "constraint_scale must be > 0"
  | finiteWeight => "weight must be finite"
  | inputLength => "input vector has the wrong length"
  | memorySize => "mem_size must be non-negative"
  | pairCount => "s/y history length mismatch"
  | pairsWithinMemory => "history longer than mem_size"
  | memoryComplete => "invalid L-BFGS memory"
  | gradientShape => "state and gradient must have the same shape"
  | searchConstants => "need 0 < c1 < c2 < 1"
  | searchInterval => "min_interval must be > 0"
  | searchLimit => "max_steps must be non-negative"
  | searchStart => "initial_step must be > 0"
  | initialWeight => "init_weight must be > 0"
  | weightGrowth => "weight_growth_factor must be > 1"
  | phaseStop => "uo_stop must be > 0"
  | roundStop => "ep_stop must be > 0"
  | historySize => "lbfgs_mem_size must be non-negative"
  | fixedStep => "fixed_step must be > 0"
  | budget => "steps must be non-negative"
  | callLimit => "max_calls must be non-negative"
  | objectiveReady => "objective not compiled"
  | energyReady => "energy must be compiled before the EP update"
  | weightGrows => "penalty weight must not decrease"
  | knownStatus status => "unknown optimizer status " ++ status
  | tableName => "Invalid log name"
  | tableRows => "records must be a list"

/-- What holds elements that are reached by position. -/
inductive Container where
  | list
  | text
deriving DecidableEq, Repr

/-- Why arguments do not fit a parameter list. -/
inductive Misbinding where
  | tooMany
  /-- The parameter, quoted, that is left without a value. -/
  | missing (parameter : String)
deriving DecidableEq, Repr

/-- The wording of a misbinding. -/
def Misbinding.message : Misbinding → String
  | tooMany => "too many positional arguments"
  | missing parameter => "missing a required argument: " ++ parameter

/-- The text of an array's shape. -/
def shapeText : List Nat → String
  | [n] => "(" ++ toString n ++ ",)"
  | ns => "(" ++ ", ".intercalate (ns.map toString) ++ ")"

/-- What stands where a log is to be. -/
inductive Obstacle where
  /-- A file in place of the folder of the log. -/
  | fileAtFolder
  /-- A file in place of a folder further up. -/
  | fileAbove
  /-- A folder in place of the file of the log. -/
  | folderAtFile
  /-- A name of a folder or of the file, or a whole path, with too many bytes. -/
  | longName
  /-- A zero character in the name of a folder. -/
  | brokenFolder
  /-- A zero character in the name of the file. -/
  | brokenFile
deriving DecidableEq, Repr

/-- Why a log cannot be read as a table or a table cannot be written as a log. -/
inductive Misfit where
  /-- A cell that its column cannot hold. -/
  | cell
  /-- Values of one column without a type in common. -/
  | column
  /-- A column of lists where one of another type is needed. -/
  | cast
  /-- A column whose name stands for all columns, beside others. -/
  | ambiguous
  /-- A column of lists on its way to a file. -/
  | nested
  /-- A table without columns on its way to a file. -/
  | noColumns
  /-- A file without a line. -/
  | noLines
  /-- A line with more fields than the table has columns. -/
  | longLine
  /-- A pattern of files that is not well formed. -/
  | pattern
  /-- A pattern that no file matches. -/
  | noFile
  /-- Files of one pattern whose columns have other names. -/
  | unlike
deriving DecidableEq, Repr

/-- The wording of a misfit. -/
def Misfit.message : Misfit → String
  | cell => "cell does not fit its column"
  | column => "values of a column have no type in common"
  | cast => "lists have no other type"
  | ambiguous => "name of a column stands for all columns"
  | nested => "lists have no written form"
  | noColumns => "table without columns"
  | noLines => "file without lines"
  | longLine => "line with too many fields"
  | pattern => "malformed pattern"
  | noFile => "no file matches the pattern"
  | unlike => "files of one pattern have different columns"

/-- Why an operation gives no result. Terms and values stand in it as their texts. -/
inductive Fault where
  /-- A value of another form than the operation takes. -/
  | wrongForm
  /-- A value of this form cannot become a node. -/
  | cannotLift (form : String)
  /-- A text that holds no number. -/
  | unreadable
  /-- Vectors whose lengths do not fit, or a ragged or negatively sized array. -/
  | badShape
  /-- A position outside its container. -/
  | outOfRange (container : Container)
  /-- An integer beyond every number. -/
  | tooLarge
  /-- A division of numbers by zero. -/
  | zeroDivisor
  | violated (rule : Rule)
  | unresolved (kind : TermKind) (name : String)
  | variableOutside (kind : TermKind) (term : String) (index : Int) (count : Int)
  | badArity (kind : TermKind) (term : String) (cause : Misbinding)
  | unsupportedArgument (argument : String)
  | cannotBuild (term : String) (cause : Fault)
  | notScalar (term : String)
  | notFlat (shape : List Nat)
  | pathCount (paths values : Nat)
  | resampleShape (count : Nat) (shape : List Nat)
  | malformedPath (path : String)
  | unknownPath (path : String)
  | declaredTwice (path : String)
  | vectorDeclared (path : String)
  | misfit (cause : Misfit)
  | obstructed (obstacle : Obstacle)
deriving DecidableEq, Repr

namespace Fault

/-- The wording of a fault. A term that cannot be built names the cause when it is a broken rule or
a position out of range. -/
def message : Fault → String
  | wrongForm => "value of the wrong form"
  | cannotLift form => "cannot lift " ++ form ++ " into the graph"
  | unreadable => "not a number"
  | badShape => "shapes do not fit"
  | outOfRange .list => "list index out of range"
  | outOfRange .text => "string index out of range"
  | tooLarge => "integer too large"
  | zeroDivisor => "division by zero"
  | violated rule => rule.message
  | unresolved kind name => kind.name ++ " '" ++ name ++ "' not found in dictionary"
  | variableOutside kind term index count =>
    kind.name ++ " " ++ term ++ " references varying index " ++ toString index ++
      " outside [0, " ++ toString count ++ ")"
  | badArity kind term cause => kind.name ++ " " ++ term ++ ": bad arity (" ++ cause.message ++ ")"
  | unsupportedArgument argument => "unsupported term argument " ++ argument
  | cannotBuild term (violated rule) => "could not build " ++ term ++ ": " ++ rule.message
  | cannotBuild term (outOfRange .list) =>
    "could not build " ++ term ++ ": list index out of range"
  | cannotBuild term (outOfRange .text) =>
    "could not build " ++ term ++ ": string index out of range"
  | cannotBuild term _ => "could not build " ++ term
  | notScalar term => term ++ " must return a scalar"
  | notFlat shape => "initial values must be a flat vector, got shape " ++ shapeText shape
  | pathCount paths values =>
    toString paths ++ " varying paths for " ++ toString values ++ " varying values"
  | resampleShape count shape =>
    "expected " ++ toString count ++ " varying values, got shape " ++ shapeText shape
  | malformedPath path => "malformed path '" ++ path ++ "'"
  | unknownPath path => "unknown path '" ++ path ++ "'"
  | declaredTwice path => "path '" ++ path ++ "' declared varying twice"
  | vectorDeclared path => "varying path '" ++ path ++ "' must name a scalar"
  | misfit cause => cause.message
  | obstructed .fileAtFolder | obstructed .fileAbove => "a file stands where a folder is needed"
  | obstructed .folderAtFile => "a folder stands where a file is needed"
  | obstructed .longName => "name too long"
  | obstructed .brokenFolder | obstructed .brokenFile => "name with a zero character"

/-- Whether a fault lies in the description of the problem rather than in a value or a call. -/
def isConfiguration : Fault → Bool
  | unresolved .. | variableOutside .. | badArity .. | unsupportedArgument _ | cannotBuild ..
  | notScalar _ | notFlat _ | pathCount .. | resampleShape .. | malformedPath _ | unknownPath _
  | declaredTwice _ | vectorDeclared _ => true
  | _ => false

end Fault

/-- The rule is kept, or the fault that it is broken. -/
def require (kept : Bool) (rule : Rule) : Except Fault Unit :=
  if kept then .ok () else .error (.violated rule)

end DiagramLayout

import Script.Syntax
import Script.Value.Kind

/-!
# Diagnostics

What can be wrong with a text, a token stream or a running program. A fault is a cause; its code,
its category and its wording are functions of the cause, and a diagnostic is a fault at a position.

- `Expectation`: the places where the grammar asks for one particular token.
- `Fault`: the causes, with `Fault.code`, `Fault.category` and `Fault.message`.
- `Diagnostic`: a fault and its position, shown by `Diagnostic.display` as `[line N] message`.
-/

namespace Script

/-! ## What the grammar expects -/

/-- A place where the grammar admits one particular token only. -/
inductive Expectation
  | variableName
  | declarationEnd
  | functionName
  | parametersStart
  | parameterName
  | parametersEnd
  | blockStart
  | blockEnd
  | printEnd
  | expressionEnd
  | branchStart
  | branchConditionEnd
  | whileStart
  | whileConditionEnd
  | forStart
  | forConditionEnd
  | forClausesEnd
  | jumpEnd (word : String)
  | returnEnd
  | groupEnd
  | argumentsEnd
  deriving DecidableEq, Inhabited

/-- What the message about a missing token asks for. -/
def Expectation.message : Expectation → String
  | .variableName => "Expect variable name."
  | .declarationEnd => "Expect ';' after variable declaration."
  | .functionName => "Expect function name."
  | .parametersStart => "Expect '(' after function name."
  | .parameterName => "Expect parameter name."
  | .parametersEnd => "Expect ')' after parameters."
  | .blockStart => "Expect '\x7b' before block."
  | .blockEnd => "Expect '\x7d' after block."
  | .printEnd => "Expect ';' after value."
  | .expressionEnd => "Expect ';' after expression."
  | .branchStart => "Expect '(' after 'if'."
  | .branchConditionEnd => "Expect ')' after if condition."
  | .whileStart => "Expect '(' after 'while'."
  | .whileConditionEnd => "Expect ')' after condition."
  | .forStart => "Expect '(' after 'for'."
  | .forConditionEnd => "Expect ';' after loop condition."
  | .forClausesEnd => "Expect ')' after for clauses."
  | .jumpEnd word => s!"Expect ';' after '{word}'."
  | .returnEnd => "Expect ';' after return value."
  | .groupEnd => "Expect ')' after expression."
  | .argumentsEnd => "Expect ')' after arguments."

/-! ## Faults -/

/-- The most parameters a function can declare, and the most arguments a call can pass. -/
def maxArity : Nat := 255

/-- Broad classes of faults. -/
inductive Category
  | lexical
  | grammatical
  | undefinedVariable
  | duplicateDefinition
  | type
  | arity
  | output
  | stackOverflow
  deriving DecidableEq, Inhabited

/-- The name of a category. -/
def Category.name : Category → String
  | .lexical => "Lex"
  | .grammatical => "Parse"
  | .undefinedVariable => "UndefinedVariable"
  | .duplicateDefinition => "DuplicateDefinition"
  | .type => "Type"
  | .arity => "Arity"
  | .output => "Io"
  | .stackOverflow => "StackOverflow"

/-- The causes for which a text is refused or a run ends early. -/
inductive Fault
  | unexpectedCharacter (c : Char)
  | unterminatedString
  | unexpectedToken (found : String)
  | missing (what : Expectation)
  | invalidTarget
  | outsideLoop (word : String)
  | tooManyParameters
  | tooManyArguments
  | duplicateParameter (name : String)
  | undefined (name : String)
  | redefined (name : String)
  | notAddable (left right : ValueKind)
  | notNumbers (op : BinaryOp) (left right : ValueKind)
  | notNegatable (operand : ValueKind)
  | notCallable (callee : ValueKind)
  | wrongArity (function : String) (expected given : Nat)
  | outputFailed (reason : String)
  | callsTooDeep (limit : Nat)
  deriving DecidableEq, Inhabited

namespace Fault

/-- The code of a fault: `L` for reading characters, `P` for the grammar, `R` for running. -/
def code : Fault → String
  | unexpectedCharacter _ => "L001"
  | unterminatedString => "L002"
  | unexpectedToken _ => "P001"
  | missing _ => "P002"
  | invalidTarget => "P003"
  | outsideLoop _ => "P004"
  | tooManyParameters => "P005"
  | tooManyArguments => "P005"
  | duplicateParameter _ => "P006"
  | undefined _ => "R001"
  | redefined _ => "R002"
  | notAddable _ _ => "R003"
  | notNumbers _ _ _ => "R003"
  | notNegatable _ => "R003"
  | notCallable _ => "R004"
  | wrongArity _ _ _ => "R005"
  | outputFailed _ => "R006"
  | callsTooDeep _ => "R007"

/-- The category of a fault. -/
def category : Fault → Category
  | unexpectedCharacter _ => .lexical
  | unterminatedString => .lexical
  | unexpectedToken _ => .grammatical
  | missing _ => .grammatical
  | invalidTarget => .grammatical
  | outsideLoop _ => .grammatical
  | tooManyParameters => .grammatical
  | tooManyArguments => .grammatical
  | duplicateParameter _ => .grammatical
  | undefined _ => .undefinedVariable
  | redefined _ => .duplicateDefinition
  | notAddable _ _ => .type
  | notNumbers _ _ _ => .type
  | notNegatable _ => .type
  | notCallable _ => .type
  | wrongArity _ _ _ => .arity
  | outputFailed _ => .output
  | callsTooDeep _ => .stackOverflow

/-- The wording of a fault. -/
def message : Fault → String
  | unexpectedCharacter c => s!"Unexpected character '{c}'."
  | unterminatedString => "Unterminated string."
  | unexpectedToken found => s!"Unexpected '{found}' at here."
  | missing what => what.message
  | invalidTarget => "Invalid assignment target."
  | outsideLoop word => s!"'{word}' is outside loop."
  | tooManyParameters => s!"Can't have more than {maxArity} parameters."
  | tooManyArguments => s!"Can't have more than {maxArity} arguments."
  | duplicateParameter name => s!"Duplicate parameter '{name}'."
  | undefined name => s!"Undefined variable '{name}'."
  | redefined name => s!"Variable '{name}' has been defined."
  | notAddable left right =>
    s!"Operands of '+' must be two numbers or two strings, got {left.name} and {right.name}."
  | notNumbers op left right =>
    s!"Operands of '{op.symbol}' must be numbers, got {left.name} and {right.name}."
  | notNegatable operand => s!"Operand of '-' must be a number, got {operand.name}."
  | notCallable callee => s!"Can only call functions, not {callee.name}."
  | wrongArity function expected given =>
    s!"'{function}' expects {expected} arguments but got {given}."
  | outputFailed reason => s!"Failed to write output: {reason}."
  | callsTooDeep limit => s!"Stack overflow: more than {limit} nested calls."

end Fault

/-! ## Diagnostics -/

/-- A fault at a position of the source text. -/
structure Diagnostic where
  fault : Fault
  pos : Position
  deriving DecidableEq, Inhabited

/-- The wording of a diagnostic, without its position. -/
def Diagnostic.message (d : Diagnostic) : String := d.fault.message

/-- A diagnostic as it is shown to a user. -/
def Diagnostic.display (d : Diagnostic) : String :=
  s!"[line {d.pos.line}] {d.message}"

end Script

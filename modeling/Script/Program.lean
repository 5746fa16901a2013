import Script.Grammar.Statement
import Script.Machine.Run
import Script.Token.Scan

/-!
# From text to output

- `compile`, `compileExpr`: the program that a text is, the expression that a text begins with.
- `runSource`: runs a text in a session of its own.
- `runToString`: what a text prints.
-/

namespace Script

/-- The program that a text is, or the first fault in it. -/
def compile (source : String) : Except Diagnostic Program := scan source >>= parse

/-- The expression that a text begins with, or the first fault in it. The whole text has to consist
of tokens; those behind the expression are not looked at. -/
def compileExpr (source : String) : Except Diagnostic Expr := do
  match Expr.parser (.ofTokens (← scan source)) with
  | .ok e _ => .ok e
  | .error d _ => .error d

/-- Compiles a text and runs it over a sink in a session of its own. A text with a fault writes
nothing. -/
def runSource (steps : Nat) (policy : Policy) (sink : Sink) (source : String) :
    Option (Except Diagnostic Unit × Sink) :=
  match compile source with
  | .error d => some (.error d, sink)
  | .ok program =>
    (((Session.new sink).withPolicy policy).interpret steps program).map fun (r, s) => (r, s.sink)

/-- What a text prints, if it runs without a fault under the strict policy. -/
def runToString (steps : Nat) (source : String) : Option (Except Diagnostic String) :=
  (runSource steps .strict (.new none) source).map fun (r, sink) => r.map fun _ => sink.text

end Script

import Script.Program

/-!
# The command line

The command takes the name of one script and, anywhere among its arguments, the option for
permissive redefinition.

- `Options`, `Options.ofArgs?`: the arguments, if they are well-formed.
- `Report`: what the command writes, and its exit status.
- `Command.run`: the report of a command, given how files are read.
-/

namespace Script

/-! ## Arguments -/

/-- What the arguments ask for. -/
structure Options where
  script : String
  policy : Policy
  deriving DecidableEq

namespace Options

/-- The option for permissive redefinition. -/
def permissiveFlag : String := "--permissive"

/-- Arguments that begin with two hyphens are options. -/
def isFlag (arg : String) : Bool := arg.toList.take 2 = ['-', '-']

/-- What the arguments ask for: exactly one script, and no option that does not exist. -/
def ofArgs? (args : List String) : Option Options :=
  if args.any fun arg => isFlag arg && arg ≠ permissiveFlag then none
  else
    match args.filter fun arg => !isFlag arg with
    | [script] =>
      some ⟨script, if args.contains permissiveFlag then .permissive else .strict⟩
    | _ => none

end Options

/-! ## Reports -/

/-- What a command writes to its standard output, and its exit status. -/
structure Report where
  output : String
  status : Nat
  deriving DecidableEq

namespace Report

/-- The report on arguments that are not well-formed. -/
def usage : Report := ⟨"Usage: glox [--permissive] <script>\n", 64⟩

/-- The report on a script that cannot be read as text. -/
def unreadable (script : String) : Report := ⟨s!"Failed to read file '{script}'.\n", 65⟩

/-- The report on a run: what it wrote, and behind that the fault it ended with. -/
def ofRun : Except Diagnostic Unit × Sink → Report
  | (.ok _, sink) => ⟨sink.text, 0⟩
  | (.error d, sink) => ⟨sink.text ++ d.display ++ "\n", 1⟩

end Report

/-! ## The command -/

/-- Runs a script that has the given contents, if it could be read. -/
def Options.execute (steps : Nat) (o : Options) (contents : Option ByteArray) : Option Report :=
  match contents.bind String.fromUTF8? with
  | none => some (.unreadable o.script)
  | some source => (runSource steps o.policy (.new none) source).map Report.ofRun

/-- The report of a command when `read` gives the contents of files. -/
def Command.run (steps : Nat) (args : List String) (read : String → Option ByteArray) :
    Option Report :=
  match Options.ofArgs? args with
  | none => some .usage
  | some o => o.execute steps (read o.script)

end Script

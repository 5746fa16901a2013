import Script.Directory
import Script.Main
import Script.Proofs.Arena.Bounds
import Script.Proofs.Arena.Garbage
import Script.Proofs.Arena.Resolution
import Script.Proofs.Arena.Staleness
import Script.Proofs.Command
import Script.Proofs.Grammar.Descent.Ending
import Script.Proofs.Grammar.Expression.Flattening
import Script.Proofs.Grammar.FirstFault
import Script.Proofs.Machine.Calling
import Script.Proofs.Session.Chunks
import Script.Proofs.Session.Confinement
import Script.Proofs.Session.DepthLimit
import Script.Proofs.Session.Diagnostics
import Script.Proofs.Session.ForLoops
import Script.Proofs.Session.FunctionEquality
import Script.Proofs.Session.LexicalScoping
import Script.Proofs.Session.Policies
import Script.Proofs.Session.Reclaiming
import Script.Proofs.Session.Retention
import Script.Proofs.Session.SinkLimit
import Script.Proofs.Token.Layout
import Script.Proofs.Token.Refusals

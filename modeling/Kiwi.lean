import Kiwi.Main
import Kiwi.Value.Dump
import Kiwi.Proofs.Eval.Depth
import Kiwi.Proofs.Eval.Scoping
import Kiwi.Proofs.Program.Concatenation
import Kiwi.Proofs.Program.FirstError
import Kiwi.Proofs.Program.RoundTrip
import Kiwi.Proofs.Session.ReadBack
import Kiwi.Proofs.Session.Script
import Kiwi.Proofs.Session.Steps
import Kiwi.Proofs.Session.Verdict
import Kiwi.Proofs.Session.Noninterference
import Kiwi.Proofs.Session.Identity
import Kiwi.Proofs.Lexing.Layout
import Kiwi.Proofs.Lexing.Order
import Kiwi.Proofs.Lexing.Pulling
import Kiwi.Proofs.Program.Layout
import Kiwi.Proofs.Program.Segment
import Kiwi.Proofs.Eval.Definition
import Kiwi.Proofs.Scope.Binding
import Kiwi.Proofs.Program.ErrorOrder
import Kiwi.Proofs.Program.TopLevel
import Kiwi.Proofs.Eval.Exactness
import Kiwi.Proofs.Eval.ShortCircuit
import Kiwi.Proofs.Program.Progress

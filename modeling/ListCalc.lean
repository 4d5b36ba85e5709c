import ListCalc.Main
import ListCalc.Storage.Disk
import ListCalc.Proofs.CallByValue
import ListCalc.Proofs.Conversation
import ListCalc.Proofs.RoundTrip
import ListCalc.Proofs.Continuation
import ListCalc.Proofs.Guarded
import ListCalc.Proofs.Expr.Layers
import ListCalc.Proofs.Comment.Source
import ListCalc.Proofs.Token.Lossless
import ListCalc.Proofs.Blame
import ListCalc.Proofs.Places
import ListCalc.Proofs.Stability
import ListCalc.Proofs.Orderly
import ListCalc.Proofs.Broadcast
import ListCalc.Proofs.Ranked
import ListCalc.Proofs.Writer
import ListCalc.Proofs.Number.Literal
import ListCalc.Proofs.Printed
import ListCalc.Proofs.Loop
import ListCalc.Proofs.Entry
import ListCalc.Proofs.Walk.Source
import ListCalc.Proofs.Diagnosis
import ListCalc.Proofs.Token.Respaced
import ListCalc.Proofs.Numeral
import ListCalc.Proofs.Token.Calls
import ListCalc.Proofs.Scope.Stack
import ListCalc.Proofs.Words
import ListCalc.Proofs.Text.Lines
import ListCalc.Proofs.Storage.Disk
import ListCalc.Proofs.History.Failing
import ListCalc.Proofs.History.Reload

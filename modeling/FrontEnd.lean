import FrontEnd.Main
import FrontEnd.Scanner
import FrontEnd.Scope
import FrontEnd.Proofs.Acceptance
import FrontEnd.Proofs.RoundTrip
import FrontEnd.Proofs.Block.Matching
import FrontEnd.Proofs.Tokenization
import FrontEnd.Proofs.Composition
import FrontEnd.Proofs.Layout
import FrontEnd.Proofs.Parallel.Basic
import FrontEnd.Proofs.Parallel.Phrase
import FrontEnd.Proofs.Parallel.Clause
import FrontEnd.Proofs.Isolation
import FrontEnd.Proofs.Independence
import FrontEnd.Proofs.Offset
import FrontEnd.Proofs.Faults
import FrontEnd.Proofs.Diagnosis
import FrontEnd.Proofs.Literals
import FrontEnd.Proofs.Account.Cause
import FrontEnd.Proofs.Account.Fault
import FrontEnd.Proofs.Account.Bound
import FrontEnd.Proofs.Lines
import FrontEnd.Proofs.Number.Basin
import FrontEnd.Proofs.Number.Text
import FrontEnd.Proofs.Outline.Framing
import FrontEnd.Proofs.Outline.Injective
import FrontEnd.Proofs.Outline.Faithful
import FrontEnd.Proofs.Outline.Legible
import FrontEnd.Proofs.Scopes
import FrontEnd.Proofs.ScopeExit
import FrontEnd.Proofs.Stratification
import FrontEnd.Proofs.FirstMismatch
import FrontEnd.Proofs.Progress.Basic
import FrontEnd.Proofs.Progress.Loop
import FrontEnd.Proofs.Stages
import FrontEnd.Proofs.Truncation
import FrontEnd.Proofs.ClosingQuote
import FrontEnd.Proofs.LongestMatch
import FrontEnd.Proofs.MemberValues
import FrontEnd.Proofs.DecimalPoints
import FrontEnd.Proofs.Caret
import FrontEnd.Proofs.Resynchronization

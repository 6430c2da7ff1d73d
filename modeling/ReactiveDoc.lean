import ReactiveDoc.Diagnostic.Collector
import ReactiveDoc.Document.Workspace
import ReactiveDoc.Main
import ReactiveDoc.Signal.Ownership
import ReactiveDoc.Syntax.Call
import ReactiveDoc.Transcript.Checking
import ReactiveDoc.Transcript.Value
import ReactiveDoc.Proofs.Signal.Recomputing
import ReactiveDoc.Proofs.Eval.Dynamic
import ReactiveDoc.Proofs.Signal.Choosing
import ReactiveDoc.Proofs.Signal.Switching
import ReactiveDoc.Proofs.Check.Alike
import ReactiveDoc.Proofs.Document.Components
import ReactiveDoc.Proofs.Document.Grouping
import ReactiveDoc.Proofs.Env
import ReactiveDoc.Proofs.Text.CloseNames
import ReactiveDoc.Proofs.Check.Locality
import ReactiveDoc.Proofs.Check.Statement
import ReactiveDoc.Proofs.Document.Binding
import ReactiveDoc.Proofs.Document.Reading
import ReactiveDoc.Proofs.Cache.Contents
import ReactiveDoc.Proofs.Document.Caching
import ReactiveDoc.Proofs.Document.Transparency
import ReactiveDoc.Proofs.Check.Accounting
import ReactiveDoc.Proofs.Eval.Quiet
import ReactiveDoc.Proofs.Eval.Computing
import ReactiveDoc.Proofs.Eval.Undisturbed
import ReactiveDoc.Proofs.Number.Comparing
import ReactiveDoc.Proofs.Ty.Inhabiting
import ReactiveDoc.Proofs.Ty.Subtyping
import ReactiveDoc.Proofs.Check.Operands
import ReactiveDoc.Proofs.Check.Equality
import ReactiveDoc.Proofs.Check.Operating
import ReactiveDoc.Proofs.Signal.Tiers
import ReactiveDoc.Proofs.Signal.Preserving
import ReactiveDoc.Proofs.Value.Within
import ReactiveDoc.Proofs.Eval.Regime
import ReactiveDoc.Proofs.Eval.Governing
import ReactiveDoc.Proofs.Syntax.Free
import ReactiveDoc.Proofs.Eval.Settled
import ReactiveDoc.Proofs.Eval.Advancing
import ReactiveDoc.Proofs.Document.Recursion
import ReactiveDoc.Proofs.Check.Coverage
import ReactiveDoc.Proofs.Check.Covered
import ReactiveDoc.Proofs.Check.FreeNames
import ReactiveDoc.Proofs.Cache.History
import ReactiveDoc.Proofs.Document.Exporting
import ReactiveDoc.Proofs.Json.Layout
import ReactiveDoc.Proofs.Syntax.Encoding
import ReactiveDoc.Proofs.Document.Encoding
import ReactiveDoc.Proofs.Ty.Truthiness
import ReactiveDoc.Proofs.Ty.Lattice
import ReactiveDoc.Proofs.Syntax.WrittenType
import ReactiveDoc.Proofs.Check.Refining
import ReactiveDoc.Proofs.Signal.Layered
import ReactiveDoc.Proofs.Signal.Moving
import ReactiveDoc.Proofs.Signal.Counting
import ReactiveDoc.Proofs.Value.Sameness
import ReactiveDoc.Proofs.Eval.Combining
import ReactiveDoc.Proofs.Signal.Relating
import ReactiveDoc.Proofs.Signal.Renewing
import ReactiveDoc.Proofs.Eval.Relating
import ReactiveDoc.Proofs.Eval.Capturing
import ReactiveDoc.Proofs.Signal.Intact
import ReactiveDoc.Proofs.Signal.Through
import ReactiveDoc.Proofs.Signal.Staying
import ReactiveDoc.Proofs.Signal.Overwriting
import ReactiveDoc.Proofs.Signal.Setting
import ReactiveDoc.Proofs.Signal.Alerting
import ReactiveDoc.Proofs.Signal.Watching
import ReactiveDoc.Proofs.Signal.Fusing
import ReactiveDoc.Proofs.Keyed
import ReactiveDoc.Proofs.Signal.Sparing
import ReactiveDoc.Proofs.Value.Editing
import ReactiveDoc.Proofs.Eval.Sparing
import ReactiveDoc.Proofs.Eval.Assigning
import ReactiveDoc.Proofs.Document.Countdown
import ReactiveDoc.Proofs.Value.Interchange
import ReactiveDoc.Proofs.Value.InPlace
import ReactiveDoc.Proofs.Cache.Telling
import ReactiveDoc.Proofs.Document.Reporting
import ReactiveDoc.Proofs.Eval.Indexing
import ReactiveDoc.Proofs.Value.Encoding
import ReactiveDoc.Proofs.Ty.Uniting
import ReactiveDoc.Proofs.Check.Replaying
import ReactiveDoc.Proofs.Check.Permitting
import ReactiveDoc.Proofs.Check.Comparing
import ReactiveDoc.Proofs.Eval.Deciding
import ReactiveDoc.Proofs.Ty.Apart
import ReactiveDoc.Proofs.Text.EditDistance
import ReactiveDoc.Proofs.Env.Sharing

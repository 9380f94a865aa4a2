import JsonDoc.Main
import JsonDoc.Pool
import JsonDoc.Proofs.Edit.FanOut
import JsonDoc.Proofs.Edit.Lens
import JsonDoc.Proofs.Edit.Residue
import JsonDoc.Proofs.Number.ReadBack
import JsonDoc.Proofs.Path.Grammar
import JsonDoc.Proofs.Remove.Depth
import JsonDoc.Proofs.Query.Direct
import JsonDoc.Record.Samples
import JsonDoc.Value.Equality
import JsonDoc.Proofs.Outcome
import JsonDoc.Proofs.Path.Condition
import JsonDoc.Proofs.Path.Height
import JsonDoc.Proofs.Path.Writable
import JsonDoc.Proofs.Remove.Gone
import JsonDoc.Proofs.Remove.Selected
import JsonDoc.Proofs.Cache.Eviction
import JsonDoc.Proofs.Remove.Alike
import JsonDoc.Proofs.Edit.Commute
import JsonDoc.Proofs.Json.RoundTrip
import JsonDoc.Proofs.Query.Batch
import JsonDoc.Proofs.Json.Canonical
import JsonDoc.Proofs.Json.Decoding
import JsonDoc.Proofs.Edit.Frame
import JsonDoc.Proofs.Edit.FromFront
import JsonDoc.Proofs.Select.Order
import JsonDoc.Proofs.Path.Fault
import JsonDoc.Proofs.Members.History
import JsonDoc.Proofs.Remove.Parts
import JsonDoc.Proofs.Value.Integers
import JsonDoc.Proofs.Json.NumberRoundTrip
import JsonDoc.Proofs.Value.Equality

import CausalDoc.Atom
import CausalDoc.Container.Fields
import CausalDoc.Container.Id
import CausalDoc.Container.Registry
import CausalDoc.Container.State
import CausalDoc.Document.Basic
import CausalDoc.Document.Content
import CausalDoc.Document.Edit
import CausalDoc.Document.Exchange
import CausalDoc.Document.Receive
import CausalDoc.Error
import CausalDoc.Json.Basic
import CausalDoc.Json.Number
import CausalDoc.Json.Reader
import CausalDoc.Log.Basic
import CausalDoc.Log.Closure
import CausalDoc.Log.Delta
import CausalDoc.Operation.Basic
import CausalDoc.Operation.Flaw
import CausalDoc.Ordered.Map
import CausalDoc.Ordered.Set
import CausalDoc.Ordered.Sort
import CausalDoc.Pending
import CausalDoc.Proofs.Atom
import CausalDoc.Proofs.Container.Reading
import CausalDoc.Proofs.Document.Atomicity
import CausalDoc.Proofs.Document.Corpus
import CausalDoc.Proofs.Document.Delivery
import CausalDoc.Proofs.Document.Drain
import CausalDoc.Proofs.Document.Edit
import CausalDoc.Proofs.Document.Fork
import CausalDoc.Proofs.Document.Join
import CausalDoc.Proofs.Document.Merge
import CausalDoc.Proofs.Document.Nesting
import CausalDoc.Proofs.Document.Parked
import CausalDoc.Proofs.Document.Reachable
import CausalDoc.Proofs.Log.Closure
import CausalDoc.Proofs.Log.Coherent
import CausalDoc.Proofs.Log.Delta
import CausalDoc.Proofs.Log.Past
import CausalDoc.Proofs.Network.Aimed
import CausalDoc.Proofs.Network.Basic
import CausalDoc.Proofs.Network.CausalDelivery
import CausalDoc.Proofs.Network.Contiguity
import CausalDoc.Proofs.Network.Convergence
import CausalDoc.Proofs.Network.Effect
import CausalDoc.Proofs.Network.Faithful
import CausalDoc.Proofs.Network.Merge
import CausalDoc.Proofs.Network.Presence
import CausalDoc.Proofs.Network.TotalOrder
import CausalDoc.Proofs.Operation
import CausalDoc.Proofs.Ordered
import CausalDoc.Proofs.Pending
import CausalDoc.Proofs.Sequence.Delete
import CausalDoc.Proofs.Sequence.Insert
import CausalDoc.Proofs.Sequence.Subtree
import CausalDoc.Proofs.Sequence.Tidy
import CausalDoc.Proofs.Sequence.Walk
import CausalDoc.Proofs.Store.Coherent
import CausalDoc.Proofs.Store.Content
import CausalDoc.Proofs.Store.Contiguity
import CausalDoc.Proofs.Store.Mirror
import CausalDoc.Proofs.Store.Nesting
import CausalDoc.Proofs.Store.Order
import CausalDoc.Proofs.Store.Presence
import CausalDoc.Proofs.Store.Records
import CausalDoc.Proofs.Store.Reflects
import CausalDoc.Proofs.Store.Sources
import CausalDoc.Proofs.Wire.Batch
import CausalDoc.Proofs.Wire.Primitive
import CausalDoc.Proofs.Wire.Writable
import CausalDoc.Sequence
import CausalDoc.Text.Decimal
import CausalDoc.Text.Quoted
import CausalDoc.Text.Shown
import CausalDoc.Text.Split
import CausalDoc.Value.Basic
import CausalDoc.Value.Double
import CausalDoc.Value.Json
import CausalDoc.Version.Clock
import CausalDoc.Version.Frontiers
import CausalDoc.Version.Vector
import CausalDoc.Wire.Batch
import CausalDoc.Wire.Operation
import CausalDoc.Wire.Primitive
import CausalDoc.Wire.Value
import CausalDoc.Proofs.Document.Frontiers
import CausalDoc.Proofs.Network.Frontiers
import CausalDoc.Proofs.Document.Export
import CausalDoc.Proofs.Checked.Log
import CausalDoc.Proofs.Checked.Container
import CausalDoc.Proofs.Checked.Document
import CausalDoc.Proofs.Sequence.Representation
import CausalDoc.Proofs.Store.InTurn
import CausalDoc.Proofs.Store.Growth
import CausalDoc.Proofs.Document.Turns
import CausalDoc.Proofs.Document.Run
import CausalDoc.Proofs.Document.Events
import CausalDoc.Proofs.Container.Fields
import CausalDoc.Proofs.Container.Id
import CausalDoc.Proofs.Document.Handle
import CausalDoc.Proofs.Document.Refusal
import CausalDoc.Proofs.Document.Registers
import CausalDoc.Proofs.Document.Roots
import CausalDoc.Proofs.Document.Splice
import CausalDoc.Proofs.Sequence.Splice
import CausalDoc.Proofs.Store.Stamps
import CausalDoc.Proofs.Text.Bytes
import CausalDoc.Proofs.Value.References
import CausalDoc.Proofs.Container.Effect
import CausalDoc.Proofs.Container.Slices
import CausalDoc.Proofs.Document.Closure
import CausalDoc.Proofs.Document.Delta
import CausalDoc.Proofs.Document.Replay
import CausalDoc.Proofs.Network.Timestamps
import CausalDoc.Proofs.Version.Vector
import CausalDoc.Proofs.Wire.Framing
import CausalDoc.Proofs.Wire.Normal
import CausalDoc.Proofs.Wire.Spelling
import CausalDoc.Proofs.Container.Grammar
import CausalDoc.Proofs.Log.Lookup
import CausalDoc.Proofs.Pending.Nested
import CausalDoc.Proofs.Value.Json

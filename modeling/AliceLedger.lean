import AliceLedger.Lib.Loop
import AliceLedger.Lib.Run
import AliceLedger.Lib.Keyed
import AliceLedger.Lib.SortedMap
import AliceLedger.Lib.Heap
import AliceLedger.Lib.MachineInt
import AliceLedger.Lib.Bytes
import AliceLedger.Lib.Text
import AliceLedger.Lib.Delimited
import AliceLedger.Lib.HashChain
import AliceLedger.Lib.Greedy
import AliceLedger.Order
import AliceLedger.Book.Model
import AliceLedger.Book.Sweep
import AliceLedger.Book.Levels
import AliceLedger.Book.Sound
import AliceLedger.Book.FillOrKill
import AliceLedger.Book.Queue
import AliceLedger.Book.Seniority
import AliceLedger.Book.Quiet
import AliceLedger.Book.PostOnly
import AliceLedger.Book.StopLimit
import AliceLedger.Book.Reference
import AliceLedger.Book.Representation
import AliceLedger.Book.FokComplete
import AliceLedger.Book.Ffi
import AliceLedger.Book.Conservation
import AliceLedger.Book.Index
import AliceLedger.Book.Remaining
import AliceLedger.Book.Cancel
import AliceLedger.Book.Expiry
import AliceLedger.Book.Purge
import AliceLedger.Book.Recovery
import AliceLedger.Book.Withdrawals
import AliceLedger.Book.Relabel
import AliceLedger.Book.Mirror
import AliceLedger.Risk.Model
import AliceLedger.Risk.Exact
import AliceLedger.Risk.Validate
import AliceLedger.Risk.Verdicts
import AliceLedger.Risk.Safe
import AliceLedger.Risk.Batch
import AliceLedger.Risk.SelfTrade
import AliceLedger.Risk.Revalidate
import AliceLedger.Risk.Notional
import AliceLedger.Book.BestExecution
import AliceLedger.Book.Slicing
import AliceLedger.Position.Model
import AliceLedger.Position.Fill
import AliceLedger.Position.Symbols
import AliceLedger.Position.Exact
import AliceLedger.Position.Profit
import AliceLedger.Position.Drift
import AliceLedger.Position.Envelope
import AliceLedger.Position.Mirror
import AliceLedger.Position.Fragments
import AliceLedger.Position.Clamp
import AliceLedger.Position.Direction
import AliceLedger.Position.Execution
import AliceLedger.Risk.Desk
import AliceLedger.Position.Marks
import AliceLedger.Ffi.Records
import AliceLedger.Ffi.Model
import AliceLedger.Ffi.Session
import AliceLedger.Ffi.Handles
import AliceLedger.Ffi.Memory
import AliceLedger.Ffi.Travel
import AliceLedger.Audit.Model
import AliceLedger.Audit.Tamper
import AliceLedger.Audit.Payload
import AliceLedger.Audit.Signed
import AliceLedger.Audit.History
import AliceLedger.Fix.Model
import AliceLedger.Fix.Fields
import AliceLedger.Fix.Envelope
import AliceLedger.Fix.Integrity
import AliceLedger.Fix.Offsets
import AliceLedger.Fix.Wire
import AliceLedger.Fix.Injection
import AliceLedger.Fix.RoundTrip
import AliceLedger.Fix.Canonical
import AliceLedger.Fix.Corruption

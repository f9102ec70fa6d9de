import StreamMatch.Automaton.Assembler
import StreamMatch.Automaton.Directive
import StreamMatch.Automaton.Instr
import StreamMatch.Automaton.Reach
import StreamMatch.Automaton.Verdict
import StreamMatch.Bound
import StreamMatch.ByteClass
import StreamMatch.ByteClass.Leading
import StreamMatch.Bytes
import StreamMatch.Bytes.Checksum
import StreamMatch.Bytes.Load
import StreamMatch.Bytes.Within
import StreamMatch.Error
import StreamMatch.Fault
import StreamMatch.Identifier
import StreamMatch.Key
import StreamMatch.Literal.Candidate
import StreamMatch.Literal.EmptyNeedle
import StreamMatch.Literal.Search
import StreamMatch.Literal.Table
import StreamMatch.Memory
import StreamMatch.Program
import StreamMatch.Program.Checksum
import StreamMatch.Program.Draft
import StreamMatch.Program.Header
import StreamMatch.Repeat
import StreamMatch.Repeat.Tracker
import StreamMatch.Scan
import StreamMatch.Scan.Chunks
import StreamMatch.Scan.Event
import StreamMatch.Scan.Input
import StreamMatch.Scan.Progress
import StreamMatch.Scan.Runs
import StreamMatch.Scratch
import StreamMatch.Session
import StreamMatch.Settings
import StreamMatch.Settings.Document
import StreamMatch.State.Fields
import StreamMatch.State.Layout
import StreamMatch.State.Validation
import StreamMatch.Stream
import StreamMatch.Text.Hex
import StreamMatch.Text.Quoted
import StreamMatch.Text.Visible
import StreamMatch.Toml.Document
import StreamMatch.Toml.Lexeme
import StreamMatch.Toml.Number
import StreamMatch.Toml.Value
import StreamMatch.Proofs.Automaton.Bounded
import StreamMatch.Proofs.Automaton.Compare
import StreamMatch.Proofs.Automaton.Window
import StreamMatch.Proofs.ByteClass.Leading
import StreamMatch.Proofs.ByteClass.Runs
import StreamMatch.Proofs.Bytes.Fields
import StreamMatch.Proofs.Bytes.Load
import StreamMatch.Proofs.Bytes.Words
import StreamMatch.Proofs.Checked
import StreamMatch.Proofs.Key
import StreamMatch.Proofs.Literal.Hits
import StreamMatch.Proofs.Literal.Needles
import StreamMatch.Proofs.Literal.Occurrences
import StreamMatch.Proofs.Literal.Ranks
import StreamMatch.Proofs.Matches.Kept
import StreamMatch.Proofs.Matches.Raw
import StreamMatch.Proofs.Program.Build
import StreamMatch.Proofs.Program.Contents
import StreamMatch.Proofs.Program.Draft
import StreamMatch.Proofs.Program.Numbering
import StreamMatch.Proofs.Repeat.Encoding
import StreamMatch.Proofs.Repeat.Found
import StreamMatch.Proofs.Repeat.Ranks
import StreamMatch.Proofs.Repeat.RunState
import StreamMatch.Proofs.Scan.Candidates
import StreamMatch.Proofs.Scan.Chunk
import StreamMatch.Proofs.Scan.Confirm
import StreamMatch.Proofs.Scan.Core
import StreamMatch.Proofs.Scan.Drains
import StreamMatch.Proofs.Scan.Exactness
import StreamMatch.Proofs.Scan.Recorded
import StreamMatch.Proofs.Scan.Flush
import StreamMatch.Proofs.Scan.Input
import StreamMatch.Proofs.Scan.Report
import StreamMatch.Proofs.Scan.Runs
import StreamMatch.Proofs.Scan.Search
import StreamMatch.Proofs.State.Fields
import StreamMatch.Proofs.State.Layout
import StreamMatch.Proofs.State.Ready
import StreamMatch.Proofs.Stream.Calls
import StreamMatch.Proofs.Stream.Completed
import StreamMatch.Proofs.Stream.Delay
import StreamMatch.Proofs.Stream.Events
import StreamMatch.Proofs.Stream.Flushes
import StreamMatch.Proofs.Stream.History
import StreamMatch.Proofs.Stream.Runs
import StreamMatch.Proofs.Stream.Safety
import StreamMatch.Proofs.Stream.Saved
import StreamMatch.Proofs.Program.Settings
import StreamMatch.Proofs.Stream.Repeats
import StreamMatch.Proofs.Repeat.Steps
import StreamMatch.Proofs.State.Twins
import StreamMatch.Proofs.Scan.Twins
import StreamMatch.Proofs.Stream.Settings
import StreamMatch.Proofs.Stream.Stopping
import StreamMatch.Proofs.Automaton.Total
import StreamMatch.Proofs.Memory.Growing
import StreamMatch.Proofs.Repeat.Coherent
import StreamMatch.Proofs.Scan.Resumable
import StreamMatch.Proofs.Scan.Sizes
import StreamMatch.Proofs.Session.Accounts
import StreamMatch.Proofs.Session.Balance
import StreamMatch.Proofs.Session.Shared
import StreamMatch.Proofs.Stream.Restored
import StreamMatch.Proofs.Automaton.Accepted
import StreamMatch.Proofs.Automaton.Analysis
import StreamMatch.Proofs.Automaton.Assembled
import StreamMatch.Proofs.Automaton.Coding
import StreamMatch.Proofs.Automaton.Ways
import StreamMatch.Proofs.Literal.Seam
import StreamMatch.Proofs.Scan.View
import StreamMatch.Proofs.Repeat.Operations
import StreamMatch.Proofs.State.Independent
import StreamMatch.Proofs.Program.WellFormed

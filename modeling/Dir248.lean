import Dir248.Limits
import Dir248.Prefix
import Dir248.Cidr
import Dir248.Rule
import Dir248.Entry
import Dir248.Failure
import Dir248.Metrics
import Dir248.Text.Hex
import Dir248.Note
import Dir248.Trace
import Dir248.Words.Basic
import Dir248.Words.Reduced
import Dir248.Words.Pieces
import Dir248.Rules
import Dir248.Grace.Basic
import Dir248.Grace.Tracker
import Dir248.Grace.Waiting
import Dir248.Grace.Queue
import Dir248.Grace.Fleet
import Dir248.Arrays.Basic
import Dir248.Arrays.Sweep
import Dir248.Groups
import Dir248.Projection
import Dir248.Table
import Dir248.Command
import Dir248.Directory
import Dir248.Calls
import Dir248.Session
import Dir248.Proofs.Prefixes
import Dir248.Proofs.Masks
import Dir248.Proofs.RuleMap
import Dir248.Proofs.Store.Windows
import Dir248.Proofs.Store.Order
import Dir248.Proofs.Store.Contents
import Dir248.Proofs.Arrays.Sweeps
import Dir248.Proofs.Codec
import Dir248.Proofs.Arrays.Account
import Dir248.Proofs.Traces
import Dir248.Proofs.Grace.Passes
import Dir248.Proofs.Groups.Moves
import Dir248.Proofs.Groups.Holdings
import Dir248.Proofs.Arrays.Answers
import Dir248.Proofs.Projection
import Dir248.Proofs.Realization
import Dir248.Proofs.Locality
import Dir248.Proofs.Store.Additions
import Dir248.Proofs.Table.Moves
import Dir248.Proofs.Table.Holdings
import Dir248.Proofs.Table.Ownership
import Dir248.Proofs.Table.Operations
import Dir248.Proofs.Table.Histories
import Dir248.Proofs.Grace.Readers
import Dir248.Proofs.Table.Replays
import Dir248.Proofs.Table.Shield
import Dir248.Proofs.Store.Histories
import Dir248.Proofs.Store.Layouts
import Dir248.Proofs.Store.Rotations
import Dir248.Proofs.Store.Covers
import Dir248.Proofs.Store.Leftovers
import Dir248.Proofs.Grace.Bounds
import Dir248.Proofs.Groups.Room
import Dir248.Proofs.Table.Failures
import Dir248.Proofs.Table.Standing
import Dir248.Proofs.Table.Space
import Dir248.Proofs.Arrays.Stores
import Dir248.Proofs.Table.Passing
import Dir248.Proofs.Grace.Periods
import Dir248.Proofs.Grace.Holdouts
import Dir248.Proofs.Groups.Lending
import Dir248.Proofs.Grace.Custody
import Dir248.Proofs.Grace.Turns
import Dir248.Proofs.Grace.Slots
import Dir248.Proofs.Registry
import Dir248.Proofs.Arrays.Admission
import Dir248.Proofs.Groups.Faultless
import Dir248.Proofs.Table.Faultless
import Dir248.Proofs.Table.Reads
import Dir248.Proofs.Groups.Figures
import Dir248.Proofs.Table.Figures
import Dir248.Proofs.Table.Reclaims
import Dir248.Proofs.Table.Stranding
import Dir248.Proofs.Table.Renewal
import Dir248.Proofs.Calls
import Dir248.Proofs.Sessions

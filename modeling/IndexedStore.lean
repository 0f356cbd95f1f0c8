import IndexedStore.Cache.Batch
import IndexedStore.Query.Recorder
import IndexedStore.Settings.Json
import IndexedStore.Proofs.Query.Agreement
import IndexedStore.Proofs.Region.Nesting
import IndexedStore.Proofs.Region.Queue
import IndexedStore.Proofs.Region.Filling
import IndexedStore.Proofs.Query.Interference
import IndexedStore.Proofs.Slots.Counts
import IndexedStore.Proofs.Slots.Ledger
import IndexedStore.Proofs.Index.Apply
import IndexedStore.Proofs.Region.Rebuilding
import IndexedStore.Proofs.Region.Chronicle
import IndexedStore.Proofs.Region.Lifecycle
import IndexedStore.Proofs.Region.Contents
import IndexedStore.Proofs.Region.Recency
import IndexedStore.Proofs.Region.Attempts
import IndexedStore.Proofs.Region.Uniqueness
import IndexedStore.Proofs.Cache.Batch
import IndexedStore.Proofs.Scope.RegionPath
import IndexedStore.Proofs.Cache.Orderly
import IndexedStore.Proofs.Key.Hashing
import IndexedStore.Proofs.Key.Magnitude
import IndexedStore.Proofs.Scope.Spelling
import IndexedStore.Proofs.Scope.Renaming
import IndexedStore.Proofs.Query.Choice
import IndexedStore.Proofs.Key.Normal
import IndexedStore.Proofs.Text.Occurrences
import IndexedStore.Proofs.Query.Clauses
import IndexedStore.Proofs.Text.Offsets
import IndexedStore.Proofs.Query.Slices
import IndexedStore.Proofs.Scope.Paths
import IndexedStore.Proofs.Query.Literals
import IndexedStore.Proofs.Query.Reprinting
import IndexedStore.Proofs.Slots.Ownership
import IndexedStore.Proofs.Slots.Accounting
import IndexedStore.Proofs.Region.Failure
import IndexedStore.Proofs.Slots.Traffic
import IndexedStore.Proofs.Scope.Walk

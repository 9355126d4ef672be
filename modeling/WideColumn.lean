import WideColumn.Main
import WideColumn.Proofs.Catalog.Agreement
import WideColumn.Proofs.Catalog.Alteration
import WideColumn.Proofs.Catalog.Atomicity
import WideColumn.Proofs.Catalog.Exactness
import WideColumn.Proofs.Catalog.Footprint
import WideColumn.Proofs.Catalog.Keeping
import WideColumn.Proofs.Catalog.Listing
import WideColumn.Proofs.Catalog.Opening
import WideColumn.Proofs.Catalog.Order
import WideColumn.Proofs.Catalog.Outcome
import WideColumn.Proofs.Catalog.Removal
import WideColumn.Proofs.Catalog.Renewal
import WideColumn.Proofs.Catalog.Reopening
import WideColumn.Proofs.Catalog.Run
import WideColumn.Proofs.Catalog.Settled
import WideColumn.Proofs.Catalog.Stopwatch
import WideColumn.Proofs.Catalog.Triple
import WideColumn.Proofs.Catalog.Truncation
import WideColumn.Proofs.Command.Argument
import WideColumn.Proofs.Command.Column
import WideColumn.Proofs.Command.Description
import WideColumn.Proofs.Command.Grammar
import WideColumn.Proofs.Command.Groups
import WideColumn.Proofs.Command.Keyword
import WideColumn.Proofs.Command.Layout
import WideColumn.Proofs.Command.Line
import WideColumn.Proofs.Command.Parser
import WideColumn.Proofs.Command.Places
import WideColumn.Proofs.Command.Quotation
import WideColumn.Proofs.Command.Refusal
import WideColumn.Proofs.Command.Token
import WideColumn.Proofs.Command.Wording
import WideColumn.Proofs.Host.Clocks
import WideColumn.Proofs.Host.Footprint
import WideColumn.Proofs.Host.Volume
import WideColumn.Proofs.Json.Document
import WideColumn.Proofs.Json.Text
import WideColumn.Proofs.Json.Value
import WideColumn.Proofs.Pattern.Anchored
import WideColumn.Proofs.Pattern.Fuel
import WideColumn.Proofs.Pattern.Local
import WideColumn.Proofs.Pattern.Readers
import WideColumn.Proofs.Pattern.Spans
import WideColumn.Proofs.Schema.Batch
import WideColumn.Proofs.Schema.Options
import WideColumn.Proofs.Schema.Property
import WideColumn.Proofs.Schema.Setting
import WideColumn.Proofs.Schema.Value
import WideColumn.Proofs.Sequence
import WideColumn.Proofs.Shell.Clocks
import WideColumn.Proofs.Shell.Columns
import WideColumn.Proofs.Shell.Console
import WideColumn.Proofs.Shell.FamilyMaps
import WideColumn.Proofs.Shell.Footer
import WideColumn.Proofs.Shell.Footprint
import WideColumn.Proofs.Shell.Gate
import WideColumn.Proofs.Shell.Grouping
import WideColumn.Proofs.Shell.Listing
import WideColumn.Proofs.Table.Addressing
import WideColumn.Proofs.Table.Agreement
import WideColumn.Proofs.Table.Chronology
import WideColumn.Proofs.Table.Entries
import WideColumn.Proofs.Table.Families
import WideColumn.Proofs.Table.Hiding
import WideColumn.Proofs.Table.History
import WideColumn.Proofs.Table.InPlace
import WideColumn.Proofs.Table.Interleaving
import WideColumn.Proofs.Table.KeyedList
import WideColumn.Proofs.Table.Lawful
import WideColumn.Proofs.Table.Loading
import WideColumn.Proofs.Table.Metadata
import WideColumn.Proofs.Table.Moves
import WideColumn.Proofs.Table.Plain
import WideColumn.Proofs.Table.Reachable
import WideColumn.Proofs.Table.Reads
import WideColumn.Proofs.Table.Refinement
import WideColumn.Proofs.Table.RowCount
import WideColumn.Proofs.Table.Run
import WideColumn.Proofs.Table.Scan
import WideColumn.Proofs.Table.Slots
import WideColumn.Proofs.Table.Store
import WideColumn.Proofs.Table.StoredEntries
import WideColumn.Proofs.Table.StoredHistory
import WideColumn.Proofs.Table.Timeless
import WideColumn.Proofs.Text.Character
import WideColumn.Proofs.Text.Numeral
import WideColumn.Proofs.Text.Utf8
import WideColumn.Proofs.Time.Rfc3339
import WideColumn.Proofs.Uuid

import ClientStore.Main
import ClientStore.Proofs.CanonicalName
import ClientStore.Proofs.Command.Arguments
import ClientStore.Proofs.Command.Contents
import ClientStore.Proofs.Command.History
import ClientStore.Proofs.Command.Output
import ClientStore.Proofs.Command.Requests
import ClientStore.Proofs.Decimal
import ClientStore.Proofs.Directories
import ClientStore.Proofs.Disk
import ClientStore.Proofs.FilePath
import ClientStore.Proofs.FileTree.Changes
import ClientStore.Proofs.FileTree.Walk
import ClientStore.Proofs.HostKey.Entries
import ClientStore.Proofs.HostKey.Grammar
import ClientStore.Proofs.HostKey.Growth
import ClientStore.Proofs.HostKey.Line
import ClientStore.Proofs.HostKey.Readers
import ClientStore.Proofs.HostKey.Scan
import ClientStore.Proofs.HostKey.Store
import ClientStore.Proofs.Journal
import ClientStore.Proofs.Layout
import ClientStore.Proofs.OrderedMap
import ClientStore.Proofs.NameScan
import ClientStore.Proofs.ProfileName
import ClientStore.Proofs.Session.Cycle
import ClientStore.Proofs.Session.Deletion
import ClientStore.Proofs.Session.Runs
import ClientStore.Proofs.Session.Store
import ClientStore.Proofs.Session.Cursor
import ClientStore.Proofs.Session.Writer
import ClientStore.Proofs.Settings
import ClientStore.Proofs.Storage
import ClientStore.Proofs.Text.Character
import ClientStore.Proofs.Text.Lines
import ClientStore.Proofs.Text.Order
import ClientStore.Proofs.Text.Sanitize
import ClientStore.Proofs.Text.Utf8
import ClientStore.Proofs.World
import ClientStore.Proofs.Session.Records
import ClientStore.Proofs.Session.Writing
import ClientStore.Proofs.Additions
import ClientStore.Proofs.Failures
import ClientStore.Proofs.Command.Execution
import ClientStore.Proofs.Command.Listing
import ClientStore.Proofs.Command.Endings
import ClientStore.Proofs.Command.Complaints
import ClientStore.Proofs.Reports
import ClientStore.Proofs.Disclosures
import ClientStore.Proofs.Command.Failed
import ClientStore.Proofs.Modes
import ClientStore.Proofs.Calls
import ClientStore.Proofs.Privacy
import ClientStore.Proofs.Session.Buffer
import ClientStore.Proofs.Session.Watching
import ClientStore.Proofs.Session.Integers
import ClientStore.Proofs.Seed.Writing
import ClientStore.Proofs.Seed.Reading
import ClientStore.Proofs.Text.Segments
import ClientStore.Proofs.ResourceTable

import SourceLabel.Text.Modified
import SourceLabel.Text.Escape
import SourceLabel.Deflate.PrefixCode
import SourceLabel.Checksum
import SourceLabel.Deflate.Encode
import SourceLabel.Error
import SourceLabel.Policy
import SourceLabel.Location
import SourceLabel.Zip.EntryName
import SourceLabel.Zip.Entry
import SourceLabel.Zip.EndRecord
import SourceLabel.ClassFile.Label
import SourceLabel.Container.Plan
import SourceLabel.Log
import SourceLabel.Zip.Archive
import SourceLabel.Zip.Writer
import SourceLabel.Walk.Basic
import SourceLabel.Files.Store
import SourceLabel.Relabel.Collection
import SourceLabel.Relabel.Assembly
import SourceLabel.Relabel.Run
import SourceLabel.CommandLine
import SourceLabel.Main
import SourceLabel.Proofs.Walk.Tree
import SourceLabel.Proofs.Zip.Opening
import SourceLabel.Proofs.Walk.Preorder
import SourceLabel.Proofs.Walk.Opened
import SourceLabel.Proofs.Bytes
import SourceLabel.Proofs.ClassFile.Reading
import SourceLabel.Proofs.Text.Modified
import SourceLabel.Proofs.ClassFile.Pool
import SourceLabel.Proofs.ClassFile.Format
import SourceLabel.Proofs.ClassFile.Label
import SourceLabel.Proofs.ClassFile.References
import SourceLabel.Proofs.Container.Nesting
import SourceLabel.Proofs.Files.Store
import SourceLabel.Proofs.Relabel.Pass
import SourceLabel.Proofs.Relabel.Collected
import SourceLabel.Proofs.Relabel.Rebuild
import SourceLabel.Proofs.Relabel.Nesting
import SourceLabel.Proofs.Relabel.Publication
import SourceLabel.Proofs.Deflate.Bits
import SourceLabel.Proofs.Deflate.Symbols
import SourceLabel.Proofs.Deflate.Cutting
import SourceLabel.Proofs.Deflate.RoundTrip
import SourceLabel.Proofs.Zip.Faults
import SourceLabel.Proofs.Zip.Fields
import SourceLabel.Proofs.Zip.Finding
import SourceLabel.Proofs.Zip.ReadBack
import SourceLabel.Proofs.ClassFile.Relabelled
import SourceLabel.Proofs.ClassFile.Layout
import SourceLabel.Proofs.ClassFile.Holder
import SourceLabel.Proofs.Relabel.Steady
import SourceLabel.Proofs.Zip.AsRead
import SourceLabel.Proofs.Zip.Limit
import SourceLabel.Proofs.Walk.Sound
import SourceLabel.Proofs.Relabel.Calls
import SourceLabel.Proofs.Relabel.Assembled
import SourceLabel.Proofs.Relabel.Limit
import SourceLabel.Proofs.Relabel.Lookup
import SourceLabel.Proofs.Policy
import SourceLabel.Proofs.Policy.Nested
import SourceLabel.Proofs.Relabel.Settled
import SourceLabel.Proofs.Zip.Reread
import SourceLabel.Proofs.Relabel.Again
import SourceLabel.Proofs.Relabel.Completion
import SourceLabel.Proofs.Relabel.SecondRun
import SourceLabel.Proofs.Zip.Directory
import SourceLabel.Proofs.Zip.Locator
import SourceLabel.Proofs.Zip.Comment
import SourceLabel.Proofs.Machine.Readers
import SourceLabel.Proofs.Text.Length
import SourceLabel.Proofs.ClassFile.Comparison
import SourceLabel.Proofs.Relabel.Fitting
import SourceLabel.Proofs.Zip.Preference
import SourceLabel.Proofs.Machine.Label
import SourceLabel.Proofs.Zip.Refusal
import SourceLabel.Proofs.Files.Names
import SourceLabel.Proofs.Files.Copies
import SourceLabel.Proofs.Walk.Renamed
import SourceLabel.Proofs.Relabel.Renamed
import SourceLabel.Proofs.Relabel.InPlace
import SourceLabel.Proofs.Zip.Window
import SourceLabel.Proofs.Zip.WrittenBack
import SourceLabel.Proofs.Deflate.Consumed
import SourceLabel.Proofs.Deflate.Halting
import SourceLabel.Proofs.Deflate.Meaning
import SourceLabel.Proofs.Zip.Unpacking
import SourceLabel.Proofs.Walk.Located
import SourceLabel.Proofs.Walk.Order
import SourceLabel.Proofs.Zip.Payload
import SourceLabel.Proofs.Zip.Damage
import SourceLabel.Proofs.ClassFile.Extent
import SourceLabel.Proofs.Text.Parts
import SourceLabel.Proofs.Text.Modes
import SourceLabel.Proofs.Text.Breaks
import SourceLabel.Proofs.Text.Defects
import SourceLabel.Proofs.Relabel.Tally
import SourceLabel.Proofs.Relabel.Report
import SourceLabel.Proofs.ClassFile.Slots
import SourceLabel.Proofs.Container.Packing
import SourceLabel.Proofs.Zip.Accepted
import SourceLabel.Proofs.Machine.Writer
import SourceLabel.Proofs.Text.Lossy
import SourceLabel.Proofs.Zip.Legible
import SourceLabel.Proofs.Relabel.Classified

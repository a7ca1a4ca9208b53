import RowFlips.Keyed
import RowFlips.SortedSet
import RowFlips.Ascending
import RowFlips.Bits
import RowFlips.Text.Numeral
import RowFlips.Text.Decimal
import RowFlips.Text.Hex
import RowFlips.Text.Blank
import RowFlips.Text.Bytes
import RowFlips.Address
import RowFlips.Flip
import RowFlips.Targets
import RowFlips.Log.Corruption
import RowFlips.ByteMask
import RowFlips.Error
import RowFlips.Attack
import RowFlips.Log.Token
import RowFlips.Log.Run
import RowFlips.Log.Line
import RowFlips.Config
import RowFlips.Log.Reader
import RowFlips.Log.Encoding
import RowFlips.Placement
import RowFlips.Table
import RowFlips.Table.Diff
import RowFlips.Table.Text
import RowFlips.Image.Word
import RowFlips.Image.Basic
import RowFlips.Image.Checked
import RowFlips.Image.Header
import RowFlips.Image.Codec
import RowFlips.Image.Build
import RowFlips.Image.Lookup
import RowFlips.Json.Basic
import RowFlips.Json.Token
import RowFlips.Json.Parser
import RowFlips.Json.Printer
import RowFlips.Config.Stored
import RowFlips.Json.Forms
import RowFlips.Tool.Directory
import RowFlips.Tool.Script
import RowFlips.Tool.Input
import RowFlips.Tool.Arguments
import RowFlips.Tool.Run
import RowFlips.Main
import RowFlips.Proofs.Lists
import RowFlips.Proofs.Table.Canonical
import RowFlips.Proofs.Table.Diff
import RowFlips.Proofs.ByteMask
import RowFlips.Proofs.Bits
import RowFlips.Proofs.Image.Layout
import RowFlips.Proofs.Image.Codec
import RowFlips.Proofs.Address
import RowFlips.Proofs.Outcome
import RowFlips.Proofs.Image.Fields
import RowFlips.Proofs.Image.Build
import RowFlips.Proofs.Image.Roundtrip
import RowFlips.Proofs.Image.Accepted
import RowFlips.Proofs.Image.Partition
import RowFlips.Proofs.Image.Lookup
import RowFlips.Proofs.Image.StandIn
import RowFlips.Proofs.Image.Extrapolation
import RowFlips.Proofs.Image.Lossless
import RowFlips.Proofs.Image.Bounds
import RowFlips.Proofs.Log.Token
import RowFlips.Proofs.Log.Run
import RowFlips.Proofs.Log.Printed
import RowFlips.Proofs.Log.Reader
import RowFlips.Proofs.Log.Encoding
import RowFlips.Proofs.Log.Spelling
import RowFlips.Proofs.Log.Grammar
import RowFlips.Proofs.Log.Line
import RowFlips.Proofs.Log.Stream
import RowFlips.Proofs.Table.Load
import RowFlips.Proofs.Image.File
import RowFlips.Proofs.Image.Distance
import RowFlips.Proofs.Image.Consistent
import RowFlips.Proofs.Tool.Directory
import RowFlips.Proofs.Tool.Compile
import RowFlips.Proofs.Table.Text
import RowFlips.Proofs.Table.Parts
import RowFlips.Proofs.Table.Common
import RowFlips.Proofs.Table.Obtained
import RowFlips.Proofs.Tool.Render
import RowFlips.Proofs.Tool.Compare
import RowFlips.Proofs.Tool.Traceless
import RowFlips.Proofs.Log.Argument
import RowFlips.Proofs.Image.Writes
import RowFlips.Proofs.Log.Corruption
import RowFlips.Proofs.Log.Division
import RowFlips.Proofs.Order
import RowFlips.Proofs.ByteMask.Canonical
import RowFlips.Proofs.Placement
import RowFlips.Proofs.Image.Counts
import RowFlips.Proofs.Image.Tight
import RowFlips.Proofs.Image.Doubling

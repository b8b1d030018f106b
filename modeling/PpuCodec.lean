import PpuCodec.ByteRange
import PpuCodec.Bytes
import PpuCodec.Bytes.Dump
import PpuCodec.CommandLine
import PpuCodec.CommandLine.About
import PpuCodec.CommandLine.Compress
import PpuCodec.CommandLine.Decompress
import PpuCodec.CommandLine.Flag
import PpuCodec.CommandLine.Session
import PpuCodec.CommandLine.Settings
import PpuCodec.CommandLine.Usage
import PpuCodec.CommandLine.Word
import PpuCodec.Decode
import PpuCodec.Decode.Firing
import PpuCodec.Decode.Report
import PpuCodec.Decode.Run
import PpuCodec.Decode.Tally
import PpuCodec.Expr
import PpuCodec.Expr.Parser
import PpuCodec.Files.FileSpec
import PpuCodec.Files.Store
import PpuCodec.Format
import PpuCodec.Format.BuiltIn
import PpuCodec.Format.Catalog
import PpuCodec.Image
import PpuCodec.Image.Address
import PpuCodec.Image.Region
import PpuCodec.Image.Stroke
import PpuCodec.Main
import PpuCodec.Numeral
import PpuCodec.Numeral.Hex
import PpuCodec.Pack
import PpuCodec.Pack.Kemko
import PpuCodec.Pack.Konami
import PpuCodec.Pack.Segment
import PpuCodec.Palette
import PpuCodec.Picture
import PpuCodec.Picture.Png
import PpuCodec.Preview
import PpuCodec.Proofs.CommandLine.Deliver
import PpuCodec.Proofs.CommandLine.Insert
import PpuCodec.Proofs.CommandLine.Jobs
import PpuCodec.Proofs.CommandLine.Session
import PpuCodec.Proofs.Decode.Appended
import PpuCodec.Proofs.Decode.Consumption
import PpuCodec.Proofs.Decode.Contiguous
import PpuCodec.Proofs.Decode.CopySource
import PpuCodec.Proofs.Decode.CutInput
import PpuCodec.Proofs.Decode.Dispatch
import PpuCodec.Proofs.Decode.Excerpt
import PpuCodec.Proofs.Decode.Fill
import PpuCodec.Proofs.Decode.Forward
import PpuCodec.Proofs.Decode.Input
import PpuCodec.Proofs.Decode.Layout
import PpuCodec.Proofs.Decode.Linked
import PpuCodec.Proofs.Decode.Live
import PpuCodec.Proofs.Decode.Mirror
import PpuCodec.Proofs.Decode.Outcome
import PpuCodec.Proofs.Decode.Passes
import PpuCodec.Proofs.Decode.Pen
import PpuCodec.Proofs.Decode.Prepended
import PpuCodec.Proofs.Decode.Progress
import PpuCodec.Proofs.Decode.Reading
import PpuCodec.Proofs.Decode.Records
import PpuCodec.Proofs.Decode.Relabel
import PpuCodec.Proofs.Decode.Scan
import PpuCodec.Proofs.Decode.Stream
import PpuCodec.Proofs.Decode.Succession
import PpuCodec.Proofs.Decode.Termination
import PpuCodec.Proofs.Expr.Arithmetic
import PpuCodec.Proofs.Expr.Canonical
import PpuCodec.Proofs.Expr.Grammar
import PpuCodec.Proofs.Expr.Level
import PpuCodec.Proofs.Expr.Segments
import PpuCodec.Proofs.Expr.Substitution
import PpuCodec.Proofs.Files.Patch
import PpuCodec.Proofs.Files.Series
import PpuCodec.Proofs.Files.Store
import PpuCodec.Proofs.Files.Tidy
import PpuCodec.Proofs.Format.Consumption
import PpuCodec.Proofs.Format.Contiguous
import PpuCodec.Proofs.Format.CutInput
import PpuCodec.Proofs.Format.Exchange
import PpuCodec.Proofs.Format.Gaps
import PpuCodec.Proofs.Format.KonamiTables
import PpuCodec.Proofs.Format.OwnStream
import PpuCodec.Proofs.Format.SelfContained
import PpuCodec.Proofs.Format.StripePackets
import PpuCodec.Proofs.Pack.Basic
import PpuCodec.Proofs.Pack.Expansion
import PpuCodec.Proofs.Pack.Greedy
import PpuCodec.Proofs.Pack.Kemko
import PpuCodec.Proofs.Pack.Konami
import PpuCodec.Proofs.Pack.Runs
import PpuCodec.Proofs.Preview.Pixel
import PpuCodec.Proofs.Records.Kemko
import PpuCodec.Proofs.Records.Konami
import PpuCodec.Proofs.Records.LifeForce
import PpuCodec.Proofs.Records.PackBits
import PpuCodec.Proofs.Records.Segment
import PpuCodec.Proofs.Records.Stripe
import PpuCodec.Proofs.Rule.Checked
import PpuCodec.Proofs.Rule.Draft
import PpuCodec.Proofs.Rule.SelfContained
import PpuCodec.Proofs.Rule.Settled
import PpuCodec.Proofs.Tally.Merge
import PpuCodec.Proofs.Tally.Reachable
import PpuCodec.Proofs.Tally.Steps
import PpuCodec.Proofs.Tally.Usage
import PpuCodec.Proofs.Text.Cut
import PpuCodec.Proofs.Tile.PatternTable
import PpuCodec.Proofs.Tile.Planes
import PpuCodec.Rule
import PpuCodec.Template
import PpuCodec.Text.Blank
import PpuCodec.Text.CaseTable
import PpuCodec.Text.Digit
import PpuCodec.Text.Json
import PpuCodec.Text.Lowercase
import PpuCodec.Text.Quoted
import PpuCodec.Tile
import PpuCodec.Tile.PatternTable
import PpuCodec.Proofs.Files.Split
import PpuCodec.Proofs.Format.Catalog
import PpuCodec.Proofs.Files.Absent
import PpuCodec.Proofs.Files.Replace
import PpuCodec.Proofs.Files.Splice
import PpuCodec.Proofs.Files.Overlay
import PpuCodec.Proofs.CommandLine.Normalize
import PpuCodec.Proofs.Numeral.Notation
import PpuCodec.Proofs.Pack.RunLength

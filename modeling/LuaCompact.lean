import LuaCompact.Blank
import LuaCompact.Bracket
import LuaCompact.Build
import LuaCompact.Bytes
import LuaCompact.Command.Basic
import LuaCompact.Command.Help
import LuaCompact.Command.Run
import LuaCompact.Csv
import LuaCompact.Decimal.Binary
import LuaCompact.Decimal.Shortest
import LuaCompact.Disk
import LuaCompact.Expand
import LuaCompact.FileSystem.Basic
import LuaCompact.FileSystem.Change
import LuaCompact.FileSystem.Resolve
import LuaCompact.Gap
import LuaCompact.LineStrip
import LuaCompact.ListSetting
import LuaCompact.Main
import LuaCompact.Minify
import LuaCompact.Numeral
import LuaCompact.Options
import LuaCompact.Path
import LuaCompact.Pattern
import LuaCompact.Policy
import LuaCompact.Quoted
import LuaCompact.Report
import LuaCompact.Segment
import LuaCompact.Selection
import LuaCompact.Settings
import LuaCompact.Switch
import LuaCompact.Terminal.Cluster
import LuaCompact.Terminal.Notice
import LuaCompact.Terminal.Style
import LuaCompact.Terminal.Width
import LuaCompact.Token
import LuaCompact.Truth
import LuaCompact.Unicode.LowerCase
import LuaCompact.Unicode.Printable
import LuaCompact.Unicode.Ranges
import LuaCompact.Utf8
import LuaCompact.Watch
import LuaCompact.Yaml.Cursor
import LuaCompact.Yaml.Decoding
import LuaCompact.Yaml.Document
import LuaCompact.Yaml.Layout
import LuaCompact.Yaml.Node
import LuaCompact.Yaml.Reading
import LuaCompact.Yaml.ScalarText
import LuaCompact.Yaml.Source
import LuaCompact.Yaml.Timestamp
import LuaCompact.Yaml.Token
import LuaCompact.Yaml.Value
import LuaCompact.Proofs.Atom
import LuaCompact.Proofs.Grammar
import LuaCompact.Proofs.Factorisation
import LuaCompact.Proofs.BlankLines
import LuaCompact.Proofs.Spacing
import LuaCompact.Proofs.Weave
import LuaCompact.Proofs.PlainSpace
import LuaCompact.Proofs.Flow
import LuaCompact.Proofs.Layout
import LuaCompact.Proofs.Adjacency
import LuaCompact.Proofs.Linkage
import LuaCompact.Proofs.Relex
import LuaCompact.Proofs.Weight
import LuaCompact.Proofs.Settled
import LuaCompact.Proofs.FixedPoint
import LuaCompact.Proofs.WideSpace
import LuaCompact.Proofs.Agreement
import LuaCompact.Proofs.Route
import LuaCompact.Proofs.Tree
import LuaCompact.Proofs.FileByFile
import LuaCompact.Proofs.Expansion
import LuaCompact.Proofs.Growth
import LuaCompact.Proofs.Descent
import LuaCompact.Proofs.Revision
import LuaCompact.Proofs.Confinement
import LuaCompact.Proofs.Mirror
import LuaCompact.Proofs.PlainPattern
import LuaCompact.Proofs.OwnOutput
import LuaCompact.Proofs.Length
import LuaCompact.Proofs.Utf8Cut
import LuaCompact.Proofs.Utf8Closure
import LuaCompact.Proofs.ReadBack
import LuaCompact.Proofs.LineEnding
import LuaCompact.Proofs.CarriageReturn
import LuaCompact.Proofs.LineEndingInvariance
import LuaCompact.Proofs.PatternParts
import LuaCompact.Proofs.PatternElements
import LuaCompact.Proofs.Listing
import LuaCompact.Proofs.PatternAgreement
import LuaCompact.Proofs.LongBracket
import LuaCompact.Proofs.Utf8Text
import LuaCompact.Proofs.OnePass
import LuaCompact.Proofs.CodeMarks
import LuaCompact.Proofs.OpenBlock
import LuaCompact.Proofs.NoticeKind
import LuaCompact.Proofs.Watching
import LuaCompact.Proofs.Entries
import LuaCompact.Proofs.AnyDepth
import LuaCompact.Proofs.Alike
import LuaCompact.Proofs.Renaming
import LuaCompact.Proofs.IncludedSet
import LuaCompact.Proofs.FileOutcome
import LuaCompact.Proofs.Offsets
import LuaCompact.Proofs.Sweep
import LuaCompact.Proofs.ContentLines
import LuaCompact.Proofs.Ink
import LuaCompact.Proofs.NormalizedCode
import LuaCompact.Proofs.Traceless
import LuaCompact.Proofs.LoneReturn
import LuaCompact.Proofs.ListItems
import LuaCompact.Proofs.RepeatedOption
import LuaCompact.Proofs.LineCursor
import LuaCompact.Proofs.WrittenScalar
import LuaCompact.Proofs.WrittenTokens
import LuaCompact.Proofs.WrittenEntry
import LuaCompact.Proofs.WrittenRun
import LuaCompact.Proofs.WrittenDocument
import LuaCompact.Proofs.WrittenSettings
import LuaCompact.Proofs.ListSources

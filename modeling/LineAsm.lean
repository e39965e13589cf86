import LineAsm.Command.FileTree
import LineAsm.Command.Options
import LineAsm.Command.Program
import LineAsm.Command.Settings
import LineAsm.Field
import LineAsm.Image.Assembly
import LineAsm.Image.Event
import LineAsm.Image.Listing
import LineAsm.Isa.Description
import LineAsm.Isa.Flags
import LineAsm.Isa.Layout
import LineAsm.Isa.OpClass
import LineAsm.Isa.Revision
import LineAsm.Json.Lexeme
import LineAsm.Json.Number
import LineAsm.Json.Printer
import LineAsm.Json.Reader
import LineAsm.Json.Value
import LineAsm.Line.Directive
import LineAsm.Line.Encoder
import LineAsm.Line.Fault
import LineAsm.Line.Instruction
import LineAsm.Line.Reading
import LineAsm.Line.Token
import LineAsm.Literal.Decimal
import LineAsm.Literal.Integer
import LineAsm.Literal.Rounding
import LineAsm.Literal.Sign
import LineAsm.Literal.Single
import LineAsm.Main
import LineAsm.Proofs.FieldBits
import LineAsm.Proofs.Finding
import LineAsm.Proofs.Modes
import LineAsm.Proofs.Numeral
import LineAsm.Proofs.Packing
import LineAsm.Proofs.PartValue
import LineAsm.Proofs.Shapes
import LineAsm.Proofs.Truncation
import LineAsm.Text.Blank
import LineAsm.Text.Lines
import LineAsm.Text.Terminal
import LineAsm.Word
import LineAsm.Proofs.SlotReading
import LineAsm.Proofs.Spelling
import LineAsm.Proofs.Image
import LineAsm.Proofs.Acceptance
import LineAsm.Proofs.Decoding
import LineAsm.Proofs.Locality
import LineAsm.Proofs.Assembling
import LineAsm.Proofs.DigitTexts
import LineAsm.Proofs.Listings
import LineAsm.Proofs.Stripping
import LineAsm.Proofs.Concatenation
import LineAsm.Proofs.ListingReaders
import LineAsm.Proofs.Files
import LineAsm.Proofs.Execution
import LineAsm.Proofs.Outcomes
import LineAsm.Proofs.Extension
import LineAsm.Proofs.SharedSink
import LineAsm.Proofs.Blanks
import LineAsm.Proofs.IntegerDirectives
import LineAsm.Proofs.SinglePatterns
import LineAsm.Proofs.SingleRounding
import LineAsm.Proofs.DecimalLiterals
import LineAsm.Proofs.FloatDirectives
import LineAsm.Proofs.Repair
import LineAsm.Proofs.PackedFields
import LineAsm.Proofs.Tokenizing
import LineAsm.Proofs.LogThreshold
import LineAsm.Proofs.EventLog
import LineAsm.Proofs.HeldParts
import LineAsm.Proofs.WellFormedness
import LineAsm.Proofs.JsonTexts
import LineAsm.Proofs.JsonReading
import LineAsm.Proofs.SettingsObjects
import LineAsm.Proofs.FieldRanges
import LineAsm.Proofs.CommandLines
import LineAsm.Proofs.OptionOrder

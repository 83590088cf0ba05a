import X64Asm.Assembler.Basic
import X64Asm.Assembler.Run
import X64Asm.Bytes
import X64Asm.Diagnostic
import X64Asm.Failure
import X64Asm.Form.Basic
import X64Asm.Form.Selection
import X64Asm.Form.Table
import X64Asm.Immediate
import X64Asm.Instruction
import X64Asm.Json.Form
import X64Asm.Json.Lexeme
import X64Asm.Json.Program
import X64Asm.Json.Report
import X64Asm.Json.Settings
import X64Asm.Json.Text
import X64Asm.Json.Value
import X64Asm.Listing.Basic
import X64Asm.Listing.Build
import X64Asm.MachineCode.Buffer
import X64Asm.MachineCode.Encode
import X64Asm.ObjectFile.Basic
import X64Asm.ObjectFile.Image
import X64Asm.Operand
import X64Asm.Register
import X64Asm.SortedTable
import X64Asm.Source
import X64Asm.Statement.Basic
import X64Asm.Statement.Read
import X64Asm.Statement.Segment
import X64Asm.SymbolTable
import X64Asm.Token.Basic
import X64Asm.Token.Numeral
import X64Asm.Token.Scan
import X64Asm.Trace.Dump
import X64Asm.Trace.Event
import X64Asm.Trace.Log
import X64Asm.Width
import X64Asm.Word
import X64Asm.Proofs.Selection
import X64Asm.Proofs.Success
import X64Asm.Proofs.EncodedBytes
import X64Asm.Proofs.Decoder
import X64Asm.Proofs.ReadBack
import X64Asm.Proofs.FormDecoding
import X64Asm.Proofs.ProgramDecoding
import X64Asm.Proofs.SameCode
import X64Asm.Proofs.AssembledPrefix
import X64Asm.Proofs.Grammar
import X64Asm.Proofs.Pieces
import X64Asm.Proofs.Mentions
import X64Asm.Proofs.ListingContents
import X64Asm.Proofs.SymbolRanks
import X64Asm.Proofs.Stretches
import X64Asm.Proofs.SymbolKinds
import X64Asm.Proofs.SymbolOrder
import X64Asm.Proofs.AlikeReadings
import X64Asm.Proofs.JoinedText
import X64Asm.Proofs.SplitSource
import X64Asm.Proofs.ElfReader
import X64Asm.Proofs.ObjectLayout
import X64Asm.Proofs.ObjectReadBack
import X64Asm.Proofs.SourceNames
import X64Asm.Proofs.SourceObject
import X64Asm.Proofs.EncodingOutcome
import X64Asm.Proofs.Limits
import X64Asm.Proofs.Sessions
import X64Asm.Proofs.FailedEntries
import X64Asm.Proofs.ByteText
import X64Asm.Proofs.SourcePlaces
import X64Asm.Proofs.CheckedScan
import X64Asm.Proofs.CheckedReader
import X64Asm.Proofs.CheckedAssembly
import X64Asm.Proofs.EncodingFailure
import X64Asm.Proofs.ReportedTokens
import X64Asm.Proofs.TokenTiling
import X64Asm.Proofs.ReportPlaces
import X64Asm.Proofs.SourceFailures
import X64Asm.Proofs.Layout
import X64Asm.Proofs.LetterCase
import X64Asm.Proofs.EndMark
import X64Asm.Proofs.LeastWidening
import X64Asm.Proofs.OperandFaults
import X64Asm.Proofs.ConstantLayouts
import X64Asm.Proofs.InstructionParts
import X64Asm.Proofs.NumberTokens
import X64Asm.Proofs.ScannedText
import X64Asm.Proofs.PrintedInstructions
import X64Asm.Proofs.DataLines
import X64Asm.Proofs.WrittenConstants
import X64Asm.Proofs.SymbolHistory
import X64Asm.Proofs.StoredForms
import X64Asm.Proofs.StoredPrograms
import X64Asm.Proofs.BufferContents
import X64Asm.Proofs.TableLookup

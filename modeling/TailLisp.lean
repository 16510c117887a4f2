import TailLisp.Bytes
import TailLisp.CommandLine
import TailLisp.Container.Buffer
import TailLisp.Container.Memory
import TailLisp.Container.Pool
import TailLisp.Container.ProbeTable
import TailLisp.Container.StoredArray
import TailLisp.Container.WordTable
import TailLisp.Fault
import TailLisp.Keyword
import TailLisp.Main
import TailLisp.Node.Basic
import TailLisp.Node.Copy
import TailLisp.Node.Equality
import TailLisp.Node.Expansion
import TailLisp.Node.Outline
import TailLisp.Node.Printer
import TailLisp.Node.Tail
import TailLisp.Notice
import TailLisp.Position
import TailLisp.Proofs.Acceptance
import TailLisp.Proofs.Advancing
import TailLisp.Proofs.ArrayHistories
import TailLisp.Proofs.BlankCalls
import TailLisp.Proofs.BufferHistories
import TailLisp.Proofs.CellLoops
import TailLisp.Proofs.CodeAsData
import TailLisp.Proofs.Completeness
import TailLisp.Proofs.Completion
import TailLisp.Proofs.Concatenation
import TailLisp.Proofs.Continuations
import TailLisp.Proofs.DatumGrammar
import TailLisp.Proofs.Demotion
import TailLisp.Proofs.Descent
import TailLisp.Proofs.DescentAgreement
import TailLisp.Proofs.DescentCalls
import TailLisp.Proofs.DescentForms
import TailLisp.Proofs.DescentRows
import TailLisp.Proofs.Driver
import TailLisp.Proofs.EscapeGrammar
import TailLisp.Proofs.EscapedBytes
import TailLisp.Proofs.Grammar
import TailLisp.Proofs.GuardedReading
import TailLisp.Proofs.GuardedScanning
import TailLisp.Proofs.GuardedSessions
import TailLisp.Proofs.InputSources
import TailLisp.Proofs.IntegerLiterals
import TailLisp.Proofs.Interning
import TailLisp.Proofs.InterningOrder
import TailLisp.Proofs.Legible
import TailLisp.Proofs.Literals
import TailLisp.Proofs.Locations
import TailLisp.Proofs.Lookahead
import TailLisp.Proofs.LoopForms
import TailLisp.Proofs.NodePlaces
import TailLisp.Proofs.NormalForm
import TailLisp.Proofs.Numbering
import TailLisp.Proofs.Numerals
import TailLisp.Proofs.Outlines
import TailLisp.Proofs.PairChains
import TailLisp.Proofs.Printing
import TailLisp.Proofs.Probing
import TailLisp.Proofs.Quotation
import TailLisp.Proofs.Relocation
import TailLisp.Proofs.Reporting
import TailLisp.Proofs.Rereading
import TailLisp.Proofs.RoundTrip
import TailLisp.Proofs.Sameness
import TailLisp.Proofs.Scanning
import TailLisp.Proofs.Soundness
import TailLisp.Proofs.Spelling
import TailLisp.Proofs.StoredArrays
import TailLisp.Proofs.Subexpressions
import TailLisp.Proofs.TableIndependence
import TailLisp.Proofs.TailSlots
import TailLisp.Proofs.Termination
import TailLisp.Proofs.Tiling
import TailLisp.Proofs.TokenTexts
import TailLisp.Proofs.Topics
import TailLisp.Proofs.Trees
import TailLisp.Proofs.WellBuilt
import TailLisp.Proofs.WordProbing
import TailLisp.Reader.Reading
import TailLisp.Reader.Step
import TailLisp.Reader.Unfinished
import TailLisp.Session
import TailLisp.Source
import TailLisp.SymbolStore
import TailLisp.SymbolTable
import TailLisp.Text.Blank
import TailLisp.Text.ByteClass
import TailLisp.Text.CharName
import TailLisp.Text.Escape
import TailLisp.Text.Numeral
import TailLisp.Token
import TailLisp.Token.Cursor

import NetlistSplit.Main
import NetlistSplit.Proofs.Comment.Token
import NetlistSplit.Proofs.Comment.Kept
import NetlistSplit.Proofs.Comment.Stripping
import NetlistSplit.Proofs.Comment.Stable
import NetlistSplit.Proofs.Keyword.Search
import NetlistSplit.Proofs.Scanner.Matching
import NetlistSplit.Proofs.Keyword.WholeWord
import NetlistSplit.Proofs.Literal.Agreement
import NetlistSplit.Proofs.FileSystem.Reaches
import NetlistSplit.Proofs.FileSystem.Prepare
import NetlistSplit.Proofs.Plan
import NetlistSplit.Proofs.Run.Writing
import NetlistSplit.Proofs.Run.Outcome
import NetlistSplit.Proofs.Keyword.Append
import NetlistSplit.Proofs.Scanner.Stretch
import NetlistSplit.Proofs.Header.Declaration
import NetlistSplit.Proofs.Header.Keywords
import NetlistSplit.Proofs.Scanner.Standalone
import NetlistSplit.Proofs.Run.CommentFree
import NetlistSplit.Proofs.Netlist.Grammar
import NetlistSplit.Proofs.Netlist.Reading
import NetlistSplit.Proofs.Scanner.Yielded
import NetlistSplit.Proofs.Run.Confined
import NetlistSplit.Proofs.Run.Repeated
import NetlistSplit.Proofs.Run.ModuleFiles
import NetlistSplit.Proofs.Comment.Lines
import NetlistSplit.Proofs.Comment.Invisible
import NetlistSplit.Proofs.Scanner.Concatenation
import NetlistSplit.Proofs.Run.Printed
import NetlistSplit.Proofs.Comment.Places
import NetlistSplit.Proofs.Scanner.SourceLines
import NetlistSplit.Proofs.Comment.Copying
import NetlistSplit.Proofs.Header.Grammar
import NetlistSplit.Proofs.Keyword.Runs
import NetlistSplit.Proofs.Scanner.Cutting
import NetlistSplit.Proofs.Literal.Pattern
import NetlistSplit.Proofs.CommandLine.Grammar
import NetlistSplit.Proofs.Report.Decoding
import NetlistSplit.Proofs.FileSystem.Remaking

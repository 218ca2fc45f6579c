import SyslModel.Main
import SyslModel.Tree.OfJson
import SyslModel.Proofs.Token.Lossless
import SyslModel.Proofs.Token.LongestMatch
import SyslModel.Proofs.Source.LineIndex
import SyslModel.Proofs.Token.Positions
import SyslModel.Proofs.Grammar.Reads
import SyslModel.Proofs.Grammar.Recognises
import SyslModel.Proofs.Grammar.Production
import SyslModel.Proofs.Grammar.AttributeReaders
import SyslModel.Proofs.Grammar.MemberReaders
import SyslModel.Proofs.Grammar.ApplicationReaders
import SyslModel.Proofs.Grammar.Recognition
import SyslModel.Proofs.NameMap
import SyslModel.Proofs.Tree.Respan
import SyslModel.Proofs.Token.Lexeme
import SyslModel.Proofs.RoundTrip.Prints
import SyslModel.Proofs.RoundTrip.Lexemes
import SyslModel.Proofs.RoundTrip.CanonicalText
import SyslModel.Proofs.RoundTrip.Reparse
import SyslModel.Proofs.Json.Leaf
import SyslModel.Proofs.Json.Written
import SyslModel.Proofs.Tree.Part
import SyslModel.Proofs.Json.Record
import SyslModel.Proofs.Json.TreeParts
import SyslModel.Proofs.Json.TreeJson
import SyslModel.Proofs.Json.PartJson
import SyslModel.Proofs.Grammar.Relocation
import SyslModel.Proofs.Json.ParsedJson
import SyslModel.Proofs.Json.TreeRoundTrip
import SyslModel.Proofs.Grammar.Layout
import SyslModel.Proofs.Grammar.Partial
import SyslModel.Proofs.Grammar.Stems
import SyslModel.Proofs.Grammar.Faithful
import SyslModel.Proofs.Grammar.Follows
import SyslModel.Proofs.Grammar.RuleFollows
import SyslModel.Proofs.Grammar.Mistake
import SyslModel.Proofs.Diagnostics
import SyslModel.Proofs.Grammar.Spans
import SyslModel.Proofs.Grammar.Cursor
import SyslModel.Proofs.Grammar.Calls
import SyslModel.Proofs.Grammar.Fresh
import SyslModel.Proofs.Grammar.Nesting
import SyslModel.Proofs.Grammar.WellShaped
import SyslModel.Proofs.Token.Blanked
import SyslModel.Proofs.Token.Resume
import SyslModel.Proofs.NameMap.LastWrite
import SyslModel.Proofs.Tree.Distinct
import SyslModel.Proofs.Tree.PrimaryKey
import SyslModel.Proofs.Command.Words
import SyslModel.Proofs.Command.Agreement
import SyslModel.Proofs.Grammar.Script
import SyslModel.Proofs.Grammar.Trace
import SyslModel.Proofs.Grammar.Blame
import SyslModel.Proofs.RoundTrip.Literals

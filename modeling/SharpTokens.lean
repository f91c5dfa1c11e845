import SharpTokens.Main
import SharpTokens.Session
import SharpTokens.Proofs.Channel.Exact
import SharpTokens.Proofs.Channel.Responses
import SharpTokens.Proofs.Channel.Writing
import SharpTokens.Proofs.Directive.Balance
import SharpTokens.Proofs.Directive.Branches
import SharpTokens.Proofs.Directive.Unread
import SharpTokens.Proofs.Session.Agreement
import SharpTokens.Proofs.Grammar.Run.Progress
import SharpTokens.Proofs.Program.Reading
import SharpTokens.Proofs.Text.Slices
import SharpTokens.Proofs.SourceFile.Spans
import SharpTokens.Proofs.Grammar.Blind
import SharpTokens.Proofs.SourceFile.Words
import SharpTokens.Proofs.Grammar.Run.Nesting
import SharpTokens.Proofs.Grammar.Run.Recursion
import SharpTokens.Proofs.Text.Lookups
import SharpTokens.Proofs.Directive.Operands
import SharpTokens.Proofs.SourceFile.Safety
import SharpTokens.Proofs.Text.LineEnds
import SharpTokens.Proofs.Lexeme.LineEnds
import SharpTokens.Proofs.Lexeme.Returns
import SharpTokens.Proofs.Directive.LineEnds
import SharpTokens.Proofs.SourceFile.LineEnds
import SharpTokens.Proofs.Grammar.Silence
import SharpTokens.Proofs.Grammar.Gaps
import SharpTokens.Proofs.SourceFile.Gaps
import SharpTokens.Proofs.Lexeme.Cutting
import SharpTokens.Proofs.Directive.Conditions
import SharpTokens.Proofs.Grammar.Types
import SharpTokens.Proofs.Text.LineBreaks
import SharpTokens.Proofs.Lexeme.Errors
import SharpTokens.Proofs.Lexeme.OneLine
import SharpTokens.Proofs.Lexeme.Unclosed
import SharpTokens.Proofs.Token.Legend
import SharpTokens.Proofs.Token.LegendJson
import SharpTokens.Proofs.Grammar.Heads
import SharpTokens.Proofs.Grammar.Groups

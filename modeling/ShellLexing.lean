import ShellLexing.Context
import ShellLexing.Count
import ShellLexing.Delimiter
import ShellLexing.Delimiter.ByteScan
import ShellLexing.Event
import ShellLexing.Failure
import ShellLexing.Heredoc.Queue
import ShellLexing.MiniShell
import ShellLexing.Mode
import ShellLexing.Mode.Stack
import ShellLexing.Options
import ShellLexing.Outcome
import ShellLexing.QuoteNesting
import ShellLexing.Script
import ShellLexing.Session
import ShellLexing.Session.Bench
import ShellLexing.Session.Operation
import ShellLexing.Text
import ShellLexing.Text.Cursor
import ShellLexing.Text.Span
import ShellLexing.Tokenizer
import ShellLexing.Tokenizer.CueSheet
import ShellLexing.Proofs.Delimiter.Strip
import ShellLexing.Proofs.Delimiter.Style
import ShellLexing.Proofs.Delimiter.Decoration
import ShellLexing.Proofs.Delimiter.Rename
import ShellLexing.Proofs.Delimiter.Reread
import ShellLexing.Proofs.Heredoc.Fifo
import ShellLexing.Proofs.Heredoc.LeadingTabs
import ShellLexing.Proofs.Session.Refusal
import ShellLexing.Proofs.Tokenizer.Drain
import ShellLexing.Proofs.MiniShell.Move
import ShellLexing.Proofs.MiniShell.Contracts
import ShellLexing.Proofs.MiniShell.Bodies
import ShellLexing.Proofs.MiniShell.Pieces
import ShellLexing.Proofs.Mode.Unwind
import ShellLexing.Proofs.MiniShell.Version
import ShellLexing.Proofs.Script.Recut
import ShellLexing.Proofs.Levels
import ShellLexing.Proofs.Mode.Nesting
import ShellLexing.Proofs.Mode.Rooted
import ShellLexing.Proofs.Quotes.Isolation
import ShellLexing.Proofs.Session.Replay
import ShellLexing.Proofs.Axes
import ShellLexing.Proofs.Session.Axes
import ShellLexing.Proofs.Context.Parens
import ShellLexing.Proofs.Heredoc.Closing
import ShellLexing.Proofs.Delimiter.Front
import ShellLexing.Proofs.Delimiter.Offsets
import ShellLexing.Proofs.Delimiter.FinalNewline
import ShellLexing.Proofs.Delimiter.OwnMarker
import ShellLexing.Proofs.Text.Bytes
import ShellLexing.Proofs.Delimiter.ByteScan
import ShellLexing.Proofs.Delimiter.Within

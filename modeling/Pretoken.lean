import Pretoken.Bytes.Buffer
import Pretoken.Bytes.Decoder
import Pretoken.Bytes.Feed
import Pretoken.Bytes.LineReader
import Pretoken.Bytes.Utf8
import Pretoken.CharClass
import Pretoken.Directive
import Pretoken.Event
import Pretoken.Fault
import Pretoken.Glyph
import Pretoken.Lexer
import Pretoken.Location
import Pretoken.Operators
import Pretoken.Progress
import Pretoken.Proofs.Arrival
import Pretoken.Proofs.Booking
import Pretoken.Proofs.Buffering
import Pretoken.Proofs.Closing
import Pretoken.Proofs.Comments
import Pretoken.Proofs.Conserving
import Pretoken.Proofs.Contracts
import Pretoken.Proofs.Coupling
import Pretoken.Proofs.Custody
import Pretoken.Proofs.Decoding
import Pretoken.Proofs.Digraphs
import Pretoken.Proofs.Dividing
import Pretoken.Proofs.Ending
import Pretoken.Proofs.Extent
import Pretoken.Proofs.Fitting
import Pretoken.Proofs.Following
import Pretoken.Proofs.Identifiers
import Pretoken.Proofs.Indexing
import Pretoken.Proofs.Joining
import Pretoken.Proofs.Kinds
import Pretoken.Proofs.Ledger
import Pretoken.Proofs.Lexemes
import Pretoken.Proofs.Literals
import Pretoken.Proofs.Lookahead
import Pretoken.Proofs.Munching
import Pretoken.Proofs.Numbers
import Pretoken.Proofs.Openings
import Pretoken.Proofs.Pasting
import Pretoken.Proofs.Phases
import Pretoken.Proofs.Probing
import Pretoken.Proofs.Recasting
import Pretoken.Proofs.Recording
import Pretoken.Proofs.Relexing
import Pretoken.Proofs.Reparsing
import Pretoken.Proofs.Replaying
import Pretoken.Proofs.Rereading
import Pretoken.Proofs.Reserving
import Pretoken.Proofs.Retaking
import Pretoken.Proofs.Returning
import Pretoken.Proofs.RoundTrip
import Pretoken.Proofs.Scoping
import Pretoken.Proofs.Separation
import Pretoken.Proofs.Shadow
import Pretoken.Proofs.Shaping
import Pretoken.Proofs.Shifting
import Pretoken.Proofs.Splicing
import Pretoken.Proofs.Stalling
import Pretoken.Proofs.Stranding
import Pretoken.Proofs.Stringizing
import Pretoken.Proofs.Substitutions
import Pretoken.Proofs.Tandem
import Pretoken.Proofs.Tape
import Pretoken.Proofs.Tearing
import Pretoken.Proofs.Tiling
import Pretoken.Proofs.TokenSteps
import Pretoken.Proofs.Triple
import Pretoken.Proofs.Unbroken
import Pretoken.Proofs.Upkeep
import Pretoken.Proofs.WholeText
import Pretoken.Scan
import Pretoken.Scanner.Basic
import Pretoken.Scanner.Routine
import Pretoken.Scanner.Token
import Pretoken.Source.Basic
import Pretoken.Source.File
import Pretoken.Source.Pipeline
import Pretoken.Source.Replay
import Pretoken.Source.Splice
import Pretoken.Source.Trigraph
import Pretoken.Table.Basic
import Pretoken.Table.Contexts
import Pretoken.Text.IdentContinue
import Pretoken.Text.IdentStart
import Pretoken.Text.Quoted
import Pretoken.Text.Ranges
import Pretoken.Text.Unprinted
import Pretoken.Token.Basic
import Pretoken.Token.Draft
import Pretoken.Token.Kind
import Pretoken.Token.Reserved
import Pretoken.Violation
import Pretoken.Words

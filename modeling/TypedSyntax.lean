import TypedSyntax.CGrammar
import TypedSyntax.Cache
import TypedSyntax.Converter.Basic
import TypedSyntax.Converter.Batch
import TypedSyntax.Converter.Decode
import TypedSyntax.Converter.Encode
import TypedSyntax.Converter.Error
import TypedSyntax.Converter.Registry
import TypedSyntax.Document.Basic
import TypedSyntax.Document.Declaration
import TypedSyntax.Document.Node
import TypedSyntax.Document.Table
import TypedSyntax.Grammar.Basic
import TypedSyntax.Grammar.Cardinality
import TypedSyntax.Grammar.Declaration
import TypedSyntax.Grammar.Error
import TypedSyntax.Grammar.Printer
import TypedSyntax.Grammar.Reader
import TypedSyntax.Grammar.TextError
import TypedSyntax.Grammar.Token
import TypedSyntax.Node.Basic
import TypedSyntax.Node.Builders
import TypedSyntax.Node.Error
import TypedSyntax.Node.Keyword
import TypedSyntax.Node.Kind
import TypedSyntax.Proofs.CGrammar
import TypedSyntax.Proofs.Cache.Calls
import TypedSyntax.Proofs.Cache.Race
import TypedSyntax.Proofs.Cache.Recency
import TypedSyntax.Proofs.Cache.Transparency
import TypedSyntax.Proofs.Converter.Acceptance
import TypedSyntax.Proofs.Converter.Correspondence
import TypedSyntax.Proofs.Converter.Failure
import TypedSyntax.Proofs.Converter.Inverse
import TypedSyntax.Proofs.Converter.Masking
import TypedSyntax.Proofs.Converter.Outline
import TypedSyntax.Proofs.Converter.Registry
import TypedSyntax.Proofs.Converter.RoundTrip
import TypedSyntax.Proofs.Converter.Spelling
import TypedSyntax.Proofs.Converter.Typing
import TypedSyntax.Proofs.Except
import TypedSyntax.Proofs.Grammar.Cursor
import TypedSyntax.Proofs.Grammar.Derivation
import TypedSyntax.Proofs.Grammar.Index
import TypedSyntax.Proofs.Grammar.Lexeme
import TypedSyntax.Proofs.Grammar.Lookup
import TypedSyntax.Proofs.Grammar.Refusal
import TypedSyntax.Proofs.Grammar.RoundTrip
import TypedSyntax.Proofs.Grammar.Scan
import TypedSyntax.Proofs.Grammar.Sentence
import TypedSyntax.Proofs.Node.Built
import TypedSyntax.Proofs.Node.Instantiation
import TypedSyntax.Proofs.Node.Replacement
import TypedSyntax.Proofs.Node.Shape
import TypedSyntax.Proofs.Node.Stored
import TypedSyntax.Proofs.Store.Change
import TypedSyntax.Proofs.Subword
import TypedSyntax.Proofs.Terminal
import TypedSyntax.Proofs.Text.Position
import TypedSyntax.Proofs.Text.Quoted
import TypedSyntax.Proofs.Tree.Binding
import TypedSyntax.Proofs.Tree.Erasure
import TypedSyntax.Proofs.Tree.Layout
import TypedSyntax.Proofs.Tree.Rendering
import TypedSyntax.Proofs.Tree.Typing
import TypedSyntax.Proofs.Tree.Walk
import TypedSyntax.Proofs.Tree.WellFormed
import TypedSyntax.Settings
import TypedSyntax.Store.Basic
import TypedSyntax.Store.RecencyList
import TypedSyntax.Subword
import TypedSyntax.Terminal
import TypedSyntax.Text.Blank
import TypedSyntax.Text.Cursor
import TypedSyntax.Text.Invisible
import TypedSyntax.Text.Quoted
import TypedSyntax.Tree.Basic
import TypedSyntax.Tree.Binding
import TypedSyntax.Tree.Printer
import TypedSyntax.Tree.Table
import TypedSyntax.Worklist

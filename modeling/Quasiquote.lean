import Quasiquote.Expansion.Drawing
import Quasiquote.Expansion.Pass
import Quasiquote.Options.Json
import Quasiquote.Tree.Same
import Quasiquote.Proofs.Conformance
import Quasiquote.Proofs.Rebuilding
import Quasiquote.Proofs.Splicing
import Quasiquote.Proofs.Carrying
import Quasiquote.Proofs.Exposure
import Quasiquote.Proofs.Removal
import Quasiquote.Proofs.Scanning
import Quasiquote.Proofs.Parsing
import Quasiquote.Proofs.Legible
import Quasiquote.Proofs.EmittedText
import Quasiquote.Proofs.Derivation
import Quasiquote.Proofs.Soundness.Basic
import Quasiquote.Proofs.Soundness.Expressions
import Quasiquote.Proofs.Soundness.Module
import Quasiquote.Proofs.Numbering
import Quasiquote.Proofs.ParsedTree
import Quasiquote.Proofs.Descent
import Quasiquote.Proofs.Scoping
import Quasiquote.Proofs.Resolution
import Quasiquote.Proofs.Mirror
import Quasiquote.Proofs.Remaking
import Quasiquote.Proofs.Capture
import Quasiquote.Proofs.TopLevel
import Quasiquote.Proofs.Rebinding
import Quasiquote.Proofs.FactoryImport
import Quasiquote.Proofs.Lexing
import Quasiquote.Proofs.Locating
import Quasiquote.Proofs.Grafting
import Quasiquote.Proofs.Slots
import Quasiquote.Proofs.Placement
import Quasiquote.Proofs.Production
import Quasiquote.Proofs.Threading
import Quasiquote.Proofs.Drawing
import Quasiquote.Proofs.Identity
import Quasiquote.Proofs.Tracing
import Quasiquote.Proofs.ScopeTable
import Quasiquote.Proofs.Replacing
import Quasiquote.Proofs.Selection
import Quasiquote.Proofs.Persistence
import Quasiquote.Proofs.SecondPass
import Quasiquote.Proofs.Hygiene
import Quasiquote.Proofs.Layout
import Quasiquote.Proofs.Progress.Basic
import Quasiquote.Proofs.Progress.Types
import Quasiquote.Proofs.Progress.Expressions
import Quasiquote.Proofs.Progress.Module
import Quasiquote.Proofs.Progress.Source
import Quasiquote.Proofs.Accounting
import Quasiquote.Proofs.Renaming.Basic
import Quasiquote.Proofs.Renaming.Declarations
import Quasiquote.Proofs.Renaming.Scopes
import Quasiquote.Proofs.Declaring
import Quasiquote.Proofs.Renaming.Model
import Quasiquote.Proofs.Renaming.Types
import Quasiquote.Proofs.Renaming.Templates
import Quasiquote.Proofs.Renaming.Expansion
import Quasiquote.Proofs.Renaming.Aliasing
import Quasiquote.Proofs.Nesting
import Quasiquote.Proofs.Extents
import Quasiquote.Proofs.RoundTrip.Annotations
import Quasiquote.Proofs.RoundTrip.Expressions
import Quasiquote.Proofs.RoundTrip.Operators
import Quasiquote.Proofs.RoundTrip.Pieces
import Quasiquote.Proofs.RoundTrip.Types
import Quasiquote.Proofs.RoundTrip.Literals
import Quasiquote.Proofs.RoundTrip.Encodings
import Quasiquote.Proofs.RoundTrip.Selectors
import Quasiquote.Proofs.ImportSearch
import Quasiquote.Proofs.Matching
import Quasiquote.Proofs.TypeDepth
import Quasiquote.Proofs.Caret
import Quasiquote.Proofs.RoundTrip.Functions
import Quasiquote.Proofs.SourceOrder
import Quasiquote.Proofs.Integrity
import Quasiquote.Proofs.Positions
import Quasiquote.Proofs.AliasChains
import Quasiquote.Proofs.FirstOperand

import SourceMacros.Capture
import SourceMacros.ClassMember
import SourceMacros.Cursor
import SourceMacros.Engine
import SourceMacros.Expansion.Error
import SourceMacros.Expansion.Expander
import SourceMacros.Expansion.Request
import SourceMacros.FileSystem
import SourceMacros.Grammar
import SourceMacros.Label
import SourceMacros.Lexing.Error
import SourceMacros.Lexing.Lexer
import SourceMacros.Lexing.Rule
import SourceMacros.Macro
import SourceMacros.Named
import SourceMacros.Path
import SourceMacros.Position
import SourceMacros.Rule.Balanced
import SourceMacros.Rule.Basic
import SourceMacros.Rule.Mismatch
import SourceMacros.Rule.Parse
import SourceMacros.Rule.Parsed
import SourceMacros.Settings.Binary64
import SourceMacros.Settings.DateTime
import SourceMacros.Settings.Load
import SourceMacros.Settings.Toml.Document
import SourceMacros.Settings.Toml.Item
import SourceMacros.Settings.Toml.Key
import SourceMacros.Settings.Toml.Scalar
import SourceMacros.Settings.Toml.Section
import SourceMacros.Settings.Value
import SourceMacros.Template
import SourceMacros.Text.Basic
import SourceMacros.Text.Layout
import SourceMacros.Text.Quoted
import SourceMacros.Text.UpperCase
import SourceMacros.Text.WhiteSpace
import SourceMacros.Token
import SourceMacros.TokenStream
import SourceMacros.Toolkit
import SourceMacros.Proofs.Rule.Backtracking
import SourceMacros.Proofs.Rule.Derivation
import SourceMacros.Proofs.Rule.DistinctNames
import SourceMacros.Proofs.Rule.Lookahead
import SourceMacros.Proofs.Rule.OpenRule
import SourceMacros.Proofs.Rule.Origins
import SourceMacros.Proofs.Lexing.Locality
import SourceMacros.Proofs.Lexing.Lossless
import SourceMacros.Proofs.Lexing.Relexing
import SourceMacros.Proofs.Lexing.Runs
import SourceMacros.Proofs.Rule.Slices
import SourceMacros.Proofs.Rule.TriviaIndependence
import SourceMacros.Proofs.Engine.Expansion
import SourceMacros.Proofs.Engine.Pieces
import SourceMacros.Proofs.Lexing.Layout
import SourceMacros.Proofs.Engine.InPlace
import SourceMacros.Proofs.Engine.SideBySide
import SourceMacros.Proofs.Engine.DepthLimit
import SourceMacros.Proofs.Engine.Retention
import SourceMacros.Proofs.Engine.Operations
import SourceMacros.Proofs.Engine.Bookkeeping
import SourceMacros.Proofs.Rule.Labels
import SourceMacros.Proofs.Rule.Progress
import SourceMacros.Proofs.ClassMember.Scoping
import SourceMacros.Proofs.Engine.Termination
import SourceMacros.Proofs.Rule.Recording
import SourceMacros.Proofs.Engine.Placeholders
import SourceMacros.Proofs.Engine.UnknownCaptures
import SourceMacros.Proofs.Rule.Iteration
import SourceMacros.Proofs.Rule.Reading
import SourceMacros.Proofs.Lexing.Kinds
import SourceMacros.Proofs.ClassMember.Written
import SourceMacros.Proofs.ClassMember.Method
import SourceMacros.Proofs.ClassMember.TraitUse
import SourceMacros.Proofs.Text.Splitting
import SourceMacros.Proofs.Template
import SourceMacros.Proofs.Lexing.Spacing
import SourceMacros.Proofs.Expansion.Respacing
import SourceMacros.Proofs.Expansion.Argument
import SourceMacros.Proofs.Rule.Balanced
import SourceMacros.Proofs.Text.BlankLines
import SourceMacros.Proofs.Text.Format
import SourceMacros.Proofs.Lexing.Failures
import SourceMacros.Proofs.Text.UpperCase
import SourceMacros.Proofs.Text.Studly
import SourceMacros.Proofs.Lexing.Shortcuts
import SourceMacros.Proofs.ClassMember.TraitBlock
import SourceMacros.Proofs.Path
import SourceMacros.Proofs.FileSystem
import SourceMacros.Proofs.Toolkit
import SourceMacros.Proofs.StreamMoves

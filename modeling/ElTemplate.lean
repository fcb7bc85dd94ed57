import ElTemplate.Main
import ElTemplate.Template.Binding
import ElTemplate.Proofs.Cache.Entries
import ElTemplate.Proofs.Cache.Transparency
import ElTemplate.Proofs.Cache.Operations
import ElTemplate.Proofs.Cache.Rounding
import ElTemplate.Proofs.Cache.Lineup
import ElTemplate.Proofs.Cache.Representation
import ElTemplate.Proofs.Cache.Insertion
import ElTemplate.Proofs.Cache.Recency
import ElTemplate.Proofs.Cache.Contents
import ElTemplate.Proofs.Cache.Failures
import ElTemplate.Proofs.Cache.History
import ElTemplate.Proofs.Cache.Retention
import ElTemplate.Proofs.Cache.Layout
import ElTemplate.Proofs.Cache.Integrity
import ElTemplate.Proofs.Text.Classes
import ElTemplate.Proofs.Text.Items
import ElTemplate.Proofs.Token.Progress
import ElTemplate.Proofs.Token.Tape
import ElTemplate.Proofs.Parser.Equations
import ElTemplate.Proofs.Parser.Fuel
import ElTemplate.Proofs.Parser.Simulation
import ElTemplate.Proofs.Parser.Lookahead
import ElTemplate.Proofs.Grammar.Basic
import ElTemplate.Proofs.Grammar.Limits
import ElTemplate.Proofs.Grammar.Names
import ElTemplate.Proofs.Parser.Position
import ElTemplate.Proofs.Grammar.Boundaries
import ElTemplate.Proofs.Parser.Limits
import ElTemplate.Proofs.Parser.Script
import ElTemplate.Proofs.Parser.Counters
import ElTemplate.Proofs.Grammar.Completeness
import ElTemplate.Proofs.Grammar.Soundness
import ElTemplate.Proofs.Grammar.Templates
import ElTemplate.Proofs.Grammar.Language
import ElTemplate.Proofs.Parser.Consumption
import ElTemplate.Proofs.Number.Ratio
import ElTemplate.Proofs.Number.Digits
import ElTemplate.Proofs.Number.Decimal
import ElTemplate.Proofs.Number.Nearest
import ElTemplate.Proofs.Number.Logarithm
import ElTemplate.Proofs.Number.Shortest
import ElTemplate.Proofs.Number.Spelling
import ElTemplate.Proofs.Token.Regular
import ElTemplate.Proofs.Token.Numeral
import ElTemplate.Proofs.Token.Float
import ElTemplate.Proofs.Token.Respell
import ElTemplate.Proofs.Token.Scans
import ElTemplate.Proofs.Token.Canonical
import ElTemplate.Proofs.Grammar.Alike
import ElTemplate.Proofs.Node.Canonical
import ElTemplate.Proofs.Grammar.Canonical
import ElTemplate.Proofs.Token.Text
import ElTemplate.Proofs.Template.RoundTrip
import ElTemplate.Proofs.Grammar.Height
import ElTemplate.Proofs.Grammar.Follow
import ElTemplate.Proofs.Grammar.Completion
import ElTemplate.Proofs.Grammar.Spine
import ElTemplate.Proofs.Template.Height
import ElTemplate.Proofs.Grammar.Blame
import ElTemplate.Proofs.Grammar.Diagnosis
import ElTemplate.Proofs.Template.Blame
import ElTemplate.Proofs.Template.Errors
import ElTemplate.Proofs.Template.Position
import ElTemplate.Proofs.Token.Number
import ElTemplate.Proofs.Node.Inline
import ElTemplate.Proofs.Token.Decoding
import ElTemplate.Proofs.Grammar.Recovery
import ElTemplate.Proofs.Template.Identity
import ElTemplate.Proofs.Template.Inventory
import ElTemplate.Proofs.Node.Registration
import ElTemplate.Proofs.Template.Coherence
import ElTemplate.Proofs.Template.Binding
import ElTemplate.Proofs.Template.Resolution
import ElTemplate.Proofs.Template.Rendering
import ElTemplate.Proofs.Grammar.Features
import ElTemplate.Proofs.Template.Extension
import ElTemplate.Proofs.Token.Extent
import ElTemplate.Proofs.Token.Junction
import ElTemplate.Proofs.Node.Parts
import ElTemplate.Proofs.Grammar.Concatenation
import ElTemplate.Proofs.Template.Concatenation
import ElTemplate.Proofs.Token.Lexical
import ElTemplate.Proofs.Token.Munch
import ElTemplate.Proofs.Token.Quotation
import ElTemplate.Proofs.Token.Tiling
import ElTemplate.Proofs.Template.Embedding
import ElTemplate.Proofs.Token.Equivalent
import ElTemplate.Proofs.Template.Equivalent
import ElTemplate.Proofs.Text.Delimiter
import ElTemplate.Proofs.Token.Delimiter
import ElTemplate.Proofs.Template.Literal
import ElTemplate.Proofs.Node.Moments
import ElTemplate.Proofs.Grammar.Shape
import ElTemplate.Proofs.Template.Moments
import ElTemplate.Proofs.Template.Shape
import ElTemplate.Proofs.Node.Mentions
import ElTemplate.Proofs.Grammar.Mentions
import ElTemplate.Proofs.Template.Order
import ElTemplate.Proofs.Template.Integer
import ElTemplate.Proofs.Token.Mode
import ElTemplate.Proofs.Template.TopLevel
import ElTemplate.Proofs.Settings.Environment
import ElTemplate.Proofs.Command.Check
import ElTemplate.Proofs.Yaml.Line
import ElTemplate.Proofs.Yaml.Word
import ElTemplate.Proofs.Yaml.Entries
import ElTemplate.Proofs.Yaml.Plain
import ElTemplate.Proofs.Settings.Format
import ElTemplate.Proofs.Settings.Yaml

import TemplateCompiler.Text.Blank
import TemplateCompiler.Text.Letter
import TemplateCompiler.Text.Quoted
import TemplateCompiler.Json.Text
import TemplateCompiler.Diagnostic.Failure
import TemplateCompiler.Markup.Token
import TemplateCompiler.Mustache.Lexer
import TemplateCompiler.Template.Parse
import TemplateCompiler.Mustache.Whitespace
import TemplateCompiler.Resolved.Content
import TemplateCompiler.Wire.Encode
import TemplateCompiler.Plugin.Rules
import TemplateCompiler.Compile.NamingStyle
import TemplateCompiler.Compile.Precompiled
import TemplateCompiler.Main
import TemplateCompiler.Proofs.Resolved.Lexical
import TemplateCompiler.Proofs.Resolved.Steps
import TemplateCompiler.Proofs.Resolved.Values
import TemplateCompiler.Proofs.Resolved.Agreement
import TemplateCompiler.Proofs.Resolved.Modes
import TemplateCompiler.Proofs.Wire.Scoping
import TemplateCompiler.Proofs.Wire.Modes
import TemplateCompiler.Proofs.Wire.Elements
import TemplateCompiler.Proofs.Wire.Formatting
import TemplateCompiler.Proofs.Number.Integers
import TemplateCompiler.Proofs.Json.Unambiguity
import TemplateCompiler.Proofs.Wire.JsonForm
import TemplateCompiler.Proofs.Wire.Unambiguity
import TemplateCompiler.Proofs.Diagnostic.Success
import TemplateCompiler.Proofs.Mustache.Text
import TemplateCompiler.Proofs.Mustache.Stripping
import TemplateCompiler.Proofs.Mustache.Derivation
import TemplateCompiler.Proofs.Mustache.Soundness
import TemplateCompiler.Proofs.Mustache.Tokens
import TemplateCompiler.Proofs.Mustache.Completeness
import TemplateCompiler.Proofs.Mustache.Unambiguity
import TemplateCompiler.Proofs.Markup.Nesting
import TemplateCompiler.Proofs.Template.Items
import TemplateCompiler.Proofs.Template.Tags
import TemplateCompiler.Proofs.Markup.Reading
import TemplateCompiler.Proofs.Template.Text
import TemplateCompiler.Proofs.Template.Spans
import TemplateCompiler.Proofs.Mustache.Places
import TemplateCompiler.Proofs.Markup.Places
import TemplateCompiler.Proofs.Template.Places
import TemplateCompiler.Proofs.Template.Order
import TemplateCompiler.Proofs.Markup.Seams
import TemplateCompiler.Proofs.Markup.Collecting
import TemplateCompiler.Proofs.Markup.Printing
import TemplateCompiler.Proofs.Template.Closing
import TemplateCompiler.Proofs.Template.Flattening
import TemplateCompiler.Proofs.Template.Programs
import TemplateCompiler.Proofs.Template.Renaming
import TemplateCompiler.Proofs.Scope.Renaming
import TemplateCompiler.Proofs.Wire.Renaming
import TemplateCompiler.Proofs.Resolved.Around
import TemplateCompiler.Proofs.Resolved.FirstUse
import TemplateCompiler.Proofs.Resolved.Numbering
import TemplateCompiler.Proofs.Resolved.Given
import TemplateCompiler.Proofs.Resolved.Keeping
import TemplateCompiler.Proofs.Source.Places
import TemplateCompiler.Proofs.Mustache.Faults
import TemplateCompiler.Proofs.Markup.Cuts
import TemplateCompiler.Proofs.Template.Faults
import TemplateCompiler.Proofs.Resolved.Faults
import TemplateCompiler.Proofs.Compile.Places
import TemplateCompiler.Proofs.Mustache.Shapes
import TemplateCompiler.Proofs.Mustache.Trimming
import TemplateCompiler.Proofs.Wire.NamedBlocks
import TemplateCompiler.Proofs.Resolved.Capture
import TemplateCompiler.Proofs.Mustache.Pieces
import TemplateCompiler.Proofs.Mustache.Tildes
import TemplateCompiler.Proofs.Mustache.Paths
import TemplateCompiler.Proofs.Markup.Comments
import TemplateCompiler.Proofs.Markup.LineBreaks
import TemplateCompiler.Proofs.Mustache.Lines
import TemplateCompiler.Proofs.Markup.Placeless
import TemplateCompiler.Proofs.Mustache.Branches
import TemplateCompiler.Proofs.Mustache.Chains
import TemplateCompiler.Proofs.Template.Placeless
import TemplateCompiler.Proofs.Mustache.Kinds
import TemplateCompiler.Proofs.Mustache.Tagged
import TemplateCompiler.Proofs.Mustache.Relocation
import TemplateCompiler.Proofs.Mustache.Lookahead
import TemplateCompiler.Proofs.Mustache.Stretches
import TemplateCompiler.Proofs.Mustache.Links
import TemplateCompiler.Proofs.Mustache.LinkPlaces
import TemplateCompiler.Proofs.Mustache.LinkTexts
import TemplateCompiler.Proofs.Source.Slices
import TemplateCompiler.Proofs.Compile.Chains
import TemplateCompiler.Proofs.Wire.Attributes
import TemplateCompiler.Proofs.Template.Replacing
import TemplateCompiler.Proofs.Template.Visiting
import TemplateCompiler.Proofs.Template.Elements
import TemplateCompiler.Proofs.Template.BareAttributes
import TemplateCompiler.Proofs.Template.BlockParams
import TemplateCompiler.Proofs.Scope.Histories
import TemplateCompiler.Proofs.Source.Positions
import TemplateCompiler.Proofs.Mustache.Lengths
import TemplateCompiler.Proofs.Mustache.Tiling
import TemplateCompiler.Proofs.Mustache.Escapes
import TemplateCompiler.Proofs.Mustache.Literals
import TemplateCompiler.Proofs.Markup.Tiling
import TemplateCompiler.Proofs.Markup.References
import TemplateCompiler.Proofs.Compile.References
import TemplateCompiler.Proofs.Resolved.Callees
import TemplateCompiler.Proofs.Resolved.Naming
import TemplateCompiler.Proofs.Markup.Consuming

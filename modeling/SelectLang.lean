import SelectLang.Unicode.Alphabetic
import SelectLang.Unicode.Numeric
import SelectLang.Unicode.WhiteSpace
import SelectLang.Unicode.Case
import SelectLang.Text.Diagnostic
import SelectLang.Text.Lexeme
import SelectLang.Number.Notation
import SelectLang.Number.Fixed
import SelectLang.Syntax.Render
import SelectLang.Syntax.Tree
import SelectLang.Grammar.Script
import SelectLang.Json.Write
import SelectLang.Json.Read
import SelectLang.Value.Arithmetic
import SelectLang.Value.Document
import SelectLang.Value.Order
import SelectLang.Sort.Basic
import SelectLang.Schema.Catalog
import SelectLang.Plan.Cache
import SelectLang.Session.Basic
import SelectLang.SourcesFile.Read
import SelectLang.Manual
import SelectLang.Command.Basic
import SelectLang.Main
import SelectLang.Proofs.Text.Reading
import SelectLang.Proofs.Text.Consumption
import SelectLang.Proofs.Text.Words
import SelectLang.Proofs.Text.Results
import SelectLang.Proofs.Text.Entries
import SelectLang.Proofs.Text.Bytes
import SelectLang.Proofs.Text.Lockstep
import SelectLang.Proofs.Text.Troubles
import SelectLang.Proofs.Text.Rounds
import SelectLang.Proofs.Number.Rounding
import SelectLang.Proofs.Number.Positional
import SelectLang.Proofs.Number.Integers
import SelectLang.Proofs.Number.Denotation
import SelectLang.Proofs.Number.Decimals
import SelectLang.Proofs.Number.Vanishing
import SelectLang.Proofs.Number.Unpacked
import SelectLang.Proofs.Number.Arithmetic
import SelectLang.Proofs.Number.Standing
import SelectLang.Proofs.Value.Records
import SelectLang.Proofs.Value.Tokens
import SelectLang.Proofs.Value.Transitivity
import SelectLang.Proofs.Sort.Insertion
import SelectLang.Proofs.Value.Failures
import SelectLang.Proofs.Value.Normalizing
import SelectLang.Proofs.Value.Writing
import SelectLang.Proofs.Value.Exactness
import SelectLang.Proofs.Value.Numeric
import SelectLang.Proofs.Value.Linearity
import SelectLang.Proofs.Value.Mixed
import SelectLang.Proofs.Value.Products
import SelectLang.Proofs.Grammar.Progress
import SelectLang.Proofs.Grammar.Lockstep
import SelectLang.Proofs.Grammar.Spelling
import SelectLang.Proofs.Grammar.Endings
import SelectLang.Proofs.Grammar.Locality
import SelectLang.Proofs.Grammar.Naming
import SelectLang.Proofs.Grammar.Selections
import SelectLang.Proofs.Grammar.Edits
import SelectLang.Proofs.Grammar.Tokens
import SelectLang.Proofs.Grammar.Expressions
import SelectLang.Proofs.Grammar.Queries
import SelectLang.Proofs.Grammar.WellFormed
import SelectLang.Proofs.Grammar.Extension
import SelectLang.Proofs.Grammar.Troubles
import SelectLang.Proofs.Grammar.Scripts
import SelectLang.Proofs.Grammar.Entries
import SelectLang.Proofs.Grammar.Clauses
import SelectLang.Proofs.Grammar.Openers
import SelectLang.Proofs.Grammar.Diagnostics
import SelectLang.Proofs.Grammar.Repetitions
import SelectLang.Proofs.Grammar.Completion
import SelectLang.Proofs.Grammar.Reserved
import SelectLang.Proofs.Syntax.Printable
import SelectLang.Proofs.Syntax.Reread
import SelectLang.Proofs.Schema.Naming
import SelectLang.Proofs.Schema.Sources
import SelectLang.Proofs.Schema.Lookup
import SelectLang.Proofs.Schema.Bindings
import SelectLang.Proofs.Schema.Convention
import SelectLang.Proofs.Schema.Plurals
import SelectLang.Proofs.Schema.CamelCase
import SelectLang.Proofs.Plan.Compiling
import SelectLang.Proofs.Plan.Transparency
import SelectLang.Proofs.Plan.Rows
import SelectLang.Proofs.Plan.Ordering
import SelectLang.Proofs.Plan.Directions
import SelectLang.Proofs.Plan.Interpretation
import SelectLang.Proofs.Plan.Segments
import SelectLang.Proofs.Plan.Instances
import SelectLang.Proofs.Plan.Pages
import SelectLang.Proofs.Plan.Names
import SelectLang.Proofs.Plan.Acceptance
import SelectLang.Proofs.Plan.Typing
import SelectLang.Proofs.Plan.Columns
import SelectLang.Proofs.Plan.Formatting
import SelectLang.Proofs.SourcesFile.Serving
import SelectLang.Proofs.Session.Scopes
import SelectLang.Proofs.Session.Steps
import SelectLang.Proofs.Session.Aborts
import SelectLang.Proofs.Session.Independence
import SelectLang.Proofs.Session.Results
import SelectLang.Proofs.Command.Printing

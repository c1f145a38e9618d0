import AmdModules.Decimal.Shortest
import AmdModules.Dependencies
import AmdModules.Event
import AmdModules.Json.Number
import AmdModules.Json.Reader
import AmdModules.Json.Text
import AmdModules.Json.Value
import AmdModules.Json.Writer
import AmdModules.Loader.Call
import AmdModules.Loader.Definition
import AmdModules.MediaType
import AmdModules.Module.Analyze
import AmdModules.Module.Basic
import AmdModules.ModuleId
import AmdModules.Normalize.Edits
import AmdModules.Normalize.Text
import AmdModules.Parsing.Service
import AmdModules.Parsing.Store
import AmdModules.Profile.Basic
import AmdModules.Profile.Load
import AmdModules.Proofs.Dependencies.Plugin
import AmdModules.Proofs.Dependencies.Recording
import AmdModules.Proofs.Dependencies.TopLevel
import AmdModules.Proofs.Dependencies.Walk
import AmdModules.Proofs.Json.Ensures
import AmdModules.Proofs.Json.RoundTrip
import AmdModules.Proofs.Layout.Arguments
import AmdModules.Proofs.Layout.Expression
import AmdModules.Proofs.Layout.Function
import AmdModules.Proofs.Layout.Landmark
import AmdModules.Proofs.Layout.Member
import AmdModules.Proofs.Layout.Module
import AmdModules.Proofs.Layout.Pattern
import AmdModules.Proofs.Layout.Program
import AmdModules.Proofs.Layout.State
import AmdModules.Proofs.Layout.Statement
import AmdModules.Proofs.Layout.Tracking
import AmdModules.Proofs.Loader.Completion
import AmdModules.Proofs.Loader.Repair
import AmdModules.Proofs.Module.LifeCycle
import AmdModules.Proofs.Module.Requests
import AmdModules.Proofs.Module.Specifier
import AmdModules.Proofs.Normalize.Detour
import AmdModules.Proofs.Normalize.Differences
import AmdModules.Proofs.Normalize.Drift
import AmdModules.Proofs.Normalize.Filled
import AmdModules.Proofs.Normalize.Offered
import AmdModules.Proofs.Normalize.Removal
import AmdModules.Proofs.Normalize.Repeat
import AmdModules.Proofs.Normalize.Result
import AmdModules.Proofs.Normalize.Search
import AmdModules.Proofs.Normalize.Stripped
import AmdModules.Proofs.Normalize.Wrapped
import AmdModules.Proofs.Parsing.Agreement
import AmdModules.Proofs.Parsing.Cache
import AmdModules.Proofs.Profile.RoundTrip
import AmdModules.Proofs.Reread.Arguments
import AmdModules.Proofs.Reread.Completed
import AmdModules.Proofs.Reread.Expression
import AmdModules.Proofs.Reread.Filling
import AmdModules.Proofs.Reread.Function
import AmdModules.Proofs.Reread.Legible
import AmdModules.Proofs.Reread.Lexer
import AmdModules.Proofs.Reread.Literal
import AmdModules.Proofs.Reread.Member
import AmdModules.Proofs.Reread.Mirror
import AmdModules.Proofs.Reread.Module
import AmdModules.Proofs.Reread.Pattern
import AmdModules.Proofs.Reread.Plan
import AmdModules.Proofs.Reread.Program
import AmdModules.Proofs.Reread.Reading
import AmdModules.Proofs.Reread.Retrace
import AmdModules.Proofs.Reread.Statement
import AmdModules.Proofs.Reread.Twin
import AmdModules.Proofs.Reread.Lexeme
import AmdModules.Proofs.Script.Alphabet
import AmdModules.Proofs.Script.Blank
import AmdModules.Proofs.Script.Escape
import AmdModules.Proofs.Script.Token
import AmdModules.Proofs.Shim.Define
import AmdModules.Proofs.Shim.Exports
import AmdModules.Proofs.Shim.Grammar
import AmdModules.Proofs.Syntax.Expression
import AmdModules.Proofs.Syntax.Form
import AmdModules.Proofs.Syntax.Program
import AmdModules.Proofs.Text.Bytes
import AmdModules.Proofs.Text.Edits
import AmdModules.Proofs.Text.LineIndex
import AmdModules.Proofs.Text.Pattern
import AmdModules.Proofs.Text.Positions
import AmdModules.Proofs.Text.Split
import AmdModules.Proofs.Transform.Chain
import AmdModules.Proofs.Url.Plain
import AmdModules.Proofs.Url.Settled
import AmdModules.Script.Alphabet
import AmdModules.Script.Blank
import AmdModules.Script.Node
import AmdModules.Script.Parser.Basic
import AmdModules.Script.Parser.Class
import AmdModules.Script.Parser.Expression
import AmdModules.Script.Parser.Function
import AmdModules.Script.Parser.Literal
import AmdModules.Script.Parser.Markup
import AmdModules.Script.Parser.Member
import AmdModules.Script.Parser.Module
import AmdModules.Script.Parser.Pattern
import AmdModules.Script.Parser.Statement
import AmdModules.Script.Program
import AmdModules.Script.Quoted
import AmdModules.Script.Token
import AmdModules.Shim.Basic
import AmdModules.Shim.Json
import AmdModules.Text.Bytes
import AmdModules.Text.Digits
import AmdModules.Text.Edit
import AmdModules.Text.Lines
import AmdModules.Text.Spelled
import AmdModules.Text.Split
import AmdModules.Transform
import AmdModules.Unicode.Letter
import AmdModules.Unicode.Mark
import AmdModules.Unicode.Unshown
import AmdModules.Url.Basic
import AmdModules.Url.Encode
import AmdModules.Url.Host
import AmdModules.Url.Parse
import AmdModules.Url.Path

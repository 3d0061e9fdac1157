import LayoutCompose.Code.Call
import LayoutCompose.Code.Comment
import LayoutCompose.Code.Import
import LayoutCompose.Code.Line
import LayoutCompose.Code.Literal
import LayoutCompose.Code.Modifier
import LayoutCompose.Code.Name
import LayoutCompose.Code.Source
import LayoutCompose.Code.Stmt
import LayoutCompose.Code.Tidy
import LayoutCompose.Command.Check
import LayoutCompose.Command.Convert
import LayoutCompose.Command.Request
import LayoutCompose.Command.Session
import LayoutCompose.Conversion
import LayoutCompose.Diagnostic.Basic
import LayoutCompose.Diagnostic.Check
import LayoutCompose.Diagnostic.Survey
import LayoutCompose.Files.Path
import LayoutCompose.Files.Place
import LayoutCompose.Files.Tree
import LayoutCompose.Layout.Document
import LayoutCompose.Layout.Element
import LayoutCompose.Layout.Error
import LayoutCompose.Layout.Location
import LayoutCompose.Layout.Widget
import LayoutCompose.Main
import LayoutCompose.Markup.Ending
import LayoutCompose.Markup.Entity
import LayoutCompose.Markup.Fault
import LayoutCompose.Markup.Reader
import LayoutCompose.Markup.TagContent
import LayoutCompose.Number.Binary64
import LayoutCompose.Number.Digit
import LayoutCompose.Number.Integer
import LayoutCompose.Proofs.BalancedCode
import LayoutCompose.Proofs.Brackets
import LayoutCompose.Proofs.CallImports
import LayoutCompose.Proofs.CodeText
import LayoutCompose.Proofs.DepthGuard
import LayoutCompose.Proofs.DocumentShape
import LayoutCompose.Proofs.Imports
import LayoutCompose.Proofs.Limits
import LayoutCompose.Proofs.ModifierImports
import LayoutCompose.Proofs.ModifierOrder
import LayoutCompose.Proofs.Previews
import LayoutCompose.Proofs.Reading
import LayoutCompose.Proofs.Rejection
import LayoutCompose.Proofs.RejectionComment
import LayoutCompose.Proofs.Rendering
import LayoutCompose.Proofs.Scan
import LayoutCompose.Proofs.Survey
import LayoutCompose.Proofs.Tree
import LayoutCompose.Proofs.WrittenMarkup
import LayoutCompose.Settings
import LayoutCompose.Text.Blank
import LayoutCompose.Text.Json
import LayoutCompose.Text.Search
import LayoutCompose.Text.Uppercase
import LayoutCompose.Toml.Document
import LayoutCompose.Toml.Quoted
import LayoutCompose.Toml.Scalar
import LayoutCompose.Toml.Value
import LayoutCompose.Value.Argb
import LayoutCompose.Value.Dimension
import LayoutCompose.Value.Expr
import LayoutCompose.Value.Property
import LayoutCompose.Proofs.FileTrees
import LayoutCompose.Proofs.BatchConversion
import LayoutCompose.Proofs.CheckAgreement
import LayoutCompose.Proofs.OptionEffects
import LayoutCompose.Proofs.CodeForms
import LayoutCompose.Proofs.LineTexts
import LayoutCompose.Proofs.CallShape
import LayoutCompose.Proofs.Lookup
import LayoutCompose.Proofs.StringLiterals
import LayoutCompose.Proofs.BlockComments
import LayoutCompose.Proofs.AttributeOrder
import LayoutCompose.Proofs.LineComments
import LayoutCompose.Proofs.SlotTypes
import LayoutCompose.Proofs.TidyText
import LayoutCompose.Proofs.DiagnosticListing
import LayoutCompose.Proofs.ImportBlock
import LayoutCompose.Proofs.Refusals
import LayoutCompose.Proofs.FunctionNames
import LayoutCompose.Proofs.ResourceNames
import LayoutCompose.Proofs.ByteOrderMark
import LayoutCompose.Proofs.OpenElements
import LayoutCompose.Proofs.AttributeWrites
import LayoutCompose.Proofs.NamedArguments
import LayoutCompose.Proofs.ColorWords
import LayoutCompose.Proofs.LeadingIntegers
import LayoutCompose.Proofs.PackageNames
import LayoutCompose.Proofs.Indentation
import LayoutCompose.Proofs.JsonText
import LayoutCompose.Proofs.SharedOutputs
import LayoutCompose.Proofs.LibraryNames

import HtmlTemplate.Main
import HtmlTemplate.Proofs.Chunk.Hoisted
import HtmlTemplate.Proofs.Chunk.Nesting
import HtmlTemplate.Proofs.Chunk.Signed
import HtmlTemplate.Proofs.Directive.Arrangement
import HtmlTemplate.Proofs.Directive.Attributes
import HtmlTemplate.Proofs.Directive.Blocks
import HtmlTemplate.Proofs.Directive.Chain
import HtmlTemplate.Proofs.Directive.Composition
import HtmlTemplate.Proofs.Directive.Declarations
import HtmlTemplate.Proofs.Directive.Detaching
import HtmlTemplate.Proofs.Directive.Dialects
import HtmlTemplate.Proofs.Directive.Discarded
import HtmlTemplate.Proofs.Directive.Fate
import HtmlTemplate.Proofs.Directive.Handlers
import HtmlTemplate.Proofs.Directive.Levels
import HtmlTemplate.Proofs.Directive.Messages
import HtmlTemplate.Proofs.Directive.Pieces
import HtmlTemplate.Proofs.Directive.Quoting
import HtmlTemplate.Proofs.Directive.Reach
import HtmlTemplate.Proofs.Directive.Registry
import HtmlTemplate.Proofs.Directive.Script
import HtmlTemplate.Proofs.Directive.Settled
import HtmlTemplate.Proofs.Directive.Standing
import HtmlTemplate.Proofs.Directive.Survivors
import HtmlTemplate.Proofs.Directive.Termination
import HtmlTemplate.Proofs.Directive.Trace
import HtmlTemplate.Proofs.Directive.Transparency
import HtmlTemplate.Proofs.Disk.Growth
import HtmlTemplate.Proofs.Forest.Context
import HtmlTemplate.Proofs.Forest.Thin
import HtmlTemplate.Proofs.Markup.Building
import HtmlTemplate.Proofs.Markup.Instruction
import HtmlTemplate.Proofs.Markup.Interpolation
import HtmlTemplate.Proofs.Markup.Shape
import HtmlTemplate.Proofs.Markup.SourceBytes
import HtmlTemplate.Proofs.Markup.TagBytes
import HtmlTemplate.Proofs.Markup.ValueBytes
import HtmlTemplate.Proofs.Text.Bytes
import HtmlTemplate.Proofs.Tree.Document
import HtmlTemplate.Proofs.Tree.Links
import HtmlTemplate.Proofs.Tree.Navigation
import HtmlTemplate.Proofs.Tree.Nodes
import HtmlTemplate.Proofs.Tree.Shape
import HtmlTemplate.Proofs.Tree.Structure
import HtmlTemplate.Proofs.View.CompileOnce
import HtmlTemplate.Proofs.View.History
import HtmlTemplate.Proofs.View.Presence
import HtmlTemplate.Proofs.Cache.Transparent
import HtmlTemplate.Proofs.Forest.Replace
import HtmlTemplate.Proofs.Library.Registration
import HtmlTemplate.Proofs.Path.Components
import HtmlTemplate.Proofs.Tree.ChildLists
import HtmlTemplate.Proofs.Tree.EditEffect
import HtmlTemplate.Proofs.View.Location
import HtmlTemplate.Proofs.Directive.Continuation
import HtmlTemplate.Proofs.Directive.Dispatch
import HtmlTemplate.Proofs.Directive.Placeholders
import HtmlTemplate.Proofs.Tree.Traversal
import HtmlTemplate.Proofs.Chunk.Normal
import HtmlTemplate.Proofs.View.DirectoryOrder
import HtmlTemplate.Proofs.Dialect.Expression
import HtmlTemplate.Proofs.Directive.ClassList
import HtmlTemplate.Proofs.Path.Names
import HtmlTemplate.Proofs.Disk.Targets
import HtmlTemplate.Proofs.Disk.Ways
import HtmlTemplate.Proofs.View.Lookup
import HtmlTemplate.Proofs.Dialect.Scanner
import HtmlTemplate.Proofs.Dialect.Wrapping
import HtmlTemplate.Proofs.Arena.Effect
import HtmlTemplate.Proofs.Arena.Passes
import HtmlTemplate.Proofs.Chunk.Buffer

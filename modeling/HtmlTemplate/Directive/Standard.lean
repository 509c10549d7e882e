import HtmlTemplate.Directive.Attribute
import HtmlTemplate.Directive.Branching
import HtmlTemplate.Directive.Content
import HtmlTemplate.Directive.Placement

/-! # The standard directives -/

namespace HtmlTemplate.Registry

/-- The lead of directive attributes unless another is chosen. -/
def standardLead : String := "j:"

/-- The directives of the library with their priorities. -/
def standardDirectives : List Directive :=
  [⟨"ignore", 0, Handler.ignore⟩,
    ⟨"main", 10, Handler.mark⟩,
    ⟨"extend", 10, Handler.extend⟩,
    ⟨"layout", 10, Handler.layout⟩,
    ⟨"nolayout", 10, Handler.disableLayout⟩,
    ⟨"import", 15, Handler.importResource⟩,
    ⟨"imports", 15, Handler.importList⟩,
    ⟨"foreach", 20, Handler.loop⟩,
    ⟨"if", 30, Handler.condition⟩,
    ⟨"else", 30, Handler.otherwise⟩,
    ⟨"assign", 40, Handler.capture .beginBlock⟩,
    ⟨"append", 40, Handler.capture .appendBlock⟩,
    ⟨"prepend", 40, Handler.capture .prependBlock⟩,
    ⟨"embed", 50, Handler.replaceByCall .embed⟩,
    ⟨"block", 50, Handler.replaceByCall .block⟩,
    ⟨"outerhtml", 60, Handler.outer Handler.markup⟩,
    ⟨"innerhtml", 60, Handler.inner Handler.markup⟩,
    ⟨"outertext", 60, Handler.outer Handler.plainText⟩,
    ⟨"innertext", 60, Handler.inner Handler.plainText⟩,
    ⟨"html", 60, Handler.inner Handler.markup⟩,
    ⟨"text", 60, Handler.inner Handler.plainText⟩,
    ⟨"tr", 60, Handler.translate⟩,
    ⟨"tn", 60, Handler.translatePlural⟩,
    ⟨"datetime", 70, Handler.setToCall "datetime" .formatDate⟩,
    ⟨"src", 70, Handler.setToCall "src" .link⟩,
    ⟨"class", 70, Handler.addClass⟩,
    ⟨"file", 70, Handler.asset⟩,
    ⟨"href", 75, Handler.href⟩]

/-- The registry of the standard directives. -/
def standard (lead : String) : Registry :=
  ⟨lead, standardDirectives⟩

end HtmlTemplate.Registry

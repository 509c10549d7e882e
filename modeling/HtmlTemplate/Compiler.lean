import HtmlTemplate.Chunk
import HtmlTemplate.Directive.Pass
import HtmlTemplate.Directive.Standard
import HtmlTemplate.Markup.Document

/-! # The template compiler

Source is read into a document, its directives are run, and the result is written out in the
dialect.
-/

namespace HtmlTemplate

structure Compiler where
  registry : Registry
  dialect : Dialect

namespace Compiler

/-- The compiler with the standard directives behind the given lead. -/
def standard (d : Dialect) (lead : String) : Compiler :=
  ⟨Registry.standard lead, d⟩

def parse (c : Compiler) (source : String) : Tree :=
  Markup.parse c.registry.lead c.dialect source

/-- Runs the directives of a document. -/
def transform (c : Compiler) (t : Tree) : Run :=
  c.registry.run c.dialect t

def serialize (c : Compiler) (t : Tree) : String :=
  t.serialize c.dialect

/-- What comes of a pass: the text of its tree, unless something was wrong. -/
def finish (c : Compiler) (r : Run) : Except TemplateError String :=
  match r.error with
  | some e => .error e
  | none => .ok (c.serialize r.tree)

/-- The compiled text of a source. -/
def compile (c : Compiler) (source : String) : Except TemplateError String :=
  c.finish (c.transform (c.parse source))

theorem finish_eq_ok_iff {c : Compiler} {r : Run} {output : String} :
    c.finish r = .ok output ↔ r.error = none ∧ r.tree.serialize c.dialect = output := by
  unfold finish
  cases r.error with
  | some e => simp
  | none => simp [serialize]

end Compiler

end HtmlTemplate

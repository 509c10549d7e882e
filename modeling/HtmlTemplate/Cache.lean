import HtmlTemplate.Compiler
import HtmlTemplate.Text.Hash

/-! # Cached compilation

The cache holds, for each template name, the compiled text of the source last compiled under it and
the hash of that source. Only a source of another hash is compiled again, and a failure changes
nothing.
-/

namespace HtmlTemplate

structure CacheEntry where
  name : String
  /-- The hash of the source. -/
  hash : UInt64
  output : String
  deriving DecidableEq, Repr

structure Cache where
  entries : List CacheEntry
  deriving DecidableEq, Repr

namespace Cache

def empty : Cache := ⟨[]⟩

def find? (c : Cache) (name : String) : Option CacheEntry :=
  c.entries.find? (·.name = name)

def erase (c : Cache) (name : String) : Cache :=
  ⟨c.entries.filter (·.name ≠ name)⟩

/-- Holds an entry, in place of one of the same name. -/
def put (c : Cache) (entry : CacheEntry) : Cache :=
  ⟨entry :: (c.erase entry.name).entries⟩

def size (c : Cache) : Nat :=
  c.entries.length

/-- The compiled text of a source: the held one if a source of the same hash is held under this name,
else a new one, which is held from then on. -/
def compile (compiler : Compiler) (c : Cache) (name source : String) :
    Except TemplateError String × Cache :=
  match (c.find? name).filter (·.hash = contentHash source) with
  | some entry => (.ok entry.output, c)
  | none =>
    match compiler.compile source with
    | .ok output => (.ok output, c.put ⟨name, contentHash source, output⟩)
    | .error e => (.error e, c)

end Cache

end HtmlTemplate

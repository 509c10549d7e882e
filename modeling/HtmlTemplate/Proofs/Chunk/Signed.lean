import HtmlTemplate.Chunk
import HtmlTemplate.Proofs.Chunk.Nesting
import HtmlTemplate.Proofs.Markup.Content
import HtmlTemplate.Proofs.Tree.Nodes

/-! # Output with its brackets

The chunks of a node are written once more, each with the bracket that it is. The statements of
captured blocks are told by their numbers, those of conditions and loops by the nodes they are written
for. If the blocks below each node are in order among its children, and conditionals and loops stand in
no block, then the brackets of every node are nested (`nested_word`).
-/

namespace HtmlTemplate

open Forest Context

/-- The numbers of the statements that begin and end captured blocks. -/
abbrev Captures := List (NodeId × NodeId)

/-- The bracket that a node is, if it is a statement of a captured block. -/
def Node.sign (cs : Captures) (a : Node) : Option Bracket :=
  if a.kind.isStatement then
    match cs.find? (·.1 = a.id) with
    | some p => some (.beginBlock p.1)
    | none => (cs.find? (·.2 = a.id)).map fun p => .endBlock p.1
  else none

/-- A chunk, with the bracket that it is. -/
abbrev Signed := Option Bracket × Chunk

/-- A tree as it is written, like `Block`. -/
structure SignedBlock where
  chunks : List Signed
  filled : Bool

namespace SignedBlock

def toBlock (b : SignedBlock) : Block :=
  ⟨b.chunks.map Prod.snd, b.filled⟩

def sequence (blocks : List SignedBlock) : List Signed :=
  blocks.flatMap chunks

end SignedBlock

def unsigned (chunks : List Chunk) : List Signed :=
  chunks.map fun c => (none, c)

/-- A node around what its children are written as. -/
def Node.signed (d : Dialect) (cs : Captures) (inner : List SignedBlock) (a : Node) : List Signed :=
  match a.kind with
  | .document | .branch => SignedBlock.sequence inner
  | .text t => [(none, .text t)]
  | .code f => [(a.sign cs, .code f)]
  | .element e =>
    if isVoid e.tag then unsigned e.startChunks
    else unsigned e.startChunks ++ SignedBlock.sequence inner ++
      unsigned [.text ("</" ++ e.tag ++ ">")]
  | .conditional test =>
    let otherwise := match inner.getLast? with
      | some b =>
        if b.filled then (some .beginElse, .code (Fragment.statement d.beginElse)) :: b.chunks else []
      | none => []
    (some .beginIf, .code (Fragment.statement (d.beginIf test))) ::
      (SignedBlock.sequence inner.head?.toList ++ otherwise ++
        [(some .endIf, .code (Fragment.statement d.endIf))])
  | .loop binding =>
    (some .beginLoop, .code (Fragment.statement (d.beginLoop binding))) ::
      (SignedBlock.sequence inner ++ [(some .endLoop, .code (Fragment.statement d.endLoop))])

/-- The trees of a forest as they are written. -/
def Forest.signed (d : Dialect) (cs : Captures) : Forest Node → List SignedBlock
  | nil => []
  | cons a c r => ⟨a.signed d cs (signed d cs c), !c.isEmpty⟩ :: signed d cs r

/-- A node of a tree as it is written. -/
def Tree.signed (d : Dialect) (cs : Captures) (t : Tree) (n : NodeId) : List Signed :=
  match t.find? n with
  | some (k, c) => Node.signed d cs (c.signed d cs) ⟨n, k⟩
  | none => []

/-! ## What is written is the same -/

section Erase

variable {d : Dialect} {cs : Captures}

@[simp] theorem map_snd_unsigned (chunks : List Chunk) : (unsigned chunks).map Prod.snd = chunks := by
  simp [unsigned, Function.comp_def]

theorem map_snd_sequence (blocks : List SignedBlock) :
    (SignedBlock.sequence blocks).map Prod.snd = Block.sequence (blocks.map SignedBlock.toBlock) := by
  simp [SignedBlock.sequence, Block.sequence, SignedBlock.toBlock, List.map_flatMap, List.flatMap_map]

theorem Node.map_snd_signed (inner : List SignedBlock) (a : Node) :
    (a.signed d cs inner).map Prod.snd = a.kind.chunks d (inner.map SignedBlock.toBlock) := by
  unfold Node.signed Kind.chunks
  cases a.kind with
  | document => exact map_snd_sequence inner
  | branch => exact map_snd_sequence inner
  | text t => rfl
  | code f => rfl
  | element e =>
    dsimp only
    split
    · exact map_snd_unsigned _
    · simp [map_snd_sequence]
  | conditional test =>
    have hhead : inner.head?.toList.map SignedBlock.toBlock =
        (inner.map SignedBlock.toBlock).head?.toList := by
      cases inner <;> rfl
    simp only [List.map_cons, List.map_append, map_snd_sequence, hhead, List.getLast?_map]
    cases inner.getLast? with
    | none => rfl
    | some b =>
      simp only [Option.map_some]
      cases hb : b.filled with
      | false => simp [SignedBlock.toBlock, hb]
      | true => simp [SignedBlock.toBlock, hb]
  | loop binding => simp [map_snd_sequence]

theorem Forest.map_toBlock_signed (f : Forest Node) :
    (f.signed d cs).map SignedBlock.toBlock = f.kinds.blocks d := by
  induction f with
  | nil => rfl
  | cons a c r ihc ihr =>
    rw [Forest.signed, List.map_cons, ihr]
    have hhead : SignedBlock.toBlock ⟨a.signed d cs (c.signed d cs), !c.isEmpty⟩ =
        ⟨a.kind.chunks d (c.kinds.blocks d), !c.kinds.isEmpty⟩ := by
      have hempty : c.kinds.isEmpty = c.isEmpty := by
        cases c <;> rfl
      rw [SignedBlock.toBlock, Node.map_snd_signed, ihc, hempty]
    rw [hhead]
    rfl

/-- Without the brackets, a node is written as its chunks. -/
theorem Tree.join_signed (t : Tree) (n : NodeId) :
    Chunk.join ((t.signed d cs n).map Prod.snd) = t.chunks d n := by
  unfold Tree.signed Tree.chunks Tree.kindsAt
  cases t.find? n with
  | none => rfl
  | some x =>
    obtain ⟨k, c⟩ := x
    dsimp only
    rw [Node.map_snd_signed, Forest.map_toBlock_signed, Forest.chunks, tree, Forest.blocks, Forest.blocks]
    simp [Block.sequence]

end Erase

/-! ## Blocks among the children of a node -/

/-- A node that stands in no block: a conditional, a loop, or one of the given nodes. -/
def Node.isOuter (free : List NodeId) (a : Node) : Bool :=
  a.kind.isConditional || a.kind.isLoop || free.contains a.id

/-- Which blocks are open after a node. There is none if a statement does not fit, or if the node stands
in a block and may not. -/
def Node.scan (free : List NodeId) (cs : Captures) (st : List Bracket.Opened) (a : Node) :
    Option (List Bracket.Opened) :=
  match a.sign cs with
  | some b => b.step st
  | none => if a.isOuter free = true ∧ st ≠ [] then none else some st

namespace Forest

def scan (free : List NodeId) (cs : Captures) (st : List Bracket.Opened) (f : Forest Node) :
    Option (List Bracket.Opened) :=
  f.roots.foldlM (Node.scan free cs) st

/-- The blocks below each node are in order. -/
def Tidy (free : List NodeId) (cs : Captures) : Forest Node → Prop
  | nil => True
  | cons _ c r => c.scan free cs [] = some [] ∧ Tidy free cs c ∧ Tidy free cs r

/-- The blocks among the trees and below each node are in order. -/
def Level (free : List NodeId) (cs : Captures) (f : Forest Node) : Prop :=
  f.scan free cs [] = some [] ∧ f.Tidy free cs

end Forest

section Scan

variable {free : List NodeId} {cs : Captures} {st st' : List Bracket.Opened} {f g l c r : Forest Node}
  {a : Node} {ks : Context}

theorem Node.sign_eq_none (h : a.kind.isStatement = false) : a.sign cs = none := by
  rw [sign, h]
  rfl

theorem Node.scan_of_sign_eq_none (hsign : a.sign cs = none) (h : a.scan free cs st = some st') :
    st' = st ∧ (a.isOuter free = true → st = []) := by
  rw [scan, hsign] at h
  dsimp only at h
  split at h
  · cases h
  · rename_i hno
    cases h
    exact ⟨rfl, fun hout => Classical.byContradiction fun hst => hno ⟨hout, hst⟩⟩

theorem Node.scan_inner (hsign : a.sign cs = none) (h : a.isOuter free = false)
    (st : List Bracket.Opened) : a.scan free cs st = some st := by
  rw [scan, hsign, h]
  simp

theorem Node.scan_empty (hsign : a.sign cs = none) : a.scan free cs [] = some [] := by
  rw [scan, hsign]
  simp

namespace Forest

@[simp] theorem scan_nil (st : List Bracket.Opened) : (nil : Forest Node).scan free cs st = some st := rfl

@[simp] theorem scan_cons (a : Node) (c r : Forest Node) (st : List Bracket.Opened) :
    (cons a c r).scan free cs st = (a.scan free cs st).bind (r.scan free cs ·) := rfl

@[simp] theorem scan_tree (a : Node) (c : Forest Node) (st : List Bracket.Opened) :
    (tree a c).scan free cs st = a.scan free cs st := by
  rw [tree, scan_cons]
  exact Option.bind_fun_some (a.scan free cs st)

@[simp] theorem scan_append (f g : Forest Node) (st : List Bracket.Opened) :
    (f ++ g).scan free cs st = (f.scan free cs st).bind (g.scan free cs ·) := by
  rw [scan, roots_append, List.foldlM_append]
  rfl

@[simp] theorem tidy_append : (f ++ g).Tidy free cs ↔ f.Tidy free cs ∧ g.Tidy free cs := by
  induction f with
  | nil => simp [Tidy]
  | cons a c f _ ih => simp [Tidy, ih, and_assoc]

@[simp] theorem level_nil : (nil : Forest Node).Level free cs := ⟨rfl, trivial⟩

theorem Level.append (hf : f.Level free cs) (hg : g.Level free cs) : (f ++ g).Level free cs := by
  refine ⟨?_, tidy_append.2 ⟨hf.2, hg.2⟩⟩
  rw [scan_append, hf.1]
  exact hg.1

theorem Level.tree (hsign : a.sign cs = none) (hc : c.Level free cs) :
    (tree a c).Level free cs := by
  refine ⟨?_, hc.1, hc.2, trivial⟩
  rw [scan_tree, Node.scan_empty hsign]

/-- The trees before and behind a node that stands in no block are in order by themselves. -/
theorem Level.split (h : (l ++ cons a c r).Level free cs) (hsign : a.sign cs = none)
    (hout : a.isOuter free = true) : l.Level free cs ∧ c.Level free cs ∧ r.Level free cs := by
  obtain ⟨hscan, htidy⟩ := h
  obtain ⟨hl, hc, hc', hr⟩ := tidy_append.1 htidy
  rw [scan_append, Option.bind_eq_some_iff] at hscan
  obtain ⟨st, hst, hrest⟩ := hscan
  rw [scan_cons, Option.bind_eq_some_iff] at hrest
  obtain ⟨st', ha, hrest⟩ := hrest
  obtain ⟨rfl, hnil⟩ := Node.scan_of_sign_eq_none hsign ha
  rw [hnil hout] at hst hrest
  exact ⟨⟨hst, hl⟩, ⟨hc, hc'⟩, hrest, hr⟩

/-- A node that is no bracket may be replaced by trees that change nothing at its place. -/
theorem Level.replace (h : (l ++ cons a c r).Level free cs) (hsign : a.sign cs = none)
    (hg : g.Tidy free cs) (hscan : ∀ st, a.scan free cs st = some st → g.scan free cs st = some st) :
    (l ++ (g ++ r)).Level free cs := by
  obtain ⟨hlevel, htidy⟩ := h
  obtain ⟨hl, -, -, hr⟩ := tidy_append.1 htidy
  refine ⟨?_, tidy_append.2 ⟨hl, tidy_append.2 ⟨hg, hr⟩⟩⟩
  rw [scan_append, Option.bind_eq_some_iff] at hlevel ⊢
  obtain ⟨st, hst, hrest⟩ := hlevel
  rw [scan_cons, Option.bind_eq_some_iff] at hrest
  obtain ⟨st', ha, hrest⟩ := hrest
  obtain ⟨rfl, -⟩ := Node.scan_of_sign_eq_none hsign ha
  refine ⟨st', hst, ?_⟩
  rw [scan_append, hscan st' ha]
  exact hrest

/-- Whether what stands in a gap is in order does not depend on what is around it. -/
theorem Level.of_close (h : (close ks f).Level free cs) :
    f.Level free cs ∧ ∀ g : Forest Node, g.Level free cs → (close ks g).Level free cs := by
  induction ks generalizing f with
  | nil => exact ⟨h, fun g hg => hg⟩
  | cons k ks ih =>
    obtain ⟨⟨hscan, htidy⟩, hrest⟩ := ih h
    obtain ⟨hb, hf, hf', ha⟩ := tidy_append.1 htidy
    refine ⟨⟨hf, hf'⟩, fun g hg => hrest _ ⟨?_, tidy_append.2 ⟨hb, hg.1, hg.2, ha⟩⟩⟩
    rw [scan_append] at hscan ⊢
    exact hscan

end Forest

section Congr

variable {free' : List NodeId} {cs' : Captures} (hfree : free' ⊆ free)

include hfree

theorem Node.scan_congr (hsign : a.sign cs' = a.sign cs) (h : a.scan free cs st = some st') :
    a.scan free' cs' st = some st' := by
  cases hs : a.sign cs with
  | some b =>
    rw [scan, hs] at h
    rw [scan, hsign, hs]
    exact h
  | none =>
    obtain ⟨rfl, hnil⟩ := Node.scan_of_sign_eq_none hs h
    have hout : a.isOuter free' = true → a.isOuter free = true := by
      simp only [isOuter, Bool.or_eq_true, List.contains_iff_mem]
      exact Or.imp_right fun hmem => hfree hmem
    rw [scan, hsign, hs]
    exact if_neg fun hno => hno.2 (hnil (hout hno.1))

theorem Forest.scan_congr (hsign : ∀ x ∈ f.preorder, x.sign cs' = x.sign cs)
    (h : f.scan free cs st = some st') : f.scan free' cs' st = some st' := by
  induction f generalizing st with
  | nil => exact h
  | cons a c f _ ih =>
    rw [preorder_cons, List.forall_mem_cons, List.forall_mem_append] at hsign
    rw [scan_cons, Option.bind_eq_some_iff] at h ⊢
    obtain ⟨st₁, ha, hf⟩ := h
    exact ⟨st₁, Node.scan_congr hfree hsign.1 ha, ih hsign.2.2 hf⟩

/-- With fewer nodes that must stand in no block, what is in order stays so, as long as each node is the
same bracket. -/
theorem Forest.Level.congr (h : f.Level free cs) (hsign : ∀ x ∈ f.preorder, x.sign cs' = x.sign cs) :
    f.Level free' cs' := by
  refine ⟨scan_congr hfree hsign h.1, ?_⟩
  replace h := h.2
  induction f with
  | nil => exact trivial
  | cons a c f ihc ihf =>
    rw [preorder_cons, List.forall_mem_cons, List.forall_mem_append] at hsign
    obtain ⟨hc, hc', hf⟩ := h
    exact ⟨scan_congr hfree hsign.2.1 hc, ihc hsign.2.1 hc', ihf hsign.2.2 hf⟩

end Congr

/-- Without blocks everything is in order. -/
theorem Forest.level_of_nil (free : List NodeId) (f : Forest Node) : f.Level free [] := by
  have hsign (a : Node) : a.sign [] = none := by
    rw [Node.sign]
    split <;> rfl
  have hscan (f : Forest Node) : f.scan free [] [] = some [] := by
    induction f with
    | nil => rfl
    | cons a c f _ ih => rw [scan_cons, Node.scan_empty (hsign a), Option.bind_some, ih]
  refine ⟨hscan f, ?_⟩
  induction f with
  | nil => exact trivial
  | cons a c f ihc ihf => exact ⟨hscan c, ihc, ihf⟩

/-! ## Nested words -/

theorem Forest.read_signs (h : f.scan free cs st = some st') :
    Bracket.read st (f.roots.filterMap (Node.sign cs)) = some st' := by
  induction f generalizing st with
  | nil => exact h
  | cons a c f _ ih =>
    rw [scan_cons, Option.bind_eq_some_iff] at h
    obtain ⟨st₁, ha, hf⟩ := h
    have hroots : (cons a c f).roots = a :: f.roots := rfl
    cases hs : a.sign cs with
    | some b =>
      rw [Node.scan, hs] at ha
      rw [hroots, List.filterMap_cons_some hs, Bracket.read_cons, show b.step st = some st₁ from ha]
      exact ih hf
    | none =>
      obtain ⟨rfl, -⟩ := Node.scan_of_sign_eq_none hs ha
      rw [hroots, List.filterMap_cons_none hs]
      exact ih hf

/-- The brackets of a node with the given trees below it. -/
def Node.word (d : Dialect) (cs : Captures) (c : Forest Node) (a : Node) : List Bracket :=
  (a.signed d cs (c.signed d cs)).filterMap Prod.fst

def Forest.word (d : Dialect) (cs : Captures) (f : Forest Node) : List Bracket :=
  (SignedBlock.sequence (f.signed d cs)).filterMap Prod.fst

end Scan

section Word

variable {d : Dialect} {free : List NodeId} {cs : Captures}

@[simp] theorem filterMap_unsigned (chunks : List Chunk) :
    (unsigned chunks).filterMap Prod.fst = [] := by
  simp [unsigned]

theorem Forest.word_cons (a : Node) (c r : Forest Node) :
    (cons a c r).word d cs = a.word d cs c ++ r.word d cs := by
  rw [word, word, Node.word, Forest.signed, SignedBlock.sequence, List.flatMap_cons,
    List.filterMap_append]
  rfl

/-- A conditional is written with its first branch, and with the second one if there is something in it. -/
theorem Node.exists_branches (d : Dialect) (cs : Captures) {a : Node} {c : Forest Node} {test : String}
    (hk : a.kind = .conditional test) (hadmits : a.kind.admits c.rootKinds) :
    ∃ (b₁ b₂ : Node) (c₁ c₂ : Forest Node), c = cons b₁ c₁ (tree b₂ c₂) ∧ b₁.kind = .branch ∧
      b₂.kind = .branch ∧ a.word d cs c = .beginIf :: (b₁.word d cs c₁ ++
        ((if c₂.isEmpty then [] else .beginElse :: b₂.word d cs c₂) ++ [.endIf])) := by
  rw [hk, Kind.admits] at hadmits
  obtain ⟨b₁, b₂, c₁, c₂, rfl, h₁, h₂⟩ := exists_of_rootKinds hadmits
  refine ⟨b₁, b₂, c₁, c₂, rfl, h₁, h₂, ?_⟩
  cases hc₂ : c₂.isEmpty <;>
    simp [Node.word, Node.signed, hk, Forest.signed, SignedBlock.sequence, hc₂, tree]

/-- Around nested words below it, a node is a nested word, unless it is a statement. -/
theorem Node.nested_word {a : Node} {c : Forest Node} (hleaf : a.kind.isLeaf = false)
    (hadmits : a.kind.admits c.rootKinds) (hc : Bracket.Nested (c.word d cs))
    (hroots : ∀ l b e r, c = l ++ cons b e r → b.kind.isLeaf = false →
      Bracket.Nested (b.word d cs e)) : Bracket.Nested (a.word d cs c) := by
  cases hk : a.kind with
  | document =>
    have hword : a.word d cs c = c.word d cs := by rw [word, Node.signed, hk]; rfl
    rw [hword]
    exact hc
  | branch =>
    have hword : a.word d cs c = c.word d cs := by rw [word, Node.signed, hk]; rfl
    rw [hword]
    exact hc
  | text t =>
    rw [hk] at hleaf
    cases hleaf
  | code f =>
    rw [hk] at hleaf
    cases hleaf
  | element e =>
    rw [word, Node.signed, hk]
    dsimp only
    split
    · rw [filterMap_unsigned]
      exact .nil
    · rw [List.filterMap_append, List.filterMap_append, filterMap_unsigned, filterMap_unsigned,
        List.nil_append, List.append_nil]
      exact hc
  | conditional test =>
    obtain ⟨b₁, b₂, c₁, c₂, rfl, h₁, h₂, hword⟩ := Node.exists_branches d cs hk hadmits
    have hfirst : Bracket.Nested (b₁.word d cs c₁) := hroots nil b₁ c₁ _ rfl (by rw [h₁]; rfl)
    have hsecond : Bracket.Nested (b₂.word d cs c₂) :=
      hroots (tree b₁ c₁) b₂ c₂ nil rfl (by rw [h₂]; rfl)
    rw [hword]
    split
    · exact hfirst.condition
    · exact hfirst.alternative hsecond
  | loop binding =>
    have hword : a.word d cs c = .beginLoop :: (c.word d cs ++ [.endLoop]) := by
      simp [word, Node.signed, hk, Forest.word]
    rw [hword]
    exact hc.loop

/-- What is open after a node that is a nested word or a leaf. -/
theorem Node.read_word {a : Node} {c : Forest Node} {st st' : List Bracket.Opened}
    (hword : a.kind.isLeaf = false → Bracket.Nested (a.word d cs c))
    (h : a.scan free cs st = some st') : Bracket.read st (a.word d cs c) = some st' := by
  cases hleaf : a.kind.isLeaf with
  | false =>
    have hsign : a.sign cs = none := by
      refine Node.sign_eq_none ?_
      cases hk : a.kind with
      | code f =>
        rw [hk] at hleaf
        cases hleaf
      | document | text _ | element _ | conditional _ | branch | loop _ => rfl
    obtain ⟨rfl, -⟩ := Node.scan_of_sign_eq_none hsign h
    exact (hword hleaf).read_eq st'
  | true =>
    have hown : a.word d cs c = (a.sign cs).toList := by
      cases hk : a.kind with
      | text t =>
        have hsign : a.sign cs = none := Node.sign_eq_none (by rw [hk]; rfl)
        simp [word, Node.signed, hk, hsign]
      | code f => cases hsign : a.sign cs <;> simp [word, Node.signed, hk, hsign]
      | document | element _ | conditional _ | branch | loop _ =>
        rw [hk] at hleaf
        cases hleaf
    rw [hown]
    cases hsign : a.sign cs with
    | none =>
      obtain ⟨rfl, -⟩ := Node.scan_of_sign_eq_none hsign h
      rfl
    | some b =>
      rw [scan, hsign] at h
      simpa using h

theorem Forest.read_word {f : Forest Node} (hsorted : f.Sorted) (htidy : f.Tidy free cs) :
    (∀ st st', f.scan free cs st = some st' → Bracket.read st (f.word d cs) = some st') ∧
      ∀ l a c r, f = l ++ cons a c r → a.kind.isLeaf = false → Bracket.Nested (a.word d cs c) := by
  induction f with
  | nil =>
    refine ⟨fun st st' h => h, fun l a c r h => ?_⟩
    cases l <;> cases h
  | cons a c f ihc ihf =>
    obtain ⟨hadmits, hsc, hsf⟩ := hsorted
    obtain ⟨hscan, htc, htf⟩ := htidy
    obtain ⟨hreadc, hrootsc⟩ := ihc hsc htc
    obtain ⟨hreadf, hrootsf⟩ := ihf hsf htf
    have hnode : a.kind.isLeaf = false → Bracket.Nested (a.word d cs c) := fun hleaf =>
      Node.nested_word hleaf hadmits (Bracket.nested_iff.2 (hreadc [] [] hscan)) hrootsc
    refine ⟨fun st st' h => ?_, fun l b e r h hleaf => ?_⟩
    · rw [scan_cons, Option.bind_eq_some_iff] at h
      obtain ⟨st₁, ha, hf⟩ := h
      rw [word_cons, Bracket.read_append]
      rw [Node.read_word hnode ha]
      exact hreadf st₁ st' hf
    · cases l with
      | nil =>
        cases h
        exact hnode hleaf
      | cons b' e' l =>
        cases h
        exact hrootsf l b e r rfl hleaf

end Word

namespace Tree

variable {t : Tree} {d : Dialect} {free : List NodeId} {cs : Captures} {n : NodeId}

theorem Shaped.exists_level (ht : t.Shaped) (h : (t.below root).Level free cs)
    (hn : n ∈ t.descendants root) :
    ∃ (a : Node) (c : Forest Node), a.id = n ∧ t.find? n = some (a.kind, c) ∧ c.Level free cs ∧
      c.Sorted ∧ a.kind.admits c.rootKinds := by
  obtain ⟨content, loose, hf, ht'⟩ := ht.exists_content
  rw [ht'] at h hn
  rw [below_root, close_nil] at h
  rw [descendants_root, close_nil, List.mem_cons] at hn
  obtain ⟨ks, l, a, c, r, ha, hplace, hlevel⟩ : ∃ (ks : Context) (l : Forest Node) (a : Node)
      (c r : Forest Node), a.id = n ∧ t.forest = close ks (l ++ cons a c r) ∧ c.Level free cs := by
    rcases hn with rfl | hn
    · exact ⟨[], nil, ⟨root, .document⟩, content, loose, rfl, hf, h⟩
    · obtain ⟨ks, l, a, c, r, ha, rfl⟩ := exists_close hn
      have htidy := (tidy_append.1 h.of_close.1.2).2
      refine ⟨ks ++ [documentFrame loose], l, a, c, r, ha, ?_, htidy.1, htidy.2.1⟩
      rw [close_append, hf]
      rfl
  have hsorted := ht.orderly
  rw [hplace, orderly_close] at hsorted
  have hbelow := ((sorted_append ..).1 hsorted.1).2
  exact ⟨a, c, ha, ha ▸ find?_at ht.numbered.nodup hplace, hlevel, hbelow.2.1, hbelow.1⟩

/-- If all blocks are in order, those among the children of a node are nested, and so is what is written
for every node that is no leaf. -/
theorem Shaped.nested_signed (ht : t.Shaped) (h : (t.below root).Level free cs)
    (hn : n ∈ t.descendants root) :
    Bracket.Nested ((t.below n).roots.filterMap (Node.sign cs)) ∧
      ∀ k, t.kind? n = some k → k.isLeaf = false →
        Bracket.Nested ((t.signed d cs n).filterMap Prod.fst) := by
  obtain ⟨a, c, rfl, hfind, hlevel, hsorted, hadmits⟩ := ht.exists_level h hn
  obtain ⟨hread, hroots⟩ := Forest.read_word (d := d) hsorted hlevel.2
  rw [below, signed, hfind]
  refine ⟨Bracket.nested_iff.2 (Forest.read_signs hlevel.1), fun k hk hleaf => ?_⟩
  rw [kind?, hfind] at hk
  cases hk
  exact Node.nested_word hleaf hadmits (Bracket.nested_iff.2 (hread [] [] hlevel.1)) hroots

end Tree

end HtmlTemplate

import HtmlTemplate.Markup.Document
import HtmlTemplate.Proofs.Tree.Structure

/-! # What reading a source makes

The content of a document that was read consists of elements, text and code, and text and code have
nothing below them (`isMarkup_content`). Its nodes are numbered in document order.
-/

namespace HtmlTemplate

open Forest

/-- Kinds of nodes that never have anything below them. -/
def Kind.isLeaf : Kind → Bool
  | text _ | code _ => true
  | _ => false

/-- Kinds of nodes that are not read from a source. -/
def Kind.isMade : Kind → Bool
  | conditional _ | branch | loop _ => true
  | _ => false

theorem Kind.isMade_of_isLoop {k : Kind} (h : k.isLoop = true) : k.isMade = true := by
  cases k <;> simp_all [isLoop, isMade]

namespace Forest

/-- Elements, and text and code with nothing below them. -/
def IsMarkup : Forest Kind → Prop
  | nil => True
  | cons k c r => (k.isElement = true ∨ k.isLeaf = true ∧ c = nil) ∧ IsMarkup c ∧ IsMarkup r

@[simp] theorem isMarkup_nil : IsMarkup nil := trivial

theorem IsMarkup.element {e : Element} {c r : Forest Kind} (hc : c.IsMarkup) (hr : r.IsMarkup) :
    (cons (.element e) c r).IsMarkup :=
  ⟨Or.inl rfl, hc, hr⟩

theorem IsMarkup.leaf {k : Kind} {r : Forest Kind} (hk : k.isLeaf = true) (hr : r.IsMarkup) :
    (cons k nil r).IsMarkup :=
  ⟨Or.inr ⟨hk, rfl⟩, trivial, hr⟩

theorem IsMarkup.append {f g : Forest Kind} (hf : f.IsMarkup) (hg : g.IsMarkup) : (f ++ g).IsMarkup := by
  induction f with
  | nil => exact hg
  | cons k c r _ ih => exact ⟨hf.1, hf.2.1, ih hf.2.2⟩

end Forest

/-! ## Tokens -/

namespace Token

/-- The start tag of a token that becomes an element. -/
def tag? : Token → Option Tag
  | leaf tag | raw tag _ | opening tag => some tag
  | _ => none

/-- What holds of text, end tags, expressions and start tags holds of every token. -/
theorem forall_scan {P : Token → Prop} (htext : ∀ s, P (text s)) (hclosing : ∀ name s, P (closing name s))
    (hcode : ∀ e, P (code e)) (hopening : ∀ {s : List Char} {r}, opening? s = some r → P r.1) (s : List Char) :
    ∀ token ∈ scan s, P token := by
  have hnext (c : Char) (s : List Char) : P (next c s).1 := by
    unfold next
    split
    · rename_i r h
      simp only [Option.orElse_eq_orElse, Option.orElse_eq_or, Option.or_eq_some_iff] at h
      rcases h with h | ⟨-, h | ⟨-, h | ⟨-, h⟩⟩⟩
      · unfold aside? at h
        split at h <;> cases h <;> exact htext _
      · unfold closing? at h
        split at h
        · obtain ⟨_, -, rfl⟩ := Option.map_eq_some_iff.1 h
          exact hclosing _ _
        · cases h
      · exact hopening h
      · unfold code? at h
        split at h
        · split at h
          · split at h <;> cases h
            exact hcode _
          · cases h
        · cases h
    · exact htext _
  fun_induction scan s with
  | case1 => exact List.forall_mem_nil _
  | case2 c s r ih => exact List.forall_mem_cons.2 ⟨hnext c s, ih⟩

/-- What is opened may have content, and raw text is no content to be opened. -/
def Opens : Token → Prop
  | opening tag => isVoid tag.name = false ∧ isRawText tag.name = false
  | raw tag _ => isVoid tag.name = false
  | _ => True

theorem opens_opening? {s : List Char} {r : Token × List Char} (h : opening? s = some r) : r.1.Opens := by
  unfold opening? at h
  split at h
  · split at h
    · obtain ⟨⟨a, b⟩, -, rfl⟩ := Option.map_eq_some_iff.1 h
      dsimp only
      split
      · trivial
      · rename_i hvoid
        have hvoid := Bool.eq_false_iff.2 fun h => hvoid (Or.inr h)
        split
        · exact hvoid
        · rename_i hraw
          exact ⟨hvoid, Bool.eq_false_iff.2 hraw⟩
    · cases h
  · cases h

theorem opens_scan (s : List Char) : ∀ token ∈ scan s, token.Opens :=
  forall_scan (fun _ => trivial) (fun _ _ => trivial) (fun _ => trivial) opens_opening? s

/-- A start tag is read from what stands between its brackets. -/
theorem exists_ofChars {s : List Char} {r : Token × List Char} (h : opening? s = some r) :
    ∀ tag, r.1.tag? = some tag → ∃ u, Tag.ofChars u = tag := by
  unfold opening? at h
  split at h
  · split at h
    · obtain ⟨⟨a, b⟩, -, rfl⟩ := Option.map_eq_some_iff.1 h
      dsimp only
      split
      · exact fun tag htag => ⟨_, Option.some.inj htag⟩
      · split
        · exact fun tag htag => ⟨_, Option.some.inj htag⟩
        · exact fun tag htag => ⟨_, Option.some.inj htag⟩
    · cases h
  · cases h

end Token

/-! ## Nesting -/

theorem Element.tag_ofMarkup (lead : String) (d : Dialect) (tag : Tag) :
    (Element.ofMarkup lead d tag).tag = tag.name :=
  List.foldlRecOn (motive := fun e : Element => e.tag = tag.name) tag.attributes _ rfl fun _ he _ _ => he

namespace Markup

/-- The start tags of a source. -/
def tags (source : String) : List Tag :=
  (Token.scan source.toList).filterMap Token.tag?

theorem exists_ofChars_of_mem_tags {source : String} {tag : Tag} (h : tag ∈ tags source) :
    ∃ u, Tag.ofChars u = tag := by
  obtain ⟨token, htoken, htag⟩ := List.mem_filterMap.1 h
  exact Token.forall_scan (P := fun token => ∀ tag, token.tag? = some tag → ∃ u, Tag.ofChars u = tag)
    (fun _ => nofun) (fun _ _ => nofun) (fun _ => nofun) Token.exists_ofChars source.toList token htoken tag htag

/-- What holds of forests however they are put together from elements of the given tags, text and
expressions. -/
structure Composed (lead : String) (d : Dialect) (Q : Tag → Prop) (P : Forest Kind → Prop) : Prop where
  empty : P nil
  element : ∀ {tag : Tag} {c r : Forest Kind}, Q tag → (isVoid tag.name = true → c = nil) →
    (isRawText tag.name = true → ∃ s, c = prependText s nil) → P c → P r →
    P (cons (.element (Element.ofMarkup lead d tag)) c r)
  text : ∀ (s : String) {r : Forest Kind}, P r → P (prependText s r)
  code : ∀ {e : String} {r : Forest Kind}, P r → P (cons (.code (Fragment.expression e)) nil r)

section Composed

variable {lead : String} {d : Dialect} {Q : Tag → Prop} {P : Forest Kind → Prop} (hP : Composed lead d Q P)

theorem forall_modifyHead {fs : List (Forest Kind)} (hfs : ∀ f ∈ fs, P f)
    {g : Forest Kind → Forest Kind} (hg : ∀ {f : Forest Kind}, P f → P (g f)) :
    ∀ f ∈ fs.modifyHead g, P f := by
  cases fs with
  | nil => exact hfs
  | cons f fs =>
    rw [List.forall_mem_cons] at hfs
    exact List.forall_mem_cons.2 ⟨hg hfs.1, hfs.2⟩

theorem forall_prependTree {fs : List (Forest Kind)} (hfs : ∀ f ∈ fs, P f) {k : Kind}
    {c : Forest Kind} (hk : ∀ {r : Forest Kind}, P r → P (cons k c r)) :
    ∀ f ∈ prependTree k c fs, P f := by
  cases fs with
  | nil => exact hfs
  | cons f fs =>
    rw [List.forall_mem_cons] at hfs
    exact List.forall_mem_cons.2 ⟨hk hfs.1, hfs.2⟩

include hP

/-- Each level of open elements is put together from elements, text and expressions. -/
theorem Composed.levels (opened : List String) {ts : List Token}
    (hts : ∀ token ∈ ts, token.Opens ∧ ∀ tag, token.tag? = some tag → Q tag) :
    ∀ f ∈ levels lead d opened ts, P f := by
  induction ts generalizing opened with
  | nil =>
    rw [Markup.levels, List.forall_mem_cons, List.forall_mem_map]
    exact ⟨hP.empty, fun _ _ => hP.empty⟩
  | cons token ts ih =>
    obtain ⟨⟨htoken, htag⟩, hts⟩ := List.forall_mem_cons.1 hts
    replace ih := fun opened => ih opened hts
    have hnot {b : Bool} (h : b = false) {p : Prop} : b = true → p := by
      rw [h]
      exact nofun
    cases token with
    | text s => exact forall_modifyHead (ih opened) (hP.text s)
    | code e => exact forall_prependTree (ih opened) hP.code
    | leaf tag =>
      have hbody : nil = prependText "" nil := rfl
      exact forall_prependTree (ih opened)
        (hP.element (htag tag rfl) (fun _ => rfl) (fun _ => ⟨"", hbody⟩) hP.empty)
    | raw tag body =>
      exact forall_prependTree (ih opened)
        (hP.element (htag tag rfl) (hnot htoken) (fun _ => ⟨body, rfl⟩) (hP.text body hP.empty))
    | opening tag =>
      have hin := ih (tag.name :: opened)
      rw [Markup.levels]
      split
      · rename_i inner fs hlevels
        rw [hlevels, List.forall_mem_cons] at hin
        exact forall_prependTree hin.2
          (hP.element (htag tag rfl) (hnot htoken.1) (hnot htoken.2) hin.1)
      · exact List.forall_mem_nil _
    | closing name source =>
      rw [Markup.levels]
      split
      · intro f hf
        rcases List.mem_append.1 hf with hf | hf
        · rw [List.eq_of_mem_replicate hf]
          exact hP.empty
        · exact ih _ f hf
      · exact forall_modifyHead (ih opened) (hP.text source)

omit hP in
theorem Composed.content {source : String} (hP : Composed lead d (· ∈ tags source) P) :
    P (content lead d source) := by
  have htokens : ∀ token ∈ Token.scan source.toList,
      token.Opens ∧ ∀ tag, token.tag? = some tag → tag ∈ tags source := fun token htoken =>
    ⟨Token.opens_scan source.toList token htoken, fun _ htag => List.mem_filterMap.2 ⟨token, htoken, htag⟩⟩
  have h := hP.levels [] htokens
  unfold Markup.content
  cases hl : Markup.levels lead d [] (Token.scan source.toList) with
  | nil => exact hP.empty
  | cons f fs => exact h f (hl ▸ List.mem_cons_self)

end Composed

/-- What holds of forests whatever text stands beside whatever text, and passes on to what stands
after a tree. -/
structure Inherited (lead : String) (d : Dialect) (Q : Tag → Prop) (P : Forest Kind → Prop) : Prop where
  empty : P nil
  element : ∀ {tag : Tag} {c r : Forest Kind}, Q tag → (isVoid tag.name = true → c = nil) → P c → P r →
    P (cons (.element (Element.ofMarkup lead d tag)) c r)
  text : ∀ {s : String} {r : Forest Kind}, P r → P (cons (.text s) nil r)
  code : ∀ {e : String} {r : Forest Kind}, P r → P (cons (.code (Fragment.expression e)) nil r)
  rest : ∀ {k : Kind} {c r : Forest Kind}, P (cons k c r) → P r

theorem Inherited.content {lead source : String} {d : Dialect} {P : Forest Kind → Prop}
    (hP : Inherited lead d (· ∈ tags source) P) : P (content lead d source) := by
  have htext (s : String) {f : Forest Kind} (hf : P f) : P (prependText s f) := by
    unfold prependText
    split
    · exact hP.text (hP.rest hf)
    · split
      · exact hf
      · exact hP.text hf
  exact Composed.content ⟨hP.empty, fun htag hvoid _ => hP.element htag hvoid, htext, hP.code⟩

theorem isMarkup_content (lead : String) (d : Dialect) (source : String) :
    (content lead d source).IsMarkup :=
  Inherited.content ⟨isMarkup_nil, fun _ _ => IsMarkup.element, IsMarkup.leaf rfl, IsMarkup.leaf rfl,
    fun h => h.2.2⟩

/-- All nodes that are read are elements of the start tags, text, or made as expressions. -/
theorem forall_content_of_tags {P : Kind → Prop} {lead source : String} {d : Dialect}
    (helement : ∀ tag ∈ tags source, P (.element (Element.ofMarkup lead d tag))) (htext : ∀ s, P (.text s))
    (hcode : ∀ code, P (.code (Fragment.expression code))) : ∀ k ∈ (content lead d source).preorder, P k := by
  have hcons {k : Kind} {c r : Forest Kind} (hk : P k) (hc : ∀ k ∈ c.preorder, P k)
      (hr : ∀ k ∈ r.preorder, P k) : ∀ x ∈ (cons k c r).preorder, P x := by
    rw [preorder_cons]
    exact List.forall_mem_cons.2 ⟨hk, List.forall_mem_append.2 ⟨hc, hr⟩⟩
  refine Inherited.content (P := fun f => ∀ k ∈ f.preorder, P k) ⟨List.forall_mem_nil _,
    fun htag _ => hcons (helement _ htag), hcons (htext _) (List.forall_mem_nil _),
    hcons (hcode _) (List.forall_mem_nil _), fun h => ?_⟩
  rw [preorder_cons, List.forall_mem_cons, List.forall_mem_append] at h
  exact h.2.2

theorem forall_content {P : Kind → Prop} {lead : String} {d : Dialect}
    (helement : ∀ tag, P (.element (Element.ofMarkup lead d tag))) (htext : ∀ s, P (.text s))
    (hcode : ∀ code, P (.code (Fragment.expression code))) (source : String) :
    ∀ k ∈ (content lead d source).preorder, P k :=
  forall_content_of_tags (fun tag _ => helement tag) htext hcode

/-- All code that is read is made as an expression. -/
theorem codes_content {P : Fragment → Prop} (hP : ∀ code, P (Fragment.expression code)) (lead : String)
    (d : Dialect) (source : String) :
    ∀ fragment, Kind.code fragment ∈ (content lead d source).preorder → P fragment :=
  fun fragment h => forall_content (P := fun k => ∀ fragment, k = .code fragment → P fragment)
    nofun nofun (fun code _ h => Kind.code.inj h ▸ hP code) source (.code fragment) h fragment rfl

/-- No code that is read is a statement. -/
theorem expressions_content (lead : String) (d : Dialect) (source : String) :
    ∀ fragment, Kind.code fragment ∈ (content lead d source).preorder →
      fragment.isStatement = false :=
  codes_content (fun _ => rfl) lead d source

end Markup

/-! ## Numbering -/

namespace Forest

theorem numberFrom_next (n : Nat) (f : Forest Kind) :
    (f.numberFrom n).2 = n + f.preorder.length := by
  induction f generalizing n with
  | nil => rfl
  | cons k c r ihc ihr =>
    rw [numberFrom, ihr, ihc, preorder_cons, List.length_cons, List.length_append]
    simp only [Nat.add_assoc, Nat.add_comm 1]

/-- The numbers follow the document order. -/
theorem ids_numberFrom (n : NodeId) (f : Forest Kind) :
    (f.numberFrom n).1.ids = List.range' n f.preorder.length := by
  induction f generalizing n with
  | nil => rfl
  | cons k c r ihc ihr =>
    rw [numberFrom, ids_cons, ihc, ihr, numberFrom_next, preorder_cons, List.length_cons,
      List.length_append, List.range'_append_1, List.range'_succ]

theorem kinds_cons (a : Node) (c r : Forest Node) :
    (cons a c r).kinds = cons a.kind c.kinds r.kinds := rfl

theorem preorder_kinds (f : Forest Node) : f.kinds.preorder = f.preorder.map Node.kind := by
  induction f with
  | nil => rfl
  | cons a c r ihc ihr =>
    rw [kinds_cons, preorder_cons, preorder_cons, ihc, ihr, List.map_cons, List.map_append]

/-- Nodes are numbered alike whatever they are. -/
theorem numberFrom_map (h : Kind → Kind) (n : NodeId) (f : Forest Kind) :
    (f.map h).numberFrom n =
      ((f.numberFrom n).1.map fun a => ⟨a.id, h a.kind⟩, (f.numberFrom n).2) := by
  induction f generalizing n with
  | nil => rfl
  | cons k c r ihc ihr =>
    simp only [map, numberFrom, ihc, ihr]

theorem kinds_numberFrom (n : NodeId) (f : Forest Kind) : (f.numberFrom n).1.kinds = f := by
  induction f generalizing n with
  | nil => rfl
  | cons k c r ihc ihr => rw [numberFrom, kinds_cons, ihc, ihr]

theorem rootKinds_eq (f : Forest Node) : f.rootKinds = f.kinds.roots := by
  induction f with
  | nil => rfl
  | cons a c r _ ih =>
    rw [rootKinds_cons, ih]
    rfl

theorem IsMarkup.isFree_roots {f : Forest Kind} (h : f.IsMarkup) :
    ∀ k ∈ f.roots, k.isFree = true := by
  induction f with
  | nil => exact List.forall_mem_nil _
  | cons k c r _ ih =>
    refine List.forall_mem_cons.2 ⟨?_, ih h.2.2⟩
    rcases h.1 with hk | hk
    · exact Kind.isFree_of_isElement hk
    · cases k <;> simp_all [Kind.isLeaf, Kind.isFree]

theorem IsMarkup.sorted {f : Forest Node} (h : f.kinds.IsMarkup) : f.Sorted := by
  induction f with
  | nil => exact trivial
  | cons a c r ihc ihr =>
    rw [kinds_cons] at h
    obtain ⟨hk, hc, hr⟩ := h
    refine ⟨?_, ihc hc, ihr hr⟩
    rw [rootKinds_eq]
    rcases hk with hk | ⟨hk, hnil⟩
    · exact (Kind.admits_of_isOpen (Kind.isOpen_of_isElement hk) _).2 hc.isFree_roots
    · rw [hnil]
      cases hkind : a.kind <;> simp_all [Kind.isLeaf, Kind.admits, roots]

theorem IsMarkup.isMade {f : Forest Node} (h : f.kinds.IsMarkup) :
    ∀ x ∈ f.preorder, x.kind.isMade = false := by
  induction f with
  | nil => exact List.forall_mem_nil _
  | cons a c g ihc ihg =>
    rw [kinds_cons] at h
    obtain ⟨ha, hc, hg⟩ := h
    rw [preorder_cons]
    refine List.forall_mem_cons.2 ⟨?_, List.forall_mem_append.2 ⟨ihc hc, ihg hg⟩⟩
    cases hk : a.kind <;> simp_all [Kind.isElement, Kind.isLeaf, Kind.isMade]

end Forest

theorem Tree.ids_ofContent (f : Forest Kind) :
    (Tree.ofContent f).forest.ids = List.range (Tree.ofContent f).next := by
  have hnext : (Tree.ofContent f).next = f.preorder.length + 1 :=
    (numberFrom_next 1 f).trans (Nat.add_comm ..)
  rw [hnext, Tree.ofContent, ids_tree, ids_numberFrom, List.range_eq_range', List.range'_succ]
  rfl

theorem Tree.shaped_ofContent {f : Forest Kind} (hf : f.IsMarkup) : (Tree.ofContent f).Shaped := by
  have hkinds : (f.numberFrom 1).1.kinds.IsMarkup := by
    rw [kinds_numberFrom]
    exact hf
  refine ⟨⟨?_, ?_⟩, ⟨?_, ?_⟩, ?_⟩
  · rw [ids_ofContent]
    exact List.nodup_range
  · intro n hn
    rw [ids_ofContent] at hn
    exact List.mem_range.1 hn
  · refine (sorted_tree ..).2 ⟨?_, hkinds.sorted⟩
    rw [rootKinds_eq]
    exact hkinds.isFree_roots
  · exact ⟨[], rfl, List.forall_mem_nil _⟩
  · exact List.mem_cons_self

theorem Markup.shaped_parse (lead : String) (d : Dialect) (source : String) :
    (Markup.parse lead d source).Shaped :=
  Tree.shaped_ofContent (isMarkup_content lead d source)

end HtmlTemplate

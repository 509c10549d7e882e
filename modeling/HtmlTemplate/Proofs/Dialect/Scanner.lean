import HtmlTemplate.Proofs.Dialect.Wrapping
import HtmlTemplate.Proofs.Directive.Placeholders
import HtmlTemplate.Proofs.Markup.Plain

/-! # Static text in generated code

A scanner goes through code with a state of its own and reads a literal where a quote opens one. What calls and
concatenations write around their operands leaves it where it was, so that code which they put together is scanned as
its operands are (`Generated.reads`): static text is one literal, and the rest is what it would be with any other text.
The values of attributes, class lists and the calls of translations are put together in this way.
-/

namespace HtmlTemplate.Dialect.Php

/-! ## Scanners -/

/-- What is scanned of code: a literal, by its text, or a character outside of literals. -/
inductive Scanned where
  | literal (text : String)
  | outside (c : Char)
  deriving DecidableEq, Repr

def Scanned.ofText (s : String) : List Scanned :=
  s.toList.map outside

/-- A character of what calls and concatenations write around their operands. -/
def isJoint (c : Char) : Bool :=
  c.isAlpha || "$->(),. ".toList.contains c

/-- How code is scanned outside of literals. A scanner is inside of something that may hold quotes of its own, such as
a comment, or it is not, and then a quote opens a literal. -/
structure Scanner where
  Inside : Type
  next : Option Inside → Char → Option Inside
  next_joint : ∀ c, isJoint c = true → next none c = none

namespace Scanner

variable {m : Scanner} {i j : Option m.Inside} {a b : List Char} {ss ts : List Scanned}

/-- What is scanned of code, and what the scanner is inside of behind it. A literal has to be closed. -/
def scan (m : Scanner) : Option m.Inside → List Char → Option (List Scanned × Option m.Inside)
  | i, [] => some ([], i)
  | none, '\'' :: s =>
    match _h : unquote s with
    | some (text, rest) => (scan m none rest).map fun r => (.literal (String.ofList text) :: r.1, r.2)
    | none => none
  | i, c :: s => (scan m (m.next i c) s).map fun r => (.outside c :: r.1, r.2)
termination_by _ s => s.length
decreasing_by
  · obtain ⟨u, rfl, hne, -⟩ := exists_of_unquote _h
    have := List.length_pos_iff.2 hne
    simp only [List.length_cons, List.length_append]
    omega
  · exact Nat.lt_succ_self _

theorem scan_quote {s text rest : List Char} (h : unquote s = some (text, rest)) :
    m.scan none ('\'' :: s) = (m.scan none rest).map fun r => (.literal (String.ofList text) :: r.1, r.2) := by
  rw [scan]
  split
  · rename_i text' rest' h'
    obtain ⟨rfl, rfl⟩ := Prod.mk.inj (Option.some.inj (h.symm.trans h'))
    rfl
  · rename_i h'
    cases h.symm.trans h'

/-- Code behind code that is scanned is scanned from there on. -/
theorem scan_append (h : m.scan i a = some (ss, j)) (b : List Char) :
    m.scan i (a ++ b) = (m.scan j b).map fun r => (ss ++ r.1, r.2) := by
  fun_induction scan m i a generalizing ss with
  | case1 i =>
    cases h
    simp
  | case2 s text rest hread ih =>
    obtain ⟨⟨ss', j'⟩, hrest, heq⟩ := Option.map_eq_some_iff.1 h
    obtain ⟨rfl, rfl⟩ := Prod.mk.inj heq
    obtain ⟨u, rfl, -, hu⟩ := exists_of_unquote hread
    rw [List.cons_append, List.append_assoc, scan_quote (hu (rest ++ b)), ih hrest, Option.map_map]
    rfl
  | case3 s hread => cases h
  | case4 i c s hc ih =>
    obtain ⟨⟨ss', j'⟩, hrest, heq⟩ := Option.map_eq_some_iff.1 h
    obtain ⟨rfl, rfl⟩ := Prod.mk.inj heq
    rw [List.cons_append, scan, ih hrest, Option.map_map]
    · rfl
    · exact hc

theorem scan_joints {s : List Char} (h : ∀ c ∈ s, isJoint c = true) :
    m.scan none s = some (s.map .outside, none) := by
  induction s with
  | nil => rw [scan, List.map_nil]
  | cons c s ih =>
    obtain ⟨hc, hs⟩ := List.forall_mem_cons.1 h
    rw [scan, m.next_joint c hc, ih hs]
    · rfl
    · rintro - rfl
      exact absurd hc (by decide)

/-- The scanner reads code as `ss`, and is inside of nothing at its end. -/
def Reads (m : Scanner) (code : String) (ss : List Scanned) : Prop :=
  m.scan none code.toList = some (ss, none)

instance [DecidableEq m.Inside] (code : String) (ss : List Scanned) : Decidable (m.Reads code ss) :=
  inferInstanceAs (Decidable (_ = _))

theorem reads_literal (m : Scanner) (text : String) : m.Reads (php.literal text) [.literal text] := by
  have hlist : (php.literal text).toList = '\'' :: (quote text.toList ++ ['\'']) := toList_literal text
  rw [Reads, hlist, scan_quote (unquote_quote text.toList []), scan, String.ofList_toList]
  rfl

theorem reads_ofText (s : String) (h : s.toList.all isJoint = true) : m.Reads s (Scanned.ofText s) :=
  scan_joints (List.all_eq_true.1 h)

theorem Reads.append {a b : String} (ha : m.Reads a ss) (hb : m.Reads b ts) : m.Reads (a ++ b) (ss ++ ts) := by
  rw [Reads] at hb
  rw [Reads, String.toList_append, scan_append ha, hb]
  rfl

theorem Reads.concat {a b : String} (ha : m.Reads a ss) (hb : m.Reads b ts) :
    m.Reads (php.concat a b) (ss ++ Scanned.ofText " . " ++ ts) :=
  (ha.append (reads_ofText " . " (by decide))).append hb

theorem reads_intercalate {args : List (String × List Scanned)} (h : ∀ x ∈ args, m.Reads x.1 x.2) :
    m.Reads (", ".intercalate (args.map Prod.fst)) ((Scanned.ofText ", ").intercalate (args.map Prod.snd)) := by
  induction args with
  | nil =>
    rw [Reads]
    simp [scan]
  | cons x args ih =>
    obtain ⟨hx, hargs⟩ := List.forall_mem_cons.1 h
    cases args with
    | nil => simpa using hx
    | cons y args =>
      simpa using (hx.append (reads_ofText ", " (by decide))).append (ih hargs)

end Scanner

/-- What a call writes before its operands, as it is scanned. -/
def scannedFront : Helper → List Scanned
  | .formatDate => Scanned.ofText "date(" ++ .literal "c" :: Scanned.ofText ", "
  | helper => Scanned.ofText (callFront helper)

/-- A call around its operands, as it is scanned. -/
def scannedCall (helper : Helper) (args : List (List Scanned)) : List Scanned :=
  scannedFront helper ++ (Scanned.ofText ", ").intercalate args ++ Scanned.ofText ")"

theorem Scanner.reads_callFront (m : Scanner) (helper : Helper) :
    m.Reads (callFront helper) (scannedFront helper) := by
  cases helper with
  | formatDate =>
    have hdate : m.Reads "date(" (Scanned.ofText "date(") := reads_ofText _ (by decide)
    exact (hdate.append (m.reads_literal "c")).append (reads_ofText ", " (by decide))
  | _ => exact reads_ofText _ (by decide)

theorem Scanner.reads_call {m : Scanner} (helper : Helper) {args : List (String × List Scanned)}
    (h : ∀ x ∈ args, m.Reads x.1 x.2) :
    m.Reads (php.call helper (args.map Prod.fst)) (scannedCall helper (args.map Prod.snd)) := by
  rw [call_eq]
  exact ((m.reads_callFront helper).append (reads_intercalate h)).append (reads_ofText ")" (by decide))

/-- Code that calls and concatenations put together of static text and host code, and what is scanned of it. Host code
has to be complete in itself: a string or comment that it left open would take in what follows. -/
inductive Generated (m : Scanner) : String → List Scanned → Prop where
  | static (text : String) : Generated m (php.literal text) [.literal text]
  | host {code : String} {ss : List Scanned} (h : m.Reads code ss) : Generated m code ss
  | concat {a b : String} {ss ts : List Scanned} (ha : Generated m a ss) (hb : Generated m b ts) :
    Generated m (php.concat a b) (ss ++ Scanned.ofText " . " ++ ts)
  | call (helper : Helper) (args : List (String × List Scanned)) (h : ∀ x ∈ args, Generated m x.1 x.2) :
    Generated m (php.call helper (args.map Prod.fst)) (scannedCall helper (args.map Prod.snd))

theorem Generated.reads {m : Scanner} {code : String} {ss : List Scanned} (h : Generated m code ss) :
    m.Reads code ss := by
  induction h with
  | static text => exact m.reads_literal text
  | host h => exact h
  | concat _ _ iha ihb => exact iha.concat ihb
  | call helper args _ ih => exact Scanner.reads_call helper ih

/-! ## Static text -/

theorem literal_injective : Function.Injective php.literal := by
  intro a b h
  have ha := read_literal a []
  have hb := read_literal b []
  change literal a = literal b at h
  rw [h, hb] at ha
  exact String.toList_inj.1 (Prod.mk.inj (Option.some.inj ha)).1.symm

theorem render_of_text {t : Tree} {n : NodeId} {s : String} (h : t.kind? n = some (.text s)) (d : Dialect) :
    t.render d n = s := by
  obtain ⟨⟨k, c⟩, hfind, hk⟩ := Option.map_eq_some_iff.1 h
  obtain rfl : k = .text s := hk
  rw [Tree.render, Tree.kindsAt, hfind, Forest.render, Forest.chunks, Chunk.emit_join]
  exact String.empty_append

/-- A node that is not code becomes a literal of its markup. -/
theorem code_expressionAt {t : Tree} {n : NodeId} (h : ∀ f, t.kind? n ≠ some (.code f)) :
    (t.expressionAt .php n).code = php.literal (t.render .php n) := by
  unfold Tree.expressionAt
  split
  · rename_i f hf
    exact absurd hf (h f)
  · rename_i s hs
    rw [render_of_text hs]
    exact congrArg Fragment.code (Fragment.tight_literal s).expression_eq
  · exact congrArg Fragment.code (Fragment.tight_literal _).expression_eq

/-! ## Where static text goes -/

section Places

variable {m : Scanner} {reading : String → List Scanned}

/-- A part of an attribute value as it is scanned, if host code is scanned as `reading` says. -/
def scannedPart (reading : String → List Scanned) : Part → List Scanned
  | .literal t => [.literal t]
  | .code e => scannedCall .escape [reading e]

theorem generated_part {p : Part} (h : ∀ e, p = .code e → m.Reads e (reading e)) :
    Generated m (p.expression .php) (scannedPart reading p) := by
  cases p with
  | literal t => exact .static t
  | code e => exact .call .escape [(e, reading e)] (List.forall_mem_singleton.2 (.host (h e rfl)))

theorem generated_parts {code : String} {ss : List Scanned} (hcode : Generated m code ss) {ps : List Part}
    (h : ∀ e, .code e ∈ ps → m.Reads e (reading e)) :
    Generated m ((ps.map (Part.expression .php)).foldl php.concat code)
      ((Scanned.ofText " . ").intercalate (ss :: ps.map (scannedPart reading))) := by
  induction ps generalizing code ss with
  | nil => simpa using hcode
  | cons p ps ih =>
    have hp : Generated m (p.expression .php) (scannedPart reading p) :=
      generated_part fun e he => h e (he ▸ List.mem_cons_self)
    have hrest := ih (hcode.concat hp) fun e he => h e (List.mem_cons_of_mem _ he)
    have hlist (l : List (List Scanned)) : (Scanned.ofText " . ").intercalate (ss :: scannedPart reading p :: l) =
        (Scanned.ofText " . ").intercalate ((ss ++ Scanned.ofText " . " ++ scannedPart reading p) :: l) := by
      cases l <;> simp
    rw [List.map_cons, List.map_cons, List.foldl_cons, hlist]
    exact hrest

theorem tight_part (p : Part) : Fragment.Tight (p.expression .php) := by
  cases p with
  | literal t => exact Fragment.tight_literal t
  | code e => exact Fragment.tight_call .escape [e]

theorem tight_parts {code : String} (h : Fragment.Tight code) (ps : List Part) :
    Fragment.Tight ((ps.map (Part.expression .php)).foldl php.concat code) := by
  induction ps generalizing code with
  | nil => exact h
  | cons p ps ih => exact ih (h.concat (tight_part p))

/-- The value of an attribute in which code is interpolated concatenates the text and the code in it. -/
theorem generated_ofSource {lead name value : String} (hname : ¬ lead.toList <+: name.toList)
    (hcode : (Part.ofChars value.toList).any Part.isCode = true)
    (h : ∀ e, .code e ∈ Part.ofChars value.toList → m.Reads e (reading e)) :
    ∃ f, AttrValue.ofSource lead .php name (some value) = .code f ∧ Generated m f.code
      ((Scanned.ofText " . ").intercalate ((Part.ofChars value.toList).map (scannedPart reading))) := by
  rw [Part.ofSource_eq_value hname, Part.value, if_pos hcode]
  cases hparts : Part.ofChars value.toList with
  | nil =>
    rw [hparts] at hcode
    cases hcode
  | cons p ps =>
    rw [hparts] at h
    have hp : Generated m (p.expression .php) (scannedPart reading p) :=
      generated_part fun e he => h e (he ▸ List.mem_cons_self)
    refine ⟨_, rfl, ?_⟩
    rw [(tight_parts (tight_part p) ps).expression_eq]
    exact generated_parts hp fun e he => h e (List.mem_cons_of_mem _ he)

/-- A class list with code at its end, as it is scanned. -/
def scannedClass (reading : String → List Scanned) (code : String) : Option AttrValue → List Scanned
  | some (.text c) => [.literal (escapeQuotes c ++ " ")] ++ Scanned.ofText " . " ++ reading code
  | some (.code f) =>
    if f.isStatement then reading code
    else reading f.code ++ Scanned.ofText " . " ++ [.literal " "] ++ Scanned.ofText " . " ++ reading code
  | none => reading code

theorem generated_classCode {old : Option AttrValue} {code : String} (hcode : m.Reads code (reading code))
    (h : ∀ f, old = some (.code f) → f.isStatement = false → m.Reads f.code (reading f.code)) :
    Generated m (Handler.classCode .php old code) (scannedClass reading code old) := by
  cases old with
  | none => exact .host hcode
  | some value =>
    cases value with
    | text c => exact .concat (.static _) (.host hcode)
    | code f =>
      rw [Handler.classCode, scannedClass]
      cases hf : f.isStatement with
      | true => exact .host hcode
      | false => exact .concat (.concat (.host (h f rfl hf)) (.static " ")) (.host hcode)

/-- A child that is not text as an argument of a message, as it is scanned. -/
def scannedArgument (reading : String → List Scanned) (c : Forest Kind) : Kind → List Scanned
  | .code f => if f.isStatement then Scanned.ofText "null" else reading f.code
  | k => [.literal ((Forest.tree k c).render .php)]

/-- The arguments of a message as they are scanned. -/
def scannedArguments (reading : String → List Scanned) : Forest Kind → List (List Scanned)
  | .nil => []
  | .cons (.text _) _ r => scannedArguments reading r
  | .cons k c r => scannedArgument reading c k :: scannedArguments reading r

theorem generated_argument {k : Kind} {c : Forest Kind}
    (h : ∀ f, k = .code f → f.isStatement = false → m.Reads f.code (reading f.code)) :
    Generated m (Handler.messageArgument .php k c) (scannedArgument reading c k) := by
  have hliteral (text : String) : Generated m (Fragment.expression (php.literal text)).code [.literal text] := by
    rw [(Fragment.tight_literal text).expression_eq]
    exact .static text
  cases k with
  | code f =>
    rw [Handler.messageArgument, Fragment.asExpression, scannedArgument]
    cases hf : f.isStatement with
    | true => exact .host (Scanner.reads_ofText "null" (by decide))
    | false => exact .host (h f rfl hf)
  | _ => exact hliteral _

theorem exists_arguments {f : Forest Kind}
    (h : ∀ g, .code g ∈ f.roots → g.isStatement = false → m.Reads g.code (reading g.code)) :
    ∃ args : List (String × List Scanned), args.map Prod.fst = Message.arguments .php f ∧
      args.map Prod.snd = scannedArguments reading f ∧ ∀ x ∈ args, Generated m x.1 x.2 := by
  fun_induction Message.arguments .php f with
  | case1 => exact ⟨[], rfl, rfl, List.forall_mem_nil _⟩
  | case2 s c r ih => exact ih fun g hg => h g (List.mem_cons_of_mem _ hg)
  | case3 k c r hk ih =>
    obtain ⟨args, hcodes, hscanned, hargs⟩ := ih fun g hg => h g (List.mem_cons_of_mem _ hg)
    have harg : Generated m (Handler.messageArgument .php k c) (scannedArgument reading c k) :=
      generated_argument fun f hf => h f (hf ▸ List.mem_cons_self)
    refine ⟨(Handler.messageArgument .php k c, scannedArgument reading c k) :: args, congrArg (_ :: ·) hcodes, ?_,
      List.forall_mem_cons.2 ⟨harg, hargs⟩⟩
    rw [List.map_cons, hscanned, scannedArguments]
    exact hk

/-- A translation calls its helper with the key, the count and the arguments. -/
theorem generated_translation (helper : Helper) {count : List String} (n : NodeId) (p : Option AttrValue) (t : Tree)
    (hcount : ∀ c ∈ count, m.Reads c (reading c))
    (h : ∀ g, .code g ∈ (t.below n).kinds.roots → g.isStatement = false → m.Reads g.code (reading g.code)) :
    ∃ f, Handler.translateWith helper count ⟨.php, n, p⟩ t =
        { tree := Handler.putBelow ⟨.php, n, p⟩ (.code f) t } ∧
      Generated m f.code (scannedCall helper ([.literal (trimmed (Handler.message .php 0 (t.below n).kinds).1)] ::
        (count.map reading ++ scannedArguments reading (t.below n).kinds))) := by
  obtain ⟨args, hcodes, hscanned, hargs⟩ := exists_arguments h
  rw [← (Message.message_eq .php 0 _).2] at hcodes
  refine ⟨_, rfl, ?_⟩
  generalize Handler.message .php 0 (t.below n).kinds = message at hcodes ⊢
  have hall : ∀ x ∈ (php.literal (trimmed message.1), [Scanned.literal (trimmed message.1)]) ::
      (count.map (fun c => (c, reading c)) ++ args), Generated m x.1 x.2 := by
    refine List.forall_mem_cons.2 ⟨.static _, List.forall_mem_append.2 ⟨?_, hargs⟩⟩
    rw [List.forall_mem_map]
    exact fun c hc => .host (hcount c hc)
  have hcall := Generated.call helper _ hall
  rw [(Fragment.tight_call ..).expression_eq]
  simpa [hcodes, hscanned, Function.comp_def, Fragment.verbatim] using hcall

end Places

/-- A literal is read as its text and ends before what follows it, whatever that is. So no two texts have the same
literal, and in code that calls and concatenations put together every static text is scanned as one literal. A text or
a node that is not code becomes such a literal when an expression is needed, and the values of attributes, class lists
and the calls of translations are put together of literals and host code. -/
theorem literal_delimits (m : Scanner) :
    (∀ (text : String) (r : List Char), read ((php.literal text).toList ++ r) = some (text.toList, r)) ∧
      Function.Injective php.literal ∧
      (∀ text : String, (AttrValue.parameter .php (some (.text text))).code = php.literal text) ∧
      (∀ (t : Tree) (n : NodeId), (∀ f, t.kind? n ≠ some (.code f)) →
        (t.expressionAt .php n).code = php.literal (t.render .php n)) ∧
      (∀ code ss, Generated m code ss → ∀ r,
        m.scan none (code.toList ++ r) = (m.scan none r).map fun x => (ss ++ x.1, x.2)) ∧
      ∀ reading : String → List Scanned,
        (∀ lead name value : String, ¬ lead.toList <+: name.toList →
          let parts := Part.ofChars value.toList
          parts.any Part.isCode = true → (∀ e, .code e ∈ parts → m.Reads e (reading e)) →
          ∃ f, AttrValue.ofSource lead .php name (some value) = .code f ∧
            Generated m f.code ((Scanned.ofText " . ").intercalate (parts.map (scannedPart reading)))) ∧
        (∀ (old : Option AttrValue) (code : String), m.Reads code (reading code) →
          (∀ f, old = some (.code f) → f.isStatement = false → m.Reads f.code (reading f.code)) →
          Generated m (Handler.classCode .php old code) (scannedClass reading code old)) ∧
        ∀ (helper : Helper) (count : List String) (n : NodeId) (p : Option AttrValue) (t : Tree),
          let children := (t.below n).kinds
          (∀ c ∈ count, m.Reads c (reading c)) →
          (∀ g, .code g ∈ children.roots → g.isStatement = false → m.Reads g.code (reading g.code)) →
          ∃ f, Handler.translateWith helper count ⟨.php, n, p⟩ t =
              { tree := Handler.putBelow ⟨.php, n, p⟩ (.code f) t } ∧
            Generated m f.code (scannedCall helper ([.literal (trimmed (Handler.message .php 0 children).1)] ::
              (count.map reading ++ scannedArguments reading children))) :=
  ⟨read_literal, literal_injective, fun text => congrArg Fragment.code (Fragment.tight_literal text).expression_eq,
    fun _ _ => code_expressionAt, fun _ _ h => Scanner.scan_append h.reads, fun _ =>
    ⟨fun _ _ _ hname hcode h => generated_ofSource hname hcode h, fun _ _ hcode h => generated_classCode hcode h,
      fun helper _ n p t hcount h => generated_translation helper n p t hcount h⟩⟩

/-- What a scanner may be inside of: a string in double quotes, behind a backslash in it, or a comment. -/
inductive Region where
  | string
  | escape
  | comment
  deriving DecidableEq, Repr

/-- A scanner that knows strings in double quotes and comments up to the end of the line. -/
def Region.scanner : Scanner where
  Inside := Region
  next
    | none, '"' => some .string
    | none, '#' => some .comment
    | none, _ => none
    | some .string, '"' => none
    | some .string, '\\' => some .escape
    | some .string, _ => some .string
    | some .escape, _ => some .string
    | some .comment, '\n' => none
    | some .comment, _ => some .comment
  next_joint c hc := by
    split
    · exact absurd hc (by decide)
    · exact absurd hc (by decide)
    · rfl
    all_goals contradiction

instance : DecidableEq Region.scanner.Inside :=
  inferInstanceAs (DecidableEq Region)

/-- A message with a quote in it, markup that ends in a backslash, and a string that holds a quote. -/
theorem literal_delimits_translation :
    let t := Markup.parse "j:" .php "<p>it's # <b>\\</b>\x7b\x7b \"don't\" \x7d\x7d</p>"
    ∃ f, Handler.translateWith .translate [] ⟨.php, 1, none⟩ t =
        { tree := Handler.putBelow ⟨.php, 1, none⟩ (.code f) t } ∧
      Region.scanner.scan none (f.code.toList ++ "; ?>".toList) =
        some (Scanned.ofText "$this->tr(" ++ .literal "it's # %1%2" :: Scanned.ofText ", " ++
          .literal "<b>\\</b>" :: Scanned.ofText ", $this->h(\"don't\")); ?>", none) := by
  intro t
  have hchildren : (t.below 1).kinds.roots = [.text "it's # ", .element ⟨"b", []⟩,
      .code (Fragment.verbatim "$this->h(\"don't\")")] := by decide +kernel
  have hhost : Region.scanner.Reads "$this->h(\"don't\")" (Scanned.ofText "$this->h(\"don't\")") := by
    decide +kernel
  obtain ⟨-, -, -, -, hscan, hplaces⟩ := literal_delimits Region.scanner
  obtain ⟨f, hrun, hf⟩ := (hplaces Scanned.ofText).2.2 .translate [] 1 none t (List.forall_mem_nil _) (by
    rw [hchildren]
    intro g hg _
    obtain rfl : g = Fragment.verbatim "$this->h(\"don't\")" := by simpa using hg
    exact hhost)
  refine ⟨f, hrun, ?_⟩
  rw [hscan f.code _ hf]
  decide +kernel

end HtmlTemplate.Dialect.Php

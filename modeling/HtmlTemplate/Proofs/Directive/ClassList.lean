import HtmlTemplate.Directive.Attribute
import HtmlTemplate.Proofs.Dialect.Expression
import HtmlTemplate.Proofs.Directive.Attributes
import HtmlTemplate.Proofs.Markup.Interpolation

/-! # The value of a class list

A class list grows by code that is put behind its own with a dot, so that its code reads as `classList`
(`ClassReads.addClass`). Parameters that bind at least as tightly as the dot are appended to the list (`tight_classList`).
The test of a conditional that stands without parentheses takes all of the list before it, which holds as a test, and
its last part takes all that follows: what is left of the list is the first answer (`settled_classList`).
-/

namespace HtmlTemplate

open Dialect Dialect.Php

namespace Dialect.Php.Expr

/-! ## Class lists as expressions -/

/-- An expression that a dot does not take apart. -/
def isTight : {l : Level} → Expr l → Bool
  | _, conditional .. => false
  | _, short .. => false
  | _, _ => true

def ofLiteral (text : String) : Expr .whole :=
  chain (operand (literal text))

/-- A class list with one more class at its end. -/
def spaced (x e : Expr .whole) : Expr .whole :=
  (x.join (ofLiteral " ")).join e

/-- What the code of a class list reads as: a text and then the parameters, each behind a blank. -/
def classList (text : String) : List (Expr .whole) → Expr .whole
  | [] => ofLiteral text
  | e :: es => es.foldl spaced ((ofLiteral (text ++ " ")).join e)

/-- A text followed by the values of expressions, each behind a blank. -/
def listed (env : String → Value) (text : String) (es : List (Expr .whole)) : String :=
  text ++ String.join (es.map fun e => " " ++ (e.eval env).text)

variable {env : String → Value} {x e : Expr .whole} {es before after : List (Expr .whole)} {text : String} {v : Value}

section Tight

theorem tight_add (env : String → Value) (hx : x.isTight = true) (z : Expr .operand) : (x.add z).isTight = true ∧
    (x.add z).eval env = .ofText ((x.eval env).text ++ (z.eval env).text) := by
  cases x with
  | chain x => exact ⟨rfl, rfl⟩
  | conditional t y n => cases hx
  | short t n => cases hx

theorem tight_join (env : String → Value) (hx : x.isTight = true) {l : Level} {y : Expr l} (hy : y.isTight = true) :
    (x.join y).isTight = true ∧ (x.join y).eval env = .ofText ((x.eval env).text ++ (y.eval env).text) := by
  induction y with
  | name n => exact tight_add env hx _
  | literal t => exact tight_add env hx _
  | group y => exact tight_add env hx _
  | operand y ih => exact ih (by cases y <;> rfl)
  | concat y z ih =>
    obtain ⟨htight, heval⟩ := ih (by cases y <;> rfl)
    obtain ⟨htight', heval'⟩ := tight_add env htight z
    refine ⟨htight', ?_⟩
    rw [join, heval', heval, eval]
    simp [Value.ofText, String.append_assoc]
  | chain y ih => exact ih (by cases y <;> rfl)
  | conditional t y n => cases hy
  | short t n => cases hy

theorem tight_foldl (hx : x.isTight = true) (heval : x.eval env = .ofText text) (hes : ∀ e ∈ es, e.isTight = true) :
    (es.foldl spaced x).isTight = true ∧ (es.foldl spaced x).eval env = .ofText (listed env text es) := by
  induction es generalizing x text with
  | nil => exact ⟨hx, by simpa [listed] using heval⟩
  | cons e es ih =>
    obtain ⟨he, hrest⟩ := List.forall_mem_cons.1 hes
    obtain ⟨hblank, hevalBlank⟩ := tight_join env hx (y := ofLiteral " ") rfl
    obtain ⟨hspaced, hevalSpaced⟩ := tight_join env hblank he
    have hvalue : (spaced x e).eval env = .ofText (text ++ (" " ++ (e.eval env).text)) := by
      rw [spaced, hevalSpaced, hevalBlank, heval]
      simp [Value.ofText, ofLiteral, eval, String.append_assoc]
    obtain ⟨htight, hlisted⟩ := ih hspaced hvalue hrest
    refine ⟨htight, hlisted.trans ?_⟩
    simp [listed, String.append_assoc]

/-- Parameters that a dot does not take apart are appended to the text, each behind a blank. -/
theorem tight_classList (env : String → Value) (text : String) (hes : ∀ e ∈ es, e.isTight = true) :
    (classList text es).isTight = true ∧ (classList text es).eval env = .ofText (listed env text es) := by
  cases es with
  | nil => exact ⟨rfl, by simp [classList, listed, ofLiteral, eval]⟩
  | cons e es =>
    obtain ⟨he, hrest⟩ := List.forall_mem_cons.1 hes
    obtain ⟨hfirst, heval⟩ := tight_join env (x := ofLiteral (text ++ " ")) rfl he
    obtain ⟨htight, hlisted⟩ := tight_foldl hfirst heval hrest
    refine ⟨htight, ?_⟩
    rw [classList, hlisted]
    simp [listed, ofLiteral, eval, Value.ofText, String.append_assoc]

end Tight

section Loose

/-- The value of a conditional whose test holds. Nothing that follows it behind a dot changes it. -/
def settled (env : String → Value) : Expr .whole → Option Value
  | chain _ => none
  | conditional t y _ => if (t.eval env).holds then some (y.eval env) else none
  | short t _ => if (t.eval env).holds then some (t.eval env) else none

theorem eval_of_settled (h : x.settled env = some v) : x.eval env = v := by
  cases x with
  | chain x => cases h
  | conditional t y n =>
    simp only [settled, Option.ite_none_right_eq_some, Option.some.injEq] at h
    obtain ⟨hholds, rfl⟩ := h
    rw [eval, if_pos hholds]
  | short t n =>
    simp only [settled, Option.ite_none_right_eq_some, Option.some.injEq] at h
    obtain ⟨hholds, rfl⟩ := h
    rw [eval, if_pos hholds]

theorem settled_join (h : x.settled env = some v) {l : Level} {y : Expr l} (hy : y.isTight = true) :
    (x.join y).settled env = some v := by
  have hadd {x : Expr .whole} (h : x.settled env = some v) (z : Expr .operand) : (x.add z).settled env = some v := by
    cases x with
    | chain x => cases h
    | conditional t y n => exact h
    | short t n => exact h
  induction y with
  | name n => exact hadd h _
  | literal t => exact hadd h _
  | group y => exact hadd h _
  | operand y ih => exact ih (by cases y <;> rfl)
  | concat y z ih => exact hadd (ih (by cases y <;> rfl)) z
  | chain y ih => exact ih (by cases y <;> rfl)
  | conditional t y n => cases hy
  | short t n => cases hy

theorem settled_foldl (h : x.settled env = some v) (hes : ∀ e ∈ es, e.isTight = true) :
    (es.foldl spaced x).settled env = some v := by
  induction es generalizing x with
  | nil => exact h
  | cons e es ih =>
    obtain ⟨he, hrest⟩ := List.forall_mem_cons.1 hes
    exact ih (settled_join (settled_join h rfl) he) hrest

/-- A text with a blank in it holds as a test. -/
theorem holds_ofText (s r : String) : (Value.ofText (s ++ " " ++ r)).holds = true := by
  have hmem : ' ' ∈ (s ++ " " ++ r).toList := by simp
  refine decide_eq_true ⟨fun h => ?_, fun h => ?_⟩ <;> rw [h] at hmem <;> exact absurd hmem (by decide)

/-- The code of a class list up to one of its parameters. -/
theorem exists_classList_append (env : String → Value) (text : String) (hbefore : ∀ e ∈ before, e.isTight = true)
    (e : Expr .whole) (after : List (Expr .whole)) :
    ∃ x : Expr .whole, x.isTight = true ∧ (x.eval env).text = listed env text before ++ " " ∧
      classList text (before ++ e :: after) = after.foldl spaced (x.join e) := by
  cases before with
  | nil => exact ⟨ofLiteral (text ++ " "), rfl, by simp [listed, ofLiteral, eval, Value.ofText], rfl⟩
  | cons b bs =>
    obtain ⟨htight, heval⟩ := tight_classList env text hbefore
    obtain ⟨hblank, hevalBlank⟩ := tight_join env htight (y := ofLiteral " ") rfl
    refine ⟨_, hblank, ?_, ?_⟩
    · rw [hevalBlank, heval]
      rfl
    · rw [List.cons_append, classList, List.foldl_append]
      rfl

/-- The first conditional without parentheses takes the list before it as its test, and settles its value. -/
theorem settled_classList (env : String → Value) (text : String) (hbefore : ∀ e ∈ before, e.isTight = true)
    (hafter : ∀ e ∈ after, e.isTight = true) {t : Expr .whole} (ht : t.isTight = true) :
    (∀ y n, (classList text (before ++ conditional t y n :: after)).eval env = y.eval env) ∧
      ∀ n, (classList text (before ++ short t n :: after)).eval env =
        .ofText (listed env text before ++ " " ++ (t.eval env).text) := by
  have htest {x : Expr .whole} (hx : x.isTight = true) (htext : (x.eval env).text = listed env text before ++ " ") :
      (x.join t).eval env = .ofText (listed env text before ++ " " ++ (t.eval env).text) := by
    rw [(tight_join env hx ht).2, htext]
  refine ⟨fun y n => ?_, fun n => ?_⟩
  · obtain ⟨x, hx, htext, hlist⟩ := exists_classList_append env text hbefore (conditional t y n) after
    rw [hlist]
    refine eval_of_settled (settled_foldl ?_ hafter)
    rw [join, settled, htest hx htext, holds_ofText, if_pos rfl]
  · obtain ⟨x, hx, htext, hlist⟩ := exists_classList_append env text hbefore (short t n) after
    rw [hlist]
    refine eval_of_settled (settled_foldl ?_ hafter)
    rw [join, settled, htest hx htext, holds_ofText, if_pos rfl]

end Loose

end Dialect.Php.Expr

/-! ## The code of a class list -/

open Expr

/-- A parameter that reads as an expression, put behind code in a literal, is not changed at its ends. -/
theorem code_expression_concat {code p : String} (hcode : code.toList.head? = some '\'') {e : Expr .whole}
    (hp : parse (Fragment.expression p).code = some e) :
    (Fragment.expression (php.concat code (Fragment.expression p).code)).code =
      php.concat code (Fragment.expression p).code := by
  have hlist : (php.concat code (Fragment.expression p).code).toList =
      code.toList ++ [' ', '.', ' '] ++ (Fragment.expression p).code.toList := by
    simp [php]
  have hnil : (Fragment.expression p).code.toList ≠ [] := by
    intro hnil
    rw [String.toList_eq_nil_iff.1 hnil] at hp
    cases hp
  have hlast (c : Char) (hc : (Fragment.expression p).code.toList.getLast? = some c) : isBlank c = false ∧ c ≠ ';' := by
    refine ⟨?_, ?_⟩
    · rw [Fragment.expression, String.toList_ofList] at hc
      exact getLast?_dropTail hc
    · rintro rfl
      obtain ⟨l, hl⟩ := List.getLast?_eq_some_iff.1 hc
      have hnone : lex (Fragment.expression p).code = none := by rw [lex, hl, Scan.run_semicolon]
      rw [parse, hnone] at hp
      cases hp
  have hends : Fragment.normalise (php.concat code (Fragment.expression p).code).toList =
      (php.concat code (Fragment.expression p).code).toList := by
    rw [hlist]
    refine Fragment.normalise_of_ends (fun c hc => ?_) fun c hc => hlast c ?_
    · rw [List.append_assoc, List.head?_append, hcode] at hc
      cases hc
      decide
    · rwa [List.getLast?_append_of_ne_nil _ hnil] at hc
  rw [Fragment.expression, hends, String.ofList_toList]

/-- The class list of a node is code that begins with a literal and reads as `x`. -/
def ClassReads (t : Tree) (n : NodeId) (x : Expr .whole) : Prop :=
  ∃ e f, t.element? n = some e ∧ e.get? "class" = some (.code f) ∧ f.isStatement = false ∧
    f.code.toList.head? = some '\'' ∧ parse f.code = some x

/-- A node with code as the parameter of a class directive. -/
def classSite (n : NodeId) (p : String) : Site :=
  ⟨.php, n, some (.code (Fragment.expression p))⟩

/-- Adds classes to the class list of a node, one after the other. -/
def addClasses (n : NodeId) (params : List String) (t : Tree) : Tree :=
  params.foldl (fun t p => (Handler.addClass (classSite n p) t).tree) t

variable {t : Tree} {n : NodeId} {p c : String} {params : List String} {e : Element} {x y : Expr .whole}
  {es : List (Expr .whole)}

theorem nodup_addClass (ht : t.forest.ids.Nodup) (s : Site) : (Handler.addClass s t).tree.forest.ids.Nodup := by
  rw [Handler.addClass, Tree.ids_mapElement ht]
  exact ht

theorem ClassReads.of_concat (ht : t.forest.ids.Nodup) (hn : t.element? n = some e) {code : String}
    (hcode : Handler.classCode .php (e.get? "class") (Fragment.expression p).code =
      php.concat code (Fragment.expression p).code)
    (hhead : code.toList.head? = some '\'') (hx : parse code = some x)
    (hy : parse (Fragment.expression p).code = some y) :
    ClassReads (Handler.addClass (classSite n p) t).tree n (x.join y) := by
  have hclass : (Handler.addClass (classSite n p) t).tree.element? n =
      some (e.set "class" (.code (Fragment.expression (php.concat code (Fragment.expression p).code)))) := by
    rw [← hcode, Handler.addClass, classSite, Registry.element?_mapElement ht, hn]
    rfl
  refine ⟨_, _, hclass, Element.get?_set_self .., rfl, ?_, ?_⟩
  · rw [code_expression_concat hhead hy]
    simp [php, hhead]
  · rw [code_expression_concat hhead hy, parse_concat hx hy]

theorem head_literal (text : String) : (Php.literal text).toList.head? = some '\'' := by
  simp [Php.literal]

theorem ClassReads.of_text (ht : t.forest.ids.Nodup) (hn : t.element? n = some e)
    (hc : e.get? "class" = some (.text c)) (hy : parse (Fragment.expression p).code = some y) :
    ClassReads (Handler.addClass (classSite n p) t).tree n ((ofLiteral (escapeQuotes c ++ " ")).join y) :=
  of_concat ht hn (by rw [hc]; rfl) (head_literal _) (parse_literal _) hy

theorem ClassReads.addClass (h : ClassReads t n x) (ht : t.forest.ids.Nodup)
    (hy : parse (Fragment.expression p).code = some y) :
    ClassReads (Handler.addClass (classSite n p) t).tree n (x.spaced y) := by
  obtain ⟨e, f, hn, hf, hexpression, hhead, hx⟩ := h
  have hcode : Handler.classCode .php (e.get? "class") (Fragment.expression p).code =
      php.concat (php.concat f.code (Php.literal " ")) (Fragment.expression p).code := by
    rw [hf, Handler.classCode, hexpression]
    rfl
  have hhead' : (php.concat f.code (Php.literal " ")).toList.head? = some '\'' := by simp [php, hhead]
  exact of_concat ht hn hcode hhead' (parse_concat hx (parse_literal " ")) hy

theorem ClassReads.addClasses (h : ClassReads t n x) (ht : t.forest.ids.Nodup)
    (hes : params.map (fun p => parse (Fragment.expression p).code) = es.map some) :
    ClassReads (addClasses n params t) n (es.foldl spaced x) := by
  induction params generalizing t x es with
  | nil =>
    obtain rfl : es = [] := by simpa using hes.symm
    exact h
  | cons p params ih =>
    cases es with
    | nil => cases hes
    | cons e es =>
      obtain ⟨he, hrest⟩ := List.cons.inj hes
      have hrun := ih (h.addClass ht he) (nodup_addClass ht _) hrest
      exact hrun

/-- A class list that begins with text, to which parameters that read as expressions are added, reads as that text and
the parameters with dots between them. If a dot takes no parameter apart, its value is the text, without quotes,
followed by the value of each parameter behind a blank. If it takes one of them apart, the text is lost: the value is
the first answer of that conditional, and of one without first answer all up to the end of its test. -/
theorem Handler.addClass_value (ht : t.forest.ids.Nodup) (hn : t.element? n = some e)
    (hc : e.get? "class" = some (.text c)) (hparams : params ≠ [])
    (hes : params.map (fun p => parse (Fragment.expression p).code) = es.map some) :
    (∃ e' f, (addClasses n params t).element? n = some e' ∧ e'.get? "class" = some (.code f) ∧
        f.isStatement = false ∧ parse f.code = some (classList (escapeQuotes c) es)) ∧
      (∀ env, (∀ e ∈ es, e.isTight = true) →
        (classList (escapeQuotes c) es).eval env = .ofText (listed env (escapeQuotes c) es)) ∧
      ∀ env before test after, (∀ e ∈ before ++ after, e.isTight = true) → test.isTight = true →
        (∀ yes no, es = before ++ .conditional test yes no :: after →
          (classList (escapeQuotes c) es).eval env = yes.eval env) ∧
        ∀ no, es = before ++ .short test no :: after →
          (classList (escapeQuotes c) es).eval env =
            .ofText (listed env (escapeQuotes c) before ++ " " ++ (test.eval env).text) := by
  refine ⟨?_, fun env htight => (tight_classList env _ htight).2, fun env before test after htight htest => ?_⟩
  · cases params with
    | nil => exact absurd rfl hparams
    | cons p params =>
      cases es with
      | nil => cases hes
      | cons y es =>
        obtain ⟨hy, hrest⟩ := List.cons.inj hes
        have hfirst := ClassReads.of_text ht hn hc hy
        obtain ⟨e', f, hn', hf, hexpression, -, hreads⟩ := hfirst.addClasses (nodup_addClass ht _) hrest
        exact ⟨e', f, hn', hf, hexpression, hreads⟩
  · obtain ⟨hbefore, hafter⟩ := List.forall_mem_append.1 htight
    obtain ⟨hconditional, hshort⟩ := settled_classList env (escapeQuotes c) hbefore hafter htest
    exact ⟨fun yes no h => h ▸ hconditional yes no, fun no h => h ▸ hshort no⟩

/-- A paragraph in a class. -/
def button : Tree :=
  ⟨.cons ⟨Tree.root, .document⟩ (.cons ⟨1, .element ⟨"p", [("class", .text "btn")]⟩⟩ .nil .nil) .nil, 2, none⟩

/-- A class that depends on a variable. -/
def switch : Expr .whole :=
  .conditional (chain (operand (name "a"))) (ofLiteral "on") (operand (literal "off"))

theorem Handler.addClass_value_button :
    ∃ e f x, (addClasses 1 ["$b", "($a ? 'on' : 'off')"] button).element? 1 = some e ∧
      e.get? "class" = some (.code f) ∧ parse f.code = some x ∧
      x.eval (fun _ => .ofText "wide") = .ofText "btn wide on" := by
  obtain ⟨⟨e, f, hn, hf, -, hreads⟩, hvalue, -⟩ := @addClass_value button 1 "btn" ["$b", "($a ? 'on' : 'off')"]
    ⟨"p", [("class", .text "btn")]⟩ [chain (operand (name "b")), chain (operand (group switch))]
    (by decide) rfl rfl (by decide) (by decide +kernel)
  refine ⟨e, f, _, hn, hf, hreads, ?_⟩
  rw [hvalue _ (by decide)]
  decide +kernel

/-- Without parentheses the same class is all that is left of the list. -/
theorem addClasses_switch :
    ∃ e f x, (addClasses 1 ["$a ? 'on' : 'off'"] button).element? 1 = some e ∧ e.get? "class" = some (.code f) ∧
      parse (Fragment.expression "$a ? 'on' : 'off'").code = some switch ∧ parse f.code = some x ∧
      x.eval (fun _ => .ofText "1") = .ofText "on" ∧
      x.eval (fun _ => .ofText "1") ≠ .ofText (listed (fun _ => .ofText "1") (escapeQuotes "btn") [switch]) :=
  ⟨_, _, _, rfl, rfl, by decide +kernel, rfl, by decide +kernel, by decide +kernel⟩

end HtmlTemplate

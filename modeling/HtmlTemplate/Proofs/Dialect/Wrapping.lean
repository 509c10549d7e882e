import HtmlTemplate.Compiler
import HtmlTemplate.Proofs.Dialect.Literal
import HtmlTemplate.Proofs.Markup.Interpolation
import Mathlib.Data.List.DropRight

/-! # Code that is wrapped again

Expression code is normalised each time it is wrapped: where it is read, and again by a directive that puts it out.
A second wrapping changes it exactly if it ends in semicolons with blanks between them, of which the first one takes
only the last off (`normalise_normalise_iff`). Code that a dialect has put around a parameter is in normal form
whenever its ends are (`tight_call`, `Tight.concat`).
-/

namespace HtmlTemplate

open Chars Dialect Dialect.Php

namespace Chars

variable {p : Char → Bool}

theorem exists_dropTail (p : Char → Bool) (s : List Char) :
    ∃ tail, s = dropTail p s ++ tail ∧ ∀ c ∈ tail, p c = true :=
  ⟨s.rtakeWhile p, List.rdropWhile_append_rtakeWhile.symm, fun _ => List.mem_rtakeWhile_imp⟩

theorem dropTail_append {tail : List Char} (h : ∀ c ∈ tail, p c = true) (s : List Char) :
    dropTail p (s ++ tail) = dropTail p s := by
  rw [dropTail, List.reverse_append, List.dropWhile_append_of_pos fun c hc => h c (List.mem_reverse.1 hc), dropTail]

theorem dropTail_begins (p : Char → Bool) (s : List Char) : dropTail p s <+: s :=
  List.rdropWhile_prefix p s

end Chars

/-- What a call writes before its operands. -/
def Dialect.Php.callFront : Helper → String
  | .formatDate => "date('c', "
  | helper => "$this->" ++ helper.name ++ "("

theorem Dialect.Php.call_eq (helper : Helper) (args : List String) :
    php.call helper args = callFront helper ++ ", ".intercalate args ++ ")" := by
  cases helper <;> rfl

namespace Fragment

/-! ## What one wrapping leaves -/

section Normalise

variable {s : List Char} {c : Char}

theorem isBlank_head_normalise (h : (normalise s).head? = some c) : isBlank c = false := by
  have hbegins : normalise s <+: s.dropWhile isBlank :=
    ((dropTail_begins ..).trans (dropTail_begins ..)).trans (dropTail_begins ..)
  obtain ⟨rest, hrest⟩ := hbegins
  have hnot := List.head?_dropWhile_not isBlank s
  rw [← hrest, List.head?_append, h] at hnot
  exact hnot

theorem isBlank_last_normalise (h : (normalise s).getLast? = some c) : isBlank c = false :=
  getLast?_dropTail h

/-- Code that ends, but for blanks, in semicolons behind blanks behind a semicolon. -/
def Ragged (s : List Char) : Prop :=
  ∃ (body blanks : List Char) (n : Nat), blanks ≠ [] ∧ (∀ c ∈ blanks, isBlank c = true) ∧
    trim s = body ++ ';' :: (blanks ++ List.replicate (n + 1) ';')

theorem normalise_of_ragged {body blanks : List Char} {n : Nat} (hne : blanks ≠ [])
    (hblanks : ∀ c ∈ blanks, isBlank c = true)
    (hs : trim s = body ++ ';' :: (blanks ++ List.replicate (n + 1) ';')) : normalise s = body ++ [';'] := by
  have hsemicolons : ∀ c ∈ List.replicate (n + 1) ';', (c == ';') = true := fun c hc =>
    beq_iff_eq.2 (List.eq_of_mem_replicate hc)
  have hlast (c : Char) (hc : (body ++ ';' :: blanks).getLast? = some c) : (c == ';') = false := by
    rw [List.getLast?_append_of_ne_nil _ (List.cons_ne_nil _ _), List.getLast?_cons_of_ne_nil hne] at hc
    have hblank := hblanks c (List.mem_of_getLast? hc)
    refine beq_false_of_ne ?_
    rintro rfl
    exact absurd hblank (by decide)
  rw [normalise, hs, ← List.cons_append, ← List.append_assoc, dropTail_append hsemicolons, dropTail_of_last hlast,
    List.append_cons, dropTail_append hblanks]
  refine dropTail_of_last fun c hc => ?_
  rw [List.getLast?_concat] at hc
  cases hc
  decide

/-- One wrapping leaves a semicolon at the end exactly if the code is ragged. -/
theorem getLast?_normalise_iff : (normalise s).getLast? = some ';' ↔ Ragged s := by
  constructor
  · intro h
    obtain ⟨semicolons, hs, hsemicolons⟩ := exists_dropTail (· == ';') (trim s)
    obtain ⟨blanks, hbare, hblanks⟩ := exists_dropTail isBlank (dropTail (· == ';') (trim s))
    obtain ⟨body, hbody⟩ := List.getLast?_eq_some_iff.1 h
    have hlist : trim s = body ++ ';' :: (blanks ++ semicolons) := by
      rw [normalise] at hbody
      rw [hs, hbare, hbody]
      simp
    -- the semicolon that is left was not the last one before the blanks were taken off
    have hne : blanks ≠ [] := by
      rintro rfl
      rw [List.append_nil] at hbare
      have hlast : (dropTail (· == ';') (trim s)).getLast? = some ';' := hbare ▸ h
      exact absurd (getLast?_dropTail hlast) (by decide)
    -- and those blanks were not at the end of the trimmed code
    have hsome : semicolons ≠ [] := by
      rintro rfl
      obtain ⟨c, hc⟩ := Option.isSome_iff_exists.1 (List.getLast?_isSome.2 hne)
      have hlast : (trim s).getLast? = some c := by
        rw [hlist, List.append_nil, List.getLast?_append_of_ne_nil _ (List.cons_ne_nil _ _),
          List.getLast?_cons_of_ne_nil hne, hc]
      exact Bool.eq_false_iff.1 (getLast?_dropTail hlast) (hblanks c (List.mem_of_getLast? hc))
    obtain ⟨n, hn⟩ := Nat.exists_eq_succ_of_ne_zero (List.length_pos_iff.2 hsome).ne'
    have hreplicate : semicolons = List.replicate (n + 1) ';' :=
      List.eq_replicate_iff.2 ⟨hn, fun c hc => beq_iff_eq.1 (hsemicolons c hc)⟩
    exact ⟨body, blanks, n, hne, hblanks, hreplicate ▸ hlist⟩
  · rintro ⟨body, blanks, n, hne, hblanks, hs⟩
    rw [normalise_of_ragged hne hblanks hs, List.getLast?_concat]

instance (s : List Char) : Decidable (Ragged s) :=
  decidable_of_iff _ getLast?_normalise_iff

theorem normalise_semicolon_ne (s : List Char) : normalise (s ++ [';']) ≠ s ++ [';'] := by
  intro h
  have hbegins : normalise (s ++ [';']) <+: dropTail (· == ';') (trim (s ++ [';'])) := dropTail_begins ..
  rw [h] at hbegins
  have hshort : (dropTail (· == ';') (trim (s ++ [';']))).length ≤ (s ++ [';']).length :=
    ((dropTail_begins ..).trans (dropTail_begins ..)).length_le.trans (List.dropWhile_sublist _).length_le
  have hlast : (dropTail (· == ';') (trim (s ++ [';']))).getLast? = some ';' := by
    rw [← hbegins.eq_of_length_le hshort, List.getLast?_concat]
  exact absurd (getLast?_dropTail hlast) (by decide)

/-- Code is as normalisation leaves it exactly if it has neither blanks at its ends nor a semicolon at its end. -/
theorem normalise_eq_self_iff : normalise s = s ↔
    (∀ c, s.head? = some c → isBlank c = false) ∧ ∀ c, s.getLast? = some c → isBlank c = false ∧ c ≠ ';' := by
  constructor
  · intro h
    refine ⟨fun c hc => isBlank_head_normalise (h.symm ▸ hc), fun c hc => ⟨isBlank_last_normalise (h.symm ▸ hc), ?_⟩⟩
    rintro rfl
    obtain ⟨body, rfl⟩ := List.getLast?_eq_some_iff.1 hc
    exact normalise_semicolon_ne body h
  · rintro ⟨hhead, hlast⟩
    exact normalise_of_ends hhead hlast

/-- A second wrapping changes code exactly if it is ragged. -/
theorem normalise_normalise_iff : normalise (normalise s) = normalise s ↔ ¬ Ragged s := by
  rw [normalise_eq_self_iff, ← getLast?_normalise_iff]
  constructor
  · rintro ⟨-, hlast⟩ h
    exact (hlast ';' h).2 rfl
  · intro h
    refine ⟨fun c => isBlank_head_normalise, fun c hc => ⟨isBlank_last_normalise hc, ?_⟩⟩
    rintro rfl
    exact h hc

end Normalise

theorem toList_expression (code : String) : (expression code).code.toList = normalise code.toList :=
  String.toList_ofList

/-- An expression of code as it stands. -/
def verbatim (code : String) : Fragment :=
  ⟨.expression, code, []⟩

theorem expression_eq_verbatim_iff {code : String} :
    expression code = verbatim code ↔ normalise code.toList = code.toList := by
  rw [← toList_expression, String.toList_inj]
  exact ⟨congrArg Fragment.code, congrArg verbatim⟩

theorem expression_again_iff {code : String} :
    expression (expression code).code = expression code ↔ ¬ Ragged code.toList := by
  rw [← normalise_normalise_iff, ← toList_expression, ← expression_eq_verbatim_iff]
  rfl

/-! ## Tight code -/

/-- Code that is not empty, and of which no wrapping takes anything off. -/
def Tight (code : String) : Prop :=
  ∃ a b, code.toList.head? = some a ∧ code.toList.getLast? = some b ∧ isBlank a = false ∧ isBlank b = false ∧ b ≠ ';'

theorem Tight.expression_eq {code : String} (h : Tight code) : expression code = verbatim code := by
  obtain ⟨a, b, hhead, hlast, ha, hb⟩ := h
  refine expression_eq_verbatim_iff.2 (normalise_of_ends (fun c hc => ?_) fun c hc => ?_)
  · rw [hhead] at hc
    cases hc
    exact ha
  · rw [hlast] at hc
    cases hc
    exact hb

theorem tight_of_expression_eq {code : String} (h : expression code = verbatim code) (hne : code ≠ "") : Tight code := by
  obtain ⟨hhead, hlast⟩ := normalise_eq_self_iff.1 (expression_eq_verbatim_iff.1 h)
  have hcode : code.toList ≠ [] := fun hnil => hne (String.toList_eq_nil_iff.1 hnil)
  obtain ⟨a, ha⟩ := Option.isSome_iff_exists.1 (List.isSome_head?.2 hcode)
  obtain ⟨b, hb⟩ := Option.isSome_iff_exists.1 (List.getLast?_isSome.2 hcode)
  exact ⟨a, b, ha, hb, hhead a ha, hlast b hb⟩

theorem tight_literal (text : String) : Tight (php.literal text) := by
  have hlist : (php.literal text).toList = '\'' :: (quote text.toList ++ ['\'']) := toList_literal text
  refine ⟨'\'', '\'', ?_, ?_, by decide⟩
  · rw [hlist, List.head?_cons]
  · rw [hlist, ← List.cons_append, List.getLast?_concat]

theorem tight_call (helper : Helper) (args : List String) : Tight (php.call helper args) := by
  have hfront : ∃ a, (callFront helper).toList.head? = some a ∧ isBlank a = false := by
    cases helper <;> exact ⟨_, rfl, by decide⟩
  obtain ⟨a, hhead, ha⟩ := hfront
  rw [call_eq]
  refine ⟨a, ')', ?_, ?_, ha, by decide⟩
  · rw [String.append_assoc, String.toList_append, List.head?_append, hhead, Option.some_or]
  · rw [String.toList_append]
    exact List.getLast?_concat ..

theorem Tight.concat {l r : String} (hl : Tight l) (hr : Tight r) : Tight (php.concat l r) := by
  have hlist : (php.concat l r).toList = l.toList ++ ([' ', '.', ' '] ++ r.toList) := by simp [php]
  obtain ⟨a, -, hhead, -, ha, -⟩ := hl
  obtain ⟨-, b, -, hlast, -, hb⟩ := hr
  have hne : r.toList ≠ [] := by
    intro hnil
    rw [hnil] at hlast
    cases hlast
  refine ⟨a, b, ?_, ?_, ha, hb⟩
  · rw [hlist, List.head?_append, hhead, Option.some_or]
  · rw [hlist, ← List.append_assoc, List.getLast?_append_of_ne_nil _ hne, hlast]

end Fragment

open Fragment

/-! ## Parameters -/

/-- What is written behind the lead reaches the directive as it was wrapped when it was read. -/
theorem AttrValue.parameter_ofSource {lead name c : String} (d : Dialect) (hname : lead.toList <+: name.toList)
    (hc : trim c.toList ≠ []) :
    Registry.parameter? (some (.ofSource lead d name (some c))) = some (.code (expression c)) := by
  have hvalue : AttrValue.ofSource lead d name (some c) = .code (expression c) := by
    rw [AttrValue.ofSource, if_pos (List.isPrefixOf_iff_prefix.2 hname)]
    exact if_neg hc
  rw [hvalue]
  rfl

/-- A class that stays as it stands when more is put behind it; a statement does not stay at all. -/
def AttrValue.Tight : AttrValue → Prop
  | text _ => True
  | code f => f.isStatement = false → Fragment.Tight f.code

theorem Handler.tight_classCode {old : AttrValue} (hold : old.Tight) {code : String} (hcode : Fragment.Tight code) :
    Fragment.Tight (classCode .php (some old) code) := by
  cases old with
  | text c => exact (tight_literal _).concat hcode
  | code f =>
    rw [classCode]
    cases hf : f.isStatement with
    | true => exact hcode
    | false => exact ((hold hf).concat (tight_literal " ")).concat hcode

/-- Normalised code has no blanks at its ends. A semicolon is left at its end, and a second wrapping takes more of it
off, exactly if it was ragged. A parameter reaches its directive as it was wrapped when it was read. It is put out so
as markup, or as the only class, exactly if it was not ragged; what the dialect puts around it stays as it stands. -/
theorem Fragment.expression_again (c : String) :
    (∀ x, (expression c).code.toList.head? = some x ∨ (expression c).code.toList.getLast? = some x →
        isBlank x = false) ∧
      ((expression c).code.toList.getLast? = some ';' ↔ Ragged c.toList) ∧
      (expression (expression c).code = expression c ↔ ¬ Ragged c.toList) ∧
      ∀ (lead name : String) (d : Dialect) (n : NodeId), lead.toList <+: name.toList → trim c.toList ≠ [] →
        let f := expression c
        let s : Site := ⟨d, n, Registry.parameter? (some (.ofSource lead d name (some c)))⟩
        s.parameter = some (.code f) ∧
          (Handler.markup s = .code f ↔ ¬ Ragged c.toList) ∧
          (expression (Handler.classCode d none s.code) = f ↔ ¬ Ragged c.toList) ∧
          (d = .php →
            Handler.plainText s = .code (verbatim (php.escape f.code)) ∧
              (∀ helper, expression (Handler.call s helper) = verbatim (php.call helper [f.code])) ∧
              (¬ Ragged c.toList → f.code ≠ "" → ∀ old : AttrValue, old.Tight →
                expression (Handler.classCode d (some old) s.code) =
                  verbatim (Handler.classCode d (some old) f.code))) := by
  refine ⟨fun x hx => ?_, ?_, expression_again_iff, fun lead name d n hname hc => ?_⟩
  · rw [toList_expression] at hx
    exact hx.elim isBlank_head_normalise isBlank_last_normalise
  · rw [toList_expression, getLast?_normalise_iff]
  · intro f s
    have hagain : expression f.code = f ↔ ¬ Ragged c.toList := expression_again_iff
    have hparameter : s.parameter = some (.code f) := AttrValue.parameter_ofSource d hname hc
    have hcode : s.code = f.code := by
      rw [Site.code, hparameter]
      rfl
    refine ⟨hparameter, ?_, ?_, ?_⟩
    · rw [← hagain, ← Kind.code.injEq, Handler.markup, hparameter, hcode]
    · rw [← hagain, hcode]
      rfl
    · rintro rfl
      refine ⟨?_, fun helper => ?_, fun hragged hne old hold => ?_⟩
      · rw [Handler.plainText, hparameter, hcode]
        exact congrArg Kind.code (tight_call .escape [f.code]).expression_eq
      · rw [Handler.call, hcode]
        exact (tight_call helper [f.code]).expression_eq
      · rw [hcode]
        exact (Handler.tight_classCode hold (tight_of_expression_eq (hagain.2 hragged) hne)).expression_eq

/-- Blanks and semicolons that do not alternate. -/
theorem Fragment.expression_again_spaced :
    let c := "\t$a ;;\n"
    let f := expression c
    let s : Site := ⟨.php, 1, Registry.parameter? (some (.ofSource "j:" .php "j:class" (some c)))⟩
    f.code = "$a" ∧ expression f.code = f ∧ Handler.markup s = .code f ∧
      expression (Handler.call s .embed) = verbatim "$this->embed($a)" ∧
      expression (Handler.classCode .php (some (.text "btn")) s.code) = verbatim "'btn ' . $a" := by
  intro c f s
  have hragged : ¬ Ragged c.toList := by decide
  obtain ⟨-, -, hagain, hsites⟩ := expression_again c
  obtain ⟨-, hmarkup, -, hphp⟩ := hsites "j:" "j:class" .php 1 (by decide) (by decide)
  obtain ⟨-, hcall, hclass⟩ := hphp rfl
  refine ⟨by decide, hagain.2 hragged, hmarkup.2 hragged, (hcall .embed).trans ?_,
    (hclass hragged (by decide) (.text "btn") trivial).trans ?_⟩
  · decide +kernel
  · decide +kernel

/-- Semicolons with a blank between them: the last one is taken off when the parameter is read, and the other stays in
the call, or is taken off by the directive that puts the code out as markup. -/
theorem Fragment.expression_keeps_semicolon :
    (expression "$a; ;").code = "$a;" ∧ expression (expression "$a; ;").code ≠ expression "$a; ;" ∧
      (Compiler.standard .php "j:").compile "<p j:embed=\"$a; ;\">x</p>" = .ok "<?php echo $this->embed($a;); ?>" ∧
      (Compiler.standard .php "j:").compile "<p j:html=\"$a; ;\">x</p>" = .ok "<p><?php echo $a; ?></p>" := by
  decide +kernel

end HtmlTemplate

import HtmlTemplate.Dialect.Php

/-! # What a literal stands for

A literal of the PHP dialect reads back as its text, whatever follows it (`read_literal`).
-/

namespace HtmlTemplate.Dialect.Php

/-- What follows the opening quote of a literal: the text up to the quote that closes it, and the rest. A
backslash before a quote or a backslash is left out. -/
def unquote : List Char → Option (List Char × List Char)
  | [] => none
  | '\'' :: s => some ([], s)
  | '\\' :: c :: s =>
    if c = '\'' ∨ c = '\\' then (unquote s).map fun r => (c :: r.1, r.2)
    else (unquote (c :: s)).map fun r => ('\\' :: r.1, r.2)
  | c :: s => (unquote s).map fun r => (c :: r.1, r.2)

/-- The text of a literal, and what follows it. -/
def read : List Char → Option (List Char × List Char)
  | '\'' :: s => unquote s
  | _ => none

theorem unquote_quote (s r : List Char) : unquote (quote s ++ '\'' :: r) = some (s, r) := by
  induction s with
  | nil => rfl
  | cons c s ih =>
    rw [quote]
    split
    · rename_i hc
      rw [List.cons_append, List.cons_append, unquote, if_pos hc, ih]
      rfl
    · rename_i hc
      rw [not_or] at hc
      rw [List.cons_append, unquote, ih]
      · rfl
      · exact hc.1
      · rintro c' s' rfl
        exact absurd rfl hc.2

/-- A literal is read up to the quote that closes it, whatever follows. -/
theorem exists_of_unquote {s t r : List Char} (h : unquote s = some (t, r)) :
    ∃ u, s = u ++ r ∧ u ≠ [] ∧ ∀ b, unquote (u ++ b) = some (t, b) := by
  fun_induction unquote s generalizing t r with
  | case1 => cases h
  | case2 s =>
    cases h
    exact ⟨['\''], rfl, List.cons_ne_nil _ _, fun b => rfl⟩
  | case3 c s hc ih =>
    obtain ⟨⟨t', r'⟩, hrest, heq⟩ := Option.map_eq_some_iff.1 h
    obtain ⟨rfl, rfl⟩ := Prod.mk.inj heq
    obtain ⟨u, rfl, -, hu⟩ := ih hrest
    refine ⟨'\\' :: c :: u, rfl, List.cons_ne_nil _ _, fun b => ?_⟩
    rw [List.cons_append, List.cons_append, unquote, if_pos hc, hu]
    rfl
  | case4 c s hc ih =>
    obtain ⟨⟨t', r'⟩, hrest, heq⟩ := Option.map_eq_some_iff.1 h
    obtain ⟨rfl, rfl⟩ := Prod.mk.inj heq
    obtain ⟨u, hs, hne, hu⟩ := ih hrest
    obtain ⟨c', u, rfl⟩ := List.exists_cons_of_ne_nil hne
    obtain ⟨rfl, rfl⟩ := List.cons.inj hs
    refine ⟨'\\' :: c :: u, rfl, List.cons_ne_nil _ _, fun b => ?_⟩
    rw [List.cons_append, List.cons_append, unquote, if_neg hc, ← List.cons_append, hu]
    rfl
  | case5 c s hquote hplain ih =>
    obtain ⟨⟨t', r'⟩, hrest, heq⟩ := Option.map_eq_some_iff.1 h
    obtain ⟨rfl, rfl⟩ := Prod.mk.inj heq
    obtain ⟨u, rfl, hne, hu⟩ := ih hrest
    refine ⟨c :: u, rfl, List.cons_ne_nil _ _, fun b => ?_⟩
    rw [List.cons_append, unquote, hu]
    · rfl
    · exact hquote
    · obtain ⟨c', u, rfl⟩ := List.exists_cons_of_ne_nil hne
      exact fun _ _ hc _ => hplain c' (u ++ r') hc rfl

theorem toList_literal (text : String) : (literal text).toList = '\'' :: (quote text.toList ++ ['\'']) := by
  simp [literal]

theorem read_literal (text : String) (r : List Char) :
    read ((literal text).toList ++ r) = some (text.toList, r) := by
  rw [toList_literal, List.cons_append, List.append_assoc, read]
  exact unquote_quote text.toList r

end HtmlTemplate.Dialect.Php

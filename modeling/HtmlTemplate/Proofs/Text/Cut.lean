import HtmlTemplate.Text.Cut
import Mathlib.Data.List.Infix
import Mathlib.Data.List.TakeWhile

/-! # Where a text is cut

A text is cut at the first place where a pattern begins (`cut_spec`), and nowhere if the pattern does not occur
(`cut_eq_none_iff`). What follows an occurrence changes nothing about it (`cut_append`). A text is trimmed at its
ends only (`trim_of_ends`).
-/

namespace HtmlTemplate

open Chars

/-! ## Texts in which a pattern does not occur -/

section Break

variable {p : List Char → Bool} {pat s r : List Char}

/-- A text is passed over if nothing begins within it. -/
theorem breakAt_skip (h : ∀ u c v, s = u ++ c :: v → p (c :: (v ++ r)) = false) :
    breakAt p (s ++ r) = (s ++ (breakAt p r).1, (breakAt p r).2) := by
  induction s with
  | nil => rfl
  | cons c s ih =>
    have hrest := ih fun u c' v hs => h (c :: u) c' v (by rw [hs]; rfl)
    rw [List.cons_append, breakAt, if_neg (Bool.eq_false_iff.1 (h [] c s rfl)), hrest]
    rfl

theorem breakAt_self (h : p r = true) : breakAt p r = ([], r) := by
  cases r with
  | nil => rfl
  | cons c r => rw [breakAt, if_pos h]

/-- A pattern that does not occur begins nowhere. -/
theorem breakAt_of_not_infix (h : ¬ pat <:+: s) : breakAt pat.isPrefixOf s = (s, []) := by
  have hskip := breakAt_skip (p := pat.isPrefixOf) (s := s) (r := []) fun u c v hs => by
    rw [List.append_nil, Bool.eq_false_iff, ne_eq, List.isPrefixOf_iff_prefix]
    rintro ⟨w, hw⟩
    exact h ⟨u, w, by rw [hs, ← hw, List.append_assoc]⟩
  simpa [breakAt] using hskip

/-- A text is cut at the first `>`. -/
theorem cut_bracket (h : '>' ∉ s) : cut ['>'] (s ++ '>' :: r) = some (s, r) := by
  have hskip := breakAt_skip (p := ['>'].isPrefixOf) (s := s) (r := '>' :: r) fun u c v hs => by
    have hc : c ≠ '>' := by
      rintro rfl
      exact h (by simp [hs])
    simp [List.isPrefixOf, hc.symm]
  have hself : breakAt ['>'].isPrefixOf ('>' :: r) = ([], '>' :: r) := breakAt_self rfl
  rw [cut, hskip, hself, List.append_nil]
  rfl

end Break

/-! ## The first occurrence of a pattern -/

section Cut

variable {pat s r before after : List Char}

/-- What is cut off is passed over, and something begins where the cut is. -/
theorem breakAt_spec (p : List Char → Bool) (s : List Char) :
    (∀ u c v, (breakAt p s).1 = u ++ c :: v → p (c :: (v ++ (breakAt p s).2)) = false) ∧
      ((breakAt p s).2 ≠ [] → p (breakAt p s).2 = true) := by
  induction s with
  | nil => exact ⟨fun u c v h => by simp [breakAt] at h, fun h => absurd rfl h⟩
  | cons c s ih =>
    rw [breakAt]
    split
    · rename_i hp
      exact ⟨fun u c v h => by simp at h, fun _ => hp⟩
    · rename_i hp
      refine ⟨fun u c' v h => ?_, ih.2⟩
      cases u with
      | nil =>
        obtain ⟨rfl, rfl⟩ := List.cons_eq_cons.1 h
        simpa using hp
      | cons x u => exact ih.1 u c' v (List.cons_eq_cons.1 h).2

/-- A text is cut where a pattern follows it, if the pattern begins nowhere before. -/
theorem cut_of_skip (hpat : pat ≠ [])
    (h : ∀ u c v, s = u ++ c :: v → ¬ pat <+: c :: (v ++ (pat ++ r))) :
    cut pat (s ++ (pat ++ r)) = some (s, r) := by
  have hskip := breakAt_skip (p := pat.isPrefixOf) (s := s) (r := pat ++ r) fun u c v hs => by
    rw [Bool.eq_false_iff, ne_eq, List.isPrefixOf_iff_prefix]
    exact h u c v hs
  have hself : breakAt pat.isPrefixOf (pat ++ r) = ([], pat ++ r) :=
    breakAt_self (List.isPrefixOf_iff_prefix.2 (List.prefix_append ..))
  rw [cut, hskip, hself, List.append_nil]
  split
  · rename_i heq
    exact absurd (List.append_eq_nil_iff.1 (congrArg Prod.snd heq)).1 hpat
  · rename_i heq
    obtain ⟨rfl, rfl⟩ := Prod.mk.inj heq
    rw [List.drop_left]

/-- A pattern whose first occurrence is at the end of a text is found there, whatever follows. -/
theorem cut_first (hpat : pat ≠ []) (h : ¬ pat <:+: (s ++ pat).dropLast) (r : List Char) :
    cut pat (s ++ (pat ++ r)) = some (s, r) := by
  refine cut_of_skip hpat fun u c v hs hbegins => h ?_
  -- An occurrence that begins in `s` ends before the last character of the pattern behind `s`.
  have hwhole : (c :: (v ++ pat)).dropLast <+: c :: (v ++ (pat ++ r)) :=
    (List.dropLast_prefix _).trans ⟨r, by simp⟩
  obtain ⟨w, hw⟩ := List.prefix_of_prefix_length_le hbegins hwhole (by simp)
  have hsplit : s ++ pat = u ++ c :: (v ++ pat) := by simp [hs]
  refine ⟨u, w, ?_⟩
  rw [hsplit, List.dropLast_append_of_ne_nil (List.cons_ne_nil _ _), ← hw, List.append_assoc]

theorem cut_spec (h : cut pat s = some (before, after)) :
    s = before ++ (pat ++ after) ∧
      ∀ u c v, before = u ++ c :: v → ¬ pat <+: c :: (v ++ (pat ++ after)) := by
  obtain ⟨hskip, hfound⟩ := breakAt_spec pat.isPrefixOf s
  have happend := breakAt_append pat.isPrefixOf s
  unfold cut at h
  split at h
  · cases h
  · rename_i b f hne hbreak
    rw [hbreak] at hskip hfound happend
    obtain ⟨w, rfl⟩ := List.isPrefixOf_iff_prefix.1 (hfound hne)
    obtain ⟨rfl, rfl⟩ : b = before ∧ w = after := by simpa using h
    refine ⟨happend.symm, fun u c v hb hbegins => ?_⟩
    rw [← List.isPrefixOf_iff_prefix, hskip u c v hb] at hbegins
    cases hbegins

/-- What is put behind a text changes nothing about its first cut. -/
theorem cut_append (hpat : pat ≠ []) (h : cut pat s = some (before, after)) (t : List Char) :
    cut pat (s ++ t) = some (before, after ++ t) := by
  obtain ⟨rfl, hskip⟩ := cut_spec h
  rw [List.append_assoc, List.append_assoc]
  refine cut_of_skip hpat fun u c v hb hbegins => hskip u c v hb ?_
  refine List.prefix_of_prefix_length_le hbegins ⟨t, by simp⟩ ?_
  simp only [List.length_cons, List.length_append]
  omega

theorem cut_eq_none_iff (hpat : pat ≠ []) : cut pat s = none ↔ ¬ pat <:+: s := by
  constructor
  · rintro h ⟨u, v, rfl⟩
    have hskip := (breakAt_spec pat.isPrefixOf (u ++ pat ++ v)).1
    have happend := breakAt_append pat.isPrefixOf (u ++ pat ++ v)
    obtain ⟨c, w, rfl⟩ := List.exists_cons_of_ne_nil hpat
    unfold cut at h
    split at h
    · rename_i b hbreak
      rw [hbreak, List.append_nil] at happend
      rw [hbreak] at hskip
      have hfalse := hskip u c (w ++ v) (by rw [happend]; simp)
      rw [List.append_nil, Bool.eq_false_iff, ne_eq, List.isPrefixOf_iff_prefix] at hfalse
      exact hfalse ⟨v, rfl⟩
    · cases h
  · intro h
    rw [cut, breakAt_of_not_infix h]

/-- A text goes up to its first `>`. -/
theorem through_bracket (h : '>' ∉ s) (r : List Char) : through ['>'] (s ++ '>' :: r) = (s ++ ['>'], r) := by
  rw [through, cut_bracket h]

theorem through_begins (pat s : List Char) : (through pat s).1 <+: s := by
  unfold through
  split
  · rename_i before after hcut
    exact ⟨after, by rw [(cut_spec hcut).1, List.append_assoc]⟩
  · exact List.prefix_rfl

/-- A text that holds its end is cut there whatever follows. -/
theorem through_append (hpat : pat ≠ []) (h : pat <:+: s) :
    ∃ u r, s = u ++ (pat ++ r) ∧ through pat s = (u ++ pat, r) ∧
      ∀ t, through pat (s ++ t) = (u ++ pat, r ++ t) := by
  cases hcut : cut pat s with
  | none => exact absurd h ((cut_eq_none_iff hpat).1 hcut)
  | some x =>
    obtain ⟨before, after⟩ := x
    have hs := (cut_spec hcut).1
    refine ⟨before, after, hs, by rw [through, hcut], fun t => ?_⟩
    rw [through, cut_append hpat hcut]

end Cut

/-! ## The ends of a text -/

section Ends

variable {p : Char → Bool} {s : List Char}

theorem dropTail_of_last (h : ∀ c, s.getLast? = some c → p c = false) : dropTail p s = s := by
  rcases List.eq_nil_or_concat s with rfl | ⟨t, c, rfl⟩
  · rfl
  · rw [List.concat_eq_append] at h ⊢
    have hc := h c (by simp)
    rw [dropTail, List.reverse_append, List.reverse_singleton, List.singleton_append,
      List.dropWhile_cons_of_neg (by simp [hc]), List.reverse_cons, List.reverse_reverse]

theorem getLast?_dropTail {c : Char} (h : (dropTail p s).getLast? = some c) : p c = false := by
  rw [dropTail, List.getLast?_reverse] at h
  have hnot := List.head?_dropWhile_not p s.reverse
  rw [h] at hnot
  exact hnot

theorem trim_of_ends (hhead : ∀ c, s.head? = some c → isBlank c = false)
    (hlast : ∀ c, s.getLast? = some c → isBlank c = false) : trim s = s := by
  have hdrop : s.dropWhile isBlank = s := by
    cases s with
    | nil => rfl
    | cons c s => exact List.dropWhile_cons_of_neg (by simp [hhead c rfl])
  rw [trim, hdrop, dropTail_of_last hlast]

/-- A text of which nothing is left when it is trimmed is blank. -/
theorem isBlank_of_trim (h : trim s = []) : ∀ c ∈ s, isBlank c = true := by
  rw [trim, dropTail, List.reverse_eq_nil_iff, List.dropWhile_eq_nil_iff] at h
  intro c hc
  rw [← List.takeWhile_append_dropWhile (p := isBlank) (l := s), List.mem_append] at hc
  rcases hc with hc | hc
  · exact List.mem_takeWhile_imp hc
  · exact h c (List.mem_reverse.2 hc)

end Ends

end HtmlTemplate

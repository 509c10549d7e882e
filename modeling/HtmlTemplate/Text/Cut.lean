import HtmlTemplate.Text.Blank

/-! # Cutting text at a pattern

Every scanner of the library cuts a list of characters at the first place where something begins.
`breakAt` does so for any test of what begins there; `breakAt_append` says that nothing is lost.
-/

namespace HtmlTemplate.Chars

/-- Splits before the first suffix that satisfies `p`; all goes to the left if none does. -/
def breakAt (p : List Char → Bool) : List Char → List Char × List Char
  | [] => ([], [])
  | c :: s =>
    if p (c :: s) then ([], c :: s)
    else
      let r := breakAt p s
      (c :: r.1, r.2)

@[simp] theorem breakAt_append (p : List Char → Bool) (s : List Char) :
    (breakAt p s).1 ++ (breakAt p s).2 = s := by
  induction s with
  | nil => rfl
  | cons c s ih =>
    rw [breakAt]
    split
    · rfl
    · simp [ih]

theorem length_breakAt (p : List Char → Bool) (s : List Char) :
    (breakAt p s).1.length + (breakAt p s).2.length = s.length := by
  rw [← List.length_append, breakAt_append]

/-- What stands before the first occurrence of `pat`, and what stands after it. -/
def cut (pat s : List Char) : Option (List Char × List Char) :=
  match breakAt pat.isPrefixOf s with
  | (_, []) => none
  | (before, found) => some (before, found.drop pat.length)

theorem length_cut {pat s before after : List Char} (h : cut pat s = some (before, after)) :
    before.length + after.length ≤ s.length ∧ (0 < pat.length → after.length < s.length) := by
  have hlen := length_breakAt pat.isPrefixOf s
  unfold cut at h
  split at h
  · cases h
  · rename_i b f hne hbf
    rw [hbf] at hlen
    obtain ⟨rfl, rfl⟩ : b = before ∧ f.drop pat.length = after := by simpa using h
    have hf : 0 < f.length := List.length_pos_iff.2 hne
    simp only [List.length_drop] at hlen ⊢
    omega

/-- The text up to the end of the first occurrence of `pat`, and the rest; all of the text if
`pat` does not occur. -/
def through (pat s : List Char) : List Char × List Char :=
  match cut pat s with
  | some (before, after) => (before ++ pat, after)
  | none => (s, [])

theorem length_through_lt {pat s : List Char} (hpat : 0 < pat.length) (hs : 0 < s.length) :
    (through pat s).2.length < s.length := by
  unfold through
  split
  · rename_i before after h
    exact (length_cut h).2 hpat
  · simpa using hs

/-- Whether the text begins with `pat`, ASCII capitals counting as small letters. -/
def beginsFolded (pat s : List Char) : Bool :=
  (lower pat).isPrefixOf (lower (s.take pat.length))

end HtmlTemplate.Chars

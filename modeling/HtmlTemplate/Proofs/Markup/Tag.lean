import HtmlTemplate.Markup.Document
import HtmlTemplate.Proofs.Text.Cut

/-! # Reading back a start tag

A tag name of small letters and attributes in double quotes are read as they were written: the tag is cut
at its own `>`, whatever the values hold (`cutTag_inside`), and its name and attributes come out as they
went in (`ofChars_inside`).
-/

namespace HtmlTemplate

open Chars

/-- Whether a start tag may begin here. -/
def Token.opensTag : List Char → Bool
  | '<' :: c :: _ => c.isAlpha
  | _ => false

/-! ## Names of tags -/

/-- The characters of tag names after the first. -/
def isTagChar (c : Char) : Bool :=
  c.isLower || c.isDigit || c == '-' || c == ':'

/-- A small letter, and then small letters, digits, hyphens and colons. -/
def isPlainTag (tag : String) : Bool :=
  match tag.toList with
  | [] => false
  | c :: s => c.isLower && s.all isTagChar

theorem toNat_of_isTagChar {c : Char} (h : isTagChar c = true) :
    97 ≤ c.toNat ∧ c.toNat ≤ 122 ∨ 48 ≤ c.toNat ∧ c.toNat ≤ 58 ∨ c.toNat = 45 := by
  simp only [isTagChar, Bool.or_eq_true, beq_iff_eq] at h
  rcases h with ((h | h) | rfl) | rfl
  · change (decide (c.val ≥ 97) && decide (c.val ≤ 122)) = true at h
    simp only [Bool.and_eq_true, decide_eq_true_eq, UInt32.le_iff_toNat_le, ge_iff_le] at h
    exact Or.inl h
  · simp only [Char.isDigit, Bool.and_eq_true, decide_eq_true_eq, UInt32.le_iff_toNat_le, ge_iff_le] at h
    exact Or.inr (Or.inl ⟨h.1, Nat.le_succ_of_le h.2⟩)
  · decide
  · decide

section TagChar

variable {c : Char} (h : isTagChar c = true)
include h

/-- A character of a tag name is none of those that have a meaning in markup. -/
theorem not_mem_of_isTagChar (marks : List Char) (hmarks : marks.any isTagChar = false) :
    c ∉ marks := by
  intro hc
  rw [List.any_eq_false] at hmarks
  exact hmarks c hc h

theorem isDelimiter_of_isTagChar : Tag.isDelimiter c = false := by
  have hc := not_mem_of_isTagChar h [' ', '\t', '\n', '\x0c', '\r', '/'] (by decide)
  simp only [List.mem_cons, List.not_mem_nil, or_false, not_or] at hc
  simp [Tag.isDelimiter, isTagBlank, hc]

theorem isBlank_of_isTagChar : isBlank c = false := by
  have hc := toNat_of_isTagChar h
  simp only [isBlank, Bool.or_eq_false_iff, Bool.and_eq_false_iff, decide_eq_false_iff_not, beq_eq_false_iff_ne]
  omega

theorem toLower_of_isTagChar : c.toLower = c := by
  have hc := toNat_of_isTagChar h
  unfold Char.toLower
  rw [dif_neg]
  rintro ⟨h₁, h₂⟩
  have h₁' : 65 ≤ c.toNat := h₁
  have h₂' : c.toNat ≤ 90 := h₂
  omega

end TagChar

section PlainTag

variable {tag : String} (h : isPlainTag tag = true)
include h

theorem isTagChar_of_mem : ∀ c ∈ tag.toList, isTagChar c = true := by
  unfold isPlainTag at h
  split at h
  · cases h
  · rename_i c s htag
    obtain ⟨hc, hs⟩ := Bool.and_eq_true_iff.1 h
    rw [htag]
    intro x hx
    rcases List.mem_cons.1 hx with rfl | hx
    · simp [isTagChar, hc]
    · exact List.all_eq_true.1 hs x hx

theorem exists_letter : ∃ c s, tag.toList = c :: s ∧ c.isAlpha = true ∧ c ≠ '!' ∧ c ≠ '?' ∧ c ≠ '/' := by
  unfold isPlainTag at h
  split at h
  · cases h
  · rename_i c s htag
    have hc := (Bool.and_eq_true_iff.1 h).1
    refine ⟨c, s, htag, Bool.or_eq_true_iff.2 (Or.inr hc), ?_, ?_, ?_⟩
    all_goals
      rintro rfl
      revert hc
      decide

theorem lower_tag : lower tag.toList = tag.toList := by
  refine (List.map_congr_left fun c hc => ?_).trans (List.map_id _)
  exact toLower_of_isTagChar (isTagChar_of_mem h c hc)

theorem trim_tag : trim tag.toList = tag.toList := by
  have hblank : ∀ c ∈ tag.toList, isBlank c = false := fun c hc => isBlank_of_isTagChar (isTagChar_of_mem h c hc)
  exact trim_of_ends (fun c hc => hblank c (List.mem_of_head? hc)) fun c hc => hblank c (List.mem_of_getLast? hc)

end PlainTag

/-! ## The inside of a tag -/

/-- A name that stands for itself in a tag. -/
def isPlainName (name : String) : Bool :=
  name != "" && name.toList.all fun c => !isTagBlank c && !(['/', '=', '>', '"', '\''].contains c)

/-- An attribute as it is written. -/
def attributeText (a : String × String) : List Char :=
  ' ' :: (a.1.toList ++ '=' :: '"' :: (a.2.toList ++ ['"']))

/-- What stands between the brackets of a start tag. -/
def inside (tag : String) (attributes : List (String × String)) : List Char :=
  tag.toList ++ attributes.flatMap attributeText

theorem exists_name {name : String} (h : isPlainName name = true) :
    ∃ c s, name.toList = c :: s ∧ ∀ x ∈ c :: s,
      Tag.isNameChar x = true ∧ x ∉ ['/', '=', '>', '"', '\''] := by
  obtain ⟨hne, hall⟩ := Bool.and_eq_true_iff.1 h
  cases hname : name.toList with
  | nil =>
    rw [String.toList_eq_nil_iff.1 hname] at hne
    cases hne
  | cons c s =>
    refine ⟨c, s, rfl, fun x hx => ?_⟩
    have hx' := List.all_eq_true.1 hall x (hname ▸ hx)
    simp only [Bool.and_eq_true, Bool.not_eq_true', List.contains_eq_mem, decide_eq_false_iff_not] at hx'
    refine ⟨?_, hx'.2⟩
    simp only [List.mem_cons, not_or] at hx'
    simp [Tag.isNameChar, Tag.isDelimiter, hx']

namespace Token

/-- Outside of quotes a tag goes on up to the next bracket or quote. -/
theorem cutTag_plain {s : List Char} (h : ∀ c ∈ s, c ∉ ['>', '"', '\'']) (r : List Char) :
    cutTag none (s ++ r) = (cutTag none r).map fun x => (s ++ x.1, x.2) := by
  induction s with
  | nil => simp
  | cons c s ih =>
    have hc := h c List.mem_cons_self
    simp only [List.mem_cons, List.not_mem_nil, or_false, not_or] at hc
    rw [List.cons_append, cutTag]
    simp only [hc, if_false, or_self, ih fun x hx => h x (List.mem_cons_of_mem _ hx)]
    rw [Option.map_map]
    rfl

/-- Within quotes it goes on up to the quote that ends them. -/
theorem cutTag_quoted {v : List Char} (h : '"' ∉ v) (r : List Char) :
    cutTag (some '"') (v ++ '"' :: r) = (cutTag none r).map fun x => (v ++ '"' :: x.1, x.2) := by
  induction v with
  | nil => simp [cutTag]
  | cons c v ih =>
    obtain ⟨hc, hv⟩ := not_or.1 (List.mem_cons.not.1 h)
    rw [List.cons_append, cutTag]
    simp only [Ne.symm hc, if_false, ih hv]
    rw [Option.map_map]
    rfl

theorem cutTag_attribute {a : String × String} (hname : isPlainName a.1 = true)
    (hvalue : '"' ∉ a.2.toList) (r : List Char) :
    cutTag none (attributeText a ++ r) =
      (cutTag none r).map fun x => (attributeText a ++ x.1, x.2) := by
  have hsplit : ∀ r, attributeText a ++ r =
      (' ' :: (a.1.toList ++ ['='])) ++ '"' :: (a.2.toList ++ '"' :: r) := by
    simp [attributeText]
  have hplain : ∀ c ∈ ' ' :: (a.1.toList ++ ['=']), c ∉ ['>', '"', '\''] := by
    obtain ⟨c₀, s, hs, hchars⟩ := exists_name hname
    intro c hc
    simp only [List.mem_cons, List.mem_append, List.not_mem_nil, or_false] at hc
    rcases hc with rfl | hc | rfl
    · decide
    · have := (hchars c (hs ▸ hc)).2
      simp_all
    · decide
  rw [hsplit, cutTag_plain hplain, cutTag]
  simp only [Char.reduceEq, if_false, true_or, if_true, cutTag_quoted hvalue, Option.map_map]
  refine congrArg (Option.map · _) (funext fun x => ?_)
  simp [hsplit]

/-- A tag is cut at its own bracket, whatever the values of its attributes hold. -/
theorem cutTag_inside {tag : String} {attributes : List (String × String)}
    (htag : isPlainTag tag = true)
    (hattributes : ∀ a ∈ attributes, isPlainName a.1 = true ∧ '"' ∉ a.2.toList) (r : List Char) :
    cutTag none (inside tag attributes ++ '>' :: r) = some (inside tag attributes, r) := by
  have htext : cutTag none (attributes.flatMap attributeText ++ '>' :: r) =
      some (attributes.flatMap attributeText, r) := by
    induction attributes with
    | nil => rfl
    | cons a attributes ih =>
      obtain ⟨hname, hvalue⟩ := hattributes a List.mem_cons_self
      rw [List.flatMap_cons, List.append_assoc, cutTag_attribute hname hvalue,
        ih fun x hx => hattributes x (List.mem_cons_of_mem _ hx)]
      rfl
  have hplain : ∀ c ∈ tag.toList, c ∉ ['>', '"', '\''] := fun c hc =>
    not_mem_of_isTagChar (isTagChar_of_mem htag c hc) _ (by decide)
  rw [inside, List.append_assoc, cutTag_plain hplain, htext]
  rfl

end Token

/-- The last character of a tag is one of its name, or a quote. -/
theorem getLast?_inside {tag : String} (htag : isPlainTag tag = true)
    (attributes : List (String × String)) :
    ∃ c, (inside tag attributes).getLast? = some c ∧ c ≠ '/' := by
  rcases List.eq_nil_or_concat attributes with rfl | ⟨front, a, rfl⟩
  · obtain ⟨c₀, s, hs, -⟩ := exists_letter htag
    have hne : tag.toList ≠ [] := by simp [hs]
    have hlast := not_mem_of_isTagChar (isTagChar_of_mem htag _ (List.getLast_mem hne)) ['/'] (by decide)
    refine ⟨tag.toList.getLast hne, ?_, by simpa using hlast⟩
    rw [inside, List.flatMap_nil, List.append_nil, List.getLast?_eq_some_getLast hne]
  · refine ⟨'"', List.getLast?_eq_some_iff.2 ⟨tag.toList ++ (front.flatMap attributeText ++
      ' ' :: (a.1.toList ++ '=' :: '"' :: a.2.toList)), ?_⟩, by decide⟩
    simp [inside, attributeText]

theorem dropTail_inside {tag : String} (htag : isPlainTag tag = true)
    (attributes : List (String × String)) :
    dropTail (· == '/') (inside tag attributes) = inside tag attributes := by
  obtain ⟨c, hlast, hc⟩ := getLast?_inside htag attributes
  refine dropTail_of_last fun x hx => ?_
  obtain rfl : c = x := Option.some.inj (hlast.symm.trans hx)
  simpa using hc

namespace Tag

/-- The tag that is written with attributes in quotes. -/
def ofTexts (tag : String) (attributes : List (String × String)) : Tag :=
  ⟨tag, attributes.map fun a => (a.1, some a.2)⟩

theorem readValue_quoted {v r : List Char} (h : '"' ∉ v) :
    readValue ('"' :: (v ++ '"' :: r)) = (v, r) := by
  have hv : ∀ c ∈ v, (c != '"') = true := by
    intro c hc
    rw [bne_iff_ne]
    rintro rfl
    exact h hc
  have hblank : ('"' :: (v ++ '"' :: r)).dropWhile isTagBlank = '"' :: (v ++ '"' :: r) := rfl
  simp only [readValue, hblank]
  rw [List.takeWhile_append_of_pos hv, List.dropWhile_append_of_pos hv]
  simp

theorem readAttributes_text {a : String × String} (hname : isPlainName a.1 = true)
    (hvalue : '"' ∉ a.2.toList) (r : List Char) :
    readAttributes (attributeText a ++ r) = (a.1, some a.2) :: readAttributes r := by
  obtain ⟨c, s, hs, hchars⟩ := exists_name hname
  have hc := (hchars c List.mem_cons_self)
  have hs' : ∀ x ∈ s, isNameChar x = true := fun x hx => (hchars x (List.mem_cons_of_mem _ hx)).1
  have hread : readAttribute c (s ++ '=' :: '"' :: (a.2.toList ++ '"' :: r)) = ((a.1, some a.2), r) := by
    have hdrop : (s ++ '=' :: '"' :: (a.2.toList ++ '"' :: r)).dropWhile isNameChar =
        '=' :: '"' :: (a.2.toList ++ '"' :: r) := by
      rw [List.dropWhile_append_of_pos hs']
      rfl
    have htake : (s ++ '=' :: '"' :: (a.2.toList ++ '"' :: r)).takeWhile isNameChar = s := by
      rw [List.takeWhile_append_of_pos hs']
      simp [isNameChar]
    have hblank : ('=' :: '"' :: (a.2.toList ++ '"' :: r)).dropWhile isTagBlank =
        '=' :: '"' :: (a.2.toList ++ '"' :: r) := rfl
    rw [readAttribute, hdrop, htake, hblank, ← hs]
    simp [readValue_quoted hvalue]
  have hdrop : (attributeText a ++ r).dropWhile isDelimiter =
      c :: (s ++ '=' :: '"' :: (a.2.toList ++ '"' :: r)) := by
    have hblank : isDelimiter ' ' = true := rfl
    have hdelimiter : ¬ isDelimiter c = true := by
      have := hc.1
      simp only [isNameChar, Bool.and_eq_true, Bool.not_eq_true'] at this
      simp [this.1]
    rw [attributeText, hs, List.cons_append, List.dropWhile_cons_of_pos hblank]
    simp [List.dropWhile_cons_of_neg hdelimiter]
  have hequals : ¬ c = '=' := by
    rintro rfl
    exact hc.2 (by simp)
  rw [readAttributes]
  split
  · rename_i hnil
    rw [hdrop] at hnil
    cases hnil
  · rename_i c' r' hcons
    rw [hdrop] at hcons
    cases hcons
    rw [if_neg hequals, hread]

/-- The name and the attributes of a tag are read as they were written. -/
theorem ofChars_inside {tag : String} {attributes : List (String × String)}
    (htag : isPlainTag tag = true)
    (hattributes : ∀ a ∈ attributes, isPlainName a.1 = true ∧ '"' ∉ a.2.toList) :
    ofChars (inside tag attributes) = ofTexts tag attributes := by
  have hname : ∀ c ∈ tag.toList, (!isDelimiter c) = true := fun c hc => by
    rw [isDelimiter_of_isTagChar (isTagChar_of_mem htag c hc)]
    rfl
  have htake : (attributes.flatMap attributeText).takeWhile (!isDelimiter ·) = [] := by
    cases attributes <;> rfl
  have hdrop : (attributes.flatMap attributeText).dropWhile (!isDelimiter ·) =
      attributes.flatMap attributeText := by
    cases attributes <;> rfl
  have hread : readAttributes (attributes.flatMap attributeText) =
      attributes.map fun a => (a.1, some a.2) := by
    clear htake hdrop
    induction attributes with
    | nil =>
      rw [List.flatMap_nil, readAttributes]
      rfl
    | cons a attributes ih =>
      obtain ⟨hplain, hvalue⟩ := hattributes a List.mem_cons_self
      rw [List.flatMap_cons, readAttributes_text hplain hvalue,
        ih fun x hx => hattributes x (List.mem_cons_of_mem _ hx)]
      rfl
  rw [ofChars, inside, List.takeWhile_append_of_pos hname, List.dropWhile_append_of_pos hname, htake,
    hdrop, hread, List.append_nil, lower_tag htag, String.ofList_toList, ofTexts]

end Tag

end HtmlTemplate

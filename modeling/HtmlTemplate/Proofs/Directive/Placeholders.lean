import HtmlTemplate.Compiler
import HtmlTemplate.Dialect.Php
import Mathlib.Data.List.Chain
import Mathlib.Data.List.DropRight

/-! # Reading the keys of messages

The key of a message is text with numbered places for arguments in it. `Message.read` reads it again: a percent sign
with all digits behind it is a place. Text goes to the key as it stands, so that a key can be read as more or as fewer
places than it was made of; it gives back what it was made of exactly if no digit of a text stands right behind a
place or a percent sign (`translateWith_read`).
-/

namespace HtmlTemplate

namespace Message

/-- One sign of a message: a character of its text, or the place of an argument. -/
inductive Symbol where
  | char (c : Char)
  | place (number : Nat)
  deriving DecidableEq, Repr

namespace Symbol

def spell : Symbol → List Char
  | char c => [c]
  | place n => '%' :: (Nat.repr n).toList

def isBlank : Symbol → Bool
  | char c => HtmlTemplate.isBlank c
  | place _ => false

def isDigit : Symbol → Bool
  | char c => c.isDigit
  | place _ => false

/-- Whether digits that come next would be read as part of a number. -/
def isOpen : Symbol → Bool
  | char c => c == '%'
  | place _ => true

/-- Two signs that can be told apart when one stands behind the other. -/
def Apart (x y : Symbol) : Prop :=
  x.isOpen = true → y.isDigit = false

end Symbol

/-- Reads a key: a percent sign with all digits behind it is a place, and everything else stands for itself. -/
def read : List Char → List Symbol
  | [] => []
  | c :: s =>
    let digits := s.takeWhile Char.isDigit
    if c = '%' ∧ digits ≠ [] then .place (Nat.ofDigitChars 10 digits 0) :: read (s.dropWhile Char.isDigit)
    else .char c :: read s
termination_by s => s.length
decreasing_by
  · have := (List.dropWhile_sublist Char.isDigit (l := s)).length_le
    simp only [List.length_cons]
    omega
  · simp

/-- The signs without the blanks at either end. -/
def trim (s : List Symbol) : List Symbol :=
  (s.dropWhile Symbol.isBlank).rdropWhile Symbol.isBlank

/-- The texts of a forest and, for everything else in it, the places from `used + 1` on. -/
def symbols (used : Nat) : Forest Kind → List Symbol
  | .nil => []
  | .cons (.text s) _ r => s.toList.map .char ++ symbols used r
  | .cons _ _ r => .place (used + 1) :: symbols (used + 1) r

/-- The arguments of a message: what is not text, in order. -/
def arguments (d : Dialect) : Forest Kind → List String
  | .nil => []
  | .cons (.text _) _ r => arguments d r
  | .cons k c r => Handler.messageArgument d k c :: arguments d r

/-- The numbers of the places, in order. -/
def places (s : List Symbol) : List Nat :=
  s.filterMap fun
    | .place n => some n
    | .char _ => none

/-! ## Digits -/

theorem isDigit_repr {n : Nat} {c : Char} (h : c ∈ (Nat.repr n).toList) : c.isDigit = true := by
  rw [Nat.toList_repr] at h
  exact Nat.isDigit_of_mem_toDigits (by omega) (by omega) h

theorem ofDigitChars_repr (n : Nat) (digits : List Char) :
    Nat.ofDigitChars 10 ((Nat.repr n).toList ++ digits) 0 = Nat.ofDigitChars 10 digits n := by
  rw [Nat.toList_repr, Nat.ofDigitChars_append, Nat.ofDigitChars_toDigits (by omega) (by omega)]

/-- More digits make a number larger, as long as it is not zero. -/
theorem lt_ofDigitChars {n : Nat} (hn : 0 < n) {digits : List Char} (h : digits ≠ []) :
    n < Nat.ofDigitChars 10 digits n := by
  induction digits generalizing n with
  | nil => exact absurd rfl h
  | cons c digits ih =>
    rw [Nat.ofDigitChars_cons]
    by_cases hd : digits = []
    · rw [hd, Nat.ofDigitChars_nil]
      omega
    · have := ih (n := 10 * n + (c.toNat - '0'.toNat)) (by omega) hd
      omega

theorem not_isBlank_of_isDigit {c : Char} (h : c.isDigit = true) : isBlank c = false := by
  have hrange : 48 ≤ c.toNat ∧ c.toNat ≤ 57 := by
    simp only [Char.isDigit, ge_iff_le, Bool.and_eq_true, decide_eq_true_eq, UInt32.le_iff_toNat_le] at h
    exact h
  simp only [isBlank, Bool.or_eq_false_iff, Bool.and_eq_false_iff, decide_eq_false_iff_not, beq_eq_false_iff_ne]
  omega

/-! ## Reading what was spelled -/

theorem read_cons_of_plain {c : Char} {s : List Char} (h : c ≠ '%' ∨ s.takeWhile Char.isDigit = []) :
    read (c :: s) = .char c :: read s := by
  rw [read]
  exact if_neg fun ⟨hc, hs⟩ => h.elim (· hc) hs

theorem read_cons_of_digits {s : List Char} (h : s.takeWhile Char.isDigit ≠ []) :
    read ('%' :: s) =
      .place (Nat.ofDigitChars 10 (s.takeWhile Char.isDigit) 0) :: read (s.dropWhile Char.isDigit) := by
  rw [read]
  exact if_pos ⟨rfl, h⟩

/-- A place takes all digits that come next. -/
theorem read_place (n : Nat) (s : List Char) :
    read ((Symbol.place n).spell ++ s) =
      .place (Nat.ofDigitChars 10 (s.takeWhile Char.isDigit) n) :: read (s.dropWhile Char.isDigit) := by
  have htake : ((Nat.repr n).toList ++ s).takeWhile Char.isDigit =
      (Nat.repr n).toList ++ s.takeWhile Char.isDigit :=
    List.takeWhile_append_of_pos fun _ => isDigit_repr
  have hdrop : ((Nat.repr n).toList ++ s).dropWhile Char.isDigit = s.dropWhile Char.isDigit :=
    List.dropWhile_append_of_pos fun _ => isDigit_repr
  have hsome : (Nat.repr n).toList ≠ [] := by
    rw [Nat.toList_repr]
    exact Nat.toDigits_ne_nil
  rw [Symbol.spell, List.cons_append, read_cons_of_digits, htake, hdrop, ofDigitChars_repr]
  rw [htake]
  exact List.append_ne_nil_of_left_ne_nil hsome _

theorem takeWhile_spell (s : List Symbol) :
    (s.flatMap Symbol.spell).takeWhile Char.isDigit = [] ↔ ∀ x ∈ s.head?, x.isDigit = false := by
  cases s with
  | nil => simp
  | cons x s =>
    cases x with
    | char c => simp [Symbol.spell, Symbol.isDigit, List.takeWhile_cons]
    | place n => simp [Symbol.spell, Symbol.isDigit]

theorem read_spell_append {x : Symbol} {s : List Char}
    (h : x.isOpen = true → s.takeWhile Char.isDigit = []) : read (x.spell ++ s) = x :: read s := by
  cases x with
  | char c =>
    refine read_cons_of_plain ?_
    by_cases hc : c = '%'
    · exact Or.inr (h (beq_iff_eq.2 hc))
    · exact Or.inl hc
  | place n =>
    have hdrop : s.dropWhile Char.isDigit = s := by
      have := List.takeWhile_append_dropWhile (p := Char.isDigit) (l := s)
      rwa [h rfl, List.nil_append] at this
    rw [read_place, h rfl, hdrop, Nat.ofDigitChars_nil]

/-- Digits behind an open sign make another sign of it. -/
theorem read_spell_append_ne {x : Symbol} (hx : ∀ n, x = .place n → 0 < n) {s : List Char} (hopen : x.isOpen = true)
    (hs : s.takeWhile Char.isDigit ≠ []) (rest : List Symbol) : read (x.spell ++ s) ≠ x :: rest := by
  cases x with
  | char c =>
    rw [Symbol.isOpen, beq_iff_eq] at hopen
    rw [hopen, Symbol.spell, List.singleton_append, read_cons_of_digits hs]
    simp
  | place n =>
    have hlarger := lt_ofDigitChars (hx n rfl) hs
    rw [read_place]
    intro h
    rw [List.cons.injEq, Symbol.place.injEq] at h
    omega

/-- Signs are read as they were spelled exactly if each can be told from the next. -/
theorem read_spell_iff {s : List Symbol} (hs : ∀ n, .place n ∈ s → 0 < n) :
    read (s.flatMap Symbol.spell) = s ↔ s.IsChain Symbol.Apart := by
  induction s with
  | nil => simp [read]
  | cons x s ih =>
    have ih := ih fun n hn => hs n (List.mem_cons_of_mem x hn)
    have happart : (∀ y ∈ s.head?, x.Apart y) ↔
        (x.isOpen = true → (s.flatMap Symbol.spell).takeWhile Char.isDigit = []) := by
      rw [takeWhile_spell]
      exact ⟨fun h hopen y hy => h y hy hopen, fun h y hy hopen => h hopen y hy⟩
    rw [List.flatMap_cons, List.isChain_cons, ← ih, happart]
    constructor
    · intro h
      have hopen : x.isOpen = true → (s.flatMap Symbol.spell).takeWhile Char.isDigit = [] := by
        intro hopen
        refine Classical.byContradiction fun hdigits => ?_
        exact read_spell_append_ne (fun n hn => hs n (hn ▸ List.mem_cons_self)) hopen hdigits s h
      rw [read_spell_append hopen] at h
      exact ⟨hopen, (List.cons.inj h).2⟩
    · rintro ⟨hopen, hrest⟩
      rw [read_spell_append hopen, hrest]

/-! ## Blanks at the ends -/

theorem isBlank_of_mem_spell {x : Symbol} (hx : x.isBlank = false) {c : Char} (hc : c ∈ x.spell) :
    isBlank c = false := by
  cases x with
  | char d =>
    rw [Symbol.spell, List.mem_singleton] at hc
    rw [hc]
    exact hx
  | place n =>
    rcases List.mem_cons.1 hc with rfl | hc
    · decide
    · exact not_isBlank_of_isDigit (isDigit_repr hc)

/-- Leading blanks of a text are leading blank signs, from whichever end the signs are spelled. -/
theorem dropWhile_flatMap {spell : Symbol → List Char} (hblank : ∀ c, spell (.char c) = [c])
    (hplace : ∀ n, spell (.place n) ≠ [] ∧ ∀ c ∈ spell (.place n), isBlank c = false) (s : List Symbol) :
    (s.flatMap spell).dropWhile isBlank = (s.dropWhile Symbol.isBlank).flatMap spell := by
  induction s with
  | nil => rfl
  | cons x s ih =>
    cases x with
    | char c =>
      rw [List.flatMap_cons, hblank, List.singleton_append, List.dropWhile_cons, List.dropWhile_cons, Symbol.isBlank]
      split
      · exact ih
      · rw [List.flatMap_cons, hblank, List.singleton_append]
    | place n =>
      obtain ⟨c, digits, hspell⟩ := List.exists_cons_of_ne_nil (hplace n).1
      have hc := (hplace n).2 c (by simp [hspell])
      rw [List.dropWhile_cons_of_neg (by simp [Symbol.isBlank]), List.flatMap_cons, hspell, List.cons_append,
        List.dropWhile_cons_of_neg (by simp [hc])]

theorem trim_spell (s : List Symbol) : Chars.trim (s.flatMap Symbol.spell) = (trim s).flatMap Symbol.spell := by
  have hplace (n : Nat) : ∀ c ∈ (Symbol.place n).spell, isBlank c = false := fun c =>
    isBlank_of_mem_spell rfl
  have hback (s : List Symbol) : Chars.dropTail isBlank (s.flatMap Symbol.spell) =
      (s.rdropWhile Symbol.isBlank).flatMap Symbol.spell := by
    rw [Chars.dropTail, List.reverse_flatMap, dropWhile_flatMap (fun _ => rfl), List.reverse_flatMap, List.rdropWhile]
    · simp [Function.comp_def]
    · intro n
      refine ⟨by simp [Symbol.spell], fun c hc => hplace n c ?_⟩
      simpa using hc
  rw [Chars.trim, dropWhile_flatMap (fun _ => rfl), hback, trim]
  exact fun n => ⟨List.cons_ne_nil _ _, hplace n⟩

theorem isChain_dropWhile {R : Symbol → Symbol → Prop} (hR : ∀ x y, x.isBlank = true → R x y) (s : List Symbol) :
    (s.dropWhile Symbol.isBlank).IsChain R ↔ s.IsChain R := by
  induction s with
  | nil => rfl
  | cons x s ih =>
    rw [List.dropWhile_cons]
    split
    · rename_i hx
      rw [ih, List.isChain_cons]
      exact ⟨fun h => ⟨fun y _ => hR x y hx, h⟩, And.right⟩
    · rfl

theorem isChain_trim (s : List Symbol) : (trim s).IsChain Symbol.Apart ↔ s.IsChain Symbol.Apart := by
  have hfront : ∀ x y : Symbol, x.isBlank = true → x.Apart y := by
    intro x y hx hopen
    cases x with
    | place n => cases hx
    | char c =>
      rw [Symbol.isOpen, beq_iff_eq] at hopen
      rw [Symbol.isBlank, hopen] at hx
      exact absurd hx (by decide)
  have hback : ∀ y x : Symbol, y.isBlank = true → x.Apart y := by
    intro y x hy _
    cases y with
    | place n => rfl
    | char c => exact Bool.eq_false_iff.2 fun hc => Bool.eq_false_iff.1 (not_isBlank_of_isDigit hc) hy
  rw [trim, List.rdropWhile, List.isChain_reverse, isChain_dropWhile hback, List.isChain_reverse,
    isChain_dropWhile hfront]

/-! ## The key of a message -/

theorem message_eq (d : Dialect) (used : Nat) (f : Forest Kind) :
    (Handler.message d used f).1.toList = (symbols used f).flatMap Symbol.spell ∧
      (Handler.message d used f).2 = arguments d f := by
  fun_induction Handler.message d used f with
  | case1 used => exact ⟨rfl, rfl⟩
  | case2 used s c r m ih =>
    refine ⟨?_, ih.2⟩
    have hchars : (s.toList.map Symbol.char).flatMap Symbol.spell = s.toList := by
      rw [List.flatMap_map]
      exact List.flatMap_singleton' s.toList
    rw [String.toList_append, ih.1, symbols, List.flatMap_append, hchars]
  | case3 used k c r hk m ih =>
    rw [symbols, arguments, List.flatMap_cons, ← ih.1, ← ih.2]
    · simp [Symbol.spell, m]
    · exact hk
    · exact hk

theorem places_symbols (d : Dialect) (used : Nat) (f : Forest Kind) :
    places (symbols used f) = List.range' (used + 1) (arguments d f).length := by
  fun_induction symbols used f with
  | case1 used => rfl
  | case2 used s c r ih =>
    have htext : places (s.toList.map Symbol.char) = [] := by
      rw [places, List.filterMap_map]
      exact List.filterMap_none _
    rw [places, List.filterMap_append, ← places, ← places, htext, ih, arguments]
    rfl
  | case3 used k c r hk ih =>
    rw [arguments, List.length_cons, List.range'_succ, ← ih]
    · rfl
    · exact hk

theorem pos_of_place_mem {f : Forest Kind} {n : Nat} (h : .place n ∈ symbols 0 f) (d : Dialect) : 0 < n := by
  have hn : n ∈ places (symbols 0 f) := List.mem_filterMap.2 ⟨_, h, rfl⟩
  rw [places_symbols d, List.mem_range'_1] at hn
  omega

end Message

namespace Handler

open Message

/-- The key of a translation can be read again exactly if no digit of a text stands right behind a place or a percent
sign. In any case the places are numbered from 1 on, one for each argument, and the arguments are the children that
are not text. -/
theorem translateWith_read (helper : Helper) (count : List String) (s : Site) (t : Tree) :
    let children := (t.below s.node).kinds
    let m := message s.dialect 0 children
    let key := trimmed m.1
    translateWith helper count s t =
        { tree := putBelow s (.code (Fragment.expression
            (s.dialect.call helper (s.dialect.literal key :: (count ++ m.2))))) t } ∧
      m.2 = arguments s.dialect children ∧ places (symbols 0 children) = List.range' 1 m.2.length ∧
      (read key.toList = trim (symbols 0 children) ↔ (symbols 0 children).IsChain Symbol.Apart) := by
  intro children m key
  obtain ⟨hkey, hargs⟩ := message_eq s.dialect 0 children
  refine ⟨rfl, hargs, ?_, ?_⟩
  · rw [hargs, places_symbols s.dialect]
  · have hsub : trim (symbols 0 children) ⊆ symbols 0 children :=
      ((List.rdropWhile_prefix _ _).sublist.trans (List.dropWhile_sublist _)).subset
    have hpos : ∀ n, .place n ∈ trim (symbols 0 children) → 0 < n := fun n hn =>
      pos_of_place_mem (hsub hn) s.dialect
    have hchars : key.toList = (trim (symbols 0 children)).flatMap Symbol.spell := by
      rw [← trim_spell, ← hkey]
      exact String.toList_ofList
    rw [hchars, read_spell_iff hpos, isChain_trim]

/-- A digit behind an expression becomes part of the number of its place. -/
theorem translate_extends_place :
    let c := Compiler.standard .php "j:"
    let source := "<p j:tr>\x7b\x7b $a \x7d\x7d5</p>"
    let children := ((c.parse source).below 1).kinds
    let key := trimmed (message .php 0 children).1
    c.compile source = .ok "<p><?php echo $this->tr('%15', $this->h($a)); ?></p>" ∧ key = "%15" ∧
      read key.toList = [.place 15] ∧ trim (symbols 0 children) = [.place 1, .char '5'] ∧
      read key.toList ≠ trim (symbols 0 children) := by
  decide +kernel

end Handler

end HtmlTemplate

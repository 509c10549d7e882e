import HtmlTemplate.Markup.Tag
import HtmlTemplate.Proofs.Text.Bytes

/-! # Reading a start tag by its bytes

A tag may be read with one place that moves over its bytes, from which names and values are cut out.
A round of the loop over the attributes may stay where it is, which would go on for ever, and a cut
may fail; then there is no answer. Neither happens: each round moves the place on, all cuts are made
between characters, and what comes out is the tag (`tagOf?_eq`).
-/

namespace HtmlTemplate.Tag

open Chars

def isBlankByte (b : UInt8) : Bool :=
  b == byte ' ' || b == byte '\t' || b == byte '\n' || b == byte '\x0c' || b == byte '\r'

def isDelimiterByte (b : UInt8) : Bool :=
  isBlankByte b || b == byte '/'

def isNameByte (b : UInt8) : Bool :=
  !isDelimiterByte b && !(b == byte '=')

/-- The value between quotes of which the first is at `i`, and the place behind it. -/
def quotedAt? (s : List Char) (quote : Char) (i : Nat) : Option (List Char × Nat) :=
  let stop := skip (fun b => !(b == byte quote)) (bytes s) (i + 1)
  (slice? s (i + 1) stop).map fun v => (v, stop + 1)

/-- The value up to the next blank, and the place behind it. -/
def unquotedAt? (s : List Char) (i : Nat) : Option (List Char × Nat) :=
  let stop := skip (fun b => !isBlankByte b) (bytes s) i
  (slice? s i stop).map fun v => (v, stop)

/-- The value that follows a `=` before `i`. -/
def valueAt? (s : List Char) (i : Nat) : Option (List Char × Nat) :=
  let start := skip isBlankByte (bytes s) i
  if (bytes s)[start]? = some (byte '"') then quotedAt? s '"' start
  else if (bytes s)[start]? = some (byte '\'') then quotedAt? s '\'' start
  else unquotedAt? s start

/-- The attribute at `start`, and the place behind it. There is none where a lone `=` stands. -/
def attributeAt? (s : List Char) (start : Nat) : Option (Option (String × Option String) × Nat) :=
  let stop := skip isNameByte (bytes s) start
  if stop = start then some (none, start + 1)
  else do
    let name ← slice? s start stop
    let i := skip isBlankByte (bytes s) stop
    if (bytes s)[i]? = some (byte '=') then do
      let value ← valueAt? s (i + 1)
      return (some (String.ofList name, some (String.ofList value.1)), value.2)
    else return (some (String.ofList name, none), i)

/-- The loop over the attributes from `i` on: the places at which its rounds begin, and what they
find. There is no answer if a round does not move on. -/
def attributesAt? (s : List Char) (i : Nat) : Option (List Nat × List (String × Option String)) :=
  let start := skip isDelimiterByte (bytes s) i
  if size s ≤ start then some ([i], [])
  else do
    let found ← attributeAt? s start
    if start < found.2 then
      let rest ← attributesAt? s found.2
      return (i :: rest.1, found.1.toList ++ rest.2)
    else none
termination_by size s - i
decreasing_by
  have hle := le_skip isDelimiterByte (bytes s) i
  omega

/-- The inside of a start tag, and the places at which rounds of the loop over its attributes begin. -/
def tagOf? (s : List Char) : Option (List Nat × Tag) := do
  let stop := skip (fun b => !isDelimiterByte b) (bytes s) 0
  let name ← upTo? s stop
  let found ← attributesAt? s stop
  return (found.1, ⟨String.ofList (lower name), found.2⟩)

/-! ## Bytes and characters -/

theorem agrees_blank : Agrees isBlankByte isTagBlank :=
  ((((agrees_byte (by decide)).or (agrees_byte (by decide))).or (agrees_byte (by decide))).or
    (agrees_byte (by decide))).or (agrees_byte (by decide))

theorem agrees_delimiter : Agrees isDelimiterByte isDelimiter :=
  agrees_blank.or (agrees_byte (by decide))

theorem agrees_name : Agrees isNameByte isNameChar :=
  agrees_delimiter.not.and (agrees_byte (by decide)).not

/-! ## Places in a tag -/

variable {a r r' s : List Char} {c : Char} {i : Nat}

/-- From place `i` on, `r` is left to be read. A place may be past the end, where nothing is left. -/
def Left (s : List Char) (i : Nat) (r : List Char) : Prop :=
  ∃ a, s = a ++ r ∧ (i = size a ∨ r = [] ∧ size a ≤ i)

theorem left_append (a r : List Char) : Left (a ++ r) (size a) r :=
  ⟨a, rfl, Or.inl rfl⟩

theorem head_dropWhile {p : Char → Bool} (h : s.dropWhile p = c :: r) : p c = false := by
  have hhead := List.head?_dropWhile_not p s
  rw [h] at hhead
  simpa using hhead

/-- A value in quotes is cut out between them, and reading goes on behind the second, or past the end
if there is none. -/
theorem quotedAt?_eq (quote : Char) (hquote : quote.toNat < 128) (a v : List Char) :
    ∃ next, quotedAt? (a ++ quote :: v) quote (size a) = some (v.takeWhile (· != quote), next) ∧
      Left (a ++ quote :: v) next ((v.dropWhile (· != quote)).drop 1) ∧ size a < next := by
  have hopen : size a + 1 = size (a ++ [quote]) := by simp [utf8Size_of_lt hquote]
  have hsplit : a ++ quote :: v = a ++ [quote] ++ v := by simp
  have hskip := skip_eq (agrees_byte hquote).not (a ++ [quote]) v
  have hcut := slice?_takeWhile (· != quote) (a ++ [quote]) v
  rw [hsplit, quotedAt?, hopen, hskip]
  refine ⟨size (a ++ [quote] ++ v.takeWhile (· != quote)) + 1, ?_, ?_, ?_⟩
  · exact congrArg (Option.map _) hcut
  · have hparts := List.takeWhile_append_dropWhile (p := (· != quote)) (l := v)
    cases hrest : v.dropWhile (· != quote) with
    | nil =>
      rw [hrest, List.append_nil] at hparts
      rw [hparts]
      exact ⟨a ++ [quote] ++ v, (List.append_nil _).symm, Or.inr ⟨rfl, Nat.le_succ _⟩⟩
    | cons x w =>
      obtain rfl : x = quote := by simpa using head_dropWhile hrest
      rw [hrest] at hparts
      refine ⟨a ++ [x] ++ v.takeWhile (· != x) ++ [x], ?_, Or.inl ?_⟩
      · conv_lhs => rw [← hparts]
        simp
      · simp only [size_append, size_cons, size_nil, utf8Size_of_lt hquote]
  · simp only [size_append]
    omega

/-- A value without quotes is cut out up to the next blank. -/
theorem unquotedAt?_eq (a v : List Char) :
    ∃ next, unquotedAt? (a ++ v) (size a) = some (v.takeWhile (!isTagBlank ·), next) ∧
      Left (a ++ v) next (v.dropWhile (!isTagBlank ·)) ∧ size a ≤ next := by
  have hskip := skip_eq agrees_blank.not a v
  have hcut := slice?_takeWhile (!isTagBlank ·) a v
  rw [unquotedAt?, hskip]
  refine ⟨size (a ++ v.takeWhile (!isTagBlank ·)), congrArg (Option.map _) hcut, ?_, ?_⟩
  · refine ⟨a ++ v.takeWhile (!isTagBlank ·), ?_, Or.inl rfl⟩
    rw [List.append_assoc, List.takeWhile_append_dropWhile]
  · rw [size_append]
    exact Nat.le_add_right ..

/-- What stands behind the blanks from a place on. -/
theorem exists_skip {p : UInt8 → Bool} {q : Char → Bool} (h : Agrees p q) (a r : List Char) :
    ∃ b, a ++ r = b ++ r.dropWhile q ∧ skip p (bytes (a ++ r)) (size a) = size b ∧ size a ≤ size b := by
  refine ⟨a ++ r.takeWhile q, ?_, skip_eq h a r, ?_⟩
  · rw [List.append_assoc, List.takeWhile_append_dropWhile]
  · rw [size_append]
    exact Nat.le_add_right ..

theorem valueAt?_eq (a v : List Char) :
    ∃ next, valueAt? (a ++ v) (size a) = some ((readValue v).1, next) ∧
      Left (a ++ v) next (readValue v).2 ∧ size a ≤ next := by
  obtain ⟨b, hsplit, hskip, hle⟩ := exists_skip agrees_blank a v
  have hdouble := getElem?_bytes (x := '"') (by decide) b (v.dropWhile isTagBlank)
  have hsingle := getElem?_bytes (x := '\'') (by decide) b (v.dropWhile isTagBlank)
  rw [valueAt?, hskip, hsplit]
  simp only [hdouble, hsingle]
  unfold readValue
  generalize v.dropWhile isTagBlank = w
  split
  · rename_i hw
    obtain ⟨w, rfl⟩ := List.head?_eq_some_iff.1 hw
    obtain ⟨next, hvalue, hleft, hlt⟩ := quotedAt?_eq '"' (by decide) b w
    exact ⟨next, hvalue, hleft, by omega⟩
  · split
    · rename_i hw
      obtain ⟨w, rfl⟩ := List.head?_eq_some_iff.1 hw
      obtain ⟨next, hvalue, hleft, hlt⟩ := quotedAt?_eq '\'' (by decide) b w
      exact ⟨next, hvalue, hleft, by omega⟩
    · rename_i hdouble hsingle
      obtain ⟨next, hvalue, hleft, hlt⟩ := unquotedAt?_eq b w
      refine ⟨next, ?_⟩
      split
      · exact absurd rfl hdouble
      · exact absurd rfl hsingle
      · exact ⟨hvalue, hleft, by omega⟩

/-- A lone `=` is passed over. -/
theorem attributeAt?_stray (a r : List Char) :
    attributeAt? (a ++ '=' :: r) (size a) = some (none, size (a ++ ['='])) := by
  have hskip := skip_eq agrees_name a ('=' :: r)
  rw [List.takeWhile_cons_of_neg (by decide), List.append_nil] at hskip
  rw [attributeAt?, hskip, if_pos rfl, size_append]
  rfl

/-- An attribute is read as from its characters, and reading goes on behind its first character. -/
theorem attributeAt?_eq (hname : isNameChar c = true) (a r : List Char) :
    ∃ next, attributeAt? (a ++ c :: r) (size a) = some (some (readAttribute c r).1, next) ∧
      Left (a ++ c :: r) next (readAttribute c r).2 ∧ size a < next := by
  have hname' : (c :: r).takeWhile isNameChar = c :: r.takeWhile isNameChar := List.takeWhile_cons_of_pos hname
  have hskip := skip_eq agrees_name a (c :: r)
  have hcut := slice?_takeWhile isNameChar a (c :: r)
  have hlt : size a < size (a ++ (c :: r).takeWhile isNameChar) := by
    rw [size_append]
    exact Nat.lt_add_of_pos_right (size_pos (by simp [hname']))
  have hsplit : a ++ c :: r = a ++ (c :: r).takeWhile isNameChar ++ r.dropWhile isNameChar := by
    rw [hname', List.append_assoc, List.cons_append, List.takeWhile_append_dropWhile]
  obtain ⟨b, hafter, hskip', hle⟩ := exists_skip agrees_blank (a ++ (c :: r).takeWhile isNameChar)
    (r.dropWhile isNameChar)
  rw [← hsplit] at hafter hskip'
  rw [attributeAt?, hskip, if_neg (Nat.ne_of_gt hlt), hcut]
  simp only [Option.bind_eq_bind, Option.bind_some, hskip']
  unfold readAttribute
  rw [hafter, hname']
  generalize (r.dropWhile isNameChar).dropWhile isTagBlank = w
  simp only [getElem?_bytes (x := '=') (by decide) b w]
  split
  · rename_i hw
    obtain ⟨w, rfl⟩ := List.head?_eq_some_iff.1 hw
    have hopen : size b + 1 = size (b ++ ['=']) := by
      rw [size_append]
      rfl
    have hvalue := valueAt?_eq (b ++ ['=']) w
    rw [← hopen, List.append_assoc, List.singleton_append] at hvalue
    obtain ⟨next, hvalue, hleft, hnext⟩ := hvalue
    refine ⟨next, ?_, hleft, by omega⟩
    rw [hvalue]
    rfl
  · rename_i hequals
    refine ⟨size b, ?_⟩
    split
    · exact absurd rfl hequals
    · exact ⟨rfl, left_append b w, by omega⟩

theorem skip_delimiters_nil (h : Left s i r) (hr : r.dropWhile isDelimiter = []) :
    size s ≤ skip isDelimiterByte (bytes s) i := by
  obtain ⟨a, rfl, rfl | ⟨rfl, hi⟩⟩ := h
  · obtain ⟨b, hsplit, hskip, -⟩ := exists_skip agrees_delimiter a r
    rw [hskip, hsplit, hr, List.append_nil]
  · rw [List.append_nil, skip_of_le hi]
    exact hi

theorem skip_delimiters_cons (h : Left s i r) (hr : r.dropWhile isDelimiter = c :: r') :
    ∃ b, s = b ++ c :: r' ∧ skip isDelimiterByte (bytes s) i = size b ∧ i ≤ size b := by
  obtain ⟨a, rfl, rfl | ⟨rfl, -⟩⟩ := h
  · obtain ⟨b, hsplit, hskip, hle⟩ := exists_skip agrees_delimiter a r
    exact ⟨b, by rw [hsplit, hr], hskip, hle⟩
  · cases hr

/-- A round of the loop over the attributes, and those after it. -/
theorem attributesAt?_round {b : List Char} {found : Option (String × Option String)} {next : Nat}
    {places : List Nat} {rest : List (String × Option String)} (hi : i ≤ size b) (hnext : size b < next)
    (hstart : skip isDelimiterByte (bytes (b ++ c :: r)) i = size b)
    (hfound : attributeAt? (b ++ c :: r) (size b) = some (found, next))
    (hrest : attributesAt? (b ++ c :: r) next = some (next :: places, rest))
    (hplaces : (next :: places).IsChain (· < ·)) :
    attributesAt? (b ++ c :: r) i = some (i :: next :: places, found.toList ++ rest) ∧
      (i :: next :: places).IsChain (· < ·) := by
  have hinside : ¬ size (b ++ c :: r) ≤ size b := by
    have hpos := size_pos (List.cons_ne_nil c r)
    rw [size_append]
    omega
  refine ⟨?_, List.isChain_cons_cons.2 ⟨by omega, hplaces⟩⟩
  rw [attributesAt?, hstart, if_neg hinside, hfound]
  simp only [Option.bind_eq_bind, Option.bind_some, if_pos hnext, hrest]
  rfl

/-- The loop over the attributes comes to its end, each of its rounds begins behind the one before, and
it finds the attributes that are left. -/
theorem attributesAt?_eq (h : Left s i r) :
    ∃ places, attributesAt? s i = some (i :: places, readAttributes r) ∧ (i :: places).IsChain (· < ·) := by
  fun_induction readAttributes r generalizing i with
  | case1 r hr =>
    refine ⟨[], ?_, .singleton i⟩
    rw [attributesAt?, if_pos (skip_delimiters_nil h hr)]
  | case2 r r' hr ih =>
    obtain ⟨b, rfl, hstart, hi⟩ := skip_delimiters_cons h hr
    have hsplit : b ++ '=' :: r' = b ++ ['='] ++ r' := by simp
    obtain ⟨places, hrest, hplaces⟩ := ih (hsplit ▸ left_append (b ++ ['=']) r')
    have hlt : size b < size (b ++ ['=']) := by
      rw [size_append]
      exact Nat.lt_succ_self _
    exact ⟨_, attributesAt?_round hi hlt hstart (attributeAt?_stray b r') hrest hplaces⟩
  | case3 r c r' hr hne a =>
    rename_i ih
    obtain ⟨b, rfl, hstart, hi⟩ := skip_delimiters_cons h hr
    have hname : isNameChar c = true := by simp [isNameChar, head_dropWhile hr, hne]
    obtain ⟨next, hfound, hleft, hlt⟩ := attributeAt?_eq hname b r'
    obtain ⟨places, hrest, hplaces⟩ := ih hleft
    exact ⟨_, attributesAt?_round hi hlt hstart hfound hrest hplaces⟩

/-- A tag is read without a failing cut, and the loop over its attributes moves on in every round. -/
theorem tagOf?_eq (s : List Char) : ∃ places, tagOf? s = some (places, ofChars s) ∧ places.IsChain (· < ·) := by
  have hskip := skip_eq agrees_delimiter.not [] s
  have hname := upTo?_append (s.takeWhile (!isDelimiter ·)) (s.dropWhile (!isDelimiter ·))
  have hleft := left_append (s.takeWhile (!isDelimiter ·)) (s.dropWhile (!isDelimiter ·))
  rw [List.takeWhile_append_dropWhile] at hname hleft
  obtain ⟨places, hattributes, hplaces⟩ := attributesAt?_eq hleft
  refine ⟨_, ?_, hplaces⟩
  rw [List.nil_append, List.nil_append, size_nil] at hskip
  rw [tagOf?, hskip, hname, Option.bind_eq_bind, Option.bind_some, hattributes]
  rfl

end HtmlTemplate.Tag

import HtmlTemplate.Text.Cut
import HtmlTemplate.Element

/-! # Start tags

What stands between the angle brackets of a start tag: a name, then attributes with or without a
value. Whatever stands there can be read; a lone `=` is passed over.
-/

namespace HtmlTemplate

/-- A start tag as written. The name is in small letters; attributes are as they stand. -/
structure Tag where
  name : String
  attributes : List (String × Option String)
  deriving DecidableEq, Repr

namespace Tag

/-- What ends a name in a tag. -/
def isDelimiter (c : Char) : Bool :=
  isTagBlank c || c == '/'

def isNameChar (c : Char) : Bool :=
  !isDelimiter c && c != '='

theorem length_dropWhile_le (p : Char → Bool) (s : List Char) :
    (s.dropWhile p).length ≤ s.length :=
  (List.dropWhile_sublist p).length_le

/-- The value after `=`: up to the quote that opened it, or else up to a blank. -/
def readValue (s : List Char) : List Char × List Char :=
  match s.dropWhile isTagBlank with
  | '"' :: v => (v.takeWhile (· != '"'), (v.dropWhile (· != '"')).drop 1)
  | '\'' :: v => (v.takeWhile (· != '\''), (v.dropWhile (· != '\'')).drop 1)
  | v => (v.takeWhile (!isTagBlank ·), v.dropWhile (!isTagBlank ·))

theorem length_readValue_le (s : List Char) : (readValue s).2.length ≤ s.length := by
  have hs := length_dropWhile_le isTagBlank s
  unfold readValue
  split
  · rename_i v hv
    have := length_dropWhile_le (· != '"') v
    simp only [hv, List.length_cons, List.length_drop] at hs ⊢
    omega
  · rename_i v hv
    have := length_dropWhile_le (· != '\'') v
    simp only [hv, List.length_cons, List.length_drop] at hs ⊢
    omega
  · exact Nat.le_trans (length_dropWhile_le _ _) hs

/-- The attribute whose name begins with `c`, and what follows it. -/
def readAttribute (c : Char) (s : List Char) : (String × Option String) × List Char :=
  let name := String.ofList (c :: s.takeWhile isNameChar)
  match (s.dropWhile isNameChar).dropWhile isTagBlank with
  | '=' :: r =>
    let v := readValue r
    ((name, some (String.ofList v.1)), v.2)
  | r => ((name, none), r)

theorem length_readAttribute_le (c : Char) (s : List Char) : (readAttribute c s).2.length ≤ s.length := by
  have h₁ := length_dropWhile_le isNameChar s
  have h₂ := length_dropWhile_le isTagBlank (s.dropWhile isNameChar)
  unfold readAttribute
  split
  · rename_i r hr
    have := length_readValue_le r
    simp only [hr, List.length_cons] at h₂ ⊢
    omega
  · simp only
    omega

/-- The attributes of a tag, in the order in which they are written. -/
def readAttributes (s : List Char) : List (String × Option String) :=
  match _h : s.dropWhile isDelimiter with
  | [] => []
  | c :: r =>
    if c = '=' then readAttributes r
    else
      let a := readAttribute c r
      a.1 :: readAttributes a.2
termination_by s.length
decreasing_by
  all_goals have hs := _h ▸ length_dropWhile_le isDelimiter s
  · exact hs
  · exact Nat.lt_of_le_of_lt (length_readAttribute_le c r) hs

/-- Reads the inside of a start tag. -/
def ofChars (s : List Char) : Tag :=
  ⟨String.ofList (Chars.lower (s.takeWhile (!isDelimiter ·))),
    readAttributes (s.dropWhile (!isDelimiter ·))⟩

end Tag

end HtmlTemplate

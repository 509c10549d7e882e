import HtmlTemplate.Proofs.Dialect.Literal

/-! # Expressions and their values

Expressions over variables, literals, concatenation, conditionals and parentheses, where a concatenation binds
tighter than a conditional. The type of expressions has one level for each strength of binding, so that an expression
is written in one way (`lexemes`); `parse` reads it back with a stack of what is still open, and reads nothing else
(`ofLexemes_eq_some`). Written behind a dot, an expression is not one operand: `join` is what the two read as.
-/

namespace HtmlTemplate.Dialect.Php

/-! ## Lexemes -/

inductive Lexeme where
  | name (name : String)
  | literal (text : String)
  | dot
  | ask
  | colon
  | left
  | right
  deriving DecidableEq, Repr

/-- Where in a lexeme the reading of code is, with the characters read of it so far, the last one first. -/
inductive Scan where
  | between
  | dollar
  | name (read : List Char)
  | literal (read : List Char)
  | escaped (read : List Char)

def beginsName (c : Char) : Bool :=
  c.isAlpha || c == '_' || 127 < c.toNat

namespace Scan

/-- A character that begins a lexeme or stands between two of them. -/
def start : Char → Option (List Lexeme × Scan)
  | ' ' | '\t' | '\n' | '\r' => some ([], between)
  | '$' => some ([], dollar)
  | '\'' => some ([], literal [])
  | '.' => some ([.dot], between)
  | '?' => some ([.ask], between)
  | ':' => some ([.colon], between)
  | '(' => some ([.left], between)
  | ')' => some ([.right], between)
  | _ => none

/-- The lexemes that a character ends or is, and where the reading is behind it. -/
def step : Scan → Char → Option (List Lexeme × Scan)
  | between, c => start c
  | dollar, c => if beginsName c then some ([], name [c]) else none
  | name read, c =>
    if beginsName c || c.isDigit then some ([], name (c :: read))
    else (start c).map fun r => (.name (String.ofList read.reverse) :: r.1, r.2)
  | literal read, '\'' => some ([.literal (String.ofList read.reverse)], between)
  | literal read, '\\' => some ([], escaped read)
  | literal read, c => some ([], literal (c :: read))
  | escaped read, c => some ([], literal (if c = '\'' ∨ c = '\\' then c :: read else c :: '\\' :: read))

/-- The lexemes that the end of the code ends. -/
def finish : Scan → Option (List Lexeme)
  | between => some []
  | name read => some [.name (String.ofList read.reverse)]
  | _ => none

/-- The lexemes of code, from some place in it on. -/
def run : Scan → List Char → Option (List Lexeme)
  | m, [] => m.finish
  | m, c :: s => (m.step c).bind fun r => (run r.2 s).map (r.1 ++ ·)

/-- A blank ends whatever may end there. -/
theorem run_blank {m : Scan} {a : List Char} {ls : List Lexeme} (h : m.run a = some ls) (s : List Char) :
    m.run (a ++ ' ' :: s) = (between.run s).map (ls ++ ·) := by
  induction a generalizing m ls with
  | nil =>
    cases m <;> cases h <;> rfl
  | cons c a ih =>
    obtain ⟨⟨out, m'⟩, hstep, hrest⟩ := Option.bind_eq_some_iff.1 h
    obtain ⟨ls', hls', rfl⟩ := Option.map_eq_some_iff.1 hrest
    rw [List.cons_append, run, hstep, Option.bind_some, ih hls', Option.map_map]
    congr 1
    funext r
    exact (List.append_assoc ..).symm

/-- No expression ends in a semicolon. -/
theorem run_semicolon (m : Scan) (a : List Char) : m.run (a ++ [';']) = none := by
  induction a generalizing m with
  | nil => cases m <;> rfl
  | cons c a ih =>
    rw [List.cons_append, run]
    cases m.step c with
    | none => rfl
    | some r => rw [Option.bind_some, ih, Option.map_none]

theorem run_of_step {m m' : Scan} {c : Char} (h : m.step c = some ([], m')) (s : List Char) :
    m.run (c :: s) = m'.run s := by
  rw [run, h, Option.bind_some]
  cases m'.run s <;> rfl

theorem step_literal {c : Char} (hquote : c ≠ '\'') (hback : c ≠ '\\') (read : List Char) :
    (literal read).step c = some ([], literal (c :: read)) := by
  rw [step]
  · exact hquote
  · exact hback

theorem run_literal (read s : List Char) : (literal read).run s = (unquote s).bind fun r =>
    (between.run r.2).map (.literal (String.ofList (read.reverse ++ r.1)) :: ·) := by
  have hback (read : List Char) : (literal read).step '\\' = some ([], escaped read) := rfl
  fun_induction unquote s generalizing read with
  | case1 => rfl
  | case2 s => simp [run, step]
  | case3 c s hc ih =>
    have hescaped : (escaped read).step c = some ([], literal (c :: read)) := by rw [step, if_pos hc]
    rw [run_of_step (hback read), run_of_step hescaped, ih]
    simp [Option.bind_map, Function.comp_def]
  | case4 c s hc ih =>
    have hescaped : (escaped read).step c = some ([], literal (c :: '\\' :: read)) := by rw [step, if_neg hc]
    rw [not_or] at hc
    rw [run_of_step (hback read), run_of_step hescaped, ← run_of_step (step_literal hc.1 hc.2 ('\\' :: read)), ih]
    simp [Option.bind_map, Function.comp_def]
  | case5 c s hquote hplain ih =>
    by_cases hc : c = '\\'
    · obtain rfl : s = [] := by
        cases s with
        | nil => rfl
        | cons c' s' => exact absurd rfl (hplain c' s' hc)
      subst hc
      rfl
    · rw [run_of_step (step_literal hquote hc read), ih]
      simp [Option.bind_map, Function.comp_def]

end Scan

/-- The lexemes of code. -/
def lex (code : String) : Option (List Lexeme) :=
  Scan.between.run code.toList

theorem lex_literal (text : String) : lex (literal text) = some [.literal text] := by
  have hrest : (Scan.literal []).run (quote text.toList ++ ['\'']) = some [.literal text] := by
    rw [Scan.run_literal, unquote_quote]
    simp [Scan.run, Scan.finish]
  rw [lex, toList_literal, Scan.run]
  simp [Scan.step, Scan.start, hrest]

theorem lex_concat {a b : String} {ls ms : List Lexeme} (ha : lex a = some ls) (hb : lex b = some ms) :
    lex (php.concat a b) = some (ls ++ .dot :: ms) := by
  have hlist : (php.concat a b).toList = a.toList ++ ' ' :: '.' :: ' ' :: b.toList := by
    simp [php]
  rw [lex] at hb
  rw [lex, hlist, Scan.run_blank ha]
  simp [Scan.run, Scan.step, Scan.start, hb]

/-! ## Expressions -/

/-- How strongly an expression is bound: as an operand of a concatenation, as a concatenation, or not at all. -/
inductive Level where
  | operand
  | chain
  | whole
  deriving DecidableEq, Repr

inductive Expr : Level → Type where
  | name (name : String) : Expr .operand
  | literal (text : String) : Expr .operand
  | group (x : Expr .whole) : Expr .operand
  | operand (x : Expr .operand) : Expr .chain
  | concat (x : Expr .chain) (y : Expr .operand) : Expr .chain
  | chain (x : Expr .chain) : Expr .whole
  | conditional (test yes : Expr .whole) (no : Expr .chain) : Expr .whole
  | short (test : Expr .whole) (no : Expr .chain) : Expr .whole
  deriving DecidableEq, Repr

namespace Expr

/-- An expression as it is written. -/
def lexemes : {l : Level} → Expr l → List Lexeme
  | _, name s => [.name s]
  | _, literal s => [.literal s]
  | _, group x => .left :: x.lexemes ++ [.right]
  | _, operand x => x.lexemes
  | _, concat x y => x.lexemes ++ .dot :: y.lexemes
  | _, chain x => x.lexemes
  | _, conditional t y n => t.lexemes ++ .ask :: y.lexemes ++ .colon :: n.lexemes
  | _, short t n => t.lexemes ++ .ask :: .colon :: n.lexemes

/-- What an expression reads as with a dot and an operand behind it: of a conditional, the last part takes them. -/
def add : Expr .whole → Expr .operand → Expr .whole
  | chain x, z => chain (concat x z)
  | conditional t y n, z => conditional t y (concat n z)
  | short t n, z => short t (concat n z)

/-- What two expressions read as with a dot between them: of a conditional, the test takes what stands before. -/
def join (x : Expr .whole) : {l : Level} → Expr l → Expr .whole
  | _, name s => x.add (name s)
  | _, literal s => x.add (literal s)
  | _, group y => x.add (group y)
  | _, operand y => x.join y
  | _, concat y z => (x.join y).add z
  | _, chain y => x.join y
  | _, conditional t y n => conditional (x.join t) y n
  | _, short t n => short (x.join t) n

theorem lexemes_add (x : Expr .whole) (z : Expr .operand) : (x.add z).lexemes = x.lexemes ++ .dot :: z.lexemes := by
  cases x <;> simp [add, lexemes]

theorem lexemes_join (x : Expr .whole) {l : Level} (y : Expr l) :
    (x.join y).lexemes = x.lexemes ++ .dot :: y.lexemes := by
  induction y <;> simp_all [join, lexemes, lexemes_add]

end Expr

/-! ## Reading -/

/-- What stands before an operand that is still to come. -/
inductive Slot where
  | front
  | dot (x : Expr .whole)
  | colon (test yes : Expr .whole)
  | askColon (test : Expr .whole)

/-- What is still open: a parenthesis, with what stands before it, or the question of a conditional. -/
inductive Frame where
  | left (before : Slot)
  | ask (test : Expr .whole)

/-- What has been read: all up to an operand that is to come, or a whole expression, within what is still open. -/
inductive Reading where
  | partly (slot : Slot) (frames : List Frame)
  | whole (x : Expr .whole) (frames : List Frame)

def Slot.fill : Slot → Expr .chain → Expr .whole
  | front, x => .chain x
  | dot x, y => x.join y
  | colon t y, n => .conditional t y n
  | askColon t, n => .short t n

namespace Reading

def step : Reading → Lexeme → Option Reading
  | partly s fs, .name n => some (whole (s.fill (.operand (.name n))) fs)
  | partly s fs, .literal t => some (whole (s.fill (.operand (.literal t))) fs)
  | partly s fs, .left => some (partly .front (.left s :: fs))
  | partly .front (.ask t :: fs), .colon => some (partly (.askColon t) fs)
  | whole x fs, .dot => some (partly (.dot x) fs)
  | whole x fs, .ask => some (partly .front (.ask x :: fs))
  | whole y (.ask t :: fs), .colon => some (partly (.colon t y) fs)
  | whole x (.left s :: fs), .right => some (whole (s.fill (.operand (.group x))) fs)
  | _, _ => none

def run (r : Reading) (ls : List Lexeme) : Option Reading :=
  ls.foldlM step r

def result : Reading → Option (Expr .whole)
  | whole x [] => some x
  | _ => none

end Reading

/-- The expression that is written as these lexemes. -/
def Expr.ofLexemes (ls : List Lexeme) : Option (Expr .whole) :=
  ((Reading.partly .front []).run ls).bind Reading.result

/-- The expression that code reads as. -/
def Expr.parse (code : String) : Option (Expr .whole) :=
  (lex code).bind Expr.ofLexemes

/-! ### Nothing is lost -/

def Slot.lexemes : Slot → List Lexeme
  | front => []
  | dot x => x.lexemes ++ [.dot]
  | colon t y => t.lexemes ++ .ask :: y.lexemes ++ [.colon]
  | askColon t => t.lexemes ++ [.ask, .colon]

def Frame.lexemes : Frame → List Lexeme
  | left s => s.lexemes ++ [.left]
  | ask t => t.lexemes ++ [.ask]

theorem Slot.lexemes_fill (s : Slot) (x : Expr .chain) : (s.fill x).lexemes = s.lexemes ++ x.lexemes := by
  cases s <;> simp [fill, lexemes, Expr.lexemes, Expr.lexemes_join]

namespace Reading

def lexemes : Reading → List Lexeme
  | partly s fs => fs.reverse.flatMap Frame.lexemes ++ s.lexemes
  | whole x fs => fs.reverse.flatMap Frame.lexemes ++ x.lexemes

theorem lexemes_step {r r' : Reading} {a : Lexeme} (h : r.step a = some r') : r'.lexemes = r.lexemes ++ [a] := by
  revert h
  fun_cases step r a with
  | case9 => exact nofun
  | _ =>
    intro h
    cases h
    simp [lexemes, Slot.lexemes_fill, Slot.lexemes, Frame.lexemes, Expr.lexemes]

theorem lexemes_run {r r' : Reading} {ls : List Lexeme} (h : r.run ls = some r') : r'.lexemes = r.lexemes ++ ls := by
  induction ls generalizing r with
  | nil =>
    cases h
    exact (List.append_nil _).symm
  | cons a ls ih =>
    obtain ⟨r₁, hstep, hrun⟩ := Option.bind_eq_some_iff.1 h
    rw [ih hrun, lexemes_step hstep, List.append_assoc, List.singleton_append]

end Reading

/-! ### Everything is read -/

theorem Slot.add_fill (s : Slot) (x : Expr .chain) (y : Expr .operand) :
    (s.fill x).add y = s.fill (.concat x y) := by
  cases s <;> rfl

theorem Slot.fill_dot (x : Expr .whole) (y : Expr .operand) : (dot x).fill (.operand y) = x.add y := by
  cases y <;> rfl

namespace Reading

theorem run_append (r : Reading) (ls ms : List Lexeme) : r.run (ls ++ ms) = (r.run ls).bind (·.run ms) :=
  List.foldlM_append ..

theorem run_cons (r : Reading) (a : Lexeme) (ls : List Lexeme) : r.run (a :: ls) = (r.step a).bind (·.run ls) :=
  List.foldlM_cons ..

/-- Reading an expression of each level fills the place that it stands in. -/
def Fills : {l : Level} → Expr l → Prop
  | .operand, x => ∀ s fs, (partly s fs).run x.lexemes = some (whole (s.fill (.operand x)) fs)
  | .chain, x => ∀ s fs, (partly s fs).run x.lexemes = some (whole (s.fill x) fs)
  | .whole, x => ∀ fs, (partly .front fs).run x.lexemes = some (whole x fs)

theorem fills {l : Level} (x : Expr l) : Fills x := by
  induction x with
  | name n => exact fun s fs => rfl
  | literal t => exact fun s fs => rfl
  | group x ih =>
    intro s fs
    rw [Expr.lexemes, List.cons_append, run_cons, step, Option.bind_some, run_append, ih, Option.bind_some]
    rfl
  | operand x ih => exact ih
  | concat x y ihx ihy =>
    intro s fs
    rw [Expr.lexemes, run_append, ihx, Option.bind_some, run_cons, step, Option.bind_some, ihy, Slot.fill_dot,
      s.add_fill]
  | chain x ih => exact fun fs => ih .front fs
  | conditional t y n iht ihy ihn =>
    intro fs
    rw [Expr.lexemes, List.append_assoc, run_append, iht, Option.bind_some, List.cons_append, run_cons, step,
      Option.bind_some, run_append, ihy, Option.bind_some, run_cons, step, Option.bind_some, ihn, Slot.fill]
  | short t n iht ihn =>
    intro fs
    rw [Expr.lexemes, run_append, iht, Option.bind_some, run_cons, step, Option.bind_some, run_cons, step,
      Option.bind_some, ihn, Slot.fill]

end Reading

namespace Expr

/-- The lexemes of an expression read as that expression, and nothing else does. -/
theorem ofLexemes_eq_some {ls : List Lexeme} {x : Expr .whole} : ofLexemes ls = some x ↔ x.lexemes = ls := by
  constructor
  · intro h
    obtain ⟨r, hrun, hresult⟩ := Option.bind_eq_some_iff.1 h
    have hlexemes := Reading.lexemes_run hrun
    unfold Reading.result at hresult
    split at hresult
    · cases hresult
      exact hlexemes
    · cases hresult
  · rintro rfl
    rw [ofLexemes, Reading.fills x []]
    rfl

theorem parse_eq_some {code : String} {x : Expr .whole} : parse code = some x ↔ lex code = some x.lexemes := by
  rw [parse, Option.bind_eq_some_iff]
  constructor
  · rintro ⟨ls, hls, hx⟩
    rw [hls, ofLexemes_eq_some.1 hx]
  · exact fun h => ⟨_, h, ofLexemes_eq_some.2 rfl⟩

theorem parse_literal (text : String) : parse (Php.literal text) = some (chain (operand (literal text))) :=
  parse_eq_some.2 (lex_literal text)

theorem parse_concat {a b : String} {x y : Expr .whole} (ha : parse a = some x) (hb : parse b = some y) :
    parse (php.concat a b) = some (x.join y) := by
  rw [parse_eq_some] at ha hb ⊢
  rw [lex_concat ha hb, lexemes_join]

end Expr

/-! ## Values -/

/-- A value as far as it matters here: the text that it is written as, and whether it holds as a test. -/
structure Value where
  text : String
  holds : Bool
  deriving DecidableEq, Repr

/-- A text holds unless it is empty or the digit zero. -/
def Value.ofText (text : String) : Value :=
  ⟨text, text ≠ "" ∧ text ≠ "0"⟩

namespace Expr

def eval (env : String → Value) : {l : Level} → Expr l → Value
  | _, name n => env n
  | _, literal t => .ofText t
  | _, group x => x.eval env
  | _, operand x => x.eval env
  | _, concat x y => .ofText ((x.eval env).text ++ (y.eval env).text)
  | _, chain x => x.eval env
  | _, conditional t y n => if (t.eval env).holds then y.eval env else n.eval env
  | _, short t n => if (t.eval env).holds then t.eval env else n.eval env

end Expr

end HtmlTemplate.Dialect.Php

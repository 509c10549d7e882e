import HtmlTemplate.Dialect

/-! # Views written in PHP

The generated view runs with the services of the page bound to `$this`.
-/

namespace HtmlTemplate.Dialect

namespace Php

/-- A semicolon closes a statement, unless the statement closes itself or opens a block. -/
def terminator (code : List Char) : String :=
  match code.getLast? with
  | some ';' => ""
  | some ':' => ""
  | some '}' => ""
  | _ => ";"

/-- A quote or backslash is written with a backslash before it. -/
def quote : List Char → List Char
  | [] => []
  | c :: s => if c = '\'' ∨ c = '\\' then '\\' :: c :: quote s else c :: quote s

def literal (text : String) : String :=
  "'" ++ String.ofList (quote text.toList) ++ "'"

def statement (code : String) : String :=
  "<?php " ++ trimmed code ++ terminator (Chars.trim code.toList) ++ " ?>"

/-- Dates are formatted by the language itself, all else by the page. -/
def call (helper : Helper) (args : List String) : String :=
  match helper with
  | .formatDate => "date('c', " ++ ", ".intercalate args ++ ")"
  | h => "$this->" ++ h.name ++ "(" ++ ", ".intercalate args ++ ")"

end Php

/-- The PHP dialect. -/
def php : Dialect where
  name := "php"
  extension := "php"
  statement := Php.statement
  echo code := "<?php echo " ++ code ++ "; ?>"
  literal := Php.literal
  null := "null"
  concat l r := l ++ " . " ++ r
  echoIf test text := "if (" ++ test ++ ") echo " ++ Php.literal text ++ ";"
  beginIf test := "if (" ++ test ++ "):"
  beginElse := "else:"
  endIf := "endif;"
  beginLoop binding := "foreach (" ++ binding ++ "):"
  endLoop := "endforeach;"
  call := Php.call

end HtmlTemplate.Dialect

/-
Module: CodeSplice.Text.Visible
Purpose: Writing a text so that every character of it can be seen: in double quotes, with escapes for
  quotes, backslashes, and characters that leave no mark of their own.
Main exports: visible
-/
import CodeSplice.Text.Unmarked

namespace CodeSplice.Text

/-- How one character of a visible text is written. -/
def visibleChar (c : Char) : List Char :=
  match c with
  | '"' => ['\\', '"']
  | '\\' => ['\\', '\\']
  | '\n' => ['\\', 'n']
  | '\t' => ['\\', 't']
  | '\x0d' => ['\\', 'r']
  | '\x00' => ['\\', '0']
  | c =>
    if leavesMark c then [c]
    else ['\\', 'u', '\x7b'] ++ Nat.toDigits 16 c.toNat ++ ['\x7d']

/-- A text in double quotes, with every character visible. -/
def visible (text : String) : String :=
  String.ofList ('"' :: text.toList.flatMap visibleChar ++ ['"'])

end CodeSplice.Text

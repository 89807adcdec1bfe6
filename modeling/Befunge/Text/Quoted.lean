import Befunge.Text.Invisible

/-! Quoted text: a character or a string between quotation marks, with everything that would
not be visible written as an escape sequence. -/

namespace Befunge.Text

def escape (mark c : Char) : List Char :=
  match c with
  | '\x00' => ['\\', '0']
  | '\t' => ['\\', 't']
  | '\n' => ['\\', 'n']
  | '\r' => ['\\', 'r']
  | '\\' => ['\\', '\\']
  | c =>
    if c = mark then ['\\', c]
    else if isVisible c then [c]
    else ['\\', 'u', '\x7b'] ++ Nat.toDigits 16 c.toNat ++ ['\x7d']

def quote (mark : Char) (text : List Char) : List Char :=
  mark :: text.flatMap (escape mark) ++ [mark]

def quotedChar (c : Char) : String := String.ofList (quote '\x27' [c])

def quotedText (text : List Char) : String := String.ofList (quote '\x22' text)

end Befunge.Text

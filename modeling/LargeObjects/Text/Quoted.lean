import LargeObjects.Text.Unprintable

/-! Text between quotation marks, in the style of diagnostics and in that of JSON. In both a reader
finds the end of the text, because no quotation mark inside stands alone. -/
namespace LargeObjects.Quoted

def common? : Char → Option Char
  | '"' => some '"'
  | '\\' => some '\\'
  | '\n' => some 'n'
  | '\r' => some 'r'
  | '\t' => some 't'
  | _ => none

def codeDigits (c : Char) : List Char := Nat.toDigits 16 c.toNat

/-- A character in a diagnostic, where what cannot be seen is written as its number. -/
def inDiagnostic (c : Char) : List Char :=
  match common? c with
  | some mark => ['\\', mark]
  | none =>
    if c.toNat = 0 then ['\\', '0']
    else if Unprintable.holds c then "\\u\x7b".toList ++ codeDigits c ++ "\x7d".toList
    else [c]

def inPath (c : Char) : List Char := if c = '\x27' then ['\\', c] else inDiagnostic c

def inJson (c : Char) : List Char :=
  match common? c with
  | some mark => ['\\', mark]
  | none =>
    if c.toNat = 8 then ['\\', 'b']
    else if c.toNat = 12 then ['\\', 'f']
    else if c.toNat < 32 then
      let digits := codeDigits c
      "\\u".toList ++ List.replicate (4 - digits.length) '0' ++ digits
    else [c]

def quote (style : Char → List Char) (text : List Char) : String :=
  String.ofList ('"' :: text.flatMap style ++ ['"'])

end LargeObjects.Quoted

import LargeObjects.Bytes

/-! UTF-8 over octets: which groups of octets encode one character, where a byte string stops being
text, and how many characters a text has. -/
namespace LargeObjects.Utf8

/-- The number of octets that a leading octet announces. `C0`, `C1` and everything above `F4` could
only start overlong forms or values past the last character. -/
def width? (lead : UInt8) : Option Nat :=
  if lead ≤ 0x7F then some 1
  else if 0xC2 ≤ lead ∧ lead ≤ 0xDF then some 2
  else if 0xE0 ≤ lead ∧ lead ≤ 0xEF then some 3
  else if 0xF0 ≤ lead ∧ lead ≤ 0xF4 then some 4
  else none

def isContinuation (b : UInt8) : Bool := 0x80 ≤ b ∧ b ≤ 0xBF

/-- The octet after the lead is narrowed where the full range would give an overlong form, a
surrogate or a value past the last character. -/
def secondAllowed (lead second : UInt8) : Bool :=
  if lead = 0xE0 then 0xA0 ≤ second ∧ second ≤ 0xBF
  else if lead = 0xED then 0x80 ≤ second ∧ second ≤ 0x9F
  else if lead = 0xF0 then 0x90 ≤ second ∧ second ≤ 0xBF
  else if lead = 0xF4 then 0x80 ≤ second ∧ second ≤ 0x8F
  else isContinuation second

def isCharacter : Bytes → Bool
  | [a] => width? a = some 1
  | [a, b] => width? a = some 2 ∧ isContinuation b
  | [a, b, c] => width? a = some 3 ∧ secondAllowed a b ∧ isContinuation c
  | [a, b, c, d] => width? a = some 4 ∧ secondAllowed a b ∧ isContinuation c ∧ isContinuation d
  | _ => false

/-- Where a byte string stops being text. `span` counts the octets of the group that cannot be part
of any text; it is absent when the bytes end inside a character. -/
structure Defect where
  index : Nat
  span : Option Nat
deriving DecidableEq

namespace Defect

def message (d : Defect) : String :=
  match d.span with
  | some n => s!"invalid utf-8 sequence of {n} bytes from index {d.index}"
  | none => s!"incomplete utf-8 byte sequence from index {d.index}"

end Defect

def defectFrom (index : Nat) : Bytes → Option Defect
  | [] => none
  | a :: rest =>
    match width? a with
    | some 1 => defectFrom (index + 1) rest
    | some 2 =>
      match rest with
      | [] => some ⟨index, none⟩
      | b :: rest => if isContinuation b then defectFrom (index + 2) rest else some ⟨index, some 1⟩
    | some 3 =>
      match rest with
      | [] => some ⟨index, none⟩
      | b :: rest =>
        if secondAllowed a b then
          match rest with
          | [] => some ⟨index, none⟩
          | c :: rest =>
            if isContinuation c then defectFrom (index + 3) rest else some ⟨index, some 2⟩
        else some ⟨index, some 1⟩
    | some _ =>
      match rest with
      | [] => some ⟨index, none⟩
      | b :: rest =>
        if secondAllowed a b then
          match rest with
          | [] => some ⟨index, none⟩
          | c :: rest =>
            if isContinuation c then
              match rest with
              | [] => some ⟨index, none⟩
              | d :: rest =>
                if isContinuation d then defectFrom (index + 4) rest else some ⟨index, some 3⟩
            else some ⟨index, some 2⟩
        else some ⟨index, some 1⟩
    | none => some ⟨index, some 1⟩

def defect? (bytes : Bytes) : Option Defect := defectFrom 0 bytes

/-- The characters of a text are its octets that continue nothing. -/
def characterCount (text : Bytes) : Nat := text.countP fun b => !isContinuation b

end LargeObjects.Utf8

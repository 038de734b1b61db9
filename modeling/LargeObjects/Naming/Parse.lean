import LargeObjects.Naming

/-! Reading the names of files: whose file it is and which object's, or that it is none. -/
namespace LargeObjects

namespace Naming

def beforeSuffix? (suffix text : List Char) : Option (List Char) :=
  if suffix <:+ text then some (text.take (text.length - suffix.length)) else none

def afterLead? (lead text : List Char) : Option (List Char) :=
  if lead <+: text then some (text.drop lead.length) else none

def atDot? (text : List Char) : Option (List Char × List Char) :=
  match text.dropWhile (· ≠ '.') with
  | [] => none
  | _ :: rest => some (text.takeWhile (· ≠ '.'), rest)

def parseSharded? (name : Name) : Option (Owner × ObjectId) := do
  let (number, mark) ← atDot? (← beforeSuffix? objectSuffix.toList name)
  let id ← Numeral.read? number
  if mark = tempMark.toList then return (.temp, ⟨id⟩)
  let table ← Numeral.read? (← afterLead? ['t'] mark)
  return (.table ⟨table⟩, ⟨id⟩)

/-- Owner and object of a flat file name of this database. A name that ends as temporary ones do is
read as one or not at all. -/
def parseFlat? (n : Naming) (name : Name) : Option (Owner × ObjectId) := do
  let rest ← afterLead? ['.'] (← afterLead? (← n.base.fileName?) name)
  match beforeSuffix? flatTempSuffix.toList rest with
  | some number => return (.temp, ⟨← Numeral.read? number⟩)
  | none =>
    let (table, number) ← atDot? (← beforeSuffix? objectSuffix.toList rest)
    return (.table ⟨← Numeral.read? table⟩, ⟨← Numeral.read? number⟩)

/-- The number that an entry of a directory of the tree takes up: files and directories both start
with it. Zero and other names take up none. -/
def entryNumber? (name : Name) : Option UInt32 := do
  if databaseSuffix.toList <:+ name then
    let (number, _) ← atDot? name
    let n ← Numeral.read? number
    if n = 0 then none else some n
  else none

end Naming

end LargeObjects

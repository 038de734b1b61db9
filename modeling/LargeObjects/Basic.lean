/-! The nouns of a large-object area: tables, objects, the two kinds of content, the two schemes of
naming files and the owner that a file name states. -/
namespace LargeObjects

structure TableId where
  word : UInt32
deriving DecidableEq, Inhabited

instance : ToString TableId := ⟨fun t => s!"table:{t.word}"⟩

instance : Ord TableId := ⟨compareOn TableId.word⟩

instance : Std.TransOrd TableId := inferInstanceAs (Std.TransCmp (compareOn TableId.word))

instance : Std.LawfulEqOrd TableId where
  eq_of_compare {a b} h := by
    have h : a.word = b.word := Std.LawfulEqOrd.eq_of_compare h
    cases a; cases b; simp_all

/-- The identity of an object, which also picks its place among the files. Zero is never given out.
-/
structure ObjectId where
  word : UInt32
deriving DecidableEq, Inhabited

instance : Ord ObjectId := ⟨compareOn ObjectId.word⟩

instance : ToString ObjectId := ⟨fun o => s!"lob:{o.word}"⟩

inductive Kind where
  /-- Octets. -/
  | binary
  /-- Characters, stored as UTF-8. -/
  | character
deriving DecidableEq, Inhabited

instance : ToString Kind where
  toString
    | .binary => "BLOB"
    | .character => "CLOB"

inductive Layout where
  /-- In a tree of directories that each hold a bounded number of files. -/
  | sharded
  /-- All next to the database, as older databases have them. -/
  | flat
deriving DecidableEq, Inhabited

inductive Owner where
  /-- Nobody's yet: the file goes away with the last value that refers to it. -/
  | temp
  | table (id : TableId)
deriving DecidableEq, Inhabited

namespace Owner

def ofTable? : Option TableId → Owner
  | none => temp
  | some t => table t

def table? : Owner → Option TableId
  | temp => none
  | table t => some t

end Owner

end LargeObjects

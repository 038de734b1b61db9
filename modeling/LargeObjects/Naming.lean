import LargeObjects.Basic
import LargeObjects.Numeral
import LargeObjects.Path

/-! The names of the files of one database. The number of an object is read in base `fanout`: each
digit but the lowest is a directory, the highest outermost, and the object's file lies in the last
of them. An object whose lowest digit is zero has no file of its own, for its number names a
directory. Flat names put owner and number behind the name of the database. -/
namespace LargeObjects

structure Naming where
  base : Path
  fanout : UInt32
deriving DecidableEq, Inhabited

namespace Naming

def databaseSuffix : String := ".db"

def directorySuffix : String := ".lobs.db"

def objectSuffix : String := ".lob.db"

def flatTempSuffix : String := ".temp.db"

def tempMark : String := "temp"

def shardRoot (n : Naming) : Path := n.base.append directorySuffix.toList

def flatDirectory (n : Naming) : Path :=
  match n.base.parent? with
  | some p => if p.spelling = [] then Path.ofString "." else p
  | none => Path.ofString "."

/-- The digits of a number in base `radix`, the highest first; `fuel` bounds how many there are. -/
def digitsWithin (radix : Nat) : Nat → Nat → List Nat
  | 0, _ => []
  | fuel + 1, n => if n = 0 then [] else digitsWithin radix fuel (n / radix) ++ [n % radix]

def digits (radix n : Nat) : List Nat := digitsWithin radix 32 n

def directoryName (digit : Nat) : Name := Numeral.write digit ++ directorySuffix.toList

def shardDirectory (n : Naming) (id : ObjectId) : Path :=
  (digits n.fanout.toNat (id.word.toNat / n.fanout.toNat)).foldl
    (fun dir digit => dir.join (directoryName digit)) n.shardRoot

/-- The path of an object as far as its number decides it; for a number that ends in zero, the
directory that holds the objects with the same digits above the lowest. -/
def stem (n : Naming) (id : ObjectId) : Path :=
  if id.word % n.fanout = 0 then n.shardDirectory id
  else (n.shardDirectory id).join (Numeral.write id.word.toNat)

def ownerMark : Owner → List Char
  | .temp => '.' :: tempMark.toList
  | .table t => '.' :: 't' :: Numeral.write t.word.toNat

def shardedPath (n : Naming) (owner : Owner) (id : ObjectId) : Path :=
  (n.stem id).append (ownerMark owner ++ objectSuffix.toList)

def flatEnding (owner : Owner) (id : ObjectId) : List Char :=
  let number := Numeral.write id.word.toNat
  match owner with
  | .temp => '.' :: number ++ flatTempSuffix.toList
  | .table t => '.' :: Numeral.write t.word.toNat ++ '.' :: number ++ objectSuffix.toList

def flatPath (n : Naming) (owner : Owner) (id : ObjectId) : Path :=
  n.base.append (flatEnding owner id)

def path (n : Naming) : Layout → Owner → ObjectId → Path
  | .sharded => n.shardedPath
  | .flat => n.flatPath

end Naming

end LargeObjects

import LargeObjects.Bytes
import LargeObjects.Store.Error

/-! Stores of whole files addressed by path, as state transformers over the store. -/
namespace LargeObjects

/-- A computation over a state that may fail; a failure keeps what the state has become. -/
abbrev Step (ε σ α : Type) := EStateM ε σ α

class FileStore (σ : Type) where
  /-- An open file to read from, with its position. -/
  Reader : Type
  /-- An open file to append to; what is not yet written lives in the store. -/
  Writer : Type
  /-- Makes an empty file, with the directories above it, or empties the one there. -/
  create (path : Path) : Step StoreError σ Writer
  write (writer : Writer) (bytes : Bytes) : Step StreamError σ Unit
  flush (writer : Writer) : Step StreamError σ Unit
  /-- Gives a writer up; what it still holds back is written. -/
  close (writer : Writer) (store : σ) : σ
  openRead (path : Path) : Step StoreError σ Reader
  /-- The next bytes, at most `limit` of them; none at the end. -/
  read (limit : Nat) : Step StreamError (Reader × σ) Bytes
  /-- A bound on what a reader can still give. -/
  unread (reader : Reader) (store : σ) : Nat
  /-- Answers whether there was a file to remove. -/
  delete (path : Path) : Step StoreError σ Bool
  /-- Moves a file over whatever file is at the target. -/
  rename (source target : Path) : Step StoreError σ Unit
  /-- Answers the number of bytes copied. -/
  copy (source target : Path) : Step StoreError σ Nat
  /-- The entries of a directory as paths, in order; none when there is no such directory. -/
  list (dir : Path) : Step StoreError σ (List Path)
  isDirectory (path : Path) (store : σ) : Bool
  isFile (path : Path) (store : σ) : Bool
  size (path : Path) : Step StoreError σ Nat
  /-- A bound on the number of directories. -/
  directoryBound (store : σ) : Nat

end LargeObjects

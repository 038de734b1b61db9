import LargeObjects.Path

/-! What can go wrong in a file store or on one of its streams. -/
namespace LargeObjects

inductive SystemError where
  /-- A path holds the character that ends a path where it is handed over. -/
  | endInsidePath
  | noSuchFile
  | busy
  | alreadyExists
  | notDirectory
  | isDirectory
  | nameTooLong
  | notEmpty
deriving DecidableEq

namespace SystemError

def number? : SystemError → Option Nat
  | endInsidePath => none
  | noSuchFile => some 2
  | busy => some 16
  | alreadyExists => some 17
  | notDirectory => some 20
  | isDirectory => some 21
  | nameTooLong => some 36
  | notEmpty => some 39

def description : SystemError → String
  | endInsidePath => "file name contained an unexpected NUL byte"
  | noSuchFile => "No such file or directory"
  | busy => "Device or resource busy"
  | alreadyExists => "File exists"
  | notDirectory => "Not a directory"
  | isDirectory => "Is a directory"
  | nameTooLong => "File name too long"
  | notEmpty => "Directory not empty"

def message (e : SystemError) : String :=
  match e.number? with
  | some n => s!"{e.description} (os error {n})"
  | none => e.description

end SystemError

inductive StreamError where
  | system (cause : SystemError)
  /-- The file went away between opening a writer and using it. -/
  | removedWhileOpen (path : Path)
  /-- A failure that was planned, to see what callers make of it. -/
  | injected
  /-- Compressed content stops inside a frame. -/
  | incompleteFrame
  /-- What follows is the start of no frame. -/
  | unknownFrame
  /-- A block of a sort that this reader has no decoder for. -/
  | corruptFrame
  /-- Whatever a source of content reports. -/
  | other (message : String)
deriving DecidableEq

namespace StreamError

def message : StreamError → String
  | system e => e.message
  | removedWhileOpen p => s!"file removed while open: {p}"
  | injected => "injected fault"
  | incompleteFrame => "incomplete frame"
  | unknownFrame => "Unknown frame descriptor"
  | corruptFrame => "Data corruption detected"
  | other m => m

def isNotFound : StreamError → Bool
  | system .noSuchFile => true
  | removedWhileOpen _ => true
  | _ => false

end StreamError

inductive CompressionError where
  | missingTag
  | unstarted (cause : StreamError)
  | unfinished (cause : StreamError)
deriving DecidableEq

namespace CompressionError

def message : CompressionError → String
  | missingTag => "compressed stream has no algorithm tag"
  | unstarted e => e.message
  | unfinished e => e.message

end CompressionError

inductive StoreError where
  | stream (cause : StreamError)
  | notFound (path : Path)
  | compression (cause : CompressionError)
  /-- Content carries the tag of an algorithm that is not known here. -/
  | unknownCompression (tag : UInt8)
deriving DecidableEq

namespace StoreError

def message : StoreError → String
  | stream e => s!"I/O error: {e.message}"
  | notFound p => s!"file not found: {p}"
  | compression e => s!"compression error: {e.message}"
  | unknownCompression tag =>
    let digit (n : Nat) : String := String.singleton (Nat.digitChar n)
    s!"unknown compression algorithm tag: 0x{digit (tag.toNat / 16)}{digit (tag.toNat % 16)}"

def isNotFound : StoreError → Bool
  | notFound _ => true
  | stream e => e.isNotFound
  | _ => false

/-- A refusal that concerns `path`: that it does not exist is said of the path. -/
def ofSystem (cause : SystemError) (path : Path) : StoreError :=
  if cause = .noSuchFile then notFound path else stream (.system cause)

end StoreError

end LargeObjects

import LargeObjects.Error
import LargeObjects.Text.Quoted

/-! Failures in full, layer by layer, as the command line shows them. -/
namespace LargeObjects

namespace Diagnosis

def quote (text : String) : String := Quoted.quote Quoted.inDiagnostic text.toList

def quotePath (path : Path) : String := Quoted.quote Quoted.inPath path.spelling

def parts (name : String) (fields : List (String × String)) : String :=
  let field : String × String → String := fun (label, value) => s!"{label}: {value}"
  let inside := ", ".intercalate (fields.map field)
  s!"{name} \x7b {inside} \x7d"

def around (name inner : String) : String := s!"{name}({inner})"

end Diagnosis

open Diagnosis

def SystemError.sort : SystemError → String
  | endInsidePath => "InvalidInput"
  | noSuchFile => "NotFound"
  | busy => "ResourceBusy"
  | alreadyExists => "AlreadyExists"
  | notDirectory => "NotADirectory"
  | isDirectory => "IsADirectory"
  | nameTooLong => "InvalidFilename"
  | notEmpty => "DirectoryNotEmpty"

def StreamError.sort : StreamError → String
  | system e => e.sort
  | removedWhileOpen _ => "NotFound"
  | incompleteFrame => "UnexpectedEof"
  | _ => "Other"

def StreamError.diagnosis (e : StreamError) : String :=
  match e with
  | system cause =>
    let common := [("kind", cause.sort), ("message", quote cause.description)]
    match cause.number? with
    | some n => parts "Os" (("code", toString n) :: common)
    | none => parts "Error" common
  | _ => parts "Custom" [("kind", e.sort), ("error", quote e.message)]

def StoreError.diagnosis : StoreError → String
  | stream e => around "Io" e.diagnosis
  | notFound p => parts "NotFound" [("path", quotePath p)]
  | compression e => around "Compression" (quote e.message)
  | unknownCompression tag => around "UnknownCompression" (toString tag)

def ObjectError.diagnosis : ObjectError → String
  | storage e => around "Storage" e.diagnosis
  | stream e => around "Io" e.diagnosis
  | corruption c => parts "Corruption" [("message", quote c.message)]
  | allocationExhausted n => parts "AllocationExhausted" [("probes", toString n)]
  | unsupported c => parts "UnsupportedConfiguration" [("message", quote c.message)]
  | useAfterClose p => parts "UseAfterClose" [("path", quotePath p)]
  | forbidden c => parts "InvalidOperation" [("message", quote c.message)]

end LargeObjects

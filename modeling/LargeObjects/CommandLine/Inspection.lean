import LargeObjects.Inventory
import LargeObjects.Text.Quoted

/-! The account of a database's files, as lines of text and in JSON. -/
namespace LargeObjects.CommandLine

/-- Quotients with one decimal place; a half goes to the even neighbour. -/
def tenths (number unit : Nat) : Nat :=
  let q := 10 * number / unit
  let rest := 2 * (10 * number % unit)
  if unit < rest ∨ unit = rest ∧ q % 2 = 1 then q + 1 else q

def sizeText (bytes : Nat) : String :=
  let scaled (unit : Nat) (name : String) : String :=
    let t := tenths bytes unit
    s!"{t / 10}.{t % 10} {name}"
  let kilobyte := 1024
  let megabyte := 1024 * kilobyte
  let gigabyte := 1024 * megabyte
  if bytes < kilobyte then s!"{bytes} bytes"
  else if bytes < megabyte then scaled kilobyte "KB"
  else if bytes < gigabyte then scaled megabyte "MB"
  else scaled gigabyte "GB"

structure Inspection where
  path : Path
  layout : Layout
  inventory : Inventory

namespace Inspection

def layoutName (i : Inspection) : String :=
  match i.layout with
  | .sharded => "sharded"
  | .flat => "flat"

def text (i : Inspection) : List String :=
  let n := i.inventory
  let table : TableId × Usage → String := fun (t, u) =>
    s!"  [{t.word}] {u.files} files, {sizeText u.bytes}"
  ["LobDB LOB Area Inspection",
    "=========================",
    "",
    s!"Path:   {i.path}",
    s!"Layout: {i.layoutName}",
    "",
    "Files:",
    s!"  Total:      {n.totalFiles} ({sizeText n.totalBytes})",
    s!"  Temp:       {n.tempFiles} ({sizeText n.tempBytes})",
    s!"  Flat names: {n.flatFiles}",
    "",
    "Shards:",
    s!"  Deepest level:       {n.maxDepth}",
    s!"  Most files in a dir: {n.maxFilesPerDirectory}"] ++
  (if n.unreadableDirectories = 0 then []
    else [s!"  Unreadable dirs:     {n.unreadableDirectories}"]) ++
  (if n.tables.entries = [] then [] else "" :: "Tables:" :: n.tables.entries.map table)

def withComma : List String → List String
  | [] => []
  | [line] => [line ++ ","]
  | line :: rest => line :: withComma rest

def separated : List (List String) → List String
  | [] => []
  | [item] => item
  | item :: rest => withComma item ++ separated rest

def enclosed (opening closing : String) (items : List (List String)) : List String :=
  if items = [] then [opening ++ closing]
  else opening :: (separated items).map (fun line => "  " ++ line) ++ [closing]

def member (name : String) : List String → List String
  | [] => []
  | line :: rest => (Quoted.quote Quoted.inJson name.toList ++ ": " ++ line) :: rest

def number (name : String) (n : Nat) : List String := member name [toString n]

def quoted (name : String) (text : List Char) : List String :=
  member name [Quoted.quote Quoted.inJson text]

def json (i : Inspection) : List String :=
  let n := i.inventory
  let object : List (List String) → List String := enclosed "\x7b" "\x7d"
  let table : TableId × Usage → List String := fun (t, u) =>
    object [number "id" t.word.toNat, number "files" u.files, number "bytes" u.bytes]
  object
    [quoted "path" i.path.spelling,
      quoted "layout" i.layoutName.toList,
      number "total_files" n.totalFiles,
      number "total_bytes" n.totalBytes,
      number "temp_files" n.tempFiles,
      number "temp_bytes" n.tempBytes,
      number "flat_files" n.flatFiles,
      number "max_depth" n.maxDepth,
      number "max_files_per_directory" n.maxFilesPerDirectory,
      number "unreadable_directories" n.unreadableDirectories,
      member "tables" (enclosed "[" "]" (n.tables.entries.map table))]

end Inspection

end LargeObjects.CommandLine

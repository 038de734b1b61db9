import LargeObjects.Basic
import LargeObjects.Numeral
import LargeObjects.Path

/-! The arguments of the command line. A command's name may stand among options that hold for every
command; after it, the options of the command itself can be given too. -/
namespace LargeObjects.CommandLine

abbrev Argument := List Char

inductive Command where
  /-- To give an account of the files, in JSON or as text. -/
  | inspect (json : Bool)
  | dropTable (table : TableId)
  | purgeTemp
  | version
deriving DecidableEq

structure Invocation where
  path : Option Path
  flat : Bool
  command : Command
deriving DecidableEq

inductive Stop where
  /-- They cannot be understood. -/
  | misuse
  /-- They ask for the version of the program, whatever comes after. -/
  | version
deriving DecidableEq

inductive Verb where
  | inspect
  | dropTable
  | purgeTemp
  | version
deriving DecidableEq

def Verb.ofWord? (word : Argument) : Option Verb :=
  List.lookup word
    [("inspect".toList, inspect), ("drop-table".toList, dropTable),
      ("purge-temp".toList, purgeTemp), ("version".toList, version)]

inductive Key where
  | path
  | flat
  | verbose
  | version
  | format
  | table
deriving DecidableEq

namespace Key

def ofWord? (word : Argument) : Option Key :=
  List.lookup word
    [("path".toList, path), ("flat".toList, flat), ("verbose".toList, verbose),
      ("version".toList, version), ("format".toList, format), ("table".toList, table)]

def ofLetter? : Char → Option Key
  | 'p' => some path
  | 'v' => some verbose
  | 'V' => some version
  | 'f' => some format
  | 't' => some table
  | _ => none

def hasValue : Key → Bool
  | path => true
  | format => true
  | table => true
  | _ => false

def isAvailable (verb : Option Verb) : Key → Bool
  | version => verb = none
  | format => verb = some .inspect
  | table => verb = some .dropTable
  | _ => true

end Key

/-- The number of a table. Zero may have a minus sign. -/
def tableNumber? (text : Argument) : Option TableId :=
  match text with
  | '-' :: zeros => if zeros ≠ [] ∧ zeros.all (· = '0') then some ⟨0⟩ else none
  | _ => (Numeral.read? text).map TableId.mk

structure Given where
  path : Option Path := none
  flat : Bool := false
  verbose : Bool := false
  format : Option Argument := none
  table : Option TableId := none
deriving DecidableEq

/-- Takes one option in. None can be given twice in the same place, and a path is not empty. -/
def Given.take (g : Given) (key : Key) (value : Option Argument) : Except Stop Given :=
  match key, value with
  | .path, some text =>
    if g.path.isSome ∨ text = [] then .error .misuse else .ok { g with path := some ⟨text⟩ }
  | .format, some text =>
    if g.format.isSome then .error .misuse else .ok { g with format := some text }
  | .table, some text =>
    match g.table, tableNumber? text with
    | none, some t => .ok { g with table := some t }
    | _, _ => .error .misuse
  | .flat, none => if g.flat then .error .misuse else .ok { g with flat := true }
  | .verbose, none => if g.verbose then .error .misuse else .ok { g with verbose := true }
  | .version, none => .error .version
  | _, _ => .error .misuse

def isOption (argument : Argument) : Bool := argument.head? = some '-' && argument != ['-']

/-- Reads the letters of one argument. The rest of it after a letter that wants a value is the
value, less an equals sign; without a rest the value is yet to come. -/
def readLetters (verb : Option Verb) : List Char → Given → Except Stop (Given × Option Key)
  | [], g => .ok (g, none)
  | letter :: rest, g =>
    match (Key.ofLetter? letter).filter (Key.isAvailable verb) with
    | none => .error .misuse
    | some key =>
      if key.hasValue then
        match rest with
        | [] => .ok (g, some key)
        | '=' :: value => return (← g.take key (some value), none)
        | value => return (← g.take key (some value), none)
      else do readLetters verb rest (← g.take key none)

def readLong (verb : Option Verb) (text : List Char) (g : Given) :
    Except Stop (Given × Option Key) :=
  match (Key.ofWord? (text.takeWhile (· ≠ '='))).filter (Key.isAvailable verb) with
  | none => .error .misuse
  | some key =>
    match text.dropWhile (· ≠ '=') with
    | _ :: value => return (← g.take key (some value), none)
    | [] => if key.hasValue then return (g, some key) else return (← g.take key none, none)

def readOption (verb : Option Verb) (argument : Argument) (g : Given) :
    Except Stop (Given × Option Key) :=
  match argument with
  | '-' :: '-' :: text => readLong verb text g
  | _ => readLetters verb argument.tail g

def conclude (verb : Option Verb) (before after : Given) : Except Stop Invocation := do
  let command ← match verb, after.table with
    | some .inspect, _ => pure (.inspect (after.format = some "json".toList))
    | some .dropTable, some t => pure (.dropTable t)
    | some .purgeTemp, _ => pure .purgeTemp
    | some .version, _ => pure .version
    | _, _ => throw .misuse
  return { path := after.path <|> before.path, flat := before.flat || after.flat, command }

/-- Reads on, after `verb` if there was one. Two dashes end the options, and then nothing may
follow. What an option takes for its value never looks like an option. -/
def readFrom (verb : Option Verb) (before given : Given) :
    List Argument → Except Stop Invocation
  | [] => conclude verb before given
  | argument :: rest =>
    if argument = ['-', '-'] then
      if rest = [] then conclude verb before given else .error .misuse
    else if isOption argument then do
      match ← readOption verb argument given, rest with
      | (given, none), rest => readFrom verb before given rest
      | (given, some key), value :: rest =>
        -- The name of a command is a value here like any other word.
        if isOption value then throw .misuse
        else readFrom verb before (← given.take key (some value)) rest
      | (_, some _), [] => throw .misuse
    else match verb, Verb.ofWord? argument with
      | none, some verb => readFrom (some verb) given {} rest
      | _, _ => .error .misuse

def read (arguments : List Argument) : Except Stop Invocation := readFrom none {} {} arguments

end LargeObjects.CommandLine

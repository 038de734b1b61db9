import LargeObjects.Basic
import LargeObjects.Store.Error
import LargeObjects.Text.Utf8

/-! What can go wrong with large objects. -/
namespace LargeObjects

inductive Corruption where
  /-- Bytes given for a character object are no text. -/
  | inlineText (defect : Utf8.Defect)
  /-- The stored bytes of a character object are no text. -/
  | storedText (defect : Utf8.Defect)
  /-- A source of characters gives bytes that are none. -/
  | malformedSource
  /-- A source of characters ends inside one. -/
  | truncatedSource
  | other (message : String)
deriving DecidableEq

namespace Corruption

def message : Corruption → String
  | inlineText d => s!"inline CLOB is not UTF-8: {d.message}"
  | storedText d => s!"CLOB content is not UTF-8: {d.message}"
  | malformedSource => "invalid UTF-8 in CLOB source"
  | truncatedSource => "CLOB source ends inside a UTF-8 sequence"
  | other m => m

end Corruption

inductive Unsupported where
  | fanoutTooSmall (fanout : UInt32)
  | noProbes
  /-- A database with flat names is asked to serve a file of the other layout. -/
  | shardedInFlat
  | other (message : String)
deriving DecidableEq

namespace Unsupported

def message : Unsupported → String
  | fanoutTooSmall n => s!"shard fanout must be at least 2, got {n}"
  | noProbes => "max_allocation_probes must be positive"
  | shardedInFlat => "sharded LOB used with a database opened in legacy flat mode"
  | other m => m

end Unsupported

inductive Forbidden where
  | objectZero
  | other (message : String)
deriving DecidableEq

namespace Forbidden

def message : Forbidden → String
  | objectZero => "object id 0 is never allocated"
  | other m => m

end Forbidden

inductive ObjectError where
  | storage (cause : StoreError)
  /-- A source of content or an open file fails. -/
  | stream (cause : StreamError)
  | corruption (cause : Corruption)
  /-- No free object id was found; `probes` tells how far the search went. -/
  | allocationExhausted (probes : UInt32)
  | unsupported (cause : Unsupported)
  /-- The value's file was deleted or has been moved to another value. -/
  | useAfterClose (path : Path)
  | forbidden (cause : Forbidden)
deriving DecidableEq

namespace ObjectError

def message : ObjectError → String
  | storage e => s!"storage error: {e.message}"
  | stream e => s!"I/O error: {e.message}"
  | corruption c => s!"LOB corruption: {c.message}"
  | allocationExhausted n => s!"object id allocation exhausted after {n} probes"
  | unsupported c => s!"unsupported configuration: {c.message}"
  | useAfterClose p => s!"LOB used after close: {p}"
  | forbidden c => s!"invalid operation: {c.message}"

end ObjectError

end LargeObjects

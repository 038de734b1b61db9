import LargeObjects.Error
import LargeObjects.Store.FileStore

/-! The state that all values and databases of one process share: the file store, the handles to
files, the counters of allocators and a source of chance. -/
namespace LargeObjects

/-- A reference to a file that several values can share. An armed handle takes its file with it when
its last holder lets go. A retired handle has lost its file, by deletion or to another handle. -/
structure Handle where
  path : Path
  armed : Bool
  retired : Bool := false
  holders : Nat := 1
deriving DecidableEq

namespace Handle

def absent : Handle := { path := ⟨[]⟩, armed := false, retired := true, holders := 0 }

def isAutoDelete (h : Handle) : Bool := h.armed && !h.retired

end Handle

abbrev HandleId := Nat

structure Entropy where
  word : Nat → UInt32 := fun _ => 0
  used : Nat := 0

namespace Entropy

def digit (e : Entropy) (radix : UInt32) : UInt32 × Entropy :=
  (1 + e.word e.used % (radix - 1), { e with used := e.used + 1 })

end Entropy

structure World (σ : Type) where
  store : σ
  handles : List Handle := []
  counters : List UInt32 := []
  entropy : Entropy := {}

abbrev Action (σ α : Type) := Step ObjectError (World σ) α

namespace World

variable {σ α : Type}

def onStore (act : Step StoreError σ α) : Action σ α := fun w =>
  match act w.store with
  | .ok a store => .ok a { w with store }
  | .error e store => .error (.storage e) { w with store }

def handle (w : World σ) (id : HandleId) : Handle := w.handles.getD id .absent

def modifyHandle (id : HandleId) (f : Handle → Handle) : Action σ Unit := fun w =>
  .ok () { w with handles := w.handles.modify id f }

def newHandle (path : Path) (armed : Bool) : Action σ HandleId := fun w =>
  .ok w.handles.length { w with handles := w.handles ++ [{ path, armed }] }

def retain (id : HandleId) : Action σ Unit :=
  modifyHandle id fun h => { h with holders := h.holders + 1 }

def retire (id : HandleId) : Action σ Unit :=
  modifyHandle id fun h => { h with retired := true }

def discard [FileStore σ] (path : Path) : Action σ Unit := fun w =>
  match FileStore.delete path w.store with
  | .ok _ store => .ok () { w with store }
  | .error _ store => .ok () { w with store }

def release [FileStore σ] (id : HandleId) : Action σ Unit := do
  modifyHandle id fun h => { h with holders := h.holders - 1 }
  let h := (← get).handle id
  if h.holders = 0 ∧ h.isAutoDelete then discard h.path

def livePath (id : HandleId) : Action σ Path := do
  let h := (← get).handle id
  if h.retired then throw (.useAfterClose h.path) else pure h.path

def newCounter (first : UInt32) : Action σ Nat := fun w =>
  .ok w.counters.length { w with counters := w.counters ++ [first] }

/-- The value of a counter, which then moves on and starts over after the last word. -/
def nextCount (counter : Nat) : Action σ UInt32 := fun w =>
  .ok (w.counters.getD counter 0) { w with counters := w.counters.modify counter (· + 1) }

def randomDigit (radix : UInt32) : Action σ UInt32 := fun w =>
  let (digit, entropy) := w.entropy.digit radix
  .ok digit { w with entropy }

end World

end LargeObjects

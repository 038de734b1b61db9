import LargeObjects.Store.FileStore

/-! A file store in which chosen calls fail, for studying what callers make of failures. -/
namespace LargeObjects

inductive Operation where
  | create
  | openRead
  | delete
  | rename
  | copy
  | list
  | size
  | write
  | flush
  | read
deriving DecidableEq

/-- Lets `skip` calls of an operation on a path through and fails all later ones. With `after` the
call takes effect before it fails, which calls on open files never do. -/
structure Fault where
  operation : Operation
  path : Path
  skip : Nat := 0
  after : Bool := false
deriving DecidableEq

inductive Verdict where
  | pass
  | fail
  | failAfter
deriving DecidableEq

def Fault.judge (operation : Operation) (path : Path) : List Fault → Verdict × List Fault
  | [] => (.pass, [])
  | f :: rest =>
    if f.operation = operation ∧ f.path.same path then
      if 0 < f.skip then (.pass, { f with skip := f.skip - 1 } :: rest)
      else (if f.after then .failAfter else .fail, f :: rest)
    else
      let (verdict, rest) := judge operation path rest
      (verdict, f :: rest)

structure Faulty (σ : Type) where
  store : σ
  faults : List Fault := []

namespace Faulty

variable {σ α : Type}

def judge (operation : Operation) (path : Path) (s : Faulty σ) : Verdict × Faulty σ :=
  let (verdict, faults) := Fault.judge operation path s.faults
  (verdict, { s with faults })

def pass (act : Step StoreError σ α) : Step StoreError (Faulty σ) α := fun s =>
  match act s.store with
  | .ok a store => .ok a { s with store }
  | .error e store => .error e { s with store }

def guarded (operation : Operation) (path : Path) (act : Step StoreError σ α) :
    Step StoreError (Faulty σ) α := fun s =>
  match s.judge operation path with
  | (.pass, s) => pass act s
  | (.fail, s) => .error (.stream .injected) s
  | (.failAfter, s) =>
    match pass act s with
    | .ok _ s => .error (.stream .injected) s
    | .error _ s => .error (.stream .injected) s

def guardedOpen (operation : Operation) (path : Path) (act : Step StreamError σ α) :
    Step StreamError (Faulty σ) α := fun s =>
  match s.judge operation path with
  | (.pass, s) =>
    match act s.store with
    | .ok a store => .ok a { s with store }
    | .error e store => .error e { s with store }
  | (_, s) => .error .injected s

end Faulty

instance {σ : Type} [FileStore σ] : FileStore (Faulty σ) where
  Reader := Path × FileStore.Reader σ
  Writer := Path × FileStore.Writer σ
  create path := Faulty.guarded .create path do return (path, ← FileStore.create path)
  write w bytes := Faulty.guardedOpen .write w.1 (FileStore.write w.2 bytes)
  flush w := Faulty.guardedOpen .flush w.1 (FileStore.flush (σ := σ) w.2)
  close w s := { s with store := FileStore.close w.2 s.store }
  openRead path := Faulty.guarded .openRead path do return (path, ← FileStore.openRead path)
  read limit := fun ((path, r), s) =>
    match s.judge .read path with
    | (.pass, s) =>
      match FileStore.read limit (r, s.store) with
      | .ok bytes (r, store) => .ok bytes ((path, r), { s with store })
      | .error e (r, store) => .error e ((path, r), { s with store })
    | (_, s) => .error .injected ((path, r), s)
  unread r s := FileStore.unread r.2 s.store
  delete path := Faulty.guarded .delete path (FileStore.delete path)
  rename source target := Faulty.guarded .rename source (FileStore.rename source target)
  copy source target := Faulty.guarded .copy source (FileStore.copy source target)
  list dir := Faulty.guarded .list dir (FileStore.list dir)
  isDirectory path s := FileStore.isDirectory path s.store
  isFile path s := FileStore.isFile path s.store
  size path := Faulty.guarded .size path (FileStore.size path)
  directoryBound s := FileStore.directoryBound s.store

end LargeObjects

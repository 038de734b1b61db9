import LargeObjects.SortedMap
import LargeObjects.Store.FileStore

/-! A file store held in memory. Files are kept under the components of their paths; a directory is
nothing but a path that some file lies below. -/
namespace LargeObjects

/-- Each file has the spelling under which it was first made, and its content. -/
structure MemoryStore where
  files : SortedMap (List Component) (Path × Bytes) := ∅
  spelled : ∀ e ∈ files.entries, e.2.1.components = e.1 := by exact fun _ h => nomatch h

namespace MemoryStore

instance : Inhabited MemoryStore := ⟨{}⟩

def get? (s : MemoryStore) (path : Path) : Option Bytes := (s.files.get? path.components).map (·.2)

def spelling (s : MemoryStore) (path : Path) : Path :=
  ((s.files.get? path.components).map (·.1)).getD path

theorem components_spelling (s : MemoryStore) (path : Path) :
    (s.spelling path).components = path.components := by
  unfold spelling
  cases h : s.files.get? path.components with
  | none => rfl
  | some e => exact s.spelled _ (SortedMap.mem_of_get? h)

def put (s : MemoryStore) (path : Path) (content : Bytes) : MemoryStore where
  files := s.files.insert path.components (s.spelling path, content)
  spelled e he := by
    rcases SortedMap.mem_insertEntry he with rfl | he
    · exact s.components_spelling path
    · exact s.spelled e he

def erase (s : MemoryStore) (path : Path) : MemoryStore where
  files := s.files.erase path.components
  spelled e he := s.spelled e (List.mem_filter.1 he).1

def paths (s : MemoryStore) : List Path := s.files.values.map (·.1)

def fileCount (s : MemoryStore) : Nat := s.files.size

def withoutRepeats : List Component → List Component
  | a :: b :: rest => if a = b then withoutRepeats (b :: rest) else a :: withoutRepeats (b :: rest)
  | steps => steps

/-- The entries of a directory: of every file below it, the first step toward the file. The places
are in order, so files with the same first step come one after the other. -/
def children (s : MemoryStore) (dir : Path) : List Component :=
  let top := dir.components
  withoutRepeats (s.files.keys.filterMap fun place => (Path.stepsBelow? top place).bind List.head?)

def isFile (s : MemoryStore) (path : Path) : Bool := s.files.contains path.components

def isDirectory (s : MemoryStore) (path : Path) : Bool :=
  let top := path.components
  s.files.keys.any fun place => (Path.stepsBelow? top place).any fun steps => !steps.isEmpty

def withFile {α : Type} (path : Path) (act : Bytes → MemoryStore → α × MemoryStore) :
    Step StoreError MemoryStore α := fun s =>
  match s.get? path with
  | none => .error (.notFound path) s
  | some content => let (a, s) := act content s; .ok a s

end MemoryStore

instance : FileStore MemoryStore where
  Reader := Bytes
  Writer := Path
  create path := fun s => .ok path (s.put path [])
  write path bytes := fun s =>
    match s.get? path with
    | none => .error (.removedWhileOpen path) s
    | some content => .ok () (s.put path (content ++ bytes))
  flush _ := pure ()
  close _ s := s
  openRead path := MemoryStore.withFile path fun content s => (content, s)
  read limit := fun (rest, s) => .ok (rest.take limit) (rest.drop limit, s)
  unread rest _ := rest.length
  delete path := fun s => .ok (s.isFile path) (s.erase path)
  rename source target := MemoryStore.withFile source fun content s =>
    ((), (s.erase source).put target content)
  copy source target := MemoryStore.withFile source fun content s =>
    (content.length, s.put target content)
  list dir := fun s => .ok ((s.children dir).map fun c => dir.join c.text) s
  isDirectory path s := s.isDirectory path
  isFile path s := s.isFile path
  size path := MemoryStore.withFile path fun content s => (content.length, s)
  directoryBound s := s.files.keys.flatten.length + 1

end LargeObjects

/-! Paths. A path keeps the spelling it was given. Where a place is meant, paths are compared by
their components, so repeated separators, a trailing one and inner single dots make no difference.
-/
namespace LargeObjects

abbrev Name := List Char

/-- One step of a path. `current` stands only at the start of a relative path. -/
inductive Component where
  | root
  | current
  | parent
  | name (text : Name)
deriving DecidableEq

namespace Component

def rank : Component → Nat
  | root => 0
  | current => 1
  | parent => 2
  | name _ => 3

def text : Component → Name
  | root => ['/']
  | current => ['.']
  | parent => ['.', '.']
  | name t => t

def ofPiece? : Name → Option Component
  | [] => none
  | ['.'] => none
  | ['.', '.'] => some parent
  | t => some (name t)

instance : Ord Component where
  compare := compareLex (compareOn rank) (compareOn text)

instance : Std.TransOrd Component :=
  inferInstanceAs (Std.TransCmp (compareLex (compareOn rank) (compareOn text)))

instance : Std.LawfulEqOrd Component where
  eq_of_compare {a b} h := by
    obtain ⟨hr, ht⟩ := compareLex_eq_eq.1 h
    have hr : a.rank = b.rank := Std.LawfulEqOrd.eq_of_compare hr
    have ht : a.text = b.text := Std.LawfulEqOrd.eq_of_compare ht
    cases a <;> cases b <;> simp_all [rank, text]

end Component

structure Path where
  spelling : List Char
deriving DecidableEq, Inhabited

namespace Path

def ofString (s : String) : Path := ⟨s.toList⟩

instance : ToString Path := ⟨fun p => String.ofList p.spelling⟩

def pieces (p : Path) : List Name := p.spelling.splitOn '/'

def anchor? (p : Path) : Option Component :=
  match p.pieces with
  | [] :: _ :: _ => some .root
  | ['.'] :: _ => some .current
  | _ => none

def components (p : Path) : List Component :=
  p.anchor?.toList ++ p.pieces.filterMap Component.ofPiece?

def same (p q : Path) : Bool := p.components = q.components

def fileName? (p : Path) : Option Name :=
  match p.components.getLast? with
  | some (.name t) => some t
  | _ => none

def ofPieces (anchor : Option Component) (pieces : List Name) : Path :=
  let body : List Char := ['/'].intercalate pieces
  match anchor with
  | some .current => ⟨if pieces.isEmpty then ['.'] else '.' :: '/' :: body⟩
  | some _ => ⟨'/' :: body⟩
  | none => ⟨body⟩

/-- The path without its last step, less the separators and single dots that then stand at the end.
A lone separator and the empty path have no parent. -/
def parent? (p : Path) : Option Path :=
  let blank (piece : Name) : Bool := (Component.ofPiece? piece).isNone
  let body := if p.anchor?.isSome then p.pieces.tail else p.pieces
  match body.reverse.dropWhile blank with
  | _ :: rest => some (ofPieces p.anchor? (rest.dropWhile blank).reverse)
  | [] => if p.anchor? = some .current then some ⟨[]⟩ else none

def append (p : Path) (suffix : List Char) : Path := ⟨p.spelling ++ suffix⟩

/-- The place that `text` names when `p` is where one stands. -/
def join (p : Path) (text : Name) : Path :=
  if text.head? = some '/' then ⟨text⟩
  else if p.spelling = [] ∨ p.spelling.getLast? = some '/' then ⟨p.spelling ++ text⟩
  else ⟨p.spelling ++ '/' :: text⟩

def stepsBelow? (dir place : List Component) : Option (List Component) :=
  if dir <+: place then some (place.drop dir.length) else none

end Path

end LargeObjects

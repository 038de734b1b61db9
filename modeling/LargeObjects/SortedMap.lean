/-! Finite maps as lists of entries in strictly increasing order of their keys. A map has one list,
so equal maps are equal values and a listing needs no sorting. -/
namespace LargeObjects

structure SortedMap (κ β : Type) [Ord κ] where
  entries : List (κ × β) := []
  sorted : entries.Pairwise fun a b => compare a.1 b.1 = .lt := by exact .nil

namespace SortedMap

variable {κ β : Type} [Ord κ]

def insertEntry (k : κ) (v : β) : List (κ × β) → List (κ × β)
  | [] => [(k, v)]
  | e :: rest =>
    match compare k e.1 with
    | .lt => (k, v) :: e :: rest
    | .eq => (k, v) :: rest
    | .gt => e :: insertEntry k v rest

theorem mem_insertEntry {k : κ} {v : β} {e : κ × β} {l : List (κ × β)}
    (h : e ∈ insertEntry k v l) : e = (k, v) ∨ e ∈ l := by
  induction l with
  | nil => simpa [insertEntry] using h
  | cons hd tl ih =>
    unfold insertEntry at h
    split at h <;> grind

theorem sorted_insertEntry [Std.TransOrd κ] [Std.LawfulEqOrd κ] (k : κ) (v : β)
    {l : List (κ × β)} (h : l.Pairwise fun a b => compare a.1 b.1 = .lt) :
    (insertEntry k v l).Pairwise fun a b => compare a.1 b.1 = .lt := by
  induction l with
  | nil => simp [insertEntry]
  | cons hd tl ih =>
    obtain ⟨hhd, htl⟩ := List.pairwise_cons.1 h
    unfold insertEntry
    split
    next hlt =>
      refine List.pairwise_cons.2 ⟨fun e he => ?_, h⟩
      rcases List.mem_cons.1 he with rfl | he
      · exact hlt
      · exact Std.TransCmp.lt_trans hlt (hhd e he)
    next heq =>
      cases Std.LawfulEqOrd.eq_of_compare heq
      exact List.pairwise_cons.2 ⟨hhd, htl⟩
    next hgt =>
      refine List.pairwise_cons.2 ⟨fun e he => ?_, ih htl⟩
      rcases mem_insertEntry he with rfl | he
      · exact Std.OrientedCmp.lt_of_gt hgt
      · exact hhd e he

def get? (m : SortedMap κ β) (k : κ) : Option β :=
  (m.entries.find? fun e => compare e.1 k = .eq).map (·.2)

theorem mem_of_get? [Std.LawfulEqOrd κ] {m : SortedMap κ β} {k : κ} {v : β}
    (h : m.get? k = some v) : (k, v) ∈ m.entries := by
  obtain ⟨⟨k', v'⟩, hfind, rfl⟩ := Option.map_eq_some_iff.1 h
  have hk : compare k' k = .eq := by simpa using List.find?_some hfind
  cases Std.LawfulEqOrd.eq_of_compare hk
  exact List.mem_of_find?_eq_some hfind

def contains (m : SortedMap κ β) (k : κ) : Bool := (m.get? k).isSome

def insert [Std.TransOrd κ] [Std.LawfulEqOrd κ] (m : SortedMap κ β) (k : κ) (v : β) :
    SortedMap κ β :=
  ⟨insertEntry k v m.entries, sorted_insertEntry k v m.sorted⟩

def erase (m : SortedMap κ β) (k : κ) : SortedMap κ β :=
  ⟨m.entries.filter fun e => compare e.1 k ≠ .eq, m.sorted.filter _⟩

def keys (m : SortedMap κ β) : List κ := m.entries.map (·.1)

def values (m : SortedMap κ β) : List β := m.entries.map (·.2)

def size (m : SortedMap κ β) : Nat := m.entries.length

instance : EmptyCollection (SortedMap κ β) := ⟨{}⟩

instance : Inhabited (SortedMap κ β) := ⟨∅⟩

end SortedMap

end LargeObjects

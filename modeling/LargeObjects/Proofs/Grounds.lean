import Mathlib
import LargeObjects.Proofs.Finding
import LargeObjects.Proofs.Freshness
import LargeObjects.Proofs.LocalStores

/-! Where the files of a database lie on a file system: below the directory that the database is in,
down through directories of its tree. A directory stands nowhere in the way of a file, nor a file in
the way of a directory. -/
namespace LargeObjects

structure Usable (t : Name) : Prop where
  isName : IsName t
  short : Disk.byteCount t ≤ Disk.nameLimit

structure Ground where
  top : Path
  names : List Name
  stated : top.spelling ≠ []
  objection : Disk.objection? top = none
  leads : top.components = top.anchor?.toList ++ names.map .name
  usable : ∀ t ∈ names, Usable t

namespace Ground

def anchor (g : Ground) : Option Component := g.top.anchor?

/-- A path starts nowhere, at the root or at a dot, and at nothing else. -/
theorem anchored (g : Ground) :
    g.anchor = none ∨ g.anchor = some .root ∨ g.anchor = some .current := by
  unfold anchor
  rcases g.top.anchor?_cases with h | h | ⟨h, -⟩
  · exact Or.inr (Or.inl h)
  · exact Or.inr (Or.inr h)
  · exact Or.inl h

def place (g : Ground) (names : List Name) : List Component :=
  g.anchor.toList ++ names.map .name

def start (g : Ground) : Nat := if g.anchor = some .root then 0 else 1

def path (g : Ground) (rest : List Name) : Path := rest.foldl Path.join g.top

/-- The names that lead to a file: from the ground down through directories of a tree, which show by
their ending that they are, to a name without that ending. -/
def Seat (g : Ground) (names : List Name) : Prop :=
  ∃ inner last, names = g.names ++ (inner ++ [last]) ∧
    (∀ t ∈ inner, Usable t ∧ Naming.directorySuffix.toList <:+ t) ∧
    Usable last ∧ ¬Naming.directorySuffix.toList <:+ last ∧
    Disk.objection? (g.path (inner ++ [last])) = none

structure Lane (g : Ground) (inner : List Name) : Prop where
  marked : ∀ t ∈ inner, Usable t ∧ Naming.directorySuffix.toList <:+ t
  objection : Disk.objection? (g.path inner) = none

def Way (g : Ground) (names : List Name) : Prop :=
  names <+: g.names ∨ ∃ inner, names = g.names ++ inner ∧ g.Lane inner

variable {g : Ground} {names rest init : List Name} {t : Name}

theorem place_append (names rest : List Name) :
    g.place (names ++ rest) = g.place names ++ rest.map .name := by
  simp only [place, List.map_append, List.append_assoc]

theorem place_concat (names : List Name) (t : Name) : g.place (names ++ [t]) = g.place names ++ [.name t] :=
  place_append names [t]

theorem name_mem_place (g : Ground) : .name t ∈ g.place names ↔ t ∈ names := by
  have hanchor : .name t ∉ g.anchor.toList := by
    rcases g.anchored with h | h | h <;> rw [h] <;> simp
  unfold place
  rw [List.mem_append, or_iff_right hanchor, List.mem_map]
  simp

theorem parent_not_mem_place (g : Ground) (names : List Name) : .parent ∉ g.place names := by
  have hanchor : .parent ∉ g.anchor.toList := by
    rcases g.anchored with h | h | h <;> rw [h] <;> simp
  unfold place
  rw [List.mem_append, not_or]
  exact ⟨hanchor, by simp⟩

/-- Different names make different places. -/
theorem place_injective (h : g.place names = g.place rest) : names = rest := by
  have hmap := List.append_cancel_left h
  exact List.map_injective_iff.2 (fun _ _ h => Component.name.inj h) hmap

theorem Seat.usable (h : g.Seat names) : ∀ t ∈ names, Usable t := by
  obtain ⟨inner, last, rfl, hinner, hlast, -⟩ := h
  intro t ht
  rcases List.mem_append.1 ht with ht | ht
  · exact g.usable t ht
  rcases List.mem_append.1 ht with ht | ht
  · exact (hinner t ht).1
  · rw [List.mem_singleton.1 ht]
    exact hlast

theorem Seat.isName (h : g.Seat names) : ∀ t ∈ names, IsName t := fun t ht => (h.usable t ht).isName

structure Spells (g : Ground) (p : Path) (names : List Name) : Prop where
  components_eq : p.components = g.place names
  objection : Disk.objection? p = none
  ends : p.EndsInName

theorem path_append (rest more : List Name) : g.path (rest ++ more) = more.foldl Path.join (g.path rest) :=
  List.foldl_append

theorem path_concat (rest : List Name) (t : Name) : g.path (rest ++ [t]) = (g.path rest).join t :=
  path_append rest [t]

/-- Joining names one by one gives the path of the place that they make. -/
theorem components_path (hrest : ∀ t ∈ rest, IsName t) :
    (g.path rest).components = g.place (g.names ++ rest) := by
  induction rest using List.reverseRecOn with
  | nil =>
    rw [List.append_nil]
    exact g.leads
  | append_singleton init t ih =>
    have ht := hrest t (List.mem_append_right _ List.mem_cons_self)
    rw [path_concat, Path.components_join _ ht, ih fun u hu => hrest u (List.mem_append_left _ hu),
      ← List.append_assoc, place_concat]

/-- Further names make a spelling longer and change nothing in front. -/
theorem prefix_path {more : List Name} (hmore : ∀ t ∈ more, IsName t) :
    (g.path rest).spelling <+: (g.path (rest ++ more)).spelling := by
  induction more using List.reverseRecOn with
  | nil => rw [List.append_nil]
  | append_singleton init t ih =>
    have ht := hmore t (List.mem_append_right _ List.mem_cons_self)
    rw [← List.append_assoc, path_concat]
    exact (ih fun u hu => hmore u (List.mem_append_left _ hu)).trans
      (Naming.prefix_join _ ht.no_separator)

/-- Nothing is wrong with the path of a seat. -/
theorem Seat.objection (h : g.Seat (g.names ++ rest)) : Disk.objection? (g.path rest) = none := by
  obtain ⟨inner, last, hnames, -, -, -, hobjection⟩ := h
  rwa [List.append_cancel_left hnames]

/-- What is no obstacle at the end of a lane is none before. -/
theorem Lane.before (h : g.Lane (init ++ rest)) : g.Lane init where
  marked t ht := h.marked t (List.mem_append_left _ ht)
  objection := Disk.objection?_of_prefix
    (prefix_path fun t ht => (h.marked t (List.mem_append_right _ ht)).1.isName) h.objection

theorem Way.usable (h : g.Way names) : ∀ t ∈ names, Usable t := by
  intro t ht
  rcases h with habove | ⟨inner, rfl, hlane⟩
  · exact g.usable t (habove.subset ht)
  · rcases List.mem_append.1 ht with ht | ht
    · exact g.usable t ht
    · exact (hlane.marked t ht).1

theorem Way.isName (h : g.Way names) : ∀ t ∈ names, IsName t := fun t ht => (h.usable t ht).isName

theorem Way.before (h : g.Way (init ++ rest)) : g.Way init := by
  rcases h with habove | ⟨inner, hsplit, hlane⟩
  · exact Or.inl ((List.prefix_append _ _).trans habove)
  · rcases List.append_eq_append_iff.1 hsplit with ⟨more, hmore, -⟩ | ⟨more, rfl, hmore⟩
    · exact Or.inl ⟨more, hmore.symm⟩
    · rw [hmore] at hlane
      exact Or.inr ⟨more, rfl, hlane.before⟩

theorem Way.objection (h : g.Way (g.names ++ rest)) : Disk.objection? (g.path rest) = none := by
  rcases h with habove | ⟨inner, hsplit, hlane⟩
  · obtain rfl : rest = [] := by
      have hlength := habove.length_le
      rw [List.length_append] at hlength
      exact List.eq_nil_of_length_eq_zero (by omega)
    exact g.objection
  · rw [List.append_cancel_left hsplit]
    exact hlane.objection

theorem way_names (g : Ground) : g.Way g.names := Or.inl (List.prefix_refl _)

theorem Seat.exists_concat (h : g.Seat names) : ∃ init t, names = init ++ [t] ∧ g.Way init := by
  obtain ⟨inner, last, rfl, hinner, hlast, -, hobjection⟩ := h
  refine ⟨g.names ++ inner, last, (List.append_assoc _ _ _).symm, Or.inr ⟨inner, rfl, hinner, ?_⟩⟩
  refine Disk.objection?_of_prefix (prefix_path fun t ht => ?_) hobjection
  rw [List.mem_singleton.1 ht]
  exact hlast.isName

/-- No file stands where the way to another one goes on. -/
theorem Seat.not_way (h : g.Seat names) : ¬g.Way names := by
  intro hway
  obtain ⟨inner, last, rfl, -, -, hlast, -⟩ := h
  rcases hway with habove | ⟨inner', hsplit, hlane⟩
  · have hlength := habove.length_le
    simp only [List.length_append, List.length_singleton] at hlength
    omega
  · -- The last name of the file would be that of a directory.
    rw [List.append_cancel_left_eq] at hsplit
    refine hlast (hlane.marked last ?_).2
    rw [← hsplit]
    exact List.mem_append_right _ List.mem_cons_self

/-- What stands before the last name of a seat is a way to a directory. -/
theorem Seat.way (h : g.Seat (init ++ rest)) (hrest : rest ≠ []) : g.Way init := by
  obtain ⟨front, t, hsplit, hway⟩ := h.exists_concat
  obtain ⟨more, last, rfl⟩ := (List.eq_nil_or_concat' rest).resolve_left hrest
  rw [← List.append_assoc] at hsplit
  rw [← (List.append_inj' hsplit rfl).1] at hway
  exact hway.before

theorem spelling_path_ne (hrest : ∀ t ∈ rest, IsName t) : (g.path rest).spelling ≠ [] := by
  intro hnil
  have hprefix : (g.path []).spelling <+: (g.path ([] ++ rest)).spelling := prefix_path hrest
  rw [List.nil_append, hnil] at hprefix
  exact g.stated (List.prefix_nil.1 hprefix)

theorem endsInName_path (hrest : ∀ u ∈ rest ++ [t], IsName u) : (g.path (rest ++ [t])).EndsInName := by
  have ht := hrest t (List.mem_append_right _ List.mem_cons_self)
  rw [path_concat]
  have hlast := Path.lastPiece_join (g.path rest) ht
  have hpieces := List.dropLast_append_getLast (List.splitOn_ne_nil '/' ((g.path rest).join t).spelling)
  exact ⟨_, _, hpieces.symm, (show IsName ((g.path rest).join t).lastPiece from hlast.symm ▸ ht)⟩

/-- The path made of the names of a seat spells it. -/
theorem Seat.spells (h : g.Seat (g.names ++ (rest ++ [t]))) :
    g.Spells (g.path (rest ++ [t])) (g.names ++ (rest ++ [t])) := by
  have hnames : ∀ u ∈ rest ++ [t], IsName u := fun u hu => h.isName u (List.mem_append_right _ hu)
  exact ⟨components_path hnames, h.objection, endsInName_path hnames⟩

theorem Way.spells (h : g.Way (g.names ++ (rest ++ [t]))) :
    g.Spells (g.path (rest ++ [t])) (g.names ++ (rest ++ [t])) := by
  have hnames : ∀ u ∈ rest ++ [t], IsName u := fun u hu => h.isName u (List.mem_append_right _ hu)
  exact ⟨components_path hnames, h.objection, endsInName_path hnames⟩

theorem head?_place (g : Ground) (names : List Name) :
    (g.place names).head? = some .root ↔ g.anchor = some .root := by
  unfold place
  rcases g.anchored with h | h | h <;> rw [h]
  · cases names with
    | nil => exact ⟨nofun, nofun⟩
    | cons t names => exact ⟨nofun, nofun⟩
  · exact ⟨fun _ => rfl, fun _ => rfl⟩
  · exact ⟨nofun, nofun⟩

/-- All paths of a ground start at one directory. -/
theorem origin_eq_start {p : Path} (h : p.components = g.place names) : Disk.origin p = g.start := by
  rw [Disk.origin_eq, h]
  unfold start
  simp only [head?_place]

end Ground

namespace Disk

variable {d d' : Disk} {g : Ground} {p : Path} {names rest init : List Name} {t : Name}
  {k j n : Nat}

def descend (d : Disk) (k : Nat) (names : List Name) : Except SystemError Nat :=
  (names.map Component.name).foldlM d.follow k

def numberAt? (d : Disk) (k : Nat) (names : List Name) : Option Nat :=
  match d.descend k names.dropLast, names.getLast? with
  | .ok j, some t =>
    match d.child j t with
    | .ok (.file n) => some n
    | _ => none
  | _, _ => none

theorem descend_nil (d : Disk) (k : Nat) : d.descend k [] = .ok k := rfl

/-- Going down a way is going down one part of it and then the other. -/
theorem descend_append (d : Disk) (k : Nat) (names rest : List Name) :
    d.descend k (names ++ rest) = d.descend k names >>= fun j => d.descend j rest := by
  unfold descend
  rw [List.map_append, List.foldlM_append]

theorem descend_concat_ok (h : d.descend k names = .ok j) (t : Name) :
    d.descend k (names ++ [t]) = d.enter j t := by
  rw [descend_append, bind_of_ok h]
  show (d.enter j t >>= pure) = d.enter j t
  exact bind_pure _

theorem descend_append_error {e : SystemError} (h : d.descend k names = .error e) (rest : List Name) :
    d.descend k (names ++ rest) = .error e := by
  rw [descend_append, h]
  rfl

theorem enter_of_directory (ht : IsName t) (h : d.child j t = .ok (.directory n)) :
    d.enter j t = .ok n := by
  unfold enter
  rw [ht.ofPiece?]
  exact bind_of_ok h

theorem enter_of_error {e : SystemError} (ht : IsName t) (h : d.child j t = .error e) :
    d.enter j t = .error e := by
  unfold enter
  rw [ht.ofPiece?]
  show d.child j t >>= _ = _
  rw [h]
  rfl

theorem exists_of_descend_concat (ht : IsName t) (h : d.descend k (init ++ [t]) = .ok n) :
    ∃ j, d.descend k init = .ok j ∧ d.child j t = .ok (.directory n) := by
  cases hinit : d.descend k init with
  | error e =>
    rw [descend_append_error hinit] at h
    cases h
  | ok j =>
    rw [descend_concat_ok hinit] at h
    exact ⟨j, rfl, enter_name_ok ht.ofPiece? h⟩

/-- Following the steps of a path of names is going down by the names. -/
theorem foldlM_place (d : Disk) (g : Ground) (names : List Name) (k : Nat) :
    (g.place names).foldlM d.follow k = d.descend k names := by
  unfold Ground.place descend
  rcases g.anchored with h | h | h <;> rw [h] <;> rfl

theorem numberAt?_concat_ok (h : d.descend k init = .ok j) :
    d.numberAt? k (init ++ [t]) = some n ↔ d.child j t = .ok (.file n) := by
  unfold numberAt?
  rw [List.dropLast_concat, List.getLast?_concat, h]
  dsimp only
  split
  next m hchild =>
    rw [hchild]
    constructor
    · rintro ⟨⟩
      rfl
    · intro h
      cases h
      rfl
  next hchild => exact ⟨nofun, fun h => absurd h (hchild n)⟩

/-- A file that names lead to lies in the directory that all but the last of them lead to. -/
theorem exists_of_numberAt? (h : d.numberAt? k (init ++ [t]) = some n) :
    ∃ j, d.descend k init = .ok j ∧ d.child j t = .ok (.file n) := by
  cases hinit : d.descend k init with
  | error e =>
    unfold numberAt? at h
    rw [List.dropLast_concat, hinit] at h
    cases h
  | ok j => exact ⟨j, rfl, (numberAt?_concat_ok hinit).1 h⟩

theorem follow_congr (h : d'.directories = d.directories) : d'.follow = d.follow := by
  funext dir c
  cases c <;> simp only [follow, enter, child, directory_of_eq h]

/-- Where a file is does not depend on what it holds. -/
theorem numberAt?_congr (h : d'.directories = d.directories) : d'.numberAt? = d.numberAt? := by
  funext k names
  simp only [numberAt?, descend, follow_congr h, child, directory_of_eq h]

/-- A path of names is looked up where those before the last one lead. -/
theorem locate_of_spells (h : g.Spells p (init ++ [t])) :
    d.locate p = d.descend g.start init >>= fun j => .ok (.name j t false) := by
  obtain ⟨hsteps, hobjection, front, last, hpieces, hlast⟩ := h
  have hfilter : p.pieces.filter (· ≠ []) = front.filter (· ≠ []) ++ [last] := by
    rw [hpieces, List.filter_append]
    simp [hlast.ne_nil]
  have hsteps' : p.components =
      (p.anchor?.toList ++ front.filterMap Component.ofPiece?) ++ [.name last] := by
    unfold Path.components
    rw [hpieces, List.filterMap_append, List.append_assoc]
    simp [hlast.ofPiece?]
  have horigin := Ground.origin_eq_start hsteps
  rw [Ground.place_concat] at hsteps
  obtain ⟨hfront, hname⟩ := List.append_inj' (hsteps.symm.trans hsteps') rfl
  obtain rfl : t = last := by simpa using hname
  have hreach : (front.filter (· ≠ [])).foldlM d.enter g.start = d.descend g.start init := by
    rw [foldlM_enter, filterMap_filter, ← foldlM_place, hfront]
    exact (foldlM_anchor _ _).symm
  have hslash : p.spelling.getLast? ≠ some '/' := by
    intro hsep
    obtain ⟨xs, hxs⟩ := List.getLast?_eq_some_iff.1 hsep
    have hend := congrArg List.getLast? hpieces
    rw [Path.pieces, hxs, List.splitOn_append_cons_self, List.getLast?_concat] at hend
    simp only [List.splitOn_nil, List.getLast?_append, List.getLast?_singleton, Option.some_or,
      Option.some.injEq] at hend
    exact hlast.ne_nil hend.symm
  rw [locate_concat hobjection hfilter, horigin, hreach]
  unfold target
  rw [hlast.ofPiece?]
  simp only [hslash, decide_false]

end Disk

namespace Ground

open Disk

structure Houses (g : Ground) (d : Disk) : Prop where
  tree : d.Tree
  entry {k : Nat} {t : Name} {e : Entry} : (d.directory k).entries.get? t = some e →
    ∃ names, d.descend g.start names = .ok k ∧
      match e with
      | .file _ => g.Seat (names ++ [t])
      | .directory _ => g.Way (names ++ [t])

variable {g : Ground} {d d' : Disk} {p : Path} {names names' init : List Name} {t : Name} {k n : Nat}

theorem houses_default (g : Ground) : g.Houses default where
  tree := .default
  entry {k t e} h := by
    have hnone : ((default : Disk).directory k).entries.get? t = none := by
      match k with
      | 0 => rfl
      | 1 => rfl
      | k + 2 => rfl
    rw [hnone] at h
    cases h

theorem start_lt (g : Ground) (h : d.Sound) : g.start < d.directories.size := by
  have htwo := h.two_le
  unfold start
  split <;> omega

/-- Names that lead to the same directory are the same. -/
theorem Houses.names_unique (h : g.Houses d) (hnames : ∀ t ∈ names, IsName t)
    (hnames' : ∀ t ∈ names', IsName t) (hk : d.descend g.start names = .ok k)
    (hk' : d.descend g.start names' = .ok k) : names = names' := by
  have hplace := h.tree.place_of_follow hnames hk
  rw [h.tree.place_of_follow hnames' hk'] at hplace
  exact (List.append_cancel_left hplace).symm

/-- On the way to a file there are directories or nothing. -/
theorem Houses.descend_way (h : g.Houses d) (hway : g.Way names) :
    (∃ k, d.descend g.start names = .ok k) ∨ d.descend g.start names = .error .noSuchFile := by
  induction names using List.reverseRecOn with
  | nil => exact Or.inl ⟨g.start, rfl⟩
  | append_singleton init t ih =>
    have ht := hway.usable t (List.mem_append_right _ List.mem_cons_self)
    rcases ih hway.before with ⟨j, hj⟩ | hmissing
    · rw [descend_concat_ok hj]
      cases hget : (d.directory j).entries.get? t with
      | none => exact Or.inr (enter_of_error ht.isName (child_eq_missing_iff.2 ⟨ht.short, hget⟩))
      | some e =>
        have hchild := child_eq_ok_iff.2 ⟨ht.short, hget⟩
        cases e with
        | directory m => exact Or.inl ⟨m, enter_of_directory ht.isName hchild⟩
        | file m =>
          -- The file would lie where the way goes on.
          obtain ⟨names', hnames', hseat⟩ := h.entry hget
          have hbefore := hseat.way (List.cons_ne_nil _ _)
          have hsame := h.names_unique hbefore.isName hway.before.isName hnames' hj
          exact absurd hway (hsame ▸ hseat.not_way)
    · exact Or.inr (descend_append_error hmissing _)

/-- Where the way to a file ends, there is the file or nothing. -/
theorem Houses.child_seat (h : g.Houses d) (hseat : g.Seat (init ++ [t]))
    (hk : d.descend g.start init = .ok k) :
    d.child k t = .error .noSuchFile ∨ ∃ n, d.child k t = .ok (.file n) := by
  have ht := hseat.usable t (List.mem_append_right _ List.mem_cons_self)
  cases hget : (d.directory k).entries.get? t with
  | none => exact Or.inl (child_eq_missing_iff.2 ⟨ht.short, hget⟩)
  | some e =>
    have hchild := child_eq_ok_iff.2 ⟨ht.short, hget⟩
    cases e with
    | file m => exact Or.inr ⟨m, hchild⟩
    | directory m =>
      obtain ⟨names', hnames', hway⟩ := h.entry hget
      have hbefore := hseat.way (List.cons_ne_nil _ _)
      have hsame := h.names_unique hway.before.isName hbefore.isName hnames' hk
      exact absurd hway (hsame ▸ hseat.not_way)

inductive Site (g : Ground) (d : Disk) (p : Path) (names : List Name) : Prop
  /-- Not even all directories are there. -/
  | cut : d.locate p = .error .noSuchFile → d.numberAt? g.start names = none → Site g d p names
  | free {init : List Name} {k : Nat} {t : Name} : names = init ++ [t] →
      d.descend g.start init = .ok k → d.locate p = .ok (.name k t false) →
      d.child k t = .error .noSuchFile → d.numberAt? g.start names = none → Site g d p names
  | taken {init : List Name} {k n : Nat} {t : Name} : names = init ++ [t] →
      d.descend g.start init = .ok k → d.locate p = .ok (.name k t false) →
      d.child k t = .ok (.file n) → d.numberAt? g.start names = some n → Site g d p names

theorem Houses.site (h : g.Houses d) (hseat : g.Seat names) (hp : g.Spells p names) :
    g.Site d p names := by
  obtain ⟨init, t, rfl, hway⟩ := hseat.exists_concat
  have hlocate := locate_of_spells (d := d) hp
  rcases h.descend_way hway with ⟨k, hk⟩ | hmissing
  · rw [bind_of_ok hk] at hlocate
    rcases h.child_seat hseat hk with hfree | ⟨n, hfile⟩
    · refine .free rfl hk hlocate hfree ?_
      rw [Option.eq_none_iff_forall_ne_some]
      intro n hn
      rw [(numberAt?_concat_ok hk).1 hn] at hfree
      cases hfree
    · exact .taken rfl hk hlocate hfile ((numberAt?_concat_ok hk).2 hfile)
  · rw [hmissing] at hlocate
    refine .cut hlocate ?_
    rw [Option.eq_none_iff_forall_ne_some]
    intro n hn
    obtain ⟨j, hj, -⟩ := exists_of_numberAt? hn
    rw [hj] at hmissing
    cases hmissing

/-- A content belongs to one file. -/
theorem Houses.number_unique (h : g.Houses d) (hseat : g.Seat names) (hseat' : g.Seat names')
    (hn : d.numberAt? g.start names = some n) (hn' : d.numberAt? g.start names' = some n) :
    names = names' := by
  obtain ⟨init, t, rfl, hway⟩ := hseat.exists_concat
  obtain ⟨init', t', rfl, hway'⟩ := hseat'.exists_concat
  obtain ⟨k, hk, hchild⟩ := exists_of_numberAt? hn
  obtain ⟨k', hk', hchild'⟩ := exists_of_numberAt? hn'
  obtain ⟨rfl, rfl⟩ := h.tree.content_inj (child_eq_ok_iff.1 hchild).2 (child_eq_ok_iff.1 hchild').2
  rw [h.names_unique hway.isName hway'.isName hk hk']

theorem Houses.number_lt (h : g.Houses d) (hn : d.numberAt? g.start names = some n) :
    n < d.contents.length := by
  cases names using List.reverseRecOn with
  | nil => cases hn
  | append_singleton init t =>
    obtain ⟨k, -, hchild⟩ := exists_of_numberAt? hn
    exact h.tree.content_lt (child_eq_ok_iff.1 hchild).2

/-- Contents and writers come and go without moving anything. -/
theorem Houses.contents (h : g.Houses d) (hsame : d'.directories = d.directories)
    (hlength : d.contents.length ≤ d'.contents.length) : g.Houses d' := by
  refine ⟨h.tree.contents hsame hlength, fun {k t e} hget => ?_⟩
  rw [directory_of_eq hsame] at hget
  obtain ⟨names, hnames, he⟩ := h.entry hget
  refine ⟨names, ?_, he⟩
  unfold descend at hnames ⊢
  rwa [follow_congr hsame]

end Ground

end LargeObjects

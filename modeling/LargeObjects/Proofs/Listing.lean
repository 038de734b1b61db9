import Mathlib
import LargeObjects.Proofs.Twins

/-! What two stores with the same files list. Both give the names in the same order, but a file system
also keeps directories that have lost all their files, while in memory such a directory is gone. -/
namespace LargeObjects

open Step
open scoped Classical

namespace MemoryStore

variable {s : MemoryStore}

theorem withoutRepeats_sublist (steps : List Component) : (withoutRepeats steps).Sublist steps := by
  induction steps using withoutRepeats.induct with
  | case1 a rest ih =>
    rw [withoutRepeats, if_pos rfl]
    exact ih.trans (List.sublist_cons_self a _)
  | case2 a b rest hne ih =>
    rw [withoutRepeats, if_neg hne]
    exact ih.cons_cons a
  | case3 steps hshort =>
    rw [withoutRepeats.eq_def]
    rcases steps with _ | ⟨a, _ | ⟨b, rest⟩⟩
    · exact List.Sublist.refl _
    · exact List.Sublist.refl _
    · exact absurd rfl (hshort a b rest)

theorem sorted_children (s : MemoryStore) (dir : Path) :
    (s.children dir).Pairwise fun a b => compare a b = .lt := by
  have hsorted := (isLE_firstSteps s dir).sublist (withoutRepeats_sublist _)
  refine (hsorted.and (s.nodup_children dir)).imp fun {a b} h => ?_
  cases hcompare : compare a b with
  | lt => rfl
  | eq => exact absurd (Std.LawfulEqOrd.eq_of_compare hcompare) h.2
  | gt =>
    have hle := h.1
    rw [hcompare] at hle
    cases hle

end MemoryStore

namespace Disk

variable {d : Disk} {p : Path} {k : Nat} {names : List Name}

theorem status_missing (hobjection : objection? p = none) (h : d.reach p = .error .noSuchFile) :
    d.status p = .error .noSuchFile := by
  rw [reach_eq] at h
  unfold status
  rcases List.eq_nil_or_concat (p.pieces.filter (· ≠ [])) with hnil | ⟨init, last, hpieces⟩
  · rw [hnil] at h
    cases h
  rw [List.concat_eq_append] at hpieces
  rw [hpieces, List.foldlM_append] at h
  have hlocate := locate_concat (d := d) hobjection hpieces
  cases hinit : init.foldlM d.enter (origin p) with
  | error e =>
    rw [hinit] at h hlocate
    cases h
    rw [hlocate]
    rfl
  | ok m =>
    rw [bind_of_ok hinit] at h hlocate
    rw [bind_of_ok hlocate]
    have hlast : d.enter m last = .error .noSuchFile := by
      cases henter : d.enter m last with
      | error e =>
        rw [List.foldlM_cons, henter] at h
        cases h
        rfl
      | ok j =>
        rw [List.foldlM_cons, henter] at h
        cases h
    -- The last step is missing, so it is a name.
    unfold enter at hlast
    unfold target
    cases hpiece : Component.ofPiece? last with
    | none =>
      rw [hpiece] at hlast
      cases hlast
    | some c =>
      rw [hpiece] at hlast
      cases c with
      | root | current | parent => cases hlast
      | name name =>
        dsimp only at hlast ⊢
        cases hchild : d.child m name with
        | error e =>
          rw [hchild] at hlast
          cases hlast
          rfl
        | ok entry =>
          rw [hchild] at hlast
          cases entry <;> cases hlast

def namesIn (d : Disk) (k : Nat) (names : List Name) : List Name :=
  match d.descend k names with
  | .ok j => (d.directory j).entries.keys
  | .error _ => []

end Disk

namespace Ground

open Disk

def Bears (g : Ground) (d : Disk) (names : List Name) : Prop :=
  ∃ rest n, g.Seat (names ++ rest) ∧ d.numberAt? g.start (names ++ rest) = some n

variable {g : Ground} {d : Disk} {s : MemoryStore} {dir p : Path} {names : List Name} {t : Name}
  {j : Nat}

/-- What a directory holds are files and directories on the way to them. -/
theorem Houses.entry_cases (h : g.Houses d) (hnames : ∀ u ∈ names, IsName u)
    (ht : t ∈ d.namesIn g.start names) :
    (g.Seat (names ++ [t]) ∧ ∃ n, d.numberAt? g.start (names ++ [t]) = some n) ∨
      g.Way (names ++ [t]) ∧ ∃ m, d.descend g.start (names ++ [t]) = .ok m := by
  unfold namesIn at ht
  cases hj : d.descend g.start names with
  | error e =>
    rw [hj] at ht
    cases ht
  | ok j =>
    rw [hj] at ht
    obtain ⟨e, hget⟩ := Option.isSome_iff_exists.1 (SortedMap.mem_keys_iff.1 ht)
    obtain ⟨names', hnames', he⟩ := h.entry hget
    have hsame : (∀ u ∈ names', IsName u) → names' = names := fun hnames'' =>
      h.names_unique hnames'' hnames hnames' hj
    cases e with
    | file n =>
      dsimp only at he
      rw [hsame (he.way (List.cons_ne_nil _ _)).isName] at he
      have ht := he.usable t (List.mem_append_right _ List.mem_cons_self)
      exact Or.inl ⟨he, n, (numberAt?_concat_ok hj).2 (child_eq_ok_iff.2 ⟨ht.short, hget⟩)⟩
    | directory m =>
      dsimp only at he
      rw [hsame he.before.isName] at he
      have ht := he.usable t (List.mem_append_right _ List.mem_cons_self)
      refine Or.inr ⟨he, m, ?_⟩
      rw [descend_concat_ok hj]
      exact enter_of_directory ht.isName (child_eq_ok_iff.2 ⟨ht.short, hget⟩)

/-- A name with a file at it or below is listed. -/
theorem Bears.mem_namesIn (h : g.Bears d (names ++ [t])) : t ∈ d.namesIn g.start names := by
  obtain ⟨rest, n, hseat, hnumber⟩ := h
  have ht := hseat.usable t (List.mem_append_left _ (List.mem_append_right _ List.mem_cons_self))
  obtain ⟨j, e, hj, hget⟩ : ∃ j e, d.descend g.start names = .ok j ∧
      (d.directory j).entries.get? t = some e := by
    rcases List.eq_nil_or_concat' rest with rfl | ⟨init, last, rfl⟩
    · rw [List.append_nil] at hnumber
      obtain ⟨j, hj, hchild⟩ := exists_of_numberAt? hnumber
      exact ⟨j, _, hj, (child_eq_ok_iff.1 hchild).2⟩
    · rw [← List.append_assoc] at hnumber
      obtain ⟨i, hi, -⟩ := exists_of_numberAt? hnumber
      cases hdown : d.descend g.start (names ++ [t]) with
      | error e =>
        rw [descend_append_error hdown] at hi
        cases hi
      | ok k =>
        obtain ⟨j, hj, hchild⟩ := exists_of_descend_concat ht.isName hdown
        exact ⟨j, _, hj, (child_eq_ok_iff.1 hchild).2⟩
  unfold namesIn
  rw [hj]
  exact SortedMap.mem_keys_iff.2 (Option.isSome_iff_exists.2 ⟨e, hget⟩)

theorem sorted_namesIn (d : Disk) (k : Nat) (names : List Name) :
    (d.namesIn k names).Pairwise fun a b => compare a b = .lt := by
  unfold namesIn
  split
  · exact List.pairwise_map.2 (SortedMap.sorted _)
  · exact List.Pairwise.nil

theorem reach_of_steps (hsteps : p.components = g.place names) :
    d.reach p = d.descend g.start names := by
  unfold reach
  rw [hsteps, origin_eq_start hsteps, foldlM_place]

/-- A path to a directory on the way to files leads there, or the directory is missing. -/
theorem Houses.list_eq (h : g.Houses d) (hsteps : dir.components = g.place names)
    (hobjection : objection? dir = none) (hne : dir.spelling ≠ []) (hway : g.Way names) :
    FileStore.list dir d = .ok ((d.namesIn g.start names).map dir.join) d := by
  have hreach := reach_of_steps (d := d) hsteps
  unfold namesIn
  rcases h.descend_way hway with ⟨k, hk⟩ | hmissing
  · rw [hk] at hreach ⊢
    exact list_of_status (status_of_reach hobjection hne hreach)
  · rw [hmissing] at hreach ⊢
    simp only [FileStore.list, status_missing hobjection hreach]
    rfl

theorem mem_children_twins (h : Twins g s d) (hsteps : dir.components = g.place names) {c : Component} :
    c ∈ s.children dir ↔ ∃ t, c = .name t ∧ g.Bears d (names ++ [t]) := by
  rw [MemoryStore.mem_children_iff, hsteps]
  constructor
  · intro hfound
    obtain ⟨rest, hfile⟩ := hfound
    obtain ⟨e, hmem, hplace⟩ := List.mem_map.1 (MemoryStore.isSome_at?.1 hfile)
    obtain ⟨names', hseat, hspells⟩ := h.spelled e hmem
    rw [← hplace, ← s.spelled e hmem, hspells.components_eq] at hfile
    have hsame := hplace.symm.trans ((s.spelled e hmem).symm.trans hspells.components_eq)
    unfold place at hsame
    rw [List.append_assoc, List.append_cancel_left_eq] at hsame
    obtain ⟨front, back, rfl, hfront, hback⟩ := List.map_eq_append_iff.1 hsame.symm
    obtain ⟨t, more, rfl, rfl, -⟩ := List.map_eq_cons_iff.1 hback
    have hnames : front = names := List.map_injective_iff.2 (fun _ _ h => Component.name.inj h) hfront
    rw [hnames] at hseat hfile
    rw [h.same hseat, Option.isSome_map, Option.isSome_iff_exists] at hfile
    obtain ⟨n, hn⟩ := hfile
    refine ⟨t, rfl, more, n, ?_, ?_⟩
    · rwa [List.append_assoc]
    · rwa [List.append_assoc]
  · intro hfound
    obtain ⟨t, rfl, rest, n, hseat, hn⟩ := hfound
    refine ⟨rest.map .name, ?_⟩
    have hat := h.same hseat
    rw [hn, place_append, place_concat, List.append_assoc] at hat
    rw [show g.place names ++ Component.name t :: rest.map .name =
      g.place names ++ ([Component.name t] ++ rest.map .name) from rfl, hat]
    rfl

/-- In memory only what has a file at it or below is listed. -/
theorem children_twins (h : Twins g s d) (hsteps : dir.components = g.place names) :
    s.children dir =
      ((d.namesIn g.start names).filter fun t => g.Bears d (names ++ [t])).map .name := by
  have hsorted : (((d.namesIn g.start names).filter fun t => g.Bears d (names ++ [t])).map
      Component.name).Pairwise fun a b => compare a b = .lt :=
    List.pairwise_map.2 ((sorted_namesIn d g.start names).filter _)
  have hirrefl : ∀ {c : Component}, compare c c ≠ .lt := fun {c} h => by
    rw [Std.ReflOrd.compare_self] at h
    cases h
  have hnodup := hsorted.imp fun {a b} (h : compare a b = .lt) (hab : a = b) => hirrefl (hab ▸ h)
  refine ((List.perm_ext_iff_of_nodup (s.nodup_children dir) hnodup).2 fun c => ?_).eq_of_pairwise
    (fun a b _ _ hab hba => ?_) (s.sorted_children dir) hsorted
  · rw [mem_children_twins h hsteps, List.mem_map]
    constructor
    · intro hc
      obtain ⟨t, rfl, hbears⟩ := hc
      exact ⟨t, List.mem_filter.2 ⟨hbears.mem_namesIn, decide_eq_true hbears⟩, rfl⟩
    · intro hc
      obtain ⟨t, ht, rfl⟩ := hc
      exact ⟨t, rfl, of_decide_eq_true (List.mem_filter.1 ht).2⟩
  · exact absurd (Std.TransCmp.lt_trans hab hba) hirrefl

theorem list_twins (h : Twins g s d) (hsteps : dir.components = g.place names) :
    FileStore.list dir s = .ok
      (((d.namesIn g.start names).filter fun t => g.Bears d (names ++ [t])).map dir.join) s := by
  show EStateM.Result.ok ((s.children dir).map fun c => dir.join c.text) s = _
  rw [children_twins h hsteps, List.map_map]
  rfl

theorem isDirectory_of_descend {m : Nat} (hp : g.Spells p names)
    (hm : d.descend g.start names = .ok m) : d.isDirectory p = true := by
  have hne : p.spelling ≠ [] := by
    obtain ⟨front, t, hpieces, ht⟩ := hp.ends
    intro hnil
    rw [Path.pieces, hnil, List.splitOn_nil] at hpieces
    have hsplit : [] ++ [[]] = front ++ [t] := hpieces
    obtain ⟨-, hlast⟩ := List.append_inj' hsplit rfl
    exact ht.ne_nil (List.cons.inj hlast).1.symm
  have hreach := (reach_of_steps (d := d) hp.components_eq).trans hm
  exact isDirectory_iff.2 ⟨m, status_of_reach hp.objection hne hreach⟩

theorem isDirectory_twins (h : Twins g s d) (hp : g.Spells p names) :
    s.isDirectory p = true ↔ ∃ t, g.Bears d (names ++ [t]) := by
  have hchildren : s.isDirectory p = true ↔ ∃ c, c ∈ s.children p := by
    rw [MemoryStore.isDirectory_iff]
    simp only [MemoryStore.mem_children_iff]
  rw [hchildren]
  simp only [mem_children_twins h hp.components_eq]
  constructor
  · intro hfound
    obtain ⟨-, t, rfl, hbears⟩ := hfound
    exact ⟨t, hbears⟩
  · intro hfound
    obtain ⟨t, hbears⟩ := hfound
    exact ⟨_, t, rfl, hbears⟩

/-- Of what a directory holds, what has a file at it or below is a directory for both stores or for
none. -/
theorem isDirectory_eq (h : Twins g s d) (hnames : ∀ u ∈ names, IsName u)
    (ht : t ∈ d.namesIn g.start names) (hbears : g.Bears d (names ++ [t]))
    (hp : g.Spells p (names ++ [t])) : FileStore.isDirectory p s = FileStore.isDirectory p d := by
  show s.isDirectory p = d.isDirectory p
  rcases h.houses.entry_cases hnames ht with ⟨hseat, n, hn⟩ | ⟨hway, m, hm⟩
  · rw [h.houses.isDirectory_of_seat hseat hp, Bool.eq_false_iff, Ne, isDirectory_twins h hp]
    -- A file below would have this one on its way.
    intro hbelow
    obtain ⟨u, rest, n', hseat', -⟩ := hbelow
    rw [List.append_assoc] at hseat'
    exact hseat.not_way (hseat'.way (List.append_ne_nil_of_left_ne_nil (List.cons_ne_nil _ _) _))
  · rw [isDirectory_of_descend hp hm, isDirectory_twins h hp]
    obtain ⟨rest, n, hseat, hn⟩ := hbears
    cases rest with
    | nil =>
      rw [List.append_nil] at hseat
      exact absurd hway hseat.not_way
    | cons u rest =>
      refine ⟨u, rest, n, ?_, ?_⟩
      · rwa [List.append_assoc]
      · rwa [List.append_assoc]

end Ground

/-- Every directory of a tree, but for the root of the tree, has a file in it or below. -/
def Disk.Populated (d : Disk) (root : Path) : Prop :=
  ∀ r, d.status root = .ok (.directory r) → ∀ k < d.directories.size, k ≠ r →
    (d.directory r).place <+: (d.directory k).place →
    ∃ j t n, (d.directory k).place <+: (d.directory j).place ∧
      (d.directory j).entries.get? t = some (.file n)

namespace Ground

open Disk

variable {g : Ground} {d : Disk} {s : MemoryStore} {dir root : Path} {names more : List Name} {t : Name}

/-- In a populated tree all that is listed has a file at it or below. -/
theorem Houses.bears_of_populated (h : g.Houses d) (hpopulated : d.Populated root)
    (hsteps : root.components = g.place names) (hobjection : objection? root = none)
    (hne : root.spelling ≠ []) (hnames : ∀ u ∈ names ++ more, IsName u)
    (ht : t ∈ d.namesIn g.start (names ++ more)) : g.Bears d (names ++ more ++ [t]) := by
  rcases h.entry_cases hnames ht with ⟨hseat, n, hn⟩ | ⟨hway, m, hm⟩
  · refine ⟨[], n, ?_, ?_⟩
    · rwa [List.append_nil]
    · rwa [List.append_nil]
  have hnames' : ∀ u ∈ names ++ more ++ [t], IsName u := hway.isName
  cases hr : d.descend g.start names with
  | error e =>
    rw [List.append_assoc, descend_append_error hr] at hm
    cases hm
  | ok r =>
    have hstatus := status_of_reach hobjection hne ((reach_of_steps (d := d) hsteps).trans hr)
    have hplace := h.tree.place_of_follow (fun u hu => hnames u (List.mem_append_left _ hu)) hr
    have hplace' := h.tree.place_of_follow hnames' hm
    have hbelow : (d.directory r).place <+: (d.directory m).place := by
      rw [hplace, hplace', List.append_assoc]
      exact (List.prefix_append_right_inj _).2 (List.prefix_append _ _)
    have hmr : m ≠ r := by
      rintro rfl
      rw [hplace, List.append_cancel_left_eq, List.append_assoc] at hplace'
      have hlength := congrArg List.length hplace'
      simp only [List.length_append, List.length_singleton] at hlength
      omega
    have hlt := h.tree.sound.foldlM_follow_lt (g.start_lt h.tree.sound) hm
    obtain ⟨j, t', n, hprefix, hget⟩ := hpopulated r hstatus m hlt hmr hbelow
    obtain ⟨names', hj, hseat⟩ := h.entry hget
    have hplace'' := h.tree.place_of_follow (hseat.way (List.cons_ne_nil _ _)).isName hj
    rw [hplace', hplace'', List.prefix_append_right_inj] at hprefix
    obtain ⟨rest, rfl⟩ := hprefix
    have hshort := (hseat.usable t' (List.mem_append_right _ List.mem_cons_self)).short
    refine ⟨rest ++ [t'], n, ?_, ?_⟩
    · rwa [← List.append_assoc]
    · rw [← List.append_assoc]
      exact (numberAt?_concat_ok hj).2 (child_eq_ok_iff.2 ⟨hshort, hget⟩)

/-- There both stores list the same. -/
theorem list_of_populated (h : Twins g s d) (hpopulated : d.Populated root)
    (hsteps : root.components = g.place names) (hobjection : objection? root = none)
    (hne : root.spelling ≠ []) (hway : g.Way (names ++ more))
    (hdir : dir.components = g.place (names ++ more)) (hobjection' : objection? dir = none)
    (hne' : dir.spelling ≠ []) :
    ∃ entries, FileStore.list dir s = .ok entries s ∧ FileStore.list dir d = .ok entries d := by
  have hnames : ∀ u ∈ names ++ more, IsName u := hway.isName
  have hall : (d.namesIn g.start (names ++ more)).filter (fun t => g.Bears d (names ++ more ++ [t])) =
      d.namesIn g.start (names ++ more) := List.filter_eq_self.2 fun t ht =>
    decide_eq_true (h.houses.bears_of_populated hpopulated hsteps hobjection hne hnames ht)
  have hmemory := list_twins h hdir
  rw [hall] at hmemory
  exact ⟨_, hmemory, h.houses.list_eq hdir hobjection' hne' hway⟩

end Ground

end LargeObjects

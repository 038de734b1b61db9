import Mathlib
import LargeObjects.Proofs.Effects

/-! Stores whose directories can be walked. A directory has an entry for every step toward a file below
it, and the calls that fail are the same each time. -/
namespace LargeObjects

open ReliableStore

/-- A store that fails to list certain directories and to delete certain files, and does so each time
and without changing anything. Directories are there for the files below them only, as they are in
memory; a file system also keeps directories that are empty, and is none of these stores. -/
class BrowsableStore (σ : Type) [FileStore σ] [FallibleStore σ] where
  /-- Whether calls fail in this way only. -/
  Settled : σ → Prop
  Unlistable : σ → List Component → Prop
  Undeletable : σ → List Component → Prop
  list_refused {dir : Path} {s : σ} : Settled s → Unlistable s dir.components →
    ∃ e, FileStore.list dir s = .error e s
  list_granted {dir : Path} {s : σ} : Settled s → ¬Unlistable s dir.components →
    dir.components ≠ [] → ∃ entries, FileStore.list dir s = .ok entries s ∧
      (entries.map (·.components)).Nodup ∧ ∀ q, q ∈ entries.map (·.components) ↔
        ∃ c rest, q = dir.components ++ [c] ∧ (fileAt? (FallibleStore.below s) (q ++ rest)).isSome
  isDirectory_iff {path : Path} {s : σ} : Settled s → (FileStore.isDirectory path s = true ↔
    ∃ c rest, (fileAt? (FallibleStore.below s) (path.components ++ c :: rest)).isSome)
  exists_directories {s : σ} : Settled s → ∃ dirs : List (List Component),
    dirs.length < FileStore.directoryBound s ∧
      ∀ dir c rest, (fileAt? (FallibleStore.below s) (dir ++ c :: rest)).isSome → dir ∈ dirs
  delete_refused {path : Path} {s : σ} : Settled s → Undeletable s path.components →
    ∃ e, FileStore.delete path s = .error e s
  delete_granted {path : Path} {s : σ} : Settled s → ¬Undeletable s path.components →
    ∃ found t, FileStore.delete path s = .ok found t ∧ Settled t ∧ Undeletable t = Undeletable s

namespace Path

/-- A step is spelled as the piece that it was read from. -/
theorem text_of_ofPiece? {t : Name} {c : Component} (h : Component.ofPiece? t = some c) :
    c.text = t := by
  unfold Component.ofPiece? at h
  split at h <;> cases h <;> rfl

/-- Past the first step of a path, the text of a step stands for it. -/
theorem piece_of_mem_tail {p : Path} {c : Component} (h : c ∈ p.components.tail) :
    Component.ofPiece? c.text = some c ∧ '/' ∉ c.text := by
  have hmem : c ∈ p.pieces.filterMap Component.ofPiece? := by
    unfold components at h
    cases hanchor : p.anchor? with
    | none =>
      rw [hanchor] at h
      exact List.mem_of_mem_tail h
    | some start =>
      rw [hanchor] at h
      exact h
  obtain ⟨t, hpiece, ht⟩ := List.mem_filterMap.1 hmem
  rw [text_of_ofPiece? ht]
  exact ⟨ht, not_mem_of_mem_pieces hpiece⟩

theorem stepsBelow?_eq_some {dir place steps : List Component} :
    stepsBelow? dir place = some steps ↔ place = dir ++ steps := by
  unfold stepsBelow?
  constructor
  · intro h
    split at h
    next hprefix =>
      cases h
      exact (List.prefix_iff_eq_append.1 hprefix).symm
    next => cases h
  · rintro rfl
    rw [if_pos (List.prefix_append _ _), List.drop_left]

end Path

namespace MemoryStore

variable {s : MemoryStore} {place : List Component}

theorem isSome_at? : (s.at? place).isSome ↔ place ∈ s.files.keys := by
  rw [SortedMap.mem_keys_iff, at?, Option.isSome_map]

/-- Every place is that of a path. -/
theorem exists_path (h : place ∈ s.files.keys) : ∃ p : Path, p.components = place := by
  obtain ⟨e, hmem, rfl⟩ := List.mem_map.1 h
  exact ⟨e.2.1, s.spelled e hmem⟩

/-- The entries of a directory are the first steps toward files below it. -/
theorem mem_children_iff {dir : Path} {c : Component} :
    c ∈ s.children dir ↔ ∃ rest, (s.at? (dir.components ++ c :: rest)).isSome := by
  unfold children
  simp only [mem_withoutRepeats, List.mem_filterMap, Option.bind_eq_some_iff, isSome_at?]
  constructor
  · rintro ⟨place, hmem, steps, hsteps, hhead⟩
    obtain ⟨rest, rfl⟩ := List.head?_eq_some_iff.1 hhead
    rw [Path.stepsBelow?_eq_some] at hsteps
    exact ⟨rest, hsteps ▸ hmem⟩
  · rintro ⟨rest, hmem⟩
    exact ⟨_, hmem, c :: rest, Path.stepsBelow?_eq_some.2 rfl, rfl⟩

/-- Below a directory, an entry's text stands for its step. -/
theorem piece_of_child {dir : Path} {c : Component} (hdir : dir.components ≠ [])
    (h : c ∈ s.children dir) : Component.ofPiece? c.text = some c ∧ '/' ∉ c.text := by
  obtain ⟨rest, hfile⟩ := mem_children_iff.1 h
  obtain ⟨p, hp⟩ := exists_path (isSome_at?.1 hfile)
  obtain ⟨first, steps, hsteps⟩ := List.exists_cons_of_ne_nil hdir
  have hmem : c ∈ p.components.tail := by
    rw [hp, hsteps]
    exact List.mem_append_right _ List.mem_cons_self
  exact Path.piece_of_mem_tail hmem

/-- An entry's text leads one step further, also from the empty path, which no step comes before. -/
theorem components_join_child {dir : Path} {c : Component} (h : c ∈ s.children dir) :
    (dir.join c.text).components = dir.components ++ [c] := by
  by_cases hdir : dir.components = []
  · have hempty : dir = ⟨[]⟩ := by
      by_contra hne
      exact Path.components_ne_nil (fun hnil => hne (congrArg Path.mk hnil)) hdir
    subst hempty
    obtain ⟨rest, hfile⟩ := mem_children_iff.1 h
    obtain ⟨p, hp⟩ := exists_path (isSome_at?.1 hfile)
    cases c with
    | root | current | parent => rfl
    | name t =>
      have hmem : .name t ∈ p.components := by
        rw [hp]
        exact List.mem_cons_self
      exact Path.components_join ⟨[]⟩ (Path.isName_of_mem_components hmem)
  · obtain ⟨hpiece, hseparator⟩ := piece_of_child hdir h
    exact Path.components_join_piece dir hpiece hseparator

theorem compare_append_left (top steps steps' : List Component) :
    compare (top ++ steps) (top ++ steps') = compare steps steps' := by
  induction top with
  | nil => rfl
  | cons c top ih =>
    rw [List.cons_append, List.cons_append, List.compare_cons_cons, Std.ReflOrd.compare_self, ih]
    rfl

/-- Steps in order that do not repeat are all different. -/
theorem nodup_withoutRepeats {steps : List Component}
    (h : steps.Pairwise fun a b => (compare a b).isLE) : (withoutRepeats steps).Nodup := by
  induction steps using withoutRepeats.induct with
  | case1 a rest ih =>
    rw [withoutRepeats, if_pos rfl]
    exact ih h.of_cons
  | case2 a b rest hne ih =>
    rw [withoutRepeats, if_neg hne]
    refine List.nodup_cons.2 ⟨fun hmem => ?_, ih h.of_cons⟩
    rw [mem_withoutRepeats] at hmem
    obtain ⟨hfirst, hrest⟩ := List.pairwise_cons.1 h
    rcases List.mem_cons.1 hmem with rfl | hmem
    · exact hne rfl
    · -- The step would come again after a greater one.
      have hback := (List.pairwise_cons.1 hrest).1 a hmem
      have hforth := hfirst b List.mem_cons_self
      exact hne (Std.LawfulEqOrd.eq_of_compare (Std.OrientedCmp.isLE_antisymm hforth hback))
  | case3 steps hshort =>
    rw [withoutRepeats.eq_def]
    rcases steps with _ | ⟨a, _ | ⟨b, rest⟩⟩
    · exact List.nodup_nil
    · exact List.nodup_singleton a
    · exact absurd rfl (hshort a b rest)

/-- Below one directory, places come in the order of the first steps toward them. -/
theorem isLE_firstSteps (s : MemoryStore) (dir : Path) :
    (s.files.keys.filterMap fun place => (Path.stepsBelow? dir.components place).bind
      List.head?).Pairwise fun a b => (compare a b).isLE := by
  have hkeys : s.files.keys.Pairwise fun a b => compare a b = .lt :=
    List.pairwise_map.2 s.files.sorted
  refine hkeys.filterMap _ ?_
  intro place place' hlt c hc c' hc'
  obtain ⟨steps, hsteps, hhead⟩ := Option.bind_eq_some_iff.1 hc
  obtain ⟨steps', hsteps', hhead'⟩ := Option.bind_eq_some_iff.1 hc'
  obtain ⟨rest, rfl⟩ := List.head?_eq_some_iff.1 hhead
  obtain ⟨rest', rfl⟩ := List.head?_eq_some_iff.1 hhead'
  rw [Path.stepsBelow?_eq_some] at hsteps hsteps'
  rw [hsteps, hsteps', compare_append_left, List.compare_cons_cons] at hlt
  cases hcompare : compare c c' with
  | gt =>
    rw [hcompare] at hlt
    cases hlt
  | lt => rfl
  | eq => rfl

theorem nodup_children (s : MemoryStore) (dir : Path) : (s.children dir).Nodup :=
  nodup_withoutRepeats (s.isLE_firstSteps dir)

def entries (s : MemoryStore) (dir : Path) : List Path := (s.children dir).map fun c => dir.join c.text

theorem components_entries (s : MemoryStore) (dir : Path) :
    (s.entries dir).map (·.components) = (s.children dir).map fun c => dir.components ++ [c] := by
  unfold entries
  rw [List.map_map]
  exact List.map_congr_left fun c hc => components_join_child hc

/-- No entry is listed twice. -/
theorem nodup_entries (s : MemoryStore) (dir : Path) :
    ((s.entries dir).map (·.components)).Nodup := by
  rw [components_entries]
  refine (nodup_children s dir).map fun c c' h => ?_
  exact List.singleton_inj.1 (List.append_cancel_left h)

theorem mem_entries_iff {dir : Path} {q : List Component} :
    q ∈ (s.entries dir).map (·.components) ↔
      ∃ c rest, q = dir.components ++ [c] ∧ (s.at? (q ++ rest)).isSome := by
  rw [components_entries, List.mem_map]
  constructor
  · rintro ⟨c, hc, rfl⟩
    obtain ⟨rest, hfile⟩ := mem_children_iff.1 hc
    exact ⟨c, rest, rfl, by rwa [List.append_assoc]⟩
  · rintro ⟨c, rest, rfl, hfile⟩
    rw [List.append_assoc] at hfile
    exact ⟨c, mem_children_iff.2 ⟨rest, hfile⟩, rfl⟩

/-- A directory is what a file lies below. -/
theorem isDirectory_iff {path : Path} : s.isDirectory path = true ↔
    ∃ c rest, (s.at? (path.components ++ c :: rest)).isSome := by
  unfold isDirectory
  simp only [List.any_eq_true, isSome_at?]
  constructor
  · rintro ⟨place, hmem, hany⟩
    obtain ⟨steps, hsteps, hne⟩ := (Option.any_eq_true _ _).1 hany
    rw [Path.stepsBelow?_eq_some] at hsteps
    cases steps with
    | nil => cases hne
    | cons c rest => exact ⟨c, rest, hsteps ▸ hmem⟩
  · rintro ⟨c, rest, hmem⟩
    exact ⟨_, hmem, by rw [Path.stepsBelow?_eq_some.2 rfl]; rfl⟩

def above (s : MemoryStore) : List (List Component) :=
  s.files.keys.flatMap fun place => (List.range place.length).map place.take

theorem mem_above {dir : List Component} {c : Component} {rest : List Component}
    (h : (s.at? (dir ++ c :: rest)).isSome) : dir ∈ s.above := by
  refine List.mem_flatMap.2 ⟨_, isSome_at?.1 h, List.mem_map.2 ⟨dir.length, ?_, List.take_left⟩⟩
  rw [List.mem_range, List.length_append, List.length_cons]
  omega

/-- There are fewer directories than the bound of a search. -/
theorem length_above (s : MemoryStore) : s.above.length < FileStore.directoryBound s := by
  have hlength : s.above.length = s.files.keys.flatten.length := by
    unfold above
    rw [List.length_flatMap, List.length_flatten]
    simp only [List.length_map, List.length_range]
  rw [hlength]
  exact Nat.lt_succ_self _

end MemoryStore

open MemoryStore in
instance : BrowsableStore MemoryStore where
  Settled _ := True
  Unlistable _ _ := False
  Undeletable _ _ := False
  list_refused _ h := h.elim
  list_granted := fun {dir s} _ _ _ =>
    ⟨s.entries dir, rfl, nodup_entries s dir, fun _ => mem_entries_iff⟩
  isDirectory_iff _ := isDirectory_iff
  exists_directories _ := ⟨_, length_above _, fun _ _ _ => mem_above⟩
  delete_refused _ h := h.elim
  delete_granted _ _ := ⟨_, _, rfl, trivial, rfl⟩

namespace Faulty

variable {σ α : Type}

def Fails (operation : Operation) (faults : List Fault) (place : List Component) : Prop :=
  ∃ f ∈ faults, f.operation = operation ∧ f.path.components = place

/-- A call that a steady fault is for fails, and the fault stays. -/
theorem judge_of_fails {operation : Operation} {path : Path} {faults : List Fault}
    (hsteady : ∀ f ∈ faults, f.operation = operation → f.skip = 0 ∧ f.after = false)
    (h : Fails operation faults path.components) :
    Fault.judge operation path faults = (.fail, faults) := by
  induction faults with
  | nil =>
    obtain ⟨f, hmem, -⟩ := h
    cases hmem
  | cons first rest ih =>
    unfold Fault.judge
    split
    next hfirst =>
      obtain ⟨hskip, hafter⟩ := hsteady first List.mem_cons_self hfirst.1
      rw [if_neg (by rw [hskip]; exact Nat.lt_irrefl 0), hafter]
      rfl
    next hfirst =>
      obtain ⟨f, hmem, hoperation, hpath⟩ := h
      rcases List.mem_cons.1 hmem with rfl | hmem
      · exact absurd ⟨hoperation, decide_eq_true hpath⟩ hfirst
      · rw [ih (fun f hf => hsteady f (List.mem_cons_of_mem _ hf)) ⟨f, hmem, hoperation, hpath⟩]

theorem judge_of_not_fails {operation : Operation} {path : Path} {faults : List Fault}
    (h : ¬Fails operation faults path.components) :
    Fault.judge operation path faults = (.pass, faults) := by
  induction faults with
  | nil => rfl
  | cons first rest ih =>
    unfold Fault.judge
    split
    next hfirst =>
      exact absurd ⟨first, List.mem_cons_self, hfirst.1, of_decide_eq_true hfirst.2⟩ h
    next =>
      have hrest : ¬Fails operation rest path.components := by
        rintro ⟨f, hmem, hf⟩
        exact h ⟨f, List.mem_cons_of_mem _ hmem, hf⟩
      rw [ih hrest]

variable {operation : Operation} {path : Path} {act : Step StoreError σ α} {s : Faulty σ}

theorem guarded_of_fails
    (hsteady : ∀ f ∈ s.faults, f.operation = operation → f.skip = 0 ∧ f.after = false)
    (h : Fails operation s.faults path.components) :
    guarded operation path act s = .error (.stream .injected) s := by
  unfold guarded judge
  rw [judge_of_fails hsteady h]

/-- A call that no fault is for goes to the store behind. -/
theorem guarded_of_not_fails (h : ¬Fails operation s.faults path.components) :
    guarded operation path act s = pass act s := by
  unfold guarded judge
  rw [judge_of_not_fails h]

theorem pass_ok {a : α} {t : σ} (h : act s.store = .ok a t) :
    pass act s = .ok a { s with store := t } := by
  unfold pass
  rw [h]

theorem pass_error {e : StoreError} {t : σ} (h : act s.store = .error e t) :
    pass act s = .error e { s with store := t } := by
  unfold pass
  rw [h]

end Faulty

open Faulty BrowsableStore in
/-- Faults that strike each time and before the call make certain calls fail. -/
instance {σ : Type} [FileStore σ] [FallibleStore σ] [BrowsableStore σ] : BrowsableStore (Faulty σ) where
  Settled s := Settled s.store ∧ ∀ f ∈ s.faults, f.operation = .list ∨ f.operation = .delete →
    f.skip = 0 ∧ f.after = false
  Unlistable s place := Fails .list s.faults place ∨ Unlistable s.store place
  Undeletable s place := Fails .delete s.faults place ∨ Undeletable s.store place
  list_refused := by
    rintro dir s ⟨hinner, hsteady⟩ hrefused
    by_cases hfails : Fails .list s.faults dir.components
    · exact ⟨_, guarded_of_fails (fun f hf h => hsteady f hf (Or.inl h)) hfails⟩
    · obtain ⟨e, hlist⟩ := list_refused hinner (hrefused.resolve_left hfails)
      exact ⟨e, (guarded_of_not_fails hfails).trans (pass_error hlist)⟩
  list_granted := by
    rintro dir s ⟨hinner, -⟩ hgranted hdir
    obtain ⟨hfails, hgranted⟩ := not_or.1 hgranted
    obtain ⟨entries, hlist, hnodup, hentries⟩ := list_granted hinner hgranted hdir
    exact ⟨entries, (guarded_of_not_fails hfails).trans (pass_ok hlist), hnodup, hentries⟩
  isDirectory_iff := by
    rintro path s ⟨hinner, -⟩
    exact BrowsableStore.isDirectory_iff (s := s.store) hinner
  exists_directories := by
    rintro s ⟨hinner, -⟩
    exact exists_directories (s := s.store) hinner
  delete_refused := by
    rintro path s ⟨hinner, hsteady⟩ hrefused
    by_cases hfails : Fails .delete s.faults path.components
    · exact ⟨_, guarded_of_fails (fun f hf h => hsteady f hf (Or.inr h)) hfails⟩
    · obtain ⟨e, hdelete⟩ := delete_refused hinner (hrefused.resolve_left hfails)
      exact ⟨e, (guarded_of_not_fails hfails).trans (pass_error hdelete)⟩
  delete_granted := by
    rintro path s ⟨hinner, hsteady⟩ hgranted
    obtain ⟨hfails, hgranted⟩ := not_or.1 hgranted
    obtain ⟨found, t, hdelete, hinner', hsame⟩ := delete_granted hinner hgranted
    refine ⟨found, _, (guarded_of_not_fails hfails).trans (pass_ok hdelete), ⟨hinner', hsteady⟩, ?_⟩
    rw [hsame]

end LargeObjects

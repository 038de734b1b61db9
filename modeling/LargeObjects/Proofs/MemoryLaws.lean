import Mathlib
import LargeObjects.Proofs.Paths
import LargeObjects.Proofs.StoreLaws

/-! A store held in memory is steady and reliable. -/
namespace LargeObjects

namespace SortedMap

variable {κ β : Type} [Ord κ] [Std.LawfulEqOrd κ]

theorem mem_keys_of_get? {m : SortedMap κ β} {k : κ} {v : β} (h : m.get? k = some v) :
    k ∈ m.keys :=
  List.mem_map_of_mem (f := (·.1)) (mem_of_get? h)

variable [DecidableEq κ]

theorem decide_compare_eq (a b : κ) : decide (compare a b = .eq) = decide (a = b) :=
  decide_eq_decide.2 ⟨Std.LawfulEqOrd.eq_of_compare, fun h => h ▸ Std.ReflOrd.compare_self⟩

theorem get?_eq_find (m : SortedMap κ β) (k : κ) :
    m.get? k = (m.entries.find? fun e => decide (e.1 = k)).map (·.2) := by
  unfold get?
  simp only [decide_compare_eq]

theorem mem_keys_iff {m : SortedMap κ β} {k : κ} : k ∈ m.keys ↔ (m.get? k).isSome := by
  constructor
  · intro h
    obtain ⟨e, hmem, rfl⟩ := List.mem_map.1 h
    rw [get?_eq_find, Option.isSome_map, List.find?_isSome]
    exact ⟨e, hmem, decide_eq_true rfl⟩
  · intro h
    obtain ⟨v, hget⟩ := Option.isSome_iff_exists.1 h
    exact mem_keys_of_get? hget

/-- An entry that is put in its place is found under its key, and the others are found as before. -/
theorem find_insertEntry (k k' : κ) (v : β) (l : List (κ × β)) :
    ((insertEntry k v l).find? fun e => decide (e.1 = k')) =
      if k = k' then some (k, v) else l.find? fun e => decide (e.1 = k') := by
  induction l with
  | nil => by_cases h : k = k' <;> simp [insertEntry, h]
  | cons hd tl ih =>
    unfold insertEntry
    split
    next => by_cases h : k = k' <;> simp [h]
    next heq =>
      have hk : k = hd.1 := Std.LawfulEqOrd.eq_of_compare heq
      by_cases h : k = k'
      · simp [h]
      · simp [h, ← hk]
    next hgt =>
      have hne : k ≠ hd.1 := by
        rintro rfl
        simp [Std.ReflOrd.compare_self] at hgt
      rw [List.find?_cons, List.find?_cons, ih]
      by_cases h : hd.1 = k'
      · have hk : k ≠ k' := fun hk => hne (hk.trans h.symm)
        simp [h, hk]
      · simp [h]

theorem get?_insert [Std.TransOrd κ] (m : SortedMap κ β) (k k' : κ) (v : β) :
    (m.insert k v).get? k' = if k = k' then some v else m.get? k' := by
  rw [get?_eq_find, get?_eq_find]
  simp only [insert, find_insertEntry]
  split <;> rfl

theorem get?_erase (m : SortedMap κ β) (k k' : κ) :
    (m.erase k).get? k' = if k = k' then none else m.get? k' := by
  rw [get?_eq_find, get?_eq_find]
  simp only [erase, List.find?_filter]
  split
  next h =>
    subst h
    rw [List.find?_eq_none.2]
    · rfl
    · intro e _
      by_cases he : e.1 = k
      · simp [he, Std.ReflOrd.compare_self]
      · simp [he]
  next h =>
    congr 2
    funext e
    by_cases he : e.1 = k'
    · have hne : compare e.1 k ≠ .eq := fun hc =>
        h ((Std.LawfulEqOrd.eq_of_compare hc).symm.trans he)
      simp [he, he ▸ hne]
    · simp [he]

end SortedMap

namespace MemoryStore

def at? (s : MemoryStore) (place : List Component) : Option Bytes :=
  (s.files.get? place).map (·.2)

theorem get?_eq_at? (s : MemoryStore) (path : Path) : s.get? path = s.at? path.components := rfl

/-- Making or replacing a file concerns its own place only. -/
theorem at?_put (s : MemoryStore) (path : Path) (content : Bytes) (place : List Component) :
    (s.put path content).at? place =
      if path.components = place then some content else s.at? place := by
  simp only [at?, put, SortedMap.get?_insert]
  split <;> rfl

theorem at?_erase (s : MemoryStore) (path : Path) (place : List Component) :
    (s.erase path).at? place = if path.components = place then none else s.at? place := by
  simp only [at?, erase, SortedMap.get?_erase]
  split <;> rfl

theorem isFile_eq_at? (s : MemoryStore) (path : Path) :
    s.isFile path = (s.at? path.components).isSome := by
  simp [isFile, SortedMap.contains, at?]

/-- Dropping repeats loses no step. -/
theorem mem_withoutRepeats (c : Component) (steps : List Component) :
    c ∈ withoutRepeats steps ↔ c ∈ steps := by
  fun_induction withoutRepeats steps with
  | case1 a rest ih => simp [ih]
  | case2 a b rest hne ih => simp [ih]
  | case3 steps => rfl

/-- A file right below a directory is among its entries. -/
theorem mem_children {s : MemoryStore} {dir : Path} {name : Name}
    (h : (s.at? (dir.components ++ [.name name])).isSome) : .name name ∈ s.children dir := by
  obtain ⟨content, hcontent⟩ := Option.isSome_iff_exists.1 h
  obtain ⟨e, hget, -⟩ := Option.map_eq_some_iff.1 hcontent
  refine (mem_withoutRepeats _ _).2 (List.mem_filterMap.2 ⟨_, SortedMap.mem_keys_of_get? hget, ?_⟩)
  simp [Path.stepsBelow?]

/-- The last step to a file is a name that can be spelled. -/
theorem isName_of_at? {s : MemoryStore} {steps : List Component} {name : Name}
    (h : (s.at? (steps ++ [.name name])).isSome) : IsName name := by
  obtain ⟨content, hcontent⟩ := Option.isSome_iff_exists.1 h
  obtain ⟨e, hget, -⟩ := Option.map_eq_some_iff.1 hcontent
  have hspelled := s.spelled _ (SortedMap.mem_of_get? hget)
  apply Path.isName_of_mem_components (p := e.1)
  simp [hspelled]

theorem withFile_eq {α : Type} {path : Path} {act : Bytes → MemoryStore → α × MemoryStore}
    {s : MemoryStore} {content : Bytes} (h : s.at? path.components = some content) :
    withFile path act s = .ok (act content s).1 (act content s).2 := by
  unfold withFile
  rw [get?_eq_at?, h]

theorem withFile_error {α : Type} {path : Path} {act : Bytes → MemoryStore → α × MemoryStore}
    {s s' : MemoryStore} {e : StoreError} (h : withFile path act s = .error e s') : s' = s := by
  unfold withFile at h
  split at h <;> simp_all

end MemoryStore

open MemoryStore in
instance : SteadyStore MemoryStore where
  Place := List Component
  place? path _ := some path.components
  content? := at?
  delete_found := by
    rintro path s _ _ ⟨⟩
    simp [isFile_eq_at?]
  delete_at := by
    rintro path s _ _ p ⟨⟩ hp
    simp [at?_erase, Option.some.inj hp]
  delete_elsewhere := by
    rintro path s _ _ p ⟨⟩ hp
    rw [at?_erase, if_neg fun h => hp (congrArg some h)]
  delete_error := by
    rintro path s _ _ ⟨⟩
  rename_error := by
    intro source target s s' e h
    rw [withFile_error h]

open MemoryStore in
instance : ReliableStore MemoryStore where
  fileAt? := at?
  Writing w p given s := w.components = p ∧ s.at? p = some given
  Reading r _ rest _ := r = rest
  create_ok path s := by
    refine ⟨path, s.put path [], rfl, ⟨rfl, by simp [at?_put]⟩, ?_, fun _ _ _ _ h => h⟩
    intro q hq
    rw [at?_put, if_neg fun h => hq h.symm]
  write_ok := by
    rintro w _ given s more ⟨rfl, hw⟩
    refine ⟨s.put w (given ++ more), ?_, ⟨rfl, by simp [at?_put]⟩, ?_, fun _ _ _ _ h => h⟩
    · simp only [FileStore.write, get?_eq_at?, hw]
    · intro q hq
      rw [at?_put, if_neg fun h => hq h.symm]
  flush_ok := by
    intro w p given s h
    exact ⟨s, rfl, h, fun _ _ => rfl, fun _ _ _ _ h => h⟩
  close_ok := by
    intro w p given s h
    exact ⟨h.2, fun _ _ => rfl⟩
  openRead_ok := by
    intro path s content h
    exact ⟨content, withFile_eq h, rfl⟩
  read_ok := by
    rintro r p _ s limit rfl hlimit
    refine ⟨r.take limit, r.drop limit, r.drop limit, rfl, ?_, ?_, ?_, rfl⟩
    · rw [List.take_append_drop]
    · rw [List.length_take]
      omega
    · intro h
      rcases List.take_eq_nil_iff.1 h with h | h
      · omega
      · exact h
  unread_ge := by
    rintro r p _ s rfl
    exact Nat.le_refl _
  delete_ok path s := by
    refine ⟨s.erase path, ?_, by simp [at?_erase], ?_⟩
    · rw [← isFile_eq_at?]
      rfl
    · intro q hq
      rw [at?_erase, if_neg fun h => hq h.symm]
  rename_ok := by
    intro source target s content h
    refine ⟨_, withFile_eq h, by simp [at?_put], ?_, ?_⟩
    · intro hne
      rw [at?_put, if_neg fun h => hne h.symm, at?_erase, if_pos rfl]
    · intro q hs ht
      rw [at?_put, if_neg fun h => ht h.symm, at?_erase, if_neg fun h => hs h.symm]
  copy_ok := by
    intro source target s content h
    refine ⟨content.length, _, withFile_eq h, by simp [at?_put], ?_⟩
    intro q hq
    rw [at?_put, if_neg fun h => hq h.symm]
  list_ok dir s := by
    refine ⟨_, rfl, ?_⟩
    intro name h
    refine ⟨dir.join name, List.mem_map.2 ⟨.name name, mem_children h, rfl⟩, ?_⟩
    exact Path.fileName?_join dir (isName_of_at? h)
  isFile_eq path s := isFile_eq_at? s path

instance : QuietStore MemoryStore where
  openRead_keeps path s := by
    unfold Step.after FileStore.openRead instFileStoreMemoryStore MemoryStore.withFile
    dsimp only
    cases s.get? path <;> rfl
  read_keeps _ _ := rfl
  list_keeps _ _ := rfl

end LargeObjects

import Mathlib
import LargeObjects.Proofs.Digits
import LargeObjects.Proofs.Finding

/-! Names as a code. A path is decoded into layout, owner and object whatever the number of the object
is, and what a file's name and directory are made from is read off them again. Flat names are read
back only if the path of the database ends in a name. -/
namespace LargeObjects.Naming

theorem dot_not_mem_ownerMark_tail (owner : Owner) : '.' ∉ (ownerMark owner).tail := by
  cases owner with
  | temp => decide
  | table t =>
    intro hmem
    rcases List.mem_cons.1 hmem with h | h
    · revert h
      decide
    · exact dot_not_mem_write _ h

/-- An owner's mark goes from the last dot before the ending of a file to that ending. -/
theorem append_ending_inj {a b : List Char} {owner owner' : Owner}
    (h : a ++ (ownerMark owner ++ objectSuffix.toList) =
      b ++ (ownerMark owner' ++ objectSuffix.toList)) : a = b ∧ owner = owner' := by
  obtain ⟨mark, hmark⟩ := ownerMark_eq_cons owner
  obtain ⟨mark', hmark'⟩ := ownerMark_eq_cons owner'
  have hdot := dot_not_mem_ownerMark_tail owner
  have hdot' := dot_not_mem_ownerMark_tail owner'
  rw [hmark, List.tail_cons] at hdot
  rw [hmark', List.tail_cons] at hdot'
  rw [← List.append_assoc, ← List.append_assoc, List.append_cancel_right_eq, hmark, hmark'] at h
  obtain ⟨hfront, hback⟩ := append_dot_inj hdot hdot' h
  refine ⟨hfront, ownerMark_injective ?_⟩
  rw [hmark, hmark', hback]

section

variable {n : Naming} {id id' : ObjectId}

theorem isName_lastPiece_shardDirectory (n : Naming) (id : ObjectId) :
    IsName (n.shardDirectory id).lastPiece := by
  obtain ⟨front, last, hpieces, hname⟩ := n.endsInName_shardDirectory id
  have hlast : (n.shardDirectory id).pieces.getLast? = some (n.shardDirectory id).lastPiece :=
    List.getLast?_eq_some_getLast _
  rw [hpieces, List.getLast?_concat, Option.some.injEq] at hlast
  rwa [← hlast]

/-- The path of a number that ends in zero is its directory's, with an ending. -/
theorem components_shardedPath_zero (n : Naming) (owner : Owner) (h : id.word % n.fanout = 0) :
    (n.shardedPath owner id).components = (n.shardDirectory id).lead ++
      [.name ((n.shardDirectory id).lastPiece ++ (ownerMark owner ++ objectSuffix.toList))] := by
  rw [shardedPath, stem, if_pos h]
  exact Path.components_append _ (length_ending owner) (separator_not_mem_ending owner)

/-- A directory of the tree tells the digits that lead to it. -/
theorem directorySteps_eq_of_components
    (h : (n.shardDirectory id).components = (n.shardDirectory id').components) :
    n.directorySteps id = n.directorySteps id' := by
  rw [components_shardDirectory, components_shardDirectory] at h
  exact (List.cons.inj (List.append_cancel_left h)).2

/-- A directory of the tree has a name for its last step, and so its path has a lead. -/
theorem components_eq_lead_shardDirectory (n : Naming) (id : ObjectId) :
    (n.shardDirectory id).lead ++ [.name (n.shardDirectory id).lastPiece] =
      n.base.lead ++ .name n.rootName :: n.directorySteps id := by
  rw [← components_shardDirectory]
  exact (Path.components_of_lastPiece (n.isName_lastPiece_shardDirectory id)).symm

/-- Of two numbers that end in zero the paths tell the directories, and those the numbers. -/
theorem shardedPath_inj_zero (hfanout : 2 ≤ n.fanout) {owner owner' : Owner}
    (hslot : id.word % n.fanout = 0) (hslot' : id'.word % n.fanout = 0)
    (h : (n.shardedPath owner id).components = (n.shardedPath owner' id').components) :
    owner = owner' ∧ id = id' := by
  rw [components_shardedPath_zero n owner hslot, components_shardedPath_zero n owner' hslot'] at h
  obtain ⟨hlead, hlast⟩ := List.append_inj' h (by rw [List.length_singleton, List.length_singleton])
  rw [List.cons.injEq, Component.name.injEq] at hlast
  obtain ⟨hpiece, howner⟩ := append_ending_inj hlast.1
  refine ⟨howner, id_eq_of_directorySteps hfanout ?_ (hslot.trans hslot'.symm)⟩
  apply directorySteps_eq_of_components
  rw [Path.components_of_lastPiece (n.isName_lastPiece_shardDirectory id),
    Path.components_of_lastPiece (n.isName_lastPiece_shardDirectory id'), hlead, hpiece]

theorem shardedPath_inj (hfanout : 2 ≤ n.fanout) {owner owner' : Owner}
    (h : (n.shardedPath owner id).components = (n.shardedPath owner' id').components) :
    owner = owner' ∧ id = id' := by
  by_cases hslot : id.word % n.fanout = 0
  · by_cases hslot' : id'.word % n.fanout = 0
    · exact shardedPath_inj_zero hfanout hslot hslot' h
    · exact absurd h.symm (path_ne_of_slot_zero hslot' hslot)
  · by_cases hslot' : id'.word % n.fanout = 0
    · exact absurd h (path_ne_of_slot_zero hslot hslot')
    · rw [components_shardedPath n owner hslot, components_shardedPath n owner' hslot'] at h
      have hname := List.append_inj_right' h rfl
      rw [List.cons.injEq, Component.name.injEq] at hname
      exact fileName_injective hname.1

/-- A path in the tree has one step more than a flat one at least, or else a name that no flat file
has. -/
theorem components_shardedPath_ne_flatPath (n : Naming) (owner owner' : Owner) (id id' : ObjectId) :
    (n.shardedPath owner id).components ≠ (n.flatPath owner' id').components := by
  intro h
  rw [components_flatPath] at h
  by_cases hslot : id.word % n.fanout = 0
  · have hdirectory := n.components_eq_lead_shardDirectory id
    rw [components_shardedPath_zero n owner hslot] at h
    obtain ⟨hlead, hlast⟩ := List.append_inj' h rfl
    rw [hlead, List.append_cancel_left_eq] at hdirectory
    simp only [List.cons.injEq, Component.name.injEq, and_true] at hdirectory hlast
    rw [hdirectory.1, rootName, List.append_assoc, List.append_cancel_left_eq] at hlast
    exact directorySuffix_not_prefix_flatEnding owner' id' (hlast ▸ List.prefix_append _ _)
  · have hlength := congrArg List.length h
    rw [components_shardedPath n owner hslot, components_shardDirectory] at hlength
    simp at hlength

/-- Every path tells layout, owner and object. -/
theorem path_inj (hfanout : 2 ≤ n.fanout) {layout layout' : Layout} {owner owner' : Owner}
    (h : (n.path layout owner id).components = (n.path layout' owner' id').components) :
    layout = layout' ∧ owner = owner' ∧ id = id' := by
  cases layout with
  | sharded =>
    cases layout' with
    | sharded => exact ⟨rfl, shardedPath_inj hfanout h⟩
    | flat => exact absurd h (n.components_shardedPath_ne_flatPath owner owner' id id')
  | flat =>
    cases layout' with
    | sharded => exact absurd h.symm (n.components_shardedPath_ne_flatPath owner' owner id' id)
    | flat =>
      simp only [path] at h
      rw [components_flatPath, components_flatPath] at h
      have hname := List.append_inj_right' h rfl
      simp only [List.cons.injEq, Component.name.injEq, List.append_cancel_left_eq, and_true] at hname
      exact ⟨rfl, flatEnding_injective hname⟩

/-- Digits above the lowest lead to the directory of the number that has a zero for the lowest. -/
theorem shardDirectory_eq_stem (hfanout : 2 ≤ n.fanout) (id : ObjectId) :
    n.shardDirectory id = n.stem ⟨id.word - id.word % n.fanout⟩ := by
  have hradix := two_le_toNat hfanout
  have hremainder := UInt32.toNat_mod id.word n.fanout
  have hle : id.word % n.fanout ≤ id.word := by
    rw [UInt32.le_iff_toNat_le, hremainder]
    exact Nat.mod_le _ _
  have hword := UInt32.toNat_sub_of_le _ _ hle
  have hdir : (id.word - id.word % n.fanout) % n.fanout = 0 := by
    apply UInt32.toNat_inj.1
    rw [UInt32.toNat_mod, hword, hremainder, UInt32.toNat_zero, ← Nat.div_mul_self_eq_mod_sub_self,
      Nat.mul_mod_left]
  have hslot : (id.word % n.fanout).toNat < n.fanout.toNat := by
    rw [hremainder]
    exact Nat.mod_lt _ (by omega)
  have hfits : (id.word - id.word % n.fanout).toNat + (id.word % n.fanout).toNat < UInt32.size := by
    rw [hword, Nat.sub_add_cancel (UInt32.le_iff_toNat_le.1 hle)]
    exact id.word.toNat_lt
  have hplace := n.shardDirectory_place hdir hslot hfits
  rwa [UInt32.ofNat_toNat, UInt32.sub_add_cancel] at hplace

theorem parent?_shardedPath (owner : Owner) (hslot : id.word % n.fanout ≠ 0) :
    (n.shardedPath owner id).parent? = some (n.shardDirectory id) := by
  have hslash : '/' ∉ Numeral.write id.word.toNat := Numeral.not_mem_write (by decide)
  rw [shardedPath, stem, if_neg hslot, append_join (Numeral.write_ne_nil _) hslash]
  exact Path.parent?_join (n.endsInName_shardDirectory id) (isName_fileName owner id)

/-- Objects have their files in one directory exactly when their numbers agree above the lowest
digit. -/
theorem shardDirectory_same_iff (hfanout : 2 ≤ n.fanout) :
    (n.shardDirectory id).components = (n.shardDirectory id').components ↔
      id.word / n.fanout = id'.word / n.fanout := by
  rw [← UInt32.toNat_inj, UInt32.toNat_div, UInt32.toNat_div]
  constructor
  · intro h
    exact quotient_eq_of_directorySteps hfanout (directorySteps_eq_of_components h)
  · intro h
    rw [components_shardDirectory, components_shardDirectory, directorySteps, directorySteps, h]

end

/-- Names as a code, in a tree of two places or more. A path tells layout, owner and object. The name
of a file in the tree is read back, its directory is that of its number with a zero for the lowest
digit, and two files are in one directory exactly when their numbers agree above it. The name of a
flat file is read back exactly when the path of the database ends in a name, with nothing behind. -/
theorem names_decoded_iff (n : Naming) (hfanout : 2 ≤ n.fanout) :
    (∀ layout layout' owner owner' id id',
      (n.path layout owner id).components = (n.path layout' owner' id').components →
        layout = layout' ∧ owner = owner' ∧ id = id') ∧
    (∀ owner id, id.word % n.fanout ≠ 0 →
      (n.shardedPath owner id).fileName?.bind parseSharded? = some (owner, id) ∧
      (n.shardedPath owner id).parent? = some (n.stem ⟨id.word - id.word % n.fanout⟩)) ∧
    (∀ owner owner' id id', id.word % n.fanout ≠ 0 → id'.word % n.fanout ≠ 0 →
      ((n.shardedPath owner id).parent?.map Path.components =
          (n.shardedPath owner' id').parent?.map Path.components ↔
        id.word / n.fanout = id'.word / n.fanout)) ∧
    ∀ owner id, (n.flatPath owner id).fileName?.bind n.parseFlat? = some (owner, id) ↔
      IsName n.base.lastPiece := by
  refine ⟨fun layout layout' owner owner' id id' h => path_inj hfanout h, fun owner id hslot =>
    ⟨?_, ?_⟩, fun owner owner' id id' hslot hslot' => ?_, fun owner id => ?_⟩
  · rw [Path.fileName?_of_components (components_shardedPath n owner hslot)]
    exact parseSharded?_fileName owner id
  · rw [parent?_shardedPath owner hslot, shardDirectory_eq_stem hfanout]
  · rw [parent?_shardedPath owner hslot, parent?_shardedPath owner' hslot', Option.map_some,
      Option.map_some, Option.some.injEq]
    exact shardDirectory_same_iff hfanout
  · rw [Path.fileName?_of_components (components_flatPath n owner id)]
    exact parseFlat?_flat_iff owner id

/-- In base 256 the object 66_305 is the first in the directory of 66_304, below that of 65_536. -/
theorem names_decoded_spelled : 2 ≤ (spelled "d/b").fanout ∧
    IsName (spelled "d/b").base.lastPiece ∧
    ((spelled "d/b").flatPath (.table ⟨6⟩) ⟨66305⟩).fileName?.bind (spelled "d/b").parseFlat? =
      some (.table ⟨6⟩, ⟨66305⟩) ∧
    ((spelled "d/b").shardedPath .temp ⟨66305⟩).fileName?.bind parseSharded? =
      some (.temp, ⟨66305⟩) ∧
    ((spelled "d/b").shardedPath .temp ⟨66305⟩).parent? = some ((spelled "d/b").stem ⟨66304⟩) ∧
    ((spelled "d/b").stem ⟨66304⟩).components =
      (Path.ofString "d/b.lobs.db/1.lobs.db/3.lobs.db").components ∧
    ((spelled "d/b").path .sharded .temp ⟨66304⟩).components ≠
      ((spelled "d/b").path .sharded .temp ⟨66305⟩).components := by
  have hfanout : 2 ≤ (spelled "d/b").fanout := by decide
  have hname : IsName (spelled "d/b").base.lastPiece := ⟨by decide, by decide, by decide, by decide⟩
  obtain ⟨hinj, hsharded, -, hflat⟩ := names_decoded_iff (spelled "d/b") hfanout
  obtain ⟨hread, hparent⟩ := hsharded .temp ⟨66305⟩ (by decide)
  refine ⟨hfanout, hname, (hflat _ _).2 hname, hread, hparent, by decide, fun h => ?_⟩
  exact absurd (hinj _ _ _ _ _ _ h).2.2 (by decide)

/-- Behind a separator at the end the flat names have nothing of the name of the database, which is
what they are read by. -/
theorem flat_name_not_decoded : (spelled "d/b/").base.fileName? = some ['b'] ∧
    ((spelled "d/b/").flatPath (.table ⟨6⟩) ⟨1⟩).fileName?.bind (spelled "d/b/").parseFlat? = none := by
  decide

end LargeObjects.Naming

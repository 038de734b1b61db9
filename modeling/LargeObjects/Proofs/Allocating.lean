import Mathlib
import LargeObjects.Database
import LargeObjects.Proofs.Names
import LargeObjects.Proofs.Steps
import LargeObjects.Proofs.StoreLaws

/-! Finding an object id. It leaves the files and the handles alone, and a scan ends at a number
that no file has. -/
namespace LargeObjects

open ReliableStore

variable {σ : Type}

structure World.SameFiles (w w' : World σ) : Prop where
  store_eq : w'.store = w.store
  handles_eq : w'.handles = w.handles

namespace World.SameFiles

variable {w w' w'' : World σ}

theorem refl (w : World σ) : w.SameFiles w := ⟨rfl, rfl⟩

theorem trans (h : w.SameFiles w') (h' : w'.SameFiles w'') : w.SameFiles w'' :=
  ⟨h'.store_eq.trans h.store_eq, h'.handles_eq.trans h.handles_eq⟩

end World.SameFiles

namespace Allocator

variable [FileStore σ]

def placeFrom (naming : Naming) (maxProbes : UInt32) : Nat → UInt32 → Action σ (UInt32 × Nat)
  | 0, _ => throw (.allocationExhausted maxProbes)
  | probes + 1, id => do
    match ← vacancy? naming id with
    | some slot => return (id, slot)
    | none =>
      let digit ← World.randomDigit naming.fanout
      placeFrom naming maxProbes probes (childDirectory naming.fanout id digit)

theorem scanFrom_eq (naming : Naming) (maxProbes : UInt32) (probes : Nat) (id : UInt32) :
    scanFrom (σ := σ) naming maxProbes probes id =
      placeFrom naming maxProbes probes id >>= fun place =>
        pure ⟨place.1 + UInt32.ofNat place.2⟩ := by
  induction probes generalizing id with
  | zero => rfl
  | succ probes ih =>
    funext w
    rw [scanFrom, placeFrom]
    simp only [bind, EStateM.bind]
    cases vacancy? naming id w with
    | error e w' => rfl
    | ok place w' =>
      cases place with
      | some slot => rfl
      | none =>
        simp only [EStateM.bind, World.randomDigit, ih]
        rfl

variable [ReliableStore σ] {naming : Naming} {w w' : World σ}

/-- The numbers in a directory are found without a failure, and no file's number is missed. -/
theorem entryNumbers_ok (dir : Path) (w : World σ) :
    ∃ numbers, entryNumbers dir w = .ok numbers w ∧ ∀ name n,
      (fileAt? w.store (dir.components ++ [.name name])).isSome →
        Naming.entryNumber? name = some n → n ∈ numbers := by
  obtain ⟨entries, hlist, hall⟩ := list_ok dir w.store
  refine ⟨entries.filterMap fun path => path.fileName?.bind Naming.entryNumber?, ?_, ?_⟩
  · unfold entryNumbers
    rw [Step.bind_ok (World.onStore_ok hlist)]
    rfl
  · intro name n hfile hname
    obtain ⟨e, he, hfileName⟩ := hall name hfile
    refine List.mem_filterMap.2 ⟨e, he, ?_⟩
    rw [hfileName, Option.bind_some, hname]

omit [FileStore σ] [ReliableStore σ] in
/-- The least free slot is in the directory, is not that of a directory, and is not taken up. -/
theorem leastFree?_spec {fanout slot : Nat} {used : List Nat}
    (h : leastFree? fanout used = some slot) : 1 ≤ slot ∧ slot < fanout ∧ slot ∉ used := by
  unfold leastFree? at h
  have hfree := List.find?_some h
  have hmem := List.mem_of_find?_eq_some h
  rw [List.mem_range'_1] at hmem
  refine ⟨hmem.1, by omega, ?_⟩
  simpa using hfree

def Vacant (naming : Naming) (id : UInt32) (slot : Nat) (s : σ) : Prop :=
  1 ≤ slot ∧ slot < naming.fanout.toNat ∧ ∀ name n,
    (fileAt? s ((naming.stem ⟨id⟩).components ++ [.name name])).isSome →
      Naming.entryNumber? name = some n → (n % naming.fanout).toNat ≠ slot

/-- What a look into a directory finds is vacant there. -/
theorem vacancy?_ok (naming : Naming) (id : UInt32) (w : World σ) :
    ∃ place, vacancy? naming id w = .ok place w ∧
      ∀ slot, place = some slot → Vacant naming id slot w.store := by
  obtain ⟨numbers, hrun, hall⟩ := entryNumbers_ok (naming.stem ⟨id⟩) w
  unfold vacancy?
  rw [Step.bind_ok hrun]
  split
  next => exact ⟨none, rfl, fun _ h => nomatch h⟩
  next =>
    refine ⟨leastFree? naming.fanout.toNat (numbers.map fun n => (n % naming.fanout).toNat), rfl,
      fun slot hslot => ?_⟩
    obtain ⟨hpos, hlt, hfree⟩ := leastFree?_spec hslot
    refine ⟨hpos, hlt, fun name n hfile hname heq => hfree ?_⟩
    exact List.mem_map.2 ⟨n, hall name n hfile hname, heq⟩

/-- The digits of the numbers in a child directory start with those of the directory. -/
theorem childDirectory_mod (fanout id digit : UInt32) : childDirectory fanout id digit % fanout = 0 := by
  unfold childDirectory
  simp only
  split
  next hlt =>
    apply UInt32.toNat_inj.1
    rw [UInt32.toNat_mod, UInt32.toNat_ofNat', Nat.mod_eq_of_lt hlt, Nat.mul_mod_left]
    rfl
  next => exact UInt32.zero_mod

/-- A scan ends in a directory of the tree, at a place that is vacant, and changes nothing. -/
theorem placeFrom_ok {maxProbes : UInt32} {probes : Nat} {id dir : UInt32} {slot : Nat}
    (hid : id % naming.fanout = 0) (h : placeFrom naming maxProbes probes id w = .ok (dir, slot) w') :
    w.SameFiles w' ∧ dir % naming.fanout = 0 ∧ Vacant naming dir slot w.store := by
  induction probes generalizing id w with
  | zero => cases h
  | succ probes ih =>
    obtain ⟨place, hplace, hvacant⟩ := vacancy?_ok naming id w
    rw [placeFrom, Step.bind_ok hplace] at h
    cases place with
    | some slot =>
      cases h
      exact ⟨.refl _, hid, hvacant _ rfl⟩
    | none =>
      obtain ⟨digit, w₁, hdigit, hrest⟩ := Step.bind_eq_ok h
      cases hdigit
      obtain ⟨hsame, hdir, hvac⟩ := ih (childDirectory_mod _ _ _) hrest
      exact ⟨⟨hsame.store_eq, hsame.handles_eq⟩, hdir, hvac⟩

theorem placeFrom_error {maxProbes : UInt32} {probes : Nat} {id : UInt32} {e : ObjectError}
    (h : placeFrom naming maxProbes probes id w = .error e w') : w.SameFiles w' := by
  induction probes generalizing id w with
  | zero =>
    cases h
    exact .refl _
  | succ probes ih =>
    obtain ⟨place, hplace, -⟩ := vacancy?_ok naming id w
    rw [placeFrom, Step.bind_ok hplace] at h
    cases place with
    | some slot => cases h
    | none =>
      rcases Step.bind_eq_error h with hdigit | ⟨digit, w₁, hdigit, hrest⟩
      · cases hdigit
      · cases hdigit
        have hsame := ih hrest
        exact ⟨hsame.store_eq, hsame.handles_eq⟩

/-- A scan ends at an object that can have a file and has none, whoever would own it. -/
theorem scanFrom_ok {maxProbes : UInt32} {probes : Nat} {id : ObjectId}
    (hfits : ∀ dir slot w₁, placeFrom naming maxProbes probes 0 w = .ok (dir, slot) w₁ →
      dir.toNat + slot < UInt32.size)
    (h : scanFrom naming maxProbes probes 0 w = .ok id w') :
    naming.Proper .sharded id ∧
      ∀ owner, fileAt? w.store (naming.shardedPath owner id).components = none := by
  rw [scanFrom_eq] at h
  obtain ⟨⟨dir, slot⟩, w₁, hplace, hpure⟩ := Step.bind_eq_ok h
  cases hpure
  have hfit := hfits dir slot _ hplace
  obtain ⟨-, hdir, hpos, hlt, hvacant⟩ := placeFrom_ok UInt32.zero_mod hplace
  have hproper : naming.Proper .sharded ⟨dir + UInt32.ofNat slot⟩ :=
    ⟨Naming.place_ne_zero hpos hfit, fun _ => Naming.place_mod_ne_zero hdir hpos hlt hfit⟩
  refine ⟨hproper, fun owner => ?_⟩
  rw [Naming.components_shardedPath _ _ (hproper.slot_ne rfl),
    Naming.shardDirectory_place _ hdir hlt hfit]
  by_contra hfile
  exact hvacant _ _ (Option.isSome_iff_ne_none.2 hfile)
    (Naming.entryNumber?_fileName owner hproper.word_ne) (Naming.place_mod hdir hlt hfit)

theorem isTaken_ok (naming : Naming) (layout : Layout) (id : ObjectId) (w : World σ) :
    ∃ taken, isTaken naming layout id w = .ok taken w := by
  cases layout with
  | flat => exact ⟨_, rfl⟩
  | sharded =>
    unfold isTaken isSlotTaken
    dsimp only
    split
    next => exact ⟨true, rfl⟩
    next =>
      cases (naming.stem id).parent? with
      | none => exact ⟨false, rfl⟩
      | some dir =>
        obtain ⟨numbers, hrun, -⟩ := entryNumbers_ok dir w
        dsimp only
        rw [Step.bind_ok hrun]
        exact ⟨_, rfl⟩

omit [ReliableStore σ] in
theorem countFrom_succ {layout : Layout} {counter fuel : Nat} {taken : Bool} {id : UInt32}
    {w₁ : World σ} (hnext : World.nextCount counter w = .ok id w₁)
    (htaken : isTaken naming layout ⟨id⟩ w₁ = .ok taken w₁) :
    countFrom naming layout counter (fuel + 1) w =
      if id = lastWord then .error (.allocationExhausted id) w₁
      else if taken then countFrom naming layout counter fuel w₁ else .ok ⟨id⟩ w₁ := by
  rw [countFrom, Step.bind_ok hnext]
  by_cases hlast : id = lastWord
  · simp only [if_pos hlast]
    rfl
  · simp only [if_neg hlast, bind, EStateM.bind, pure, htaken]
    cases taken <;> rfl

/-- Counting changes the counter and nothing else. -/
theorem countFrom_sameFiles {layout : Layout} {counter fuel : Nat} :
    (∀ {id : ObjectId}, countFrom naming layout counter fuel w = .ok id w' → w.SameFiles w') ∧
      ∀ {e : ObjectError}, countFrom naming layout counter fuel w = .error e w' → w.SameFiles w' := by
  induction fuel generalizing w with
  | zero =>
    refine ⟨fun h => ?_, fun h => ?_⟩
    · cases h
    · cases h
      exact .refl _
  | succ fuel ih =>
    obtain ⟨id, w₁, hnext, hsame⟩ : ∃ id w₁, World.nextCount counter w = .ok id w₁ ∧
      w.SameFiles w₁ := ⟨_, _, rfl, rfl, rfl⟩
    obtain ⟨taken, htaken⟩ := isTaken_ok naming layout ⟨id⟩ w₁
    rw [countFrom_succ hnext htaken]
    split
    · refine ⟨fun h => ?_, fun h => ?_⟩
      · cases h
      · cases h
        exact hsame
    · split
      · exact ⟨fun h => hsame.trans (ih.1 h), fun h => hsame.trans (ih.2 h)⟩
      · refine ⟨fun h => ?_, fun h => ?_⟩
        · cases h
          exact hsame
        · cases h

end Allocator

/-- Whether or not an id is found, no file and no handle is touched. -/
theorem Database.allocate_sameFiles [FileStore σ] [ReliableStore σ] (db : Database) {w w' : World σ} :
    (∀ {id : ObjectId}, db.allocate w = .ok id w' → w.SameFiles w') ∧
      ∀ {e : ObjectError}, db.allocate w = .error e w' → w.SameFiles w' := by
  unfold Database.allocate Allocator.allocate
  cases db.allocator with
  | counter place => exact Allocator.countFrom_sameFiles
  | scan maxProbes =>
    simp only [Allocator.scanFrom_eq]
    refine ⟨fun h => ?_, fun h => ?_⟩
    · obtain ⟨⟨dir, slot⟩, w₁, hplace, hpure⟩ := Step.bind_eq_ok h
      cases hpure
      exact (Allocator.placeFrom_ok (UInt32.zero_mod) hplace).1
    · rcases Step.bind_eq_error h with hplace | ⟨place, w₁, -, hpure⟩
      · exact Allocator.placeFrom_error hplace
      · cases hpure

end LargeObjects

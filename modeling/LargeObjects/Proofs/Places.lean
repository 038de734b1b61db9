import Mathlib
import LargeObjects.Proofs.Decoding
import LargeObjects.Proofs.Freshness

/-! The place in the tree that an id stands for. Whatever a store holds, the place of an id that is
found is not taken up by an entry of its directory. A scan finds the least such place of the directory
it ends in, and goes on only from directories that are full. -/
namespace LargeObjects

open Naming

/-- An entry takes up the place of a positive number: its name ends as those of databases do, and has
the number before its first dot. -/
structure Path.Takes (entry : Path) (n : UInt32) : Prop where
  named : ∃ number rest, entry.fileName? = some (number ++ '.' :: rest) ∧
    databaseSuffix.toList <:+ number ++ '.' :: rest ∧ '.' ∉ number ∧ Numeral.read? number = some n
  positive : n ≠ 0

/-- Entries are read so. -/
theorem Path.takes_iff {entry : Path} {n : UInt32} :
    entry.Takes n ↔ entry.fileName?.bind entryNumber? = some n := by
  constructor
  · rintro ⟨⟨number, rest, hname, hsuffix, hdot, hread⟩, hpos⟩
    rw [hname, Option.bind_some]
    unfold entryNumber?
    rw [if_pos hsuffix, atDot?_append hdot]
    simp only [Option.bind_eq_bind, Option.bind_some, hread, if_neg hpos]
  · intro h
    obtain ⟨name, hname, hnumber⟩ := Option.bind_eq_some_iff.1 h
    unfold entryNumber? at hnumber
    split at hnumber
    next hsuffix =>
      obtain ⟨⟨number, rest⟩, hsplit, hnumber⟩ := Option.bind_eq_some_iff.1 hnumber
      obtain ⟨word, hread, hword⟩ := Option.bind_eq_some_iff.1 hnumber
      split at hword
      · cases hword
      next hpos =>
        cases hword
        rw [atDot?_eq_some hsplit] at hname hsuffix
        exact ⟨⟨number, rest, hname, hsuffix, Numeral.dot_not_mem_of_read? hread, hread⟩, hpos⟩
    next => cases hnumber

/-- The file of an object takes up the place of its number. -/
theorem Path.takes_fileName (dir : Path) (owner : Owner) {id : ObjectId} (hid : id.word ≠ 0)
    {n : UInt32} : (dir.join (fileName owner id)).Takes n ↔ id.word = n := by
  rw [takes_iff, fileName?_join dir (isName_fileName owner id), Option.bind_some,
    entryNumber?_fileName owner hid, Option.some.injEq]

/-- With two places or more, a random digit is that of a place. -/
theorem Entropy.digit_mem (e : Entropy) {radix : UInt32} (h : 2 ≤ radix) :
    1 ≤ (e.digit radix).1 ∧ (e.digit radix).1 < radix := by
  unfold Entropy.digit
  have hradix := UInt32.le_iff_toNat_le.1 h
  have hpred : (radix - 1).toNat = radix.toNat - 1 :=
    UInt32.toNat_sub_of_le _ _ (UInt32.le_iff_toNat_le.2 (Nat.le_of_succ_le hradix))
  have hlt := radix.toNat_lt_size
  have hrest : (e.word e.used % (radix - 1)).toNat < radix.toNat - 1 := by
    rw [UInt32.toNat_mod, hpred]
    apply Nat.mod_lt
    have htwo : (2 : UInt32).toNat = 2 := rfl
    omega
  have hone : (1 : UInt32).toNat = 1 := rfl
  have hsum : (1 + e.word e.used % (radix - 1)).toNat =
      1 + (e.word e.used % (radix - 1)).toNat := by
    rw [UInt32.toNat_add, hone, Nat.mod_eq_of_lt]
    show _ < UInt32.size
    omega
  rw [UInt32.le_iff_toNat_le, UInt32.lt_iff_toNat_lt, hsum, hone]
  omega

namespace Allocator

section Slots

variable {fanout slot : Nat} {used : List Nat}

theorem leastFree?_isLeast (h : leastFree? fanout used = some slot) :
    IsLeast {k | 1 ≤ k ∧ k < fanout ∧ k ∉ used} slot := by
  refine ⟨leastFree?_spec h, ?_⟩
  rintro k ⟨hpos, -, hfree⟩
  unfold leastFree? at h
  obtain ⟨-, -, hbelow⟩ := List.find?_range'_eq_some.1 h
  by_contra hlt
  have hused := hbelow k hpos (Nat.lt_of_not_le hlt)
  simp only [Bool.not_not, List.contains_iff_mem] at hused
  exact hfree hused

/-- It is enough to look at one slot more than are in use. -/
theorem mem_of_leastFree?_eq_none (h : leastFree? fanout used = none) (hpos : 1 ≤ slot)
    (hlt : slot < fanout) : slot ∈ used := by
  have hall : ∀ k, 1 ≤ k → k < 1 + min (fanout - 1) (used.length + 1) → k ∈ used := by
    intro k hk hbound
    have hused := List.find?_range'_eq_none.1 h k hk hbound
    simpa only [Bool.not_not, List.contains_iff_mem] using hused
  -- So many different slots cannot all be in use.
  have hfew : ¬used.length + 1 ≤ fanout - 1 := by
    intro hmany
    rw [Nat.min_eq_right hmany] at hall
    have hsub : List.range' 1 (used.length + 1) ⊆ used := by
      intro k hk
      obtain ⟨hk, hbound⟩ := List.mem_range'_1.1 hk
      exact hall k hk hbound
    have hlength := (List.subperm_of_subset List.nodup_range' hsub).length_le
    rw [List.length_range'] at hlength
    omega
  apply hall slot hpos
  omega

end Slots

structure Untaken (naming : Naming) (entries : List Path) (slot : Nat) : Prop where
  pos : 1 ≤ slot
  lt : slot < naming.fanout.toNat
  unused : ∀ entry ∈ entries, ∀ n, entry.Takes n → n.toNat % naming.fanout.toNat ≠ slot

def Full (naming : Naming) (entries : List Path) : Prop :=
  (∀ slot, ¬Untaken naming entries slot) ∨
    ∃ numbered : List Path, numbered.Sublist entries ∧ naming.fanout.toNat ≤ numbered.length ∧
      ∀ entry ∈ numbered, ∃ n, entry.Takes n

/-- The way of a scan that is at the directory of `id`: the directories that are full, each of them a
directory in the one before, the directory after them, and the least place there that is not taken
up. -/
inductive Descent {σ : Type} [FileStore σ] (naming : Naming) (s : σ) :
    UInt32 → List UInt32 → UInt32 → Nat → Prop
  | stop {id : UInt32} {entries : List Path} {slot : Nat} :
    FileStore.list (naming.stem ⟨id⟩) s = .ok entries s →
    IsLeast {k | Untaken naming entries k} slot → Descent naming s id [] id slot
  | pass {id digit dir : UInt32} {entries : List Path} {passed : List UInt32} {slot : Nat} :
    FileStore.list (naming.stem ⟨id⟩) s = .ok entries s → Full naming entries →
    1 ≤ digit → digit < naming.fanout →
    Descent naming s (childDirectory naming.fanout id digit) passed dir slot →
    Descent naming s id (id :: passed) dir slot

variable {σ : Type} [FileStore σ] {naming : Naming} {w w' : World σ}

/-- A scan ends in a directory: its number has a zero for the lowest digit. -/
theorem Descent.mod_eq_zero {s : σ} {id dir : UInt32} {passed : List UInt32} {slot : Nat}
    (h : Descent naming s id passed dir slot) (hid : id % naming.fanout = 0) :
    dir % naming.fanout = 0 := by
  induction h with
  | stop => exact hid
  | pass _ _ _ _ _ ih => exact ih (childDirectory_mod _ _ _)

theorem Descent.exists_entries {s : σ} {id dir : UInt32} {passed : List UInt32} {slot : Nat}
    (h : Descent naming s id passed dir slot) :
    ∃ entries, FileStore.list (naming.stem ⟨dir⟩) s = .ok entries s ∧
      IsLeast {k | Untaken naming entries k} slot := by
  induction h with
  | stop hlist hleast => exact ⟨_, hlist, hleast⟩
  | pass _ _ _ _ _ ih => exact ih

variable [QuietStore σ]

/-- The numbers in a directory are those that its entries take up. -/
theorem entryNumbers_eq_ok {dir : Path} {numbers : List UInt32}
    (h : entryNumbers dir w = .ok numbers w') :
    w' = w ∧ ∃ entries, FileStore.list dir w.store = .ok entries w.store ∧
      numbers = entries.filterMap fun entry => entry.fileName?.bind entryNumber? := by
  unfold entryNumbers at h
  cases hlist : FileStore.list dir w.store with
  | ok entries s =>
    obtain rfl : s = w.store := by
      rw [← QuietStore.list_keeps dir w.store, Step.after_ok hlist]
    rw [Step.bind_ok (World.onStore_ok hlist)] at h
    cases h
    exact ⟨rfl, entries, rfl, rfl⟩
  | error e s =>
    rw [Step.bind_error (World.onStore_error hlist)] at h
    cases h

theorem untaken_iff {entries : List Path} {slot : Nat} : Untaken naming entries slot ↔
    1 ≤ slot ∧ slot < naming.fanout.toNat ∧
      slot ∉ (entries.filterMap fun entry => entry.fileName?.bind entryNumber?).map fun n =>
        (n % naming.fanout).toNat := by
  constructor
  · rintro ⟨hpos, hlt, hunused⟩
    refine ⟨hpos, hlt, fun hmem => ?_⟩
    obtain ⟨n, hn, hslot⟩ := List.mem_map.1 hmem
    obtain ⟨entry, hentry, hnumber⟩ := List.mem_filterMap.1 hn
    rw [UInt32.toNat_mod] at hslot
    exact hunused entry hentry n (Path.takes_iff.2 hnumber) hslot
  · rintro ⟨hpos, hlt, hfree⟩
    refine ⟨hpos, hlt, fun entry hentry n htakes hslot => hfree ?_⟩
    refine List.mem_map.2 ⟨n, List.mem_filterMap.2 ⟨entry, hentry, Path.takes_iff.1 htakes⟩, ?_⟩
    rw [UInt32.toNat_mod, hslot]

/-- Where there are as many numbers as places, as many entries take up a place. -/
theorem full_of_le_length {entries : List Path} (h : naming.fanout.toNat ≤
    (entries.filterMap fun entry => entry.fileName?.bind entryNumber?).length) :
    Full naming entries := by
  refine Or.inr ⟨entries.filter fun entry => (entry.fileName?.bind entryNumber?).isSome,
    List.filter_sublist, ?_, fun entry hentry => ?_⟩
  · rwa [List.length_filterMap_eq_countP, List.countP_eq_length_filter] at h
  · obtain ⟨n, hn⟩ := Option.isSome_iff_exists.1 (List.mem_filter.1 hentry).2
    exact ⟨n, Path.takes_iff.2 hn⟩

/-- A directory is left at its least place that is not taken up, or found full. -/
theorem vacancy?_eq_ok {id : UInt32} {place : Option Nat}
    (h : vacancy? naming id w = .ok place w') :
    w' = w ∧ ∃ entries, FileStore.list (naming.stem ⟨id⟩) w.store = .ok entries w.store ∧
      (∀ slot, place = some slot → IsLeast {k | Untaken naming entries k} slot) ∧
      (place = none → Full naming entries) := by
  unfold vacancy? at h
  obtain ⟨numbers, w₁, hnumbers, hrest⟩ := Step.bind_eq_ok h
  obtain ⟨rfl, entries, hlist, rfl⟩ := entryNumbers_eq_ok hnumbers
  split at hrest
  next hmany =>
    cases hrest
    exact ⟨rfl, entries, hlist, nofun, fun _ => full_of_le_length hmany⟩
  next =>
    have hset := Set.ext fun k => @untaken_iff naming entries k
    cases hrest
    refine ⟨rfl, entries, hlist, fun slot hslot => ?_, fun hnone => Or.inl fun slot hopen => ?_⟩
    · have hleast := leastFree?_isLeast hslot
      rwa [← hset] at hleast
    · obtain ⟨hpos, hlt, hfree⟩ := untaken_iff.1 hopen
      exact hfree (mem_of_leastFree?_eq_none hnone hpos hlt)

/-- Each probe is at a directory of the way, and the last one at its end. -/
theorem descent_of_placeFrom (hfanout : 2 ≤ naming.fanout) {maxProbes : UInt32}
    {probes : Nat} {id dir : UInt32} {slot : Nat}
    (h : placeFrom naming maxProbes probes id w = .ok (dir, slot) w') :
    ∃ passed, passed.length < probes ∧ Descent naming w.store id passed dir slot := by
  induction probes generalizing id w with
  | zero => cases h
  | succ probes ih =>
    rw [placeFrom] at h
    obtain ⟨place, w₁, hplace, hrest⟩ := Step.bind_eq_ok h
    obtain ⟨rfl, entries, hlist, hleast, hfull⟩ := vacancy?_eq_ok hplace
    cases place with
    | some slot' =>
      cases hrest
      exact ⟨[], Nat.succ_pos _, .stop hlist (hleast _ rfl)⟩
    | none =>
      obtain ⟨digit, w₂, hdigit, hrest⟩ := Step.bind_eq_ok hrest
      cases hdigit
      obtain ⟨hpos, hlt⟩ := w₁.entropy.digit_mem hfanout
      obtain ⟨passed, hlength, hdescent⟩ := ih hrest
      exact ⟨id :: passed, Nat.succ_lt_succ hlength, .pass hlist (hfull rfl) hpos hlt hdescent⟩

structure Place (naming : Naming) (id : ObjectId) (s : σ) : Prop where
  slot_ne : id.word % naming.fanout ≠ 0
  untaken : ∃ dir entries, (∀ owner, (naming.shardedPath owner id).parent? = some dir) ∧
    FileStore.list dir s = .ok entries s ∧
    ∀ entry ∈ entries, ∀ n, entry.Takes n → n % naming.fanout ≠ id.word % naming.fanout
  isFile_eq : ∀ owner, FileStore.isFile (naming.shardedPath owner id) s = false

omit [QuietStore σ] in
/-- A file would be an entry that takes up the place. -/
theorem place_of_untaken (hlists : Lists σ) {id : ObjectId} {s : σ} {entries : List Path}
    (hslot : id.word % naming.fanout ≠ 0)
    (hlist : FileStore.list (naming.shardDirectory id) s = .ok entries s)
    (hfree : ∀ entry ∈ entries, ∀ n, entry.Takes n → n % naming.fanout ≠ id.word % naming.fanout) :
    Place naming id s := by
  have hword : id.word ≠ 0 := by
    intro hzero
    rw [hzero, UInt32.zero_mod] at hslot
    exact hslot rfl
  have hdirectory := naming.endsInName_shardDirectory id
  refine ⟨hslot, ⟨_, entries, fun owner => parent?_shardedPath owner hslot, hlist, hfree⟩,
    fun owner => ?_⟩
  have hpath : naming.shardedPath owner id = (naming.shardDirectory id).join (fileName owner id) := by
    rw [shardedPath, stem, if_neg hslot,
      append_join (Numeral.write_ne_nil _) (Numeral.not_mem_write (by decide))]
    rfl
  have hname := isName_fileName owner id
  have hsteps := Path.components_join (naming.shardDirectory id) hname
  have hnonempty : (naming.shardDirectory id).spelling ≠ [] := by
    intro hnil
    apply Path.pieces_ne hdirectory
    unfold Path.pieces
    rw [hnil]
    rfl
  cases hfile : FileStore.isFile (naming.shardedPath owner id) s with
  | false => rfl
  | true =>
    rw [hpath] at hfile
    obtain ⟨entries', hlist', hmem⟩ :=
      hlists.listed hfile hsteps hnonempty (prefix_join _ hname.no_separator)
    cases hlist.symm.trans hlist'
    have htakes := (Path.takes_fileName (naming.shardDirectory id) owner hword).2 rfl
    exact absurd rfl (hfree _ hmem _ htakes)

omit [QuietStore σ] in
/-- The place at the end of the way of a scan is that of the id, as long as words reach. -/
theorem place_of_descent (hlists : Lists σ) {s : σ} {dir : UInt32} {passed : List UInt32} {slot : Nat}
    (h : Descent naming s 0 passed dir slot) (hfits : dir.toNat + slot < UInt32.size) :
    Place naming ⟨dir + UInt32.ofNat slot⟩ s := by
  obtain ⟨entries, hlist, ⟨hpos, hlt, hunused⟩, -⟩ := h.exists_entries
  have hdir := h.mod_eq_zero UInt32.zero_mod
  have hslot := place_mod_ne_zero hdir hpos hlt hfits
  rw [← naming.shardDirectory_place hdir hlt hfits] at hlist
  refine place_of_untaken hlists hslot hlist fun entry hentry n htakes hsame => ?_
  apply hunused entry hentry n htakes
  rw [← UInt32.toNat_mod, hsame, place_mod hdir hlt hfits]

/-- A counter stops at an id whose place is not taken up. -/
theorem place_of_isTaken (hlists : Lists σ) {id : ObjectId} {taken : Bool}
    (h : isTaken naming .sharded id w = .ok taken w') :
    w'.store = w.store ∧ (taken = false → Place naming id w.store) := by
  unfold isTaken isSlotTaken at h
  dsimp only at h
  split at h
  next =>
    cases h
    exact ⟨rfl, nofun⟩
  next hslot =>
    rw [naming.parent?_stem hslot] at h
    dsimp only at h
    obtain ⟨numbers, w₁, hnumbers, hrest⟩ := Step.bind_eq_ok h
    obtain ⟨rfl, entries, hlist, rfl⟩ := entryNumbers_eq_ok hnumbers
    cases hrest
    refine ⟨rfl, fun hfree => place_of_untaken hlists hslot hlist fun entry hentry n htakes hsame => ?_⟩
    have hmem : n ∈ entries.filterMap fun entry => entry.fileName?.bind entryNumber? :=
      List.mem_filterMap.2 ⟨entry, hentry, Path.takes_iff.1 htakes⟩
    exact List.any_eq_false.1 hfree n hmem (decide_eq_true hsame)

theorem place_of_countFrom (hlists : Lists σ) {counter fuel : Nat} {id : ObjectId}
    (h : countFrom naming .sharded counter fuel w = .ok id w') : Place naming id w.store := by
  induction fuel generalizing w with
  | zero => cases h
  | succ fuel ih =>
    rw [countFrom] at h
    obtain ⟨word, w₁, hnext, h⟩ := Step.bind_eq_ok h
    have hstore : w₁.store = w.store := by
      cases hnext
      rfl
    rw [← hstore]
    split at h
    · cases h
    obtain ⟨taken, w₂, htaken, h⟩ := Step.bind_eq_ok h
    obtain ⟨hsame, hplace⟩ := place_of_isTaken hlists htaken
    cases taken with
    | true =>
      rw [← hsame]
      exact ih h
    | false =>
      cases h
      exact hplace rfl

inductive Found (naming : Naming) (s : σ) : Allocator → ObjectId → Prop
  | scanned {maxProbes : UInt32} {passed : List UInt32} {dir : UInt32} {slot : Nat} :
    passed.length < maxProbes.toNat → Descent naming s 0 passed dir slot →
    (dir.toNat + slot < UInt32.size → Place naming ⟨dir + UInt32.ofNat slot⟩ s) →
    Found naming s (.scan maxProbes) ⟨dir + UInt32.ofNat slot⟩
  | counted {place : Nat} {id : ObjectId} : Place naming id s → Found naming s (.counter place) id

theorem found_of_allocate (hlists : Lists σ) (hfanout : 2 ≤ naming.fanout) {a : Allocator}
    {id : ObjectId} (h : allocate a naming .sharded w = .ok id w') : Found naming w.store a id := by
  cases a with
  | counter place => exact .counted (place_of_countFrom hlists h)
  | scan maxProbes =>
    unfold allocate at h
    dsimp only at h
    rw [scanFrom_eq] at h
    obtain ⟨⟨dir, slot⟩, w₁, hplace, hpure⟩ := Step.bind_eq_ok h
    cases hpure
    obtain ⟨passed, hlength, hdescent⟩ := descent_of_placeFrom hfanout hplace
    exact .scanned hlength hdescent (place_of_descent hlists hdescent)

/-- Whatever is in the store and whatever chance brings, an id that is found for a file in the tree has
a place that no entry of its directory takes up, and no file. A scan gets there through directories
that are full, and takes the least place. -/
theorem allocate_sharded_found (a : Allocator) (hfanout : 2 ≤ naming.fanout) :
    (∀ (w w' : World MemoryStore) (id : ObjectId), allocate a naming .sharded w = .ok id w' →
      Found naming w.store a id) ∧
    ∀ (w w' : World Disk) (id : ObjectId), allocate a naming .sharded w = .ok id w' →
      Found naming w.store a id :=
  ⟨fun _ _ _ h => found_of_allocate MemoryStore.lists hfanout h,
    fun _ _ _ h => found_of_allocate Disk.lists hfanout h⟩

def slender : Naming := ⟨.ofString "d/b", 2⟩

def occupied : World MemoryStore where
  store := Step.after (FileStore.create (slender.shardedPath .temp ⟨1⟩)) default

/-- A scan goes on to the next directory. -/
theorem allocate_sharded_found_next : 2 ≤ slender.fanout ∧
    allocate (.scan 2) slender .sharded occupied = .ok ⟨3⟩ { occupied with entropy := { used := 1 } } ∧
      Found slender occupied.store (.scan 2) ⟨3⟩ := by
  have hfound : allocate (.scan 2) slender .sharded occupied =
      .ok ⟨3⟩ { occupied with entropy := { used := 1 } } := rfl
  exact ⟨by decide, hfound, (allocate_sharded_found (.scan 2) (by decide)).1 _ _ _ hfound⟩

end Allocator

end LargeObjects

import Mathlib
import LargeObjects.Proofs.Digits
import LargeObjects.Proofs.Places

/-! How far down a scan can get. Chance draws no zeros, so the directories that a scan comes to have
none among their digits. Only the last directory of a tree has places for which there are no words.
Where that directory has no zero among its digits either, a scan of a tree that is full so far ends
behind the last word, and number zero is given out. -/
namespace LargeObjects

open Naming

namespace Allocator

/-- A tree with so many places in a directory has words for some places of its last directory only, and
no zero keeps chance from that directory. -/
structure Overruns (fanout : UInt32) : Prop where
  uneven : ¬fanout.toNat ∣ UInt32.size
  drawn : 0 ∉ digits fanout.toNat (lastWord.toNat / fanout.toNat)

instance (fanout : UInt32) : Decidable (Overruns fanout) :=
  decidable_of_iff (¬fanout.toNat ∣ UInt32.size ∧
    0 ∉ digits fanout.toNat (lastWord.toNat / fanout.toNat)) ⟨fun h => ⟨h.1, h.2⟩, fun h => ⟨h.1, h.2⟩⟩

structure Drawn (fanout dir : UInt32) : Prop where
  mod_eq : dir % fanout = 0
  zero_not_mem : 0 ∉ digits fanout.toNat (dir.toNat / fanout.toNat)

section Drawing

variable {fanout dir digit : UInt32} {slot : Nat}

theorem drawn_zero (fanout : UInt32) : Drawn fanout 0 := by
  refine ⟨UInt32.zero_mod, ?_⟩
  rw [UInt32.toNat_zero, Nat.zero_div]
  exact List.not_mem_nil

theorem Drawn.dvd (h : Drawn fanout dir) : fanout.toNat ∣ dir.toNat := by
  rw [Nat.dvd_iff_mod_eq_zero, ← UInt32.toNat_mod, h.mod_eq]
  rfl

theorem Drawn.childDirectory (hfanout : 2 ≤ fanout) (h : Drawn fanout dir) (hpos : 1 ≤ digit)
    (hlt : digit < fanout) : Drawn fanout (childDirectory fanout dir digit) := by
  refine ⟨childDirectory_mod _ _ _, ?_⟩
  have hradix := UInt32.le_iff_toNat_le.1 hfanout
  have hpos := UInt32.le_iff_toNat_le.1 hpos
  have hlt := UInt32.lt_iff_toNat_lt.1 hlt
  have hone : (1 : UInt32).toNat = 1 := rfl
  have htwo : (2 : UInt32).toNat = 2 := rfl
  unfold Allocator.childDirectory
  simp only
  split
  next hsize =>
    have hnumber : dir.toNat + digit.toNat < UInt32.size := by nlinarith
    rw [UInt32.toNat_ofNat_of_lt' hsize, Nat.mul_div_cancel _ (by omega),
      digits_of_ne_zero (by omega) (by omega) hnumber, Nat.add_div_of_dvd_right h.dvd,
      Nat.div_eq_of_lt hlt, Nat.add_zero, Nat.add_mod, Nat.dvd_iff_mod_eq_zero.1 h.dvd, Nat.zero_add,
      Nat.mod_mod, Nat.mod_eq_of_lt hlt, List.mem_append, List.mem_singleton]
    rintro (hmem | hzero)
    · exact h.zero_not_mem hmem
    · omega
  next => exact (drawn_zero fanout).zero_not_mem

/-- There are words for all places of a directory that chance can lead to, but for those of the last
one. -/
theorem Drawn.fits (h : Drawn fanout dir) (hslot : slot < fanout.toNat) (hover : ¬Overruns fanout) :
    dir.toNat + slot < UInt32.size := by
  by_contra hpast
  have hlast : lastWord.toNat = UInt32.size - 1 := rfl
  have hsize := dir.toNat_lt_size
  obtain ⟨number, hnumber⟩ := h.dvd
  -- Only the last directory goes on behind the last word.
  have hquotient : lastWord.toNat / fanout.toNat = number := by
    rw [Nat.div_eq_iff (by omega), hlast]
    constructor
    · rw [Nat.mul_comm]
      omega
    · rw [Nat.mul_comm]
      omega
  refine hover ⟨fun hdvd => ?_, ?_⟩
  · have hrest : fanout.toNat ∣ UInt32.size - dir.toNat := Nat.dvd_sub hdvd h.dvd
    have hle := Nat.le_of_dvd (by omega) hrest
    omega
  · have hdrawn := h.zero_not_mem
    rwa [hnumber, Nat.mul_div_cancel_left _ (by omega), ← hquotient] at hdrawn

end Drawing

variable {naming : Naming}

/-- Every directory that a scan comes to is one that chance can lead to. -/
theorem Descent.drawn {σ : Type} [FileStore σ] {s : σ} {id dir : UInt32} {passed : List UInt32}
    {slot : Nat} (hfanout : 2 ≤ naming.fanout) (h : Descent naming s id passed dir slot)
    (hid : Drawn naming.fanout id) :
    (∀ d ∈ passed, Drawn naming.fanout d) ∧ Drawn naming.fanout dir := by
  induction h with
  | stop => exact ⟨List.forall_mem_nil _, hid⟩
  | pass _ _ hpos hlt _ ih =>
    obtain ⟨hpassed, hdir⟩ := ih (hid.childDirectory hfanout hpos hlt)
    exact ⟨List.forall_mem_cons.2 ⟨hid, hpassed⟩, hdir⟩

section Filling

variable {σ : Type} [FileStore σ] [ReliableStore σ] {w : World σ}

open ReliableStore

/-- A directory is full when every place in it is taken up by a file. -/
theorem vacancy?_eq_none {id : UInt32} (hall : ∀ slot, 1 ≤ slot → slot < naming.fanout.toNat →
    ∃ name n, (fileAt? w.store ((naming.stem ⟨id⟩).components ++ [.name name])).isSome ∧
      entryNumber? name = some n ∧ (n % naming.fanout).toNat = slot) :
    vacancy? naming id w = .ok none w := by
  obtain ⟨place, hplace, hvacant⟩ := vacancy?_ok naming id w
  cases place with
  | none => exact hplace
  | some slot =>
    obtain ⟨hpos, hlt, hfree⟩ := hvacant slot rfl
    obtain ⟨name, n, hfile, hnumber, hslot⟩ := hall slot hpos hlt
    exact absurd hslot (hfree name n hfile hnumber)

end Filling

def Brimming (naming : Naming) (s : MemoryStore) : Prop :=
  ∀ place, (s.at? place).isSome ↔ ∃ id : ObjectId, id.word % naming.fanout ≠ 0 ∧
    place = (naming.shardedPath .temp id).components

theorem exists_holding (paths : List Path) : ∃ s : MemoryStore, ∀ place,
    (s.at? place).isSome ↔ ∃ p ∈ paths, place = p.components := by
  induction paths with
  | nil => exact ⟨default, fun place => ⟨nofun, fun ⟨_, hmem, _⟩ => nomatch hmem⟩⟩
  | cons p paths ih =>
    obtain ⟨s, hs⟩ := ih
    refine ⟨s.put p [], fun place => ?_⟩
    rw [MemoryStore.at?_put, List.exists_mem_cons_iff, ← hs]
    split
    next heq => exact ⟨fun _ => Or.inl heq.symm, fun _ => rfl⟩
    next hne => exact ⟨Or.inr, fun h => h.resolve_left fun heq => hne heq.symm⟩

theorem exists_brimming (naming : Naming) : ∃ s, Brimming naming s := by
  obtain ⟨s, hs⟩ := exists_holding (((List.range UInt32.size).map fun n => ObjectId.mk (.ofNat n)).filter
    (fun id => id.word % naming.fanout ≠ 0) |>.map (naming.shardedPath .temp))
  refine ⟨s, fun place => (hs place).trans ?_⟩
  constructor
  · rintro ⟨p, hmem, rfl⟩
    obtain ⟨id, hid, rfl⟩ := List.mem_map.1 hmem
    exact ⟨id, of_decide_eq_true (List.mem_filter.1 hid).2, rfl⟩
  · rintro ⟨id, hslot, rfl⟩
    refine ⟨_, List.mem_map.2 ⟨id, List.mem_filter.2 ⟨?_, decide_eq_true hslot⟩, rfl⟩, rfl⟩
    refine List.mem_map.2 ⟨id.word.toNat, List.mem_range.2 id.word.toNat_lt_size, ?_⟩
    rw [UInt32.ofNat_toNat]

namespace Brimming

variable {w : World MemoryStore} {dir : UInt32} {slot : Nat}

/-- There is a file at each place for which there is a word. -/
theorem isSome_place (h : Brimming naming w.store) (hdir : dir % naming.fanout = 0) (hpos : 1 ≤ slot)
    (hlt : slot < naming.fanout.toNat) (hfits : dir.toNat + slot < UInt32.size) :
    (w.store.at? ((naming.stem ⟨dir⟩).components ++
      [.name (fileName .temp ⟨dir + UInt32.ofNat slot⟩)])).isSome := by
  have hslot := place_mod_ne_zero hdir hpos hlt hfits
  refine (h _).2 ⟨⟨dir + UInt32.ofNat slot⟩, hslot, ?_⟩
  rw [components_shardedPath _ _ hslot, naming.shardDirectory_place hdir hlt hfits]

/-- Every directory but the last is full. -/
theorem vacancy?_before (h : Brimming naming w.store) (hdir : dir % naming.fanout = 0)
    (hfits : dir.toNat + naming.fanout.toNat ≤ UInt32.size) :
    vacancy? naming dir w = .ok none w := by
  apply vacancy?_eq_none
  intro slot hpos hlt
  have hfits' : dir.toNat + slot < UInt32.size := by omega
  exact ⟨_, dir + UInt32.ofNat slot, h.isSome_place hdir hpos hlt hfits',
    entryNumber?_fileName _ (place_ne_zero hpos hfits'), place_mod hdir hlt hfits'⟩

/-- In the last directory are the files of the last words, and nothing else. -/
theorem mem_children_last {s : MemoryStore} {c : Component} (hfanout : 2 ≤ naming.fanout)
    (h : Brimming naming s) (hdir : dir % naming.fanout = 0)
    (hlast : UInt32.size ≤ dir.toNat + naming.fanout.toNat)
    (hc : c ∈ s.children (naming.stem ⟨dir⟩)) :
    ∃ slot, 1 ≤ slot ∧ dir.toNat + slot < UInt32.size ∧
      c = .name (fileName .temp ⟨dir + UInt32.ofNat slot⟩) := by
  have hradix := two_le_toNat hfanout
  have hzero : dir.toNat % naming.fanout.toNat = 0 := by
    rw [← UInt32.toNat_mod, hdir]
    rfl
  have hstem : naming.stem ⟨dir⟩ = naming.shardDirectory ⟨dir⟩ := if_pos hdir
  obtain ⟨rest, hfile⟩ := MemoryStore.mem_children_iff.1 hc
  obtain ⟨⟨word⟩, hslot, hplace⟩ := (h _).1 hfile
  rw [components_shardedPath _ _ hslot, hstem, components_shardDirectory, components_shardDirectory,
    List.append_assoc, List.append_assoc, List.append_cancel_left_eq, List.cons_append,
    List.cons_append, List.cons.injEq, eq_self, true_and] at hplace
  -- No object is in a directory further down, for its number would have more digits.
  have hword := word.toNat_lt_size
  have hquotient : word.toNat / naming.fanout.toNat ≤ dir.toNat / naming.fanout.toNat := by
    obtain ⟨number, hnumber⟩ := Nat.dvd_of_mod_eq_zero hzero
    rw [hnumber, Nat.mul_div_cancel_left _ (by omega)]
    refine Nat.le_of_lt_succ (Nat.div_lt_of_lt_mul ?_)
    rw [Nat.mul_succ]
    omega
  have hdigits := length_digits_mono hradix hquotient
    (Nat.lt_of_le_of_lt (Nat.div_le_self _ _) dir.toNat_lt_size)
  have hlength := congrArg List.length hplace
  simp only [List.length_append, List.length_cons, List.length_nil, directorySteps,
    List.length_map] at hlength
  obtain rfl : rest = [] := List.length_eq_zero_iff.1 (by omega)
  obtain ⟨hsteps, hname⟩ := List.append_inj' hplace rfl
  have hsame : dir.toNat / naming.fanout.toNat = word.toNat / naming.fanout.toNat :=
    quotient_eq_of_directorySteps hfanout hsteps
  have hplaced : word.toNat = dir.toNat + word.toNat % naming.fanout.toNat := by
    have hdiv := Nat.div_add_mod word.toNat naming.fanout.toNat
    have hdiv' := Nat.div_add_mod dir.toNat naming.fanout.toNat
    rw [← hsame] at hdiv
    omega
  have hid : dir + UInt32.ofNat (word.toNat % naming.fanout.toNat) = word := by
    apply UInt32.toNat_inj.1
    rw [toNat_place (hplaced ▸ hword), ← hplaced]
  refine ⟨word.toNat % naming.fanout.toNat, Nat.one_le_iff_ne_zero.2 fun hnil => hslot ?_,
    hplaced ▸ hword, ?_⟩
  · apply UInt32.toNat_inj.1
    rw [UInt32.toNat_mod, hnil, UInt32.toNat_zero]
  · rw [hid]
    exact List.singleton_inj.1 hname

/-- An entry of the last directory takes up a place for which there is a word. -/
theorem takes_last (hfanout : 2 ≤ naming.fanout) (h : Brimming naming w.store)
    (hdir : dir % naming.fanout = 0) (hlast : UInt32.size ≤ dir.toNat + naming.fanout.toNat)
    {entry : Path} {n : UInt32} (hentry : entry ∈ w.store.entries (naming.stem ⟨dir⟩))
    (htakes : entry.Takes n) : dir.toNat + n.toNat % naming.fanout.toNat < UInt32.size := by
  obtain ⟨c, hc, rfl⟩ := List.mem_map.1 hentry
  obtain ⟨slot, hpos, hfits, rfl⟩ := h.mem_children_last hfanout hdir hlast hc
  have hmod := place_mod hdir (show slot < naming.fanout.toNat by omega) hfits
  rw [← (Path.takes_fileName _ _ (place_ne_zero hpos hfits)).1 htakes, ← UInt32.toNat_mod, hmod]
  exact hfits

/-- There are no more entries in the last directory than words for its places. -/
theorem length_entries_last {s : MemoryStore} (hfanout : 2 ≤ naming.fanout) (h : Brimming naming s)
    (hdir : dir % naming.fanout = 0) (hlast : UInt32.size ≤ dir.toNat + naming.fanout.toNat) :
    dir.toNat + (s.entries (naming.stem ⟨dir⟩)).length < UInt32.size := by
  have hsize := dir.toNat_lt_size
  have hsub : s.children (naming.stem ⟨dir⟩) ⊆ (List.range' 1 (UInt32.size - 1 - dir.toNat)).map
      fun slot => .name (fileName .temp ⟨dir + UInt32.ofNat slot⟩) := by
    intro c hc
    obtain ⟨slot, hpos, hfits, rfl⟩ := h.mem_children_last hfanout hdir hlast hc
    exact List.mem_map.2 ⟨slot, List.mem_range'_1.2 ⟨hpos, by omega⟩, rfl⟩
  have hlength := (List.subperm_of_subset (s.nodup_children _) hsub).length_le
  rw [List.length_map, List.length_range'] at hlength
  rw [MemoryStore.entries, List.length_map]
  omega

/-- In the last directory the first place for which there is no word is left. -/
theorem vacancy?_last (hfanout : 2 ≤ naming.fanout) (h : Brimming naming w.store)
    (hdir : dir % naming.fanout = 0) (hlast : UInt32.size < dir.toNat + naming.fanout.toNat) :
    vacancy? naming dir w = .ok (some (UInt32.size - dir.toNat)) w := by
  have hsize := dir.toNat_lt_size
  obtain ⟨place, hplace, -⟩ := vacancy?_ok naming dir w
  obtain ⟨-, entries, hlist, hleast, hfull⟩ := vacancy?_eq_ok hplace
  obtain rfl : w.store.entries (naming.stem ⟨dir⟩) = entries := by
    cases hlist
    rfl
  have hopen : Untaken naming (w.store.entries (naming.stem ⟨dir⟩)) (UInt32.size - dir.toNat) := by
    refine ⟨by omega, by omega, fun entry hentry n htakes heq => ?_⟩
    have hword := h.takes_last hfanout hdir hlast.le hentry htakes
    omega
  cases place with
  | none =>
    rcases hfull rfl with hall | ⟨numbered, hsub, hmany, -⟩
    · exact absurd hopen (hall _)
    · have hfew := h.length_entries_last hfanout hdir hlast.le
      have hlength := hsub.length_le
      omega
  | some slot =>
    obtain ⟨⟨hpos, hlt, hunused⟩, hleast⟩ := hleast slot rfl
    have hle : slot ≤ UInt32.size - dir.toNat := hleast hopen
    obtain hlt' | rfl := Nat.lt_or_eq_of_le hle
    · -- The places before are those of files.
      have hfits : dir.toNat + slot < UInt32.size := by omega
      have hchild := MemoryStore.mem_children (h.isSome_place hdir hpos hlt hfits)
      have hmod := place_mod hdir hlt hfits
      rw [UInt32.toNat_mod] at hmod
      refine absurd hmod (hunused _ (List.mem_map_of_mem hchild) _ ?_)
      exact (Path.takes_fileName _ _ (place_ne_zero hpos hfits)).2 rfl
    · exact hplace

end Brimming

section Way

def spellingOut (radix number : Nat) : Entropy where
  word i := UInt32.ofNat ((digits radix number).getD i 0 - 1)

theorem digit_of_word {e : Entropy} {radix : UInt32} {digit : Nat} (hpos : 1 ≤ digit)
    (hlt : digit < radix.toNat) (hword : e.word e.used = UInt32.ofNat (digit - 1)) :
    e.digit radix = (UInt32.ofNat digit, { e with used := e.used + 1 }) := by
  have hsize := radix.toNat_lt_size
  have hone : (1 : UInt32).toNat = 1 := rfl
  have hpred : (radix - 1).toNat = radix.toNat - 1 :=
    UInt32.toNat_sub_of_le _ _ (UInt32.le_iff_toNat_le.2 (by omega))
  have hrest : (UInt32.ofNat (digit - 1) % (radix - 1)).toNat = digit - 1 := by
    rw [UInt32.toNat_mod, hpred, UInt32.toNat_ofNat_of_lt' (by omega), Nat.mod_eq_of_lt (by omega)]
  have hsum : 1 + UInt32.ofNat (digit - 1) % (radix - 1) = UInt32.ofNat digit := by
    apply UInt32.toNat_inj.1
    rw [UInt32.toNat_add, hrest, hone, UInt32.toNat_ofNat', Nat.add_sub_cancel' hpos]
  unfold Entropy.digit
  rw [hword, hsum]

/-- From a full directory a scan goes on to the one that chance draws. -/
theorem placeFrom_full {σ : Type} [FileStore σ] {w : World σ} {id : UInt32} {digit : Nat}
    (hfull : vacancy? naming id w = .ok none w) (hpos : 1 ≤ digit) (hlt : digit < naming.fanout.toNat)
    (hword : w.entropy.word w.entropy.used = UInt32.ofNat (digit - 1)) (maxProbes : UInt32)
    (probes : Nat) :
    placeFrom naming maxProbes (probes + 1) id w =
      placeFrom naming maxProbes probes (childDirectory naming.fanout id (UInt32.ofNat digit))
        { w with entropy := { w.entropy with used := w.entropy.used + 1 } } := by
  have hdraw : World.randomDigit naming.fanout w = .ok (UInt32.ofNat digit)
      { w with entropy := { w.entropy with used := w.entropy.used + 1 } } := by
    unfold World.randomDigit
    rw [digit_of_word hpos hlt hword]
  rw [placeFrom, Step.bind_ok hfull]
  exact Step.bind_ok hdraw

theorem childDirectory_ofNat {fanout : UInt32} {n : Nat} (hfanout : 0 < fanout.toNat)
    (hfits : n * fanout.toNat < UInt32.size) :
    childDirectory fanout (UInt32.ofNat (n / fanout.toNat * fanout.toNat))
      (UInt32.ofNat (n % fanout.toNat)) = UInt32.ofNat (n * fanout.toNat) := by
  have hle := Nat.le_mul_of_pos_right n hfanout
  have hnumber := Nat.div_add_mod' n fanout.toNat
  unfold childDirectory
  rw [UInt32.toNat_ofNat_of_lt' (by omega), UInt32.toNat_ofNat_of_lt' (by omega), hnumber]
  exact if_pos hfits

def spelledTo (s : MemoryStore) (radix number used : Nat) : World MemoryStore where
  store := s
  entropy := { spellingOut radix number with used := used }

/-- Through full directories chance can lead a scan to any directory that has no zero among its
digits. -/
theorem placeFrom_way {s : MemoryStore} {top n : Nat} (hfanout : 2 ≤ naming.fanout)
    (h : Brimming naming s) (hdrawn : 0 ∉ digits naming.fanout.toNat top)
    (hway : digits naming.fanout.toNat n <+: digits naming.fanout.toNat top)
    (hfits : n * naming.fanout.toNat < UInt32.size) (maxProbes : UInt32) (rest : Nat) :
    placeFrom naming maxProbes ((digits naming.fanout.toNat n).length + rest) 0
        (spelledTo s naming.fanout.toNat top 0) =
      placeFrom naming maxProbes rest (UInt32.ofNat (n * naming.fanout.toNat))
        (spelledTo s naming.fanout.toNat top (digits naming.fanout.toNat n).length) := by
  have hradix := two_le_toNat hfanout
  induction n using Nat.strong_induction_on generalizing rest with
  | _ n ih =>
    by_cases hn : n = 0
    · subst hn
      rw [Nat.zero_mul, show digits naming.fanout.toNat 0 = [] from rfl, List.length_nil, Nat.zero_add]
      rfl
    · have hle := Nat.le_mul_of_pos_right n (show 0 < naming.fanout.toNat by omega)
      have hless := Nat.div_lt_self (Nat.pos_of_ne_zero hn) hradix
      have hbelow := Nat.mul_le_mul_right naming.fanout.toNat (Nat.succ_le_of_lt hless)
      rw [Nat.succ_mul] at hbelow
      have hbefore : n / naming.fanout.toNat * naming.fanout.toNat < UInt32.size := by omega
      -- The highest digits lead to the directory before, which is not the last one and so full.
      rw [digits_of_ne_zero hradix hn (Nat.lt_of_le_of_lt hle hfits)] at hway ⊢
      rw [List.length_append, List.length_singleton, Nat.add_assoc,
        ih _ hless ((List.prefix_append _ _).trans hway) hbefore, Nat.add_comm 1 rest,
        ← childDirectory_ofNat (by omega) hfits]
      refine placeFrom_full (h.vacancy?_before ?_ ?_) ?_ (Nat.mod_lt _ (by omega)) ?_ maxProbes rest
      · apply UInt32.toNat_inj.1
        rw [UInt32.toNat_mod, UInt32.toNat_ofNat_of_lt' hbefore, Nat.mul_mod_left, UInt32.toNat_zero]
      · rw [UInt32.toNat_ofNat_of_lt' hbefore]
        omega
      · refine Nat.one_le_iff_ne_zero.2 fun hzero => hdrawn (hway.subset ?_)
        rw [hzero]
        exact List.mem_append_right _ List.mem_cons_self
      · obtain ⟨more, hmore⟩ := hway
        show UInt32.ofNat ((digits naming.fanout.toNat top).getD
          (digits naming.fanout.toNat (n / naming.fanout.toNat)).length 0 - 1) = _
        rw [← hmore, List.append_assoc, List.getD_append_right _ _ _ _ (Nat.le_refl _), Nat.sub_self]
        rfl

/-- There are no words for the last places of the last directory. -/
theorem Overruns.past {fanout : UInt32} (hfanout : 0 < fanout.toNat) (h : Overruns fanout) :
    UInt32.size < lastWord.toNat / fanout.toNat * fanout.toNat + fanout.toNat := by
  have hlast := Nat.lt_mul_div_succ lastWord.toNat hfanout
  rw [Nat.mul_succ, Nat.mul_comm] at hlast
  refine Nat.lt_of_le_of_ne hlast fun heq => h.uneven ?_
  exact ⟨lastWord.toNat / fanout.toNat + 1, heq.trans (by rw [Nat.mul_succ, Nat.mul_comm])⟩

/-- Where every object that can have a file has one, chance can lead a scan to the last directory, and
there to the first place for which there is no word. -/
theorem exists_placeFrom_past {s : MemoryStore} (maxProbes : UInt32) (hfanout : 2 ≤ naming.fanout)
    (h : Brimming naming s) (hover : Overruns naming.fanout)
    (hdeep : (digits naming.fanout.toNat (lastWord.toNat / naming.fanout.toNat)).length <
      maxProbes.toNat) :
    ∃ (w w' : World MemoryStore) (dir : UInt32) (slot : Nat), w.store = s ∧
      placeFrom naming maxProbes maxProbes.toNat 0 w = .ok (dir, slot) w' ∧
      dir.toNat + slot = UInt32.size := by
  have hradix := two_le_toNat hfanout
  have hpast := hover.past (by omega)
  have hdrawn := hover.drawn
  have hfits := Nat.lt_of_le_of_lt (Nat.div_mul_le_self lastWord.toNat naming.fanout.toNat)
    lastWord.toNat_lt_size
  generalize lastWord.toNat / naming.fanout.toNat = top at hpast hdrawn hfits hdeep
  obtain ⟨rest, hprobes⟩ := Nat.exists_eq_add_of_lt hdeep
  have hdir := UInt32.toNat_ofNat_of_lt' hfits
  have hzero : UInt32.ofNat (top * naming.fanout.toNat) % naming.fanout = 0 := by
    apply UInt32.toNat_inj.1
    rw [UInt32.toNat_mod, hdir, Nat.mul_mod_left, UInt32.toNat_zero]
  have hplace := h.vacancy?_last (w := spelledTo s naming.fanout.toNat top
    (digits naming.fanout.toNat top).length) hfanout hzero (by rwa [hdir])
  refine ⟨spelledTo s naming.fanout.toNat top 0, spelledTo s naming.fanout.toNat top
    (digits naming.fanout.toNat top).length, UInt32.ofNat (top * naming.fanout.toNat),
    UInt32.size - (UInt32.ofNat (top * naming.fanout.toNat)).toNat, rfl, ?_, ?_⟩
  · rw [hprobes, Nat.add_assoc, placeFrom_way hfanout h hdrawn (List.prefix_refl _) hfits, placeFrom,
      Step.bind_ok hplace]
    rfl
  · rw [hdir, Nat.add_sub_cancel' hfits.le]

end Way

/-- Short of the places for which there are no words, a scan ends at one for which there is one. -/
theorem placeFrom_fits {σ : Type} [FileStore σ] [QuietStore σ] {w w' : World σ} {maxProbes dir : UInt32}
    {probes slot : Nat} (hfanout : 2 ≤ naming.fanout) (hover : ¬Overruns naming.fanout)
    (h : placeFrom naming maxProbes probes 0 w = .ok (dir, slot) w') :
    dir % naming.fanout = 0 ∧ 1 ≤ slot ∧ dir.toNat + slot < UInt32.size := by
  obtain ⟨passed, -, hdescent⟩ := descent_of_placeFrom hfanout h
  obtain ⟨-, hdrawn⟩ := hdescent.drawn hfanout (drawn_zero _)
  obtain ⟨entries, -, ⟨hpos, hlt, -⟩, -⟩ := hdescent.exists_entries
  exact ⟨hdrawn.mod_eq, hpos, hdrawn.fits hlt hover⟩

/-- A scan keeps within the words, whatever is in the store and whatever chance brings, if and only if
the words fill the last directory or a zero keeps chance from it. -/
theorem scan_in_words_iff (hfanout : 2 ≤ naming.fanout) :
    (∀ (σ : Type) [FileStore σ] [QuietStore σ] (maxProbes : UInt32) (w w' : World σ) (dir : UInt32)
      (slot : Nat), placeFrom naming maxProbes maxProbes.toNat 0 w = .ok (dir, slot) w' →
        dir.toNat + slot < UInt32.size) ↔ ¬Overruns naming.fanout := by
  constructor
  · intro hwords hover
    obtain ⟨s, hs⟩ := exists_brimming naming
    obtain ⟨w, w', dir, slot, -, hplace, hsum⟩ := exists_placeFrom_past 33 hfanout hs
      hover (Nat.lt_succ_of_le (length_digits_le _ _))
    exact absurd hsum (hwords MemoryStore 33 w w' dir slot hplace).ne
  · intro hover σ _ _ maxProbes w w' dir slot hplace
    exact (placeFrom_fits hfanout hover hplace).2.2

/-- Otherwise, and only then, a scan can give out number zero, which no object has. -/
theorem scan_gives_zero_iff (hfanout : 2 ≤ naming.fanout) :
    (∃ (maxProbes : UInt32) (w w' : World MemoryStore),
      allocate (.scan maxProbes) naming .sharded w = .ok ⟨0⟩ w') ↔ Overruns naming.fanout := by
  simp only [allocate, scanFrom_eq]
  constructor
  · rintro ⟨maxProbes, w, w', h⟩
    obtain ⟨⟨dir, slot⟩, w₁, hplace, hpure⟩ := Step.bind_eq_ok h
    injection hpure with hid
    by_contra hover
    obtain ⟨-, hpos, hfits⟩ := placeFrom_fits hfanout hover hplace
    exact place_ne_zero hpos hfits (congrArg ObjectId.word hid)
  · intro hover
    obtain ⟨s, hs⟩ := exists_brimming naming
    obtain ⟨w, w', dir, slot, -, hplace, hsum⟩ := exists_placeFrom_past 33 hfanout hs
      hover (Nat.lt_succ_of_le (length_digits_le _ _))
    have hzero : dir + UInt32.ofNat slot = 0 := by
      rw [← UInt32.ofNat_toNat (x := dir), ← UInt32.ofNat_add, hsum]
      rfl
    refine ⟨33, w, w', ?_⟩
    rw [Step.bind_ok hplace]
    exact congrArg (fun word => EStateM.Result.ok (ObjectId.mk word) w') hzero

/-- With the usual number of places the words fill the last directory. With three a zero is in the way
to it. With ten neither is so. -/
example : ¬Overruns 256 ∧ ¬Overruns 3 ∧ Overruns 10 := by decide

end Allocator

/-- A tree that is no place short of words needs no care for the ids that are found by a scan. -/
theorem Database.fits_of_scan {σ : Type} [FileStore σ] [QuietStore σ] {db : Database}
    {maxProbes : UInt32} (hscan : db.allocator = .scan maxProbes) (hfanout : 2 ≤ db.naming.fanout)
    (hover : ¬Allocator.Overruns db.naming.fanout) (w : World σ) : db.Fits w := by
  unfold Fits
  rw [hscan]
  exact fun dir slot w' hplace => (Allocator.placeFrom_fits hfanout hover hplace).2.2

end LargeObjects

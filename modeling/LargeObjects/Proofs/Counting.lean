import Mathlib
import LargeObjects.Proofs.Allocating

/-! Ids from a counter. The ids that it gives out grow until it runs out, whatever becomes of the store
between the searches. Then it starts over at zero. -/
namespace LargeObjects

open Step

variable {σ : Type}

namespace World

variable {w : World σ} {place : Nat} {count : UInt32}

def Counter (w : World σ) (place : Nat) (count : UInt32) : Prop := w.counters[place]? = some count

def setCounter (w : World σ) (place : Nat) (count : UInt32) : World σ :=
  { w with counters := w.counters.set place count }

theorem counter_iff : w.Counter place count ↔
    place < w.counters.length ∧ w.counters.getD place 0 = count := by
  unfold Counter
  rw [List.getElem?_eq_some_iff]
  constructor
  · rintro ⟨hlt, hget⟩
    exact ⟨hlt, by rw [List.getD_eq_getElem _ _ hlt, hget]⟩
  · rintro ⟨hlt, hget⟩
    exact ⟨hlt, by rw [← hget, List.getD_eq_getElem _ _ hlt]⟩

@[simp]
theorem setCounter_setCounter (count' : UInt32) :
    (w.setCounter place count).setCounter place count' = w.setCounter place count' := by
  unfold setCounter
  rw [List.set_set]

theorem Counter.set (h : w.Counter place count) (count' : UInt32) :
    (w.setCounter place count').Counter place count' := by
  obtain ⟨hlt, -⟩ := List.getElem?_eq_some_iff.1 h
  exact List.getElem?_set_self hlt

theorem nextCount_eq (h : w.Counter place count) :
    nextCount place w = .ok count (w.setCounter place (count + 1)) := by
  have hmoved : w.counters.modify place (· + 1) = w.counters.set place (count + 1) := by
    rw [List.modify_eq_set_getElem?, h]
    rfl
  unfold nextCount setCounter
  rw [hmoved, List.getD_eq_getElem?_getD, h]
  rfl

end World

namespace Allocator

variable {naming : Naming} {layout : Layout} {place fuel : Nat} {start : UInt32} {w w' : World σ}

theorem le_last (word : UInt32) : word ≤ lastWord := by
  rw [UInt32.le_iff_toNat_le]
  exact Nat.le_pred_of_lt word.toNat_lt_size

theorem ne_last_of_lt {word bound : UInt32} (h : word < bound) : word ≠ lastWord := by
  rintro rfl
  exact UInt32.not_le.2 h (le_last bound)

theorem lt_add_one_of_ne_last {count : UInt32} (h : count ≠ lastWord) : count < count + 1 := by
  rw [UInt32.lt_iff_toNat_lt, UInt32.toNat_add, UInt32.toNat_one]
  have hne : count.toNat ≠ 4294967295 := fun heq => h (UInt32.toNat_inj.1 heq)
  have hlt := count.toNat_lt
  omega

theorem toNat_add_one {word : UInt32} (h : word ≠ lastWord) : (word + 1).toNat = word.toNat + 1 := by
  have hlt := UInt32.lt_iff_toNat_lt.1 (lt_add_one_of_ne_last h)
  have hsum := UInt32.toNat_add word 1
  have hone : (1 : UInt32).toNat = 1 := rfl
  omega

theorem eq_or_add_one_le {word : UInt32} (hstart : start ≠ lastWord) (hle : start ≤ word) :
    word = start ∨ start + 1 ≤ word := by
  rw [UInt32.le_iff_toNat_le] at hle ⊢
  rw [toNat_add_one hstart, ← UInt32.toNat_inj]
  omega

theorem max_one_ne_zero (word : UInt32) : max word 1 ≠ 0 := by
  show (if word ≤ 1 then 1 else word) ≠ 0
  split
  · decide
  next hle =>
    rintro rfl
    exact hle (by decide)

theorem counter_of_countingFrom {a : Allocator} {first : UInt32} {w₀ : World σ}
    (h : countingFrom first w₀ = .ok a w) :
    ∃ place start, a = counter place ∧ w.Counter place start ∧ start ≠ 0 := by
  cases h
  exact ⟨w₀.counters.length, max first 1, rfl, List.getElem?_concat_length, max_one_ne_zero first⟩

inductive Counts (place : Nat) (start : UInt32) :
    EStateM.Result ObjectError (World σ) ObjectId → Prop
  | found {id : ObjectId} {w' : World σ} : start ≤ id.word → id.word ≠ lastWord →
    w'.Counter place (id.word + 1) → Counts place start (.ok id w')
  | exhausted {w' : World σ} : w'.Counter place 0 →
    Counts place start (.error (.allocationExhausted lastWord) w')
  | failed {e : StoreError} {next : UInt32} {w' : World σ} : start ≤ next →
    w'.Counter place next → Counts place start (.error (.storage e) w')

theorem Counts.mono {earlier : UInt32} {r : EStateM.Result ObjectError (World σ) ObjectId}
    (h : Counts place start r) (hle : earlier ≤ start) : Counts place earlier r := by
  cases h with
  | found hfrom hlast hcounter => exact .found (UInt32.le_trans hle hfrom) hlast hcounter
  | exhausted hcounter => exact .exhausted hcounter
  | failed hfrom hcounter => exact .failed (UInt32.le_trans hle hfrom) hcounter

variable [FileStore σ]

/-- One step of a search that counts. -/
theorem countFrom_step (hcounter : w.Counter place start) :
    countFrom naming layout place (fuel + 1) w =
      if start = lastWord then .error (.allocationExhausted start) (w.setCounter place (start + 1))
      else (do
        if ← isTaken naming layout ⟨start⟩ then countFrom naming layout place fuel
        else return ⟨start⟩) (w.setCounter place (start + 1)) := by
  rw [countFrom, bind_ok (World.nextCount_eq hcounter)]
  by_cases hlast : start = lastWord
  · rw [if_pos hlast, if_pos hlast]
    rfl
  · rw [if_neg hlast, if_neg hlast]

theorem entryNumbers_counters (dir : Path) (w : World σ) :
    (∃ numbers s, entryNumbers dir w = .ok numbers { w with store := s }) ∨
      ∃ e s, entryNumbers dir w = .error (.storage e) { w with store := s } := by
  unfold entryNumbers
  cases hlist : FileStore.list dir w.store with
  | ok entries s =>
    rw [bind_ok (World.onStore_ok hlist)]
    exact Or.inl ⟨_, s, rfl⟩
  | error e s =>
    rw [bind_error (World.onStore_error hlist)]
    exact Or.inr ⟨e, s, rfl⟩

/-- To see whether an id is taken, only the store is asked. -/
theorem isTaken_counters (naming : Naming) (layout : Layout) (id : ObjectId) (w : World σ) :
    (∃ taken s, isTaken naming layout id w = .ok taken { w with store := s }) ∨
      ∃ e s, isTaken naming layout id w = .error (.storage e) { w with store := s } := by
  cases layout with
  | flat => exact Or.inl ⟨_, w.store, rfl⟩
  | sharded =>
    unfold isTaken isSlotTaken
    dsimp only
    split
    · exact Or.inl ⟨true, w.store, rfl⟩
    cases (naming.stem id).parent? with
    | none => exact Or.inl ⟨false, w.store, rfl⟩
    | some dir =>
      dsimp only
      obtain ⟨numbers, s, hrun⟩ | ⟨e, s, hrun⟩ := entryNumbers_counters dir w
      · rw [bind_ok hrun]
        exact Or.inl ⟨_, s, rfl⟩
      · rw [bind_error hrun]
        exact Or.inr ⟨e, s, rfl⟩

/-- The last word is always reached, so a search never just breaks off. -/
theorem countFrom_counts (hcounter : w.Counter place start)
    (hfuel : UInt32.size ≤ start.toNat + fuel) :
    Counts place start (countFrom naming layout place fuel w) := by
  induction fuel generalizing w start with
  | zero =>
    -- There are fewer words from `start` on than there is fuel, so it is never spent.
    have hlt := start.toNat_lt_size
    omega
  | succ fuel ih =>
    have hmoved := hcounter.set (start + 1)
    rw [countFrom_step hcounter]
    split
    next hlast =>
      -- The counter has gone round before the word is looked at.
      have hwraps : start + 1 = 0 := by
        rw [hlast]
        rfl
      rw [hwraps] at hmoved ⊢
      rw [hlast]
      exact .exhausted hmoved
    next hlast =>
      have hle : start ≤ start + 1 := UInt32.le_of_lt (lt_add_one_of_ne_last hlast)
      have hrest : UInt32.size ≤ (start + 1).toNat + fuel := by
        rw [toNat_add_one hlast]
        omega
      obtain ⟨taken, s, htaken⟩ | ⟨e, s, htaken⟩ :=
        isTaken_counters naming layout ⟨start⟩ (w.setCounter place (start + 1))
      · rw [bind_ok htaken]
        cases taken with
        | true =>
          rw [if_pos rfl]
          exact (ih (w := { w.setCounter place (start + 1) with store := s }) hmoved hrest).mono hle
        | false => exact .found (UInt32.le_refl _) hlast hmoved
      · rw [bind_error htaken]
        exact .failed hle hmoved

/-- A counter moves past the ids that it gives out, and never back: when it has run out it starts over
at zero. -/
theorem countFrom_counter (hplace : place < w.counters.length) :
    (∀ {id : ObjectId}, countFrom naming layout place UInt32.size w = .ok id w' →
      place < w'.counters.length ∧ w.counters.getD place 0 ≤ id.word ∧
        id.word < w'.counters.getD place 0) ∧
    ∀ {e : ObjectError}, countFrom naming layout place UInt32.size w = .error e w' →
      place < w'.counters.length ∧ (w'.counters.getD place 0 = 0 ∨
        w.counters.getD place 0 ≤ w'.counters.getD place 0) := by
  have hcounter := World.counter_iff.2 ⟨hplace, rfl⟩
  have hends : Counts place _ (countFrom naming layout place UInt32.size w) :=
    countFrom_counts hcounter (Nat.le_add_left _ _)
  refine ⟨fun h => ?_, fun h => ?_⟩
  · rw [h] at hends
    cases hends with
    | found hfrom hlast hmoved =>
      obtain ⟨hplace', hnext⟩ := World.counter_iff.1 hmoved
      rw [hnext]
      exact ⟨hplace', hfrom, lt_add_one_of_ne_last hlast⟩
  · rw [h] at hends
    cases hends with
    | exhausted hmoved =>
      obtain ⟨hplace', hnext⟩ := World.counter_iff.1 hmoved
      exact ⟨hplace', Or.inl hnext⟩
    | failed hfrom hmoved =>
      obtain ⟨hplace', hnext⟩ := World.counter_iff.1 hmoved
      rw [hnext]
      exact ⟨hplace', Or.inr hfrom⟩

structure FirstFree (naming : Naming) (start : UInt32) (id : ObjectId) (s : σ) : Prop where
  start_le : start ≤ id.word
  ne_last : id.word ≠ lastWord
  isFile_eq : FileStore.isFile (naming.flatPath .temp id) s = false
  skipped : ∀ word, start ≤ word → word < id.word →
    FileStore.isFile (naming.flatPath .temp ⟨word⟩) s = true

def NoneFree (naming : Naming) (start : UInt32) (s : σ) : Prop :=
  ∀ word, start ≤ word → word ≠ lastWord → FileStore.isFile (naming.flatPath .temp ⟨word⟩) s = true

/-- A taken id is passed over. -/
theorem FirstFree.cons {id : ObjectId} {s : σ} (hstart : start ≠ lastWord)
    (htaken : FileStore.isFile (naming.flatPath .temp ⟨start⟩) s = true)
    (h : FirstFree naming (start + 1) id s) : FirstFree naming start id s := by
  have hlt := lt_add_one_of_ne_last hstart
  refine ⟨UInt32.le_trans (UInt32.le_of_lt hlt) h.start_le, h.ne_last, h.isFile_eq, ?_⟩
  intro word hle hword
  rcases eq_or_add_one_le hstart hle with rfl | hnext
  · exact htaken
  · exact h.skipped word hnext hword

theorem NoneFree.cons {s : σ} (hstart : start ≠ lastWord)
    (htaken : FileStore.isFile (naming.flatPath .temp ⟨start⟩) s = true)
    (h : NoneFree naming (start + 1) s) : NoneFree naming start s := by
  intro word hle hword
  rcases eq_or_add_one_le hstart hle with rfl | hnext
  · exact htaken
  · exact h word hnext hword

/-- There is at most one such place. -/
theorem FirstFree.unique {id id' : ObjectId} {s : σ} (h : FirstFree naming start id s)
    (h' : FirstFree naming start id' s) : id = id' := by
  have hnot : ∀ {id id' : ObjectId}, FirstFree naming start id s → FirstFree naming start id' s →
      ¬id.word < id'.word := by
    intro id id' h h' hlt
    have htaken := h'.skipped id.word h.start_le hlt
    rw [h.isFile_eq] at htaken
    cases htaken
  -- Of two such ids, the lower would have been passed over on the way to the higher.
  have hle := UInt32.not_lt.1 (hnot h' h)
  have hge := UInt32.not_lt.1 (hnot h h')
  exact congrArg ObjectId.mk (UInt32.le_antisymm hle hge)

theorem NoneFree.not_firstFree {id : ObjectId} {s : σ} (h : NoneFree naming start s) :
    ¬FirstFree naming start id s := by
  intro hfree
  have htaken := h id.word hfree.start_le hfree.ne_last
  rw [hfree.isFile_eq] at htaken
  cases htaken

/-- With flat names a search ends at the first id without a temporary file, and only where there is none
it runs out. -/
theorem countFrom_flat (hcounter : w.Counter place start)
    (hfuel : UInt32.size ≤ start.toNat + fuel) :
    (∃ id, FirstFree naming start id w.store ∧
      countFrom naming .flat place fuel w = .ok id (w.setCounter place (id.word + 1))) ∨
    NoneFree naming start w.store ∧ countFrom naming .flat place fuel w =
      .error (.allocationExhausted lastWord) (w.setCounter place 0) := by
  induction fuel generalizing w start with
  | zero =>
    have hlt := start.toNat_lt_size
    omega
  | succ fuel ih =>
    have hmoved := hcounter.set (start + 1)
    rw [countFrom_step hcounter]
    split
    next hlast =>
      subst hlast
      refine Or.inr ⟨?_, rfl⟩
      -- From the last word on there is only the last word.
      intro word hle hword
      exact absurd (UInt32.le_antisymm (le_last word) hle) hword
    next hlast =>
      have hrest : UInt32.size ≤ (start + 1).toNat + fuel := by
        rw [toNat_add_one hlast]
        omega
      cases htemp : FileStore.isFile (naming.flatPath .temp ⟨start⟩) w.store with
      | false =>
        have htaken : isTaken naming .flat ⟨start⟩ (w.setCounter place (start + 1)) =
            .ok false (w.setCounter place (start + 1)) := congrArg (EStateM.Result.ok · _) htemp
        rw [bind_ok htaken]
        refine Or.inl ⟨⟨start⟩, ⟨UInt32.le_refl _, hlast, htemp, ?_⟩, rfl⟩
        intro word hle hlt
        exact absurd hle (UInt32.not_le.2 hlt)
      | true =>
        have htaken : isTaken naming .flat ⟨start⟩ (w.setCounter place (start + 1)) =
            .ok true (w.setCounter place (start + 1)) := congrArg (EStateM.Result.ok · _) htemp
        rw [bind_ok htaken, if_pos rfl]
        obtain ⟨id, hfree, hrun⟩ | ⟨hnone, hrun⟩ := ih hmoved hrest
        · rw [hrun, World.setCounter_setCounter]
          exact Or.inl ⟨id, hfree.cons hlast htemp, rfl⟩
        · rw [hrun, World.setCounter_setCounter]
          exact Or.inr ⟨hnone.cons hlast htemp, rfl⟩

/-- The same of a whole search. -/
theorem allocate_flat (naming : Naming) (hcounter : w.Counter place start) :
    (∃ id, FirstFree naming start id w.store ∧
      (counter place).allocate naming .flat w = .ok id (w.setCounter place (id.word + 1))) ∨
    NoneFree naming start w.store ∧ (counter place).allocate naming .flat w =
      .error (.allocationExhausted lastWord) (w.setCounter place 0) :=
  countFrom_flat hcounter (Nat.le_add_left _ _)

structure Call (σ : Type) where
  naming : Naming
  layout : Layout
  store : σ

abbrev Outcome := Except ObjectError ObjectId

def outcomes (a : Allocator) : List (Call σ) → World σ → List Outcome
  | [], _ => []
  | c :: calls, w =>
    match a.allocate c.naming c.layout { w with store := c.store } with
    | .ok id w' => .ok id :: outcomes a calls w'
    | .error e w' => .error e :: outcomes a calls w'

namespace Outcome

def isExhausted : Outcome → Bool
  | .error (.allocationExhausted _) => true
  | _ => false

def words (os : List Outcome) : List UInt32 := os.filterMap fun o => o.toOption.map (·.word)

def firstRound (os : List Outcome) : List Outcome := os.takeWhile fun o => !o.isExhausted

def Final (os : List Outcome) : Prop :=
  os.Pairwise fun o later => o.isExhausted = true → later.isExhausted = true

structure Lawful (os : List Outcome) : Prop where
  ne_zero : ∀ word ∈ words os, word ≠ 0
  nodup : (words os).Nodup
  final : Final os

inductive Rounds : UInt32 → List Outcome → Prop
  | nil {start : UInt32} : Rounds start []
  | found {start : UInt32} {id : ObjectId} {os : List Outcome} : start ≤ id.word →
    id.word ≠ lastWord → Rounds (id.word + 1) os → Rounds start (.ok id :: os)
  | exhausted {start : UInt32} {os : List Outcome} : Rounds 0 os →
    Rounds start (.error (.allocationExhausted lastWord) :: os)
  | failed {start next : UInt32} {e : StoreError} {os : List Outcome} : start ≤ next →
    Rounds next os → Rounds start (.error (.storage e) :: os)

variable {start : UInt32} {os : List Outcome}

theorem Rounds.firstRound (h : Rounds start os) : Rounds start (firstRound os) := by
  induction h with
  | nil => exact .nil
  | found hle hlast _ ih => exact .found hle hlast ih
  | exhausted => exact .nil
  | failed hle _ ih => exact .failed hle ih

theorem final_firstRound (os : List Outcome) : Final (firstRound os) := by
  apply List.pairwise_of_forall_mem_list
  intro o ho _ _ hexhausted
  have hnot := List.mem_takeWhile_imp ho
  rw [hexhausted] at hnot
  cases hnot

theorem words_eq_nil (h : ∀ o ∈ os, o.isExhausted = true) : words os = [] := by
  apply List.filterMap_eq_nil_iff.2
  intro o ho
  have hexhausted := h o ho
  cases o with
  | ok id => cases hexhausted
  | error e => rfl

/-- As long as exhaustion is final, ids grow. -/
theorem Rounds.words_increasing (h : Rounds start os) (hfinal : Final os) :
    (words os).Pairwise (· < ·) ∧ ∀ word ∈ words os, start ≤ word ∧ word ≠ lastWord := by
  induction h with
  | nil => exact ⟨.nil, nofun⟩
  | @found start id os hle hlast _ ih =>
    obtain ⟨hincreasing, hbounds⟩ := ih (List.pairwise_cons.1 hfinal).2
    have hlt := lt_add_one_of_ne_last hlast
    have hwords : words (.ok id :: os) = id.word :: words os := rfl
    rw [hwords]
    refine ⟨List.pairwise_cons.2 ⟨fun word hword => ?_, hincreasing⟩, fun word hword => ?_⟩
    · exact UInt32.lt_of_lt_of_le hlt (hbounds word hword).1
    · rcases List.mem_cons.1 hword with rfl | hrest
      · exact ⟨hle, hlast⟩
      · obtain ⟨hfrom, hne⟩ := hbounds word hrest
        exact ⟨UInt32.le_trans hle (UInt32.le_trans (UInt32.le_of_lt hlt) hfrom), hne⟩
  | @exhausted start os _ _ =>
    -- What is left after exhaustion is exhaustion, so there is no id at all.
    have hrest := (List.pairwise_cons.1 hfinal).1
    have hnone : words (.error (.allocationExhausted lastWord) :: os) = [] := by
      apply words_eq_nil
      intro o ho
      rcases List.mem_cons.1 ho with rfl | ho
      · rfl
      · exact hrest o ho rfl
    rw [hnone]
    exact ⟨.nil, nofun⟩
  | @failed start next e os hle _ ih =>
    obtain ⟨hincreasing, hbounds⟩ := ih (List.pairwise_cons.1 hfinal).2
    refine ⟨hincreasing, fun word hword => ?_⟩
    obtain ⟨hfrom, hne⟩ := hbounds word hword
    exact ⟨UInt32.le_trans hle hfrom, hne⟩

theorem Rounds.lawful_iff (h : Rounds start os) (hstart : start ≠ 0) : Lawful os ↔ Final os := by
  refine ⟨Lawful.final, fun hfinal => ?_⟩
  obtain ⟨hincreasing, hbounds⟩ := h.words_increasing hfinal
  refine ⟨fun word hword hzero => ?_, hincreasing.imp fun hlt => (UInt32.ne_of_lt hlt), hfinal⟩
  have hle := (hbounds word hword).1
  rw [hzero] at hle
  exact hstart (UInt32.le_antisymm hle UInt32.zero_le)

end Outcome

open Outcome

variable {a : Allocator}

theorem allocate_counter_counts (c : Call σ) (hcounter : w.Counter place start) :
    Counts place start ((counter place).allocate c.naming c.layout { w with store := c.store }) :=
  countFrom_counts (w := { w with store := c.store }) hcounter (Nat.le_add_left _ _)

/-- Call after call, a counter answers in rounds. -/
theorem rounds_outcomes (calls : List (Call σ)) (hcounter : w.Counter place start) :
    Rounds start ((counter place).outcomes calls w) := by
  induction calls generalizing w start with
  | nil => exact .nil
  | cons c calls ih =>
    have hcall := allocate_counter_counts c hcounter
    unfold outcomes
    generalize (counter place).allocate c.naming c.layout { w with store := c.store } = r at hcall
    cases hcall with
    | found hle hlast hnext => exact .found hle hlast (ih hnext)
    | exhausted hnext => exact .exhausted (ih hnext)
    | failed hle hnext => exact .failed hle (ih hnext)

/-- What a counter at `start` answers to a search with flat names. -/
theorem outcome_flat {c : Call σ} {calls : List (Call σ)} (hflat : c.layout = .flat)
    (hcounter : w.Counter place start) (id : ObjectId) :
    ((counter place).outcomes (c :: calls) w)[0]? = some (.ok id) ↔
      FirstFree c.naming start id c.store := by
  have hrun := allocate_flat (w := { w with store := c.store }) c.naming hcounter
  unfold outcomes
  rw [hflat]
  obtain ⟨found, hfree, hrun⟩ | ⟨hnone, hrun⟩ := hrun
  · rw [hrun]
    refine ⟨fun h => ?_, fun h => ?_⟩
    · cases h
      exact hfree
    · rw [hfree.unique h]
      rfl
  · rw [hrun]
    refine ⟨fun h => ?_, fun h => ?_⟩
    · cases h
    · exact absurd h hnone.not_firstFree

/-- After exhaustion a search starts over at zero. -/
theorem outcome_after_exhausted {calls : List (Call σ)} {k : Nat} {o : Outcome} {c : Call σ}
    (hcounter : w.Counter place start) (hk : ((counter place).outcomes calls w)[k]? = some o)
    (hexhausted : o.isExhausted = true) (hc : calls[k + 1]? = some c) (hflat : c.layout = .flat)
    (id : ObjectId) : ((counter place).outcomes calls w)[k + 1]? = some (.ok id) ↔
      FirstFree c.naming 0 id c.store := by
  induction calls generalizing w start k with
  | nil => cases hc
  | cons first calls ih =>
    have hcall := allocate_counter_counts first hcounter
    unfold outcomes at hk ⊢
    generalize (counter place).allocate first.naming first.layout { w with store := first.store } =
      r at hcall hk
    cases k with
    | zero =>
      cases hcall with
      | found =>
        cases hk
        cases hexhausted
      | failed =>
        cases hk
        cases hexhausted
      | exhausted hnext =>
        cases calls with
        | nil => cases hc
        | cons second calls =>
          cases hc
          exact outcome_flat hflat hnext id
    | succ k =>
      cases hcall with
      | found _ _ hnext => exact ih hnext hk hc
      | exhausted hnext => exact ih hnext hk hc
      | failed _ hnext => exact ih hnext hk hc

def Starts (a : Allocator) (w : World σ) : Prop :=
  (∃ first w₀, countingFrom first w₀ = .ok a w) ∨ ∃ naming w₀, afterHighest naming w₀ = .ok a w

theorem afterHighest_run {w : World σ} {s : σ} {entries : List Path}
    (h : FileStore.list naming.flatDirectory w.store = .ok entries s) :
    afterHighest naming w = .ok (.counter w.counters.length) { w with
      store := s
      counters := w.counters ++ [
        let highest := highestFlat naming entries
        max (if highest = lastWord then highest else highest + 1) 1] } :=
  bind_ok (World.onStore_ok h)

theorem afterHighest_eq_ok {w w' : World σ} (h : afterHighest naming w = .ok a w') :
    a = .counter w.counters.length ∧ ∃ entries s,
      FileStore.list naming.flatDirectory w.store = .ok entries s ∧
      w' = { w with
        store := s
        counters := w.counters ++ [
          let highest := highestFlat naming entries
          max (if highest = lastWord then highest else highest + 1) 1] } := by
  cases hlist : FileStore.list naming.flatDirectory w.store with
  | error e s =>
    unfold afterHighest at h
    rw [bind_error (World.onStore_error hlist)] at h
    cases h
  | ok entries s =>
    cases (afterHighest_run hlist).symm.trans h
    exact ⟨rfl, entries, s, rfl, rfl⟩

theorem Starts.counter (h : Starts a w) :
    ∃ place start, a = .counter place ∧ w.Counter place start ∧ start ≠ 0 := by
  obtain ⟨first, w₀, hrun⟩ | ⟨naming, w₀, hrun⟩ := h
  · exact counter_of_countingFrom hrun
  · obtain ⟨entries, w₁, -, hrest⟩ := bind_eq_ok hrun
    exact counter_of_countingFrom hrest

/-- Whatever a counter starts with, and whatever becomes of the store between the searches: up to when
it runs out it gives out growing ids and never zero. It keeps to this afterwards only if it finds no
more ids, but it looks for them from zero on. -/
theorem outcomes_lawful_iff (hstarts : Starts a w) (calls : List (Call σ)) :
    Lawful (firstRound (a.outcomes calls w)) ∧
    (words (firstRound (a.outcomes calls w))).Pairwise (· < ·) ∧
    (Lawful (a.outcomes calls w) ↔ Final (a.outcomes calls w)) ∧
    ∀ k o c, (a.outcomes calls w)[k]? = some o → o.isExhausted = true →
      calls[k + 1]? = some c → c.layout = .flat →
      ∀ id, (a.outcomes calls w)[k + 1]? = some (.ok id) ↔ FirstFree c.naming 0 id c.store := by
  obtain ⟨place, start, rfl, hcounter, hzero⟩ := hstarts.counter
  have hrounds := rounds_outcomes calls hcounter
  have hfinal := final_firstRound ((counter place).outcomes calls w)
  refine ⟨(hrounds.firstRound.lawful_iff hzero).2 hfinal,
    (hrounds.firstRound.words_increasing hfinal).1, hrounds.lawful_iff hzero, ?_⟩
  intro k o c hk hexhausted hc hflat id
  exact outcome_after_exhausted hcounter hk hexhausted hc hflat id

def emptyCall : Call MemoryStore := ⟨⟨⟨['d', '/', 'b']⟩, 16⟩, .flat, default⟩

def lateWorld : World MemoryStore := { store := default, counters := [lastWord - 1] }

theorem starts_lateWorld : Starts (counter 0) lateWorld := by
  refine .inl ⟨lastWord - 1, { store := default }, ?_⟩
  have hmax : max (lastWord - 1) 1 = lastWord - 1 := by decide
  unfold countingFrom
  rw [hmax]
  rfl

/-- A counter with one id left gives it out and is exhausted. -/
theorem outcomes_lawful_late : Starts (.counter 0) lateWorld ∧
    (counter 0).outcomes [emptyCall, emptyCall] lateWorld =
      [.ok ⟨lastWord - 1⟩, .error (.allocationExhausted lastWord)] ∧
    Lawful ((counter 0).outcomes [emptyCall, emptyCall] lateWorld) := by
  have hrun : (counter 0).outcomes [emptyCall, emptyCall] lateWorld =
      [.ok ⟨lastWord - 1⟩, .error (.allocationExhausted lastWord)] := by cbv
  have hfinal : Final ((counter 0).outcomes [emptyCall, emptyCall] lateWorld) := by
    rw [hrun]
    refine .cons ?_ (.cons ?_ .nil)
    · rintro _ _ ⟨⟩
    · rintro _ ⟨⟩
  exact ⟨starts_lateWorld, hrun,
    (outcomes_lawful_iff starts_lateWorld [emptyCall, emptyCall]).2.2.1.2 hfinal⟩

/-- With one search more, zero is given out. -/
theorem outcomes_recover : Starts (.counter 0) lateWorld ∧
    (counter 0).outcomes [emptyCall, emptyCall, emptyCall] lateWorld =
      [.ok ⟨lastWord - 1⟩, .error (.allocationExhausted lastWord), .ok ⟨0⟩] ∧
    ¬Lawful ((counter 0).outcomes [emptyCall, emptyCall, emptyCall] lateWorld) := by
  have hrun : (counter 0).outcomes [emptyCall, emptyCall, emptyCall] lateWorld =
      [.ok ⟨lastWord - 1⟩, .error (.allocationExhausted lastWord), .ok ⟨0⟩] := by cbv
  refine ⟨starts_lateWorld, hrun, fun hlawful => ?_⟩
  rw [hrun] at hlawful
  exact hlawful.ne_zero 0 (List.mem_cons_of_mem _ List.mem_cons_self) rfl

end Allocator

end LargeObjects

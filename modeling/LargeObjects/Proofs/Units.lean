import Mathlib
import LargeObjects.Proofs.Characters

/-! The units of content: octets or characters. -/
namespace LargeObjects

def Kind.units : Kind → Nat → Bytes → List Bytes
  | .binary, limit, text => (text.take limit).map fun b => [b]
  | .character, limit, text => Utf8.leading limit text

namespace Utf8

/-- Fewer characters than looked for are all that there are. -/
theorem leading_short {limit : Nat} {text : Bytes} (h : (leading limit text).length < limit)
    (n : Nat) : leading n (text.drop (leading limit text).flatten.length) = [] := by
  induction limit generalizing text with
  | zero => exact absurd h (Nat.not_lt_zero _)
  | succ limit ih =>
    cases hc : character? text with
    | none =>
      rw [leading_of_none hc, List.flatten_nil, List.length_nil, List.drop_zero]
      exact leading_of_none hc n
    | some c =>
      have hcons : leading (limit + 1) text = c :: leading limit (text.drop c.length) := by
        rw [leading, hc]
      rw [hcons, List.length_cons] at h
      rw [hcons, List.flatten_cons, List.length_append, ← List.drop_drop]
      exact ih (by omega)

theorem length_flatten_leading_le (limit : Nat) (text : Bytes) :
    (leading limit text).flatten.length ≤ 4 * (leading limit text).length := by
  have h : ∀ c ∈ leading limit text, c.length ≤ 4 := fun c hc =>
    (length_of_isCharacter (isCharacter_of_mem_leading hc)).2
  rw [List.length_flatten, Nat.mul_comm, ← smul_eq_mul]
  calc ((leading limit text).map List.length).sum
      ≤ ((leading limit text).map List.length).length • 4 := by
        apply List.sum_le_card_nsmul
        intro n hn
        obtain ⟨c, hc, rfl⟩ := List.mem_map.1 hn
        exact h c hc
    _ = (leading limit text).length • 4 := by rw [List.length_map]

end Utf8

namespace Kind

variable {kind : Kind} {m n : Nat} {text : Bytes}

theorem flatten_units_binary (n : Nat) (text : Bytes) :
    (binary.units n text).flatten = text.take n := by
  simp only [units, ← List.flatMap_def, List.flatMap_singleton']

theorem length_units_binary (n : Nat) (text : Bytes) :
    (binary.units n text).length = min n text.length := by
  rw [units, List.length_map, List.length_take]

theorem length_units_le (kind : Kind) (n : Nat) (text : Bytes) :
    (kind.units n text).length ≤ n := by
  cases kind with
  | binary =>
    rw [length_units_binary]
    exact Nat.min_le_left _ _
  | character => exact Utf8.length_leading_le n text

theorem flatten_units_prefix (kind : Kind) (n : Nat) (text : Bytes) :
    (kind.units n text).flatten <+: text := by
  cases kind with
  | binary =>
    rw [flatten_units_binary]
    exact List.take_prefix _ _
  | character => exact Utf8.leading_prefix n text

theorem units_append_drop (kind : Kind) (n : Nat) (text : Bytes) :
    (kind.units n text).flatten ++ text.drop (kind.units n text).flatten.length = text := by
  obtain ⟨rest, hrest⟩ := flatten_units_prefix kind n text
  generalize (kind.units n text).flatten = front at hrest
  rw [← hrest, List.drop_left]

theorem units_add (kind : Kind) (m n : Nat) (text : Bytes) :
    kind.units (m + n) text = kind.units m text ++
      kind.units n (text.drop (kind.units m text).flatten.length) := by
  cases kind with
  | character => exact Utf8.leading_add m n text
  | binary =>
    rw [flatten_units_binary, List.length_take]
    simp only [units, List.take_add, List.map_append]
    rcases Nat.le_total m text.length with h | h
    · rw [Nat.min_eq_left h]
    · rw [Nat.min_eq_right h, List.drop_length, List.drop_eq_nil_of_le h]

theorem units_short (h : (kind.units m text).length < m) (n : Nat) :
    kind.units n (text.drop (kind.units m text).flatten.length) = [] := by
  cases kind with
  | character => exact Utf8.leading_short h n
  | binary =>
    rw [length_units_binary] at h
    rw [flatten_units_binary, List.length_take]
    simp only [units, List.map_eq_nil_iff, List.take_eq_nil_iff, List.drop_eq_nil_iff]
    right
    omega

theorem units_of_short (h : (kind.units m text).length < m) (hmn : m ≤ n) :
    kind.units n text = kind.units m text := by
  obtain ⟨k, rfl⟩ := Nat.exists_eq_add_of_le hmn
  rw [units_add, units_short h, List.append_nil]

/-- A unit is at least one octet. -/
theorem length_le_flatten_units (kind : Kind) (n : Nat) (text : Bytes) :
    (kind.units n text).length ≤ (kind.units n text).flatten.length := by
  have h : ∀ c ∈ kind.units n text, 1 ≤ c.length := by
    intro c hc
    cases kind with
    | binary =>
      obtain ⟨b, -, rfl⟩ := List.mem_map.1 hc
      exact Nat.le_refl 1
    | character => exact (Utf8.length_of_isCharacter (Utf8.isCharacter_of_mem_leading hc)).1
  rw [List.length_flatten]
  calc (kind.units n text).length = ((kind.units n text).map List.length).length • 1 := by
        rw [List.length_map, smul_eq_mul, Nat.mul_one]
    _ ≤ ((kind.units n text).map List.length).sum := by
        apply List.card_nsmul_le_sum
        intro k hk
        obtain ⟨c, hc, rfl⟩ := List.mem_map.1 hk
        exact h c hc

def Complete (kind : Kind) (wanted : Nat) (text : Bytes) (ending : Option StreamError) : Prop :=
  (kind.units wanted text).length = wanted ∨
    ending = none ∧ (kind.units wanted text).flatten = text

theorem not_complete {ending : Option StreamError} (hlt : (kind.units n text).length < n)
    (hmore : ending = none → (kind.units n text).flatten ≠ text) :
    ¬kind.Complete n text ending := by
  rintro (hall | ⟨hnone, hflat⟩)
  · omega
  · exact hmore hnone hflat

/-- After some of the units that are wanted, the others remain to be taken. -/
theorem complete_append (kind : Kind) (ending : Option StreamError) {units : List Bytes}
    {rest : Bytes} (hle : units.length ≤ n)
    (h : kind.units n (units.flatten ++ rest) = units ++ kind.units (n - units.length) rest) :
    kind.Complete n (units.flatten ++ rest) ending ↔ kind.Complete (n - units.length) rest ending := by
  unfold Complete
  rw [h, List.length_append, List.flatten_append, List.append_cancel_left_eq]
  have hlen : units.length + (kind.units (n - units.length) rest).length = n ↔
      (kind.units (n - units.length) rest).length = n - units.length := by omega
  rw [hlen]

/-- All units that a byte string starts with. A unit is an octet at least, so there are no more of
them than octets. -/
def allUnits (kind : Kind) (text : Bytes) : List Bytes := kind.units text.length text

theorem units_nil (kind : Kind) (n : Nat) : kind.units n [] = [] := by
  cases kind with
  | binary => rw [units, List.take_nil, List.map_nil]
  | character => exact Utf8.leading_nil n

theorem units_of_length_le (h : text.length ≤ n) : kind.units n text = kind.allUnits text := by
  unfold allUnits
  by_cases hshort : (kind.units text.length text).length < text.length
  · exact units_of_short hshort h
  · obtain ⟨k, rfl⟩ := Nat.exists_eq_add_of_le h
    have hle := length_le_flatten_units kind text.length text
    rw [units_add, List.drop_eq_nil_of_le (by omega), units_nil, List.append_nil]

/-- The units that are wanted are the first ones of all. -/
theorem units_eq_take (kind : Kind) (n : Nat) (text : Bytes) :
    kind.units n text = (kind.allUnits text).take n := by
  rcases Nat.le_total n text.length with hle | hge
  · unfold allUnits
    by_cases hshort : (kind.units n text).length < n
    · rw [units_of_short hshort hle, List.take_of_length_le (by omega)]
    · have hlen : (kind.units n text).length = n :=
        Nat.le_antisymm (length_units_le kind n text) (Nat.le_of_not_lt hshort)
      obtain ⟨k, hk⟩ := Nat.exists_eq_add_of_le hle
      rw [hk, units_add, List.take_left' hlen]
  · rw [units_of_length_le hge]
    have hle := length_units_le kind text.length text
    unfold allUnits
    rw [List.take_of_length_le (by omega)]

theorem length_units (kind : Kind) (n : Nat) (text : Bytes) :
    (kind.units n text).length = min n (kind.allUnits text).length := by
  rw [units_eq_take, List.length_take]

/-- Octets make up any byte string; characters make up a text. -/
theorem flatten_allUnits_iff (kind : Kind) (text : Bytes) :
    (kind.allUnits text).flatten = text ↔ kind = .character → Utf8.defect? text = none := by
  cases kind with
  | binary =>
    unfold allUnits
    rw [flatten_units_binary, List.take_length]
    simp
  | character =>
    simp only [true_implies]
    exact Utf8.flatten_leading_iff (Nat.le_refl _) 0

theorem length_allUnits_binary (octets : Bytes) : (binary.allUnits octets).length = octets.length := by
  rw [allUnits, length_units_binary, Nat.min_self]

def count : Kind → Bytes → Nat
  | .binary, octets => octets.length
  | .character, text => Utf8.characterCount text

/-- The units of text are counted right without taking it apart. -/
theorem length_allUnits (h : kind = .character → Utf8.defect? text = none) :
    (kind.allUnits text).length = kind.count text := by
  have hflat := (flatten_allUnits_iff kind text).2 h
  cases kind with
  | binary => exact length_allUnits_binary text
  | character =>
    have hcount : Utf8.characterCount (character.allUnits text).flatten =
        (character.allUnits text).length :=
      Utf8.characterCount_flatten fun c hc => Utf8.isCharacter_of_mem_leading hc
    rw [hflat] at hcount
    exact hcount.symm

/-- Units that are put one after the other are found again. -/
theorem units_flatten (kind : Kind) (n : Nat) (text : Bytes) :
    kind.units (kind.units n text).length (kind.units n text).flatten = kind.units n text := by
  cases kind with
  | binary =>
    rw [flatten_units_binary, length_units_binary]
    simp only [units, ← List.length_take, List.take_length]
  | character => exact Utf8.leading_flatten fun _ hc => Utf8.isCharacter_of_mem_leading hc

theorem allUnits_flatten_units (kind : Kind) (n : Nat) (text : Bytes) :
    kind.allUnits (kind.units n text).flatten = kind.units n text := by
  obtain ⟨more, hmore⟩ := Nat.exists_eq_add_of_le (length_le_flatten_units kind n text)
  unfold allUnits
  rw [hmore, units_add, units_flatten, List.drop_length, units_nil, List.append_nil]

/-- Units are lacking when a byte string stops being text before there are as many as wanted. -/
theorem not_complete_iff (kind : Kind) (n : Nat) (text : Bytes) :
    ¬kind.Complete n text none ↔
      kind = .character ∧ Utf8.defect? text ≠ none ∧ (kind.allUnits text).length < n := by
  have hflat := flatten_allUnits_iff kind text
  have htake := units_eq_take kind n text
  rcases Nat.lt_or_ge (kind.allUnits text).length n with hlt | hge
  · rw [List.take_of_length_le (Nat.le_of_lt hlt)] at htake
    have hne : (kind.allUnits text).length ≠ n := Nat.ne_of_lt hlt
    simp only [Complete, htake, hne, hflat, hlt, false_or, true_and, and_true]
    rw [Classical.not_imp]
  · have hall : kind.Complete n text none := by
      refine Or.inl ?_
      rw [length_units]
      exact Nat.min_eq_left hge
    simp only [hall, not_true, false_iff]
    intro h
    omega

end Kind

end LargeObjects

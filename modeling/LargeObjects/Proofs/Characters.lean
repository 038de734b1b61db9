import Mathlib
import LargeObjects.Source

/-! The characters of a text, and taking them in as they arrive. A character that has arrived is
the same whatever comes after it. -/
namespace LargeObjects.Utf8

def character? (text : Bytes) : Option Bytes :=
  match text with
  | [] => none
  | lead :: _ => (width? lead).bind fun width =>
    if isCharacter (text.take width) then some (text.take width) else none

def leading : Nat → Bytes → List Bytes
  | 0, _ => []
  | limit + 1, text =>
    match character? text with
    | none => []
    | some c => c :: leading limit (text.drop c.length)

theorem width?_bounds {lead : UInt8} {width : Nat} (h : width? lead = some width) :
    0 < width ∧ width ≤ 4 := by
  unfold width? at h
  split_ifs at h <;> cases h <;> omega

/-- A character is as long as its first octet says. -/
theorem width?_of_isCharacter {c : Bytes} (h : isCharacter c) :
    ∃ lead rest, c = lead :: rest ∧ width? lead = some c.length := by
  unfold isCharacter at h
  split at h
  next a => exact ⟨a, [], rfl, by simpa using h⟩
  next a b => exact ⟨a, [b], rfl, (of_decide_eq_true h).1⟩
  next a b c => exact ⟨a, [b, c], rfl, (of_decide_eq_true h).1⟩
  next a b c d => exact ⟨a, [b, c, d], rfl, (of_decide_eq_true h).1⟩
  next => cases h

theorem length_of_isCharacter {c : Bytes} (h : isCharacter c) : 0 < c.length ∧ c.length ≤ 4 := by
  obtain ⟨lead, rest, -, hwidth⟩ := width?_of_isCharacter h
  exact width?_bounds hwidth

theorem character?_eq_some {text c : Bytes} :
    character? text = some c ↔ isCharacter c ∧ c <+: text := by
  constructor
  · intro h
    cases text with
    | nil => cases h
    | cons lead rest =>
      obtain ⟨width, -, h⟩ := Option.bind_eq_some_iff.1 h
      split at h
      next hc =>
        cases h
        exact ⟨hc, List.take_prefix _ _⟩
      next => cases h
  · rintro ⟨hc, tail, rfl⟩
    obtain ⟨lead, rest, hsplit, hwidth⟩ := width?_of_isCharacter hc
    have htake : (c ++ tail).take c.length = c := List.take_left
    rw [hsplit] at htake hwidth hc ⊢
    simp only [List.cons_append] at htake ⊢
    simp only [character?, hwidth, Option.bind_some, htake, hc, if_true]

theorem character?_append {a b c : Bytes} (h : character? a = some c) :
    character? (a ++ b) = some c := by
  obtain ⟨hc, hprefix⟩ := character?_eq_some.1 h
  exact character?_eq_some.2 ⟨hc, hprefix.trans (List.prefix_append _ _)⟩

theorem leading_nil (limit : Nat) : leading limit [] = [] := by
  cases limit <;> rfl

theorem leading_of_none {text : Bytes} (h : character? text = none) (limit : Nat) :
    leading limit text = [] := by
  cases limit with
  | zero => rfl
  | succ limit => rw [leading, h]

theorem length_leading_le (limit : Nat) (text : Bytes) : (leading limit text).length ≤ limit := by
  induction limit generalizing text with
  | zero => exact Nat.le_refl 0
  | succ limit ih =>
    unfold leading
    split
    · exact Nat.zero_le _
    · rw [List.length_cons]
      exact Nat.succ_le_succ (ih _)

theorem isCharacter_of_mem_leading {limit : Nat} {text c : Bytes} (h : c ∈ leading limit text) :
    isCharacter c := by
  induction limit generalizing text with
  | zero => cases h
  | succ limit ih =>
    unfold leading at h
    split at h
    · cases h
    next c' hc' =>
      rcases List.mem_cons.1 h with rfl | h
      · exact (character?_eq_some.1 hc').1
      · exact ih h

theorem leading_prefix (limit : Nat) (text : Bytes) : (leading limit text).flatten <+: text := by
  induction limit generalizing text with
  | zero => exact List.nil_prefix
  | succ limit ih =>
    unfold leading
    split
    · exact List.nil_prefix
    next c hc =>
      obtain ⟨-, rest, rfl⟩ := character?_eq_some.1 hc
      obtain ⟨tail, htail⟩ := ih rest
      refine ⟨tail, ?_⟩
      rw [List.drop_left, List.flatten_cons, List.append_assoc, htail]

/-- The characters go on where those that were looked for first end. -/
theorem leading_add (m n : Nat) (text : Bytes) :
    leading (m + n) text =
      leading m text ++ leading n (text.drop (leading m text).flatten.length) := by
  induction m generalizing text with
  | zero => simp [leading]
  | succ m ih =>
    rw [Nat.succ_add, leading, leading]
    cases hc : character? text with
    | none =>
      have hnil : leading n text = [] := leading_of_none hc n
      simp [hnil]
    | some c =>
      simp only [List.flatten_cons, List.length_append, List.cons_append, ← List.drop_drop]
      rw [ih]

/-- What comes later adds characters and changes none. -/
theorem leading_append (limit : Nat) (a b : Bytes) :
    leading limit (a ++ b) = leading limit a ++
      leading (limit - (leading limit a).length) (a.drop (leading limit a).flatten.length ++ b) := by
  induction limit generalizing a with
  | zero => rfl
  | succ limit ih =>
    cases hc : character? a with
    | none =>
      rw [leading_of_none hc]
      rfl
    | some c =>
      have hle : c.length ≤ a.length := (character?_eq_some.1 hc).2.length_le
      have hcons : leading (limit + 1) a = c :: leading limit (a.drop c.length) := by
        rw [leading, hc]
      rw [hcons, leading, character?_append hc]
      simp only [List.drop_append_of_le_length hle, List.flatten_cons, List.length_append,
        List.length_cons, List.cons_append, ← List.drop_drop, Nat.succ_sub_succ]
      rw [ih]

def Incomplete (text : Bytes) : Prop :=
  ∀ lead rest, text = lead :: rest → ∃ width, width? lead = some width ∧ text.length < width

def Malformed (text : Bytes) : Prop :=
  ∃ lead rest, text = lead :: rest ∧
    ∀ width, width? lead = some width → width ≤ text.length ∧ ¬isCharacter (text.take width)

theorem Incomplete.character? {text : Bytes} (h : Incomplete text) : character? text = none := by
  cases text with
  | nil => rfl
  | cons lead rest =>
    obtain ⟨width, hwidth, hlt⟩ := h lead rest rfl
    simp only [Utf8.character?, hwidth, Option.bind_some, ite_eq_right_iff]
    intro hc
    obtain ⟨lead', rest', hsplit, hwidth'⟩ := width?_of_isCharacter hc
    rw [List.take_of_length_le (by omega)] at hsplit hwidth'
    obtain ⟨rfl, -⟩ := List.cons.inj hsplit
    rw [hwidth] at hwidth'
    cases hwidth'
    omega

theorem Incomplete.length_le {text : Bytes} (h : Incomplete text) : text.length ≤ 3 := by
  cases text with
  | nil => exact Nat.zero_le _
  | cons lead rest =>
    obtain ⟨width, hwidth, hlt⟩ := h lead rest rfl
    have := width?_bounds hwidth
    omega

theorem Incomplete.not_malformed {text : Bytes} (h : Incomplete text) : ¬Malformed text := by
  rintro ⟨lead, rest, rfl, hbad⟩
  obtain ⟨width, hwidth, hlt⟩ := h lead rest rfl
  exact absurd (hbad width hwidth).1 (Nat.not_le.2 hlt)

theorem Malformed.append {a : Bytes} (h : Malformed a) (b : Bytes) : Malformed (a ++ b) := by
  obtain ⟨lead, rest, rfl, hbad⟩ := h
  refine ⟨lead, rest ++ b, rfl, fun width hwidth => ?_⟩
  obtain ⟨hle, hno⟩ := hbad width hwidth
  rw [List.take_append_of_le_length hle, List.length_append]
  exact ⟨by omega, hno⟩

theorem Malformed.character? {text : Bytes} (h : Malformed text) : character? text = none := by
  obtain ⟨lead, rest, rfl, hbad⟩ := h
  cases hwidth : width? lead with
  | none => simp only [Utf8.character?, hwidth, Option.bind_none]
  | some width => simp [Utf8.character?, hwidth, (hbad width hwidth).2]

/-- Where there is no character, more octets may still make one, or none can. -/
theorem incomplete_or_malformed {text : Bytes} (h : character? text = none) :
    Incomplete text ∨ Malformed text := by
  cases text with
  | nil => exact Or.inl fun _ _ hnil => nomatch hnil
  | cons lead tail =>
    cases hwidth : width? lead with
    | none =>
      refine Or.inr ⟨lead, tail, rfl, fun width hsome => ?_⟩
      rw [hwidth] at hsome
      cases hsome
    | some width =>
      have hno : ¬isCharacter ((lead :: tail).take width) := by
        simpa [character?, hwidth] using h
      rcases Nat.lt_or_ge (lead :: tail).length width with hlt | hge
      · refine Or.inl fun lead' tail' hcons => ?_
        cases hcons
        exact ⟨width, hwidth, hlt⟩
      · refine Or.inr ⟨lead, tail, rfl, fun width' hsome => ?_⟩
        rw [hwidth] at hsome
        cases hsome
        exact ⟨hge, hno⟩

section Taking

variable {pending : Bytes} (units : Nat) (taken : Bytes) (count : Nat)

/-- A character that has arrived is taken. -/
theorem takeCharacters_character {c : Bytes} (h : character? pending = some c) :
    takeCharacters (units + 1) pending taken count =
      takeCharacters units (pending.drop c.length) (c.reverse ++ taken) (count + 1) := by
  obtain ⟨hc, hprefix⟩ := character?_eq_some.1 h
  obtain ⟨lead, rest, rfl, hwidth⟩ := width?_of_isCharacter hc
  obtain ⟨tail, rfl⟩ := hprefix
  have htake : (lead :: (rest ++ tail)).take (lead :: rest).length = lead :: rest := List.take_left
  rw [List.cons_append]
  simp only [takeCharacters, hwidth, htake, Nat.lt_irrefl, if_false, hc, if_true,
    List.reverseAux_eq]

/-- One that has not arrived whole is waited for. -/
theorem Incomplete.takeCharacters (h : Incomplete pending) :
    Utf8.takeCharacters (units + 1) pending taken count = some (taken, count, pending) := by
  cases pending with
  | nil => simp [Utf8.takeCharacters]
  | cons lead rest =>
    obtain ⟨width, hwidth, hlt⟩ := h lead rest rfl
    have hlen : ((lead :: rest).take width).length < width := by
      rw [List.length_take]
      omega
    simp only [Utf8.takeCharacters, hwidth, if_pos hlen]

/-- Where none can come, taking characters is refused. -/
theorem Malformed.takeCharacters (h : Malformed pending) :
    Utf8.takeCharacters (units + 1) pending taken count = none := by
  obtain ⟨lead, rest, rfl, hbad⟩ := h
  cases hwidth : width? lead with
  | none => simp only [Utf8.takeCharacters, hwidth]
  | some width =>
    obtain ⟨hle, hc⟩ := hbad width hwidth
    have hlen : ((lead :: rest).take width).length = width := by
      rw [List.length_take]
      omega
    simp only [Utf8.takeCharacters, hwidth, hlen, Nat.lt_irrefl, if_false, hc]
    simp

end Taking

/-- Taking characters takes those that have arrived, and stops at one that has not arrived whole.
It is refused where no character can come. -/
theorem takeCharacters_eq (units : Nat) (pending taken : Bytes) (count : Nat) :
    let cs := leading units pending
    let rest := pending.drop cs.flatten.length
    (takeCharacters units pending taken count =
        some (cs.flatten.reverse ++ taken, count + cs.length, rest) ∧
      (cs.length = units ∨ Incomplete rest)) ∨
    takeCharacters units pending taken count = none ∧ cs.length < units ∧ Malformed rest := by
  induction units generalizing pending taken count with
  | zero => exact Or.inl ⟨rfl, Or.inl rfl⟩
  | succ units ih =>
    cases hc : character? pending with
    | none =>
      rw [leading_of_none hc]
      rcases incomplete_or_malformed hc with hshort | hbad
      · exact Or.inl ⟨hshort.takeCharacters units taken count, Or.inr hshort⟩
      · exact Or.inr ⟨hbad.takeCharacters units taken count, Nat.succ_pos units, hbad⟩
    | some c =>
      have hlead : leading (units + 1) pending = c :: leading units (pending.drop c.length) := by
        rw [leading, hc]
      rw [takeCharacters_character units taken count hc, hlead]
      simp only [List.flatten_cons, List.length_append, List.length_cons, ← List.drop_drop,
        List.reverse_append, List.append_assoc, Nat.add_lt_add_iff_right, Nat.add_right_cancel_iff]
      rw [Nat.add_comm (leading _ _).length 1, ← Nat.add_assoc]
      exact ih _ _ _

theorem isContinuation_of_secondAllowed {lead b : UInt8} (h : secondAllowed lead b) :
    isContinuation b := by
  simp only [secondAllowed, isContinuation, decide_eq_true_eq] at h ⊢
  split_ifs at h <;> simp [UInt8.le_iff_toNat_le] at h ⊢ <;> omega

theorem not_isContinuation_of_width? {lead : UInt8} {width : Nat} (h : width? lead = some width) :
    isContinuation lead = false := by
  unfold width? at h
  split_ifs at h <;>
    simp [isContinuation, UInt8.le_iff_toNat_le] at * <;> omega

/-- A character has one octet that continues nothing. -/
theorem characterCount_of_isCharacter {c : Bytes} (h : isCharacter c) : characterCount c = 1 := by
  unfold isCharacter at h
  split at h
  next a =>
    have ha : width? a = some 1 := by simpa using h
    simp [characterCount, not_isContinuation_of_width? ha]
  next a b =>
    obtain ⟨ha, hb⟩ := of_decide_eq_true h
    simp [characterCount, not_isContinuation_of_width? ha, hb]
  next a b c =>
    obtain ⟨ha, hb, hc⟩ := of_decide_eq_true h
    simp [characterCount, not_isContinuation_of_width? ha, isContinuation_of_secondAllowed hb, hc]
  next a b c d =>
    obtain ⟨ha, hb, hc, hd⟩ := of_decide_eq_true h
    simp [characterCount, not_isContinuation_of_width? ha, isContinuation_of_secondAllowed hb, hc,
      hd]
  next => cases h

/-- Looking for defects goes on behind a character. -/
theorem defectFrom_character {text c : Bytes} (h : character? text = some c) (index : Nat) :
    defectFrom index text = defectFrom (index + c.length) (text.drop c.length) := by
  obtain ⟨hc, rest, rfl⟩ := character?_eq_some.1 h
  rw [List.drop_left]
  unfold isCharacter at hc
  split at hc
  next a =>
    have ha : width? a = some 1 := by simpa using hc
    rw [List.singleton_append, defectFrom.eq_def]
    simp [ha]
  next a b =>
    obtain ⟨ha, hb⟩ := of_decide_eq_true hc
    rw [defectFrom.eq_def]
    simp [ha, hb]
  next a b c =>
    obtain ⟨ha, hb, hc⟩ := of_decide_eq_true hc
    rw [defectFrom.eq_def]
    simp [ha, hb, hc]
  next a b c d =>
    obtain ⟨ha, hb, hc, hd⟩ := of_decide_eq_true hc
    rw [defectFrom.eq_def]
    simp [ha, hb, hc, hd]
  next => cases hc

/-- Where there is no character there is a defect. -/
theorem defectFrom_none {text : Bytes} (htext : text ≠ []) (h : character? text = none)
    (index : Nat) : defectFrom index text ≠ none := by
  -- Every way to go on without a defect would be a character to start with.
  have hno : ∀ c, isCharacter c → ¬c <+: text := by
    intro c hc hprefix
    rw [character?_eq_some.2 ⟨hc, hprefix⟩] at h
    cases h
  intro hnone
  rw [defectFrom.eq_def] at hnone
  split at hnone
  next => exact htext rfl
  next a rest =>
    split at hnone
    next ha => exact hno [a] (decide_eq_true ha) (by simp)
    next ha =>
      split at hnone
      next => cases hnone
      next b rest =>
        split at hnone
        next hb => exact hno [a, b] (decide_eq_true ⟨ha, hb⟩) (by simp)
        next => cases hnone
    next ha =>
      split at hnone
      next => cases hnone
      next b rest =>
        split at hnone
        next hb =>
          split at hnone
          next => cases hnone
          next c rest =>
            split at hnone
            next hc => exact hno [a, b, c] (decide_eq_true ⟨ha, hb, hc⟩) (by simp)
            next => cases hnone
        next => cases hnone
    next width h1 h2 h3 ha =>
      have hfour : width = 4 := by
        have hbounds := width?_bounds ha
        simp only [imp_false] at h1 h2 h3
        omega
      subst hfour
      split at hnone
      next => cases hnone
      next b rest =>
        split at hnone
        next hb =>
          split at hnone
          next => cases hnone
          next c rest =>
            split at hnone
            next hc =>
              split at hnone
              next => cases hnone
              next d rest =>
                split at hnone
                next hd => exact hno [a, b, c, d] (decide_eq_true ⟨ha, hb, hc, hd⟩) (by simp)
                next => cases hnone
            next => cases hnone
        next => cases hnone
    next => cases hnone

/-- A byte string without a defect is made of characters, and only such a one is. -/
theorem flatten_leading_iff {limit : Nat} {text : Bytes} (h : text.length ≤ limit) (index : Nat) :
    (leading limit text).flatten = text ↔ defectFrom index text = none := by
  induction limit generalizing text index with
  | zero =>
    obtain rfl := List.length_eq_zero_iff.1 (Nat.le_zero.1 h)
    exact ⟨fun _ => rfl, fun _ => rfl⟩
  | succ limit ih =>
    by_cases htext : text = []
    · subst htext
      exact ⟨fun _ => rfl, fun _ => by rw [leading_nil]; rfl⟩
    cases hc : character? text with
    | none =>
      rw [leading_of_none hc]
      refine ⟨fun hnil => absurd hnil.symm htext, fun hnone => ?_⟩
      exact absurd hnone (defectFrom_none htext hc index)
    | some c =>
      obtain ⟨hchar, rest, rfl⟩ := character?_eq_some.1 hc
      have hpos := (length_of_isCharacter hchar).1
      have hlen : rest.length ≤ limit := by
        rw [List.length_append] at h
        omega
      rw [leading, hc, defectFrom_character hc]
      simp only [List.drop_left, List.flatten_cons, List.append_cancel_left_eq]
      exact ih hlen _

/-- Characters that are put one after the other are found again. -/
theorem leading_flatten {cs : List Bytes} (h : ∀ c ∈ cs, isCharacter c) :
    leading cs.length cs.flatten = cs := by
  induction cs with
  | nil => rfl
  | cons c rest ih =>
    have hc : character? (c ++ rest.flatten) = some c :=
      character?_eq_some.2 ⟨h c List.mem_cons_self, List.prefix_append _ _⟩
    rw [List.flatten_cons, List.length_cons, leading, hc]
    dsimp only
    rw [List.drop_left, ih fun c' hc' => h c' (List.mem_cons_of_mem _ hc')]

theorem characterCount_flatten {cs : List Bytes} (h : ∀ c ∈ cs, isCharacter c) :
    characterCount cs.flatten = cs.length := by
  induction cs with
  | nil => rfl
  | cons c rest ih =>
    have hc := characterCount_of_isCharacter (h c List.mem_cons_self)
    have hrest := ih fun c' hc' => h c' (List.mem_cons_of_mem _ hc')
    unfold characterCount at hc hrest ⊢
    rw [List.flatten_cons, List.countP_append, hc, hrest, List.length_cons, Nat.add_comm]

end LargeObjects.Utf8

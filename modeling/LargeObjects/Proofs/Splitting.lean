import Mathlib
import LargeObjects.Proofs.Exactness
import LargeObjects.Proofs.Pouring

/-! Text that is taken in by requests for characters. The octets that pass for a character are those
of a Unicode scalar value in UTF-8 and no others, so every byte string splits in one way into the
characters that it starts with and a rest that starts with none. The requests hand out the former in
order, however the byte string arrives, and the rest is refused once a request reaches it. -/
namespace LargeObjects

namespace Utf8

/-- Octets of the form `10xxxxxx` continue a character. -/
theorem isContinuation_iff {b : UInt8} : isContinuation b ↔ 128 ≤ b.toNat ∧ b.toNat ≤ 191 := by
  simp [isContinuation, UInt8.le_iff_toNat_le]

/-- The second octet continues the first. Four first octets leave less room for it. -/
theorem secondAllowed_iff {a b : UInt8} :
    secondAllowed a b ↔ (128 ≤ b.toNat ∧ b.toNat ≤ 191) ∧
      (a.toNat = 224 → 160 ≤ b.toNat) ∧ (a.toNat = 237 → b.toNat ≤ 159) ∧
      (a.toNat = 240 → 144 ≤ b.toNat) ∧ (a.toNat = 244 → b.toNat ≤ 143) := by
  unfold secondAllowed
  split_ifs <;>
    simp [isContinuation_iff, UInt8.le_iff_toNat_le, ← UInt8.toNat_inj] at * <;> omega

theorem width?_eq_some_iff {a : UInt8} {width : Nat} :
    width? a = some width ↔
      (a.toNat ≤ 127 ∧ width = 1) ∨ ((194 ≤ a.toNat ∧ a.toNat ≤ 223) ∧ width = 2) ∨
      ((224 ≤ a.toNat ∧ a.toNat ≤ 239) ∧ width = 3) ∨
      ((240 ≤ a.toNat ∧ a.toNat ≤ 244) ∧ width = 4) := by
  unfold width?
  split_ifs <;> simp [UInt8.le_iff_toNat_le] at * <;> omega

inductive Form : Bytes → Prop
  | one {a : UInt8} : a.toNat ≤ 127 → Form [a]
  | two {a b : UInt8} : 194 ≤ a.toNat ∧ a.toNat ≤ 223 →
      128 ≤ b.toNat ∧ b.toNat ≤ 191 → Form [a, b]
  | three {a b c : UInt8} : 224 ≤ a.toNat ∧ a.toNat ≤ 239 →
      128 ≤ b.toNat ∧ b.toNat ≤ 191 →
      (a.toNat = 224 → 160 ≤ b.toNat) → (a.toNat = 237 → b.toNat ≤ 159) →
      128 ≤ c.toNat ∧ c.toNat ≤ 191 → Form [a, b, c]
  | four {a b c d : UInt8} : 240 ≤ a.toNat ∧ a.toNat ≤ 244 →
      128 ≤ b.toNat ∧ b.toNat ≤ 191 →
      (a.toNat = 240 → 144 ≤ b.toNat) → (a.toNat = 244 → b.toNat ≤ 143) →
      128 ≤ c.toNat ∧ c.toNat ≤ 191 → 128 ≤ d.toNat ∧ d.toNat ≤ 191 → Form [a, b, c, d]

/-- What is taken for a character has one of the forms of the standard. -/
theorem isCharacter_iff_form {text : Bytes} : isCharacter text ↔ Form text := by
  constructor
  · intro h
    unfold isCharacter at h
    split at h
    all_goals simp only [decide_eq_true_eq, width?_eq_some_iff, secondAllowed_iff,
      isContinuation_iff, Bool.false_eq_true] at h
    · exact .one (by omega)
    · exact .two (by omega) (by omega)
    · exact .three (by omega) (by omega) (by omega) (by omega) (by omega)
    · exact .four (by omega) (by omega) (by omega) (by omega) (by omega) (by omega)
  · intro h
    cases h <;> simp [isCharacter, width?_eq_some_iff, secondAllowed_iff, isContinuation_iff] <;>
      omega

theorem form_utf8EncodeChar (ch : Char) : Form (String.utf8EncodeChar ch) := by
  -- That surrogates are no characters narrows the second of three octets.
  have hvalid : ch.val.toNat < 0xD800 ∨ 0xDFFF < ch.val.toNat ∧ ch.val.toNat < 0x110000 := ch.valid
  unfold String.utf8EncodeChar
  generalize ch.val.toNat = n at hvalid
  dsimp only
  split_ifs with h1 h2 h3
  · apply Form.one
    rw [UInt8.toNat_ofNat']
    omega
  · apply Form.two <;> simp only [UInt8.toNat_ofNat'] <;> omega
  · apply Form.three <;> simp only [UInt8.toNat_ofNat'] <;> omega
  · apply Form.four <;> simp only [UInt8.toNat_ofNat'] <;> omega

theorem exists_char_of_number {n : Nat} (h : n < 0xD800 ∨ 0xDFFF < n ∧ n < 0x110000) :
    ∃ ch : Char, ch.val.toNat = n := ⟨Char.ofNatAux n h, rfl⟩

/-- Surrogates, overlong octets and numbers past the last character have no form. -/
theorem Form.exists_char {text : Bytes} (h : Form text) :
    ∃ ch : Char, String.utf8EncodeChar ch = text := by
  cases h with
  | @one a ha =>
    obtain ⟨ch, hch⟩ := exists_char_of_number (n := a.toNat) (by omega)
    refine ⟨ch, ?_⟩
    simp only [String.utf8EncodeChar, hch, if_pos ha, UInt8.ofNat_toNat]
  | @two a b ha hb =>
    obtain ⟨ch, hch⟩ := exists_char_of_number (n := (a.toNat - 192) * 64 + (b.toNat - 128)) (by omega)
    refine ⟨ch, ?_⟩
    simp only [String.utf8EncodeChar, hch]
    rw [if_neg (by omega), if_pos (by omega)]
    simp only [List.cons.injEq, and_true, ← UInt8.toNat_inj, UInt8.toNat_ofNat']
    omega
  | @three a b c ha hb hlow hhigh hc =>
    obtain ⟨ch, hch⟩ := exists_char_of_number
      (n := ((a.toNat - 224) * 64 + (b.toNat - 128)) * 64 + (c.toNat - 128)) (by omega)
    refine ⟨ch, ?_⟩
    simp only [String.utf8EncodeChar, hch]
    rw [if_neg (by omega), if_neg (by omega), if_pos (by omega)]
    simp only [List.cons.injEq, and_true, ← UInt8.toNat_inj, UInt8.toNat_ofNat']
    omega
  | @four a b c d ha hb hlow hhigh hc hd =>
    obtain ⟨ch, hch⟩ := exists_char_of_number
      (n := (((a.toNat - 240) * 64 + (b.toNat - 128)) * 64 + (c.toNat - 128)) * 64 +
        (d.toNat - 128)) (by omega)
    refine ⟨ch, ?_⟩
    simp only [String.utf8EncodeChar, hch]
    rw [if_neg (by omega), if_neg (by omega), if_neg (by omega)]
    simp only [List.cons.injEq, and_true, ← UInt8.toNat_inj, UInt8.toNat_ofNat']
    omega

/-- The characters taken are those that can be encoded, and nothing else. -/
theorem isCharacter_iff {text : Bytes} :
    isCharacter text ↔ ∃ ch : Char, String.utf8EncodeChar ch = text := by
  rw [isCharacter_iff_form]
  constructor
  · exact Form.exists_char
  · rintro ⟨ch, rfl⟩
    exact form_utf8EncodeChar ch

def encode (chars : List Char) : Bytes := chars.flatMap String.utf8EncodeChar

theorem encode_eq (chars : List Char) : encode chars = (chars.map String.utf8EncodeChar).flatten :=
  List.flatMap_def

theorem encode_cons (ch : Char) (chars : List Char) :
    encode (ch :: chars) = String.utf8EncodeChar ch ++ encode chars := List.flatMap_cons

theorem encode_append (chars more : List Char) :
    encode (chars ++ more) = encode chars ++ encode more := List.flatMap_append

theorem flatten_map_encode (parts : List (List Char)) :
    (parts.map encode).flatten = encode parts.flatten := by
  induction parts with
  | nil => rfl
  | cons part parts ih =>
    rw [List.map_cons, List.flatten_cons, ih, List.flatten_cons, encode_append]

theorem encode_take_append_drop (n : Nat) (chars : List Char) :
    encode (chars.take n) ++ encode (chars.drop n) = encode chars := by
  rw [← encode_append, List.take_append_drop]

structure Starts (text : Bytes) (chars : List Char) (rest : Bytes) : Prop where
  text_eq : text = encode chars ++ rest
  stops : ∀ ch, ¬String.utf8EncodeChar ch <+: rest

variable {text rest : Bytes} {chars : List Char}

theorem character?_eq_none_iff :
    character? rest = none ↔ ∀ ch, ¬String.utf8EncodeChar ch <+: rest := by
  rw [Option.eq_none_iff_forall_ne_some]
  constructor
  · intro h ch hprefix
    exact h _ (character?_eq_some.2 ⟨isCharacter_iff.2 ⟨ch, rfl⟩, hprefix⟩)
  · intro h c hc
    obtain ⟨hchar, hprefix⟩ := character?_eq_some.1 hc
    obtain ⟨ch, rfl⟩ := isCharacter_iff.1 hchar
    exact h ch hprefix

/-- Every byte string is characters and a rest that starts with none. -/
theorem exists_starts (text : Bytes) : ∃ chars rest, Starts text chars rest := by
  -- By induction on a bound for the length: a character takes at least one octet off.
  generalize hlimit : text.length = limit
  induction limit using Nat.strong_induction_on generalizing text with
  | _ limit ih =>
    cases hc : character? text with
    | none => exact ⟨[], text, rfl, character?_eq_none_iff.1 hc⟩
    | some c =>
      obtain ⟨hchar, more, rfl⟩ := character?_eq_some.1 hc
      have hpos := (length_of_isCharacter hchar).1
      rw [List.length_append] at hlimit
      obtain ⟨chars, rest, rfl, hstops⟩ := ih more.length (by omega) more rfl
      obtain ⟨ch, rfl⟩ := isCharacter_iff.1 hchar
      refine ⟨ch :: chars, rest, ?_, hstops⟩
      rw [encode_cons, List.append_assoc]

theorem Starts.drop (h : Starts text chars rest) (n : Nat) :
    Starts (encode (chars.drop n) ++ rest) (chars.drop n) rest := ⟨rfl, h.stops⟩

/-- The characters that are looked for are the first of those that the byte string starts with. -/
theorem Starts.leading_eq (h : Starts text chars rest) (n : Nat) :
    leading n text = (chars.take n).map String.utf8EncodeChar := by
  obtain ⟨rfl, hstops⟩ := h
  induction chars generalizing n with
  | nil =>
    rw [List.take_nil, List.map_nil]
    exact leading_of_none (character?_eq_none_iff.2 hstops) n
  | cons ch chars ih =>
    cases n with
    | zero => rfl
    | succ n =>
      have hc : character? (String.utf8EncodeChar ch ++ (encode chars ++ rest)) =
          some (String.utf8EncodeChar ch) :=
        character?_eq_some.2 ⟨isCharacter_iff.2 ⟨ch, rfl⟩, List.prefix_append _ _⟩
      rw [encode_cons, List.append_assoc, leading, hc, List.take_succ_cons, List.map_cons]
      dsimp only
      rw [List.drop_left, ih]

/-- The characters that are taken are those at the start. -/
theorem Starts.flatten_leading (h : Starts text chars rest) (n : Nat) :
    (leading n text).flatten = encode (chars.take n) := by
  rw [h.leading_eq, encode_eq]

theorem Starts.drop_leading (h : Starts text chars rest) (n : Nat) :
    text.drop (leading n text).flatten.length = encode (chars.drop n) ++ rest := by
  rw [h.flatten_leading, h.text_eq, ← encode_take_append_drop n chars, List.append_assoc,
    List.drop_left]

theorem encode_eq_nil_iff : encode chars = [] ↔ chars = [] := by
  rw [encode, List.flatMap_eq_nil_iff]
  constructor
  · intro h
    apply List.eq_nil_iff_forall_not_mem.2
    exact fun ch hch => String.utf8EncodeChar_ne_nil (h ch hch)
  · rintro rfl ch hch
    cases hch

/-- No two characters have the same octets. -/
theorem utf8EncodeChar_injective : Function.Injective String.utf8EncodeChar := by
  intro c c' h
  have hc := ByteArray.utf8DecodeChar?_utf8EncodeChar_append (c := c) (b := .empty)
  have hc' := ByteArray.utf8DecodeChar?_utf8EncodeChar_append (c := c') (b := .empty)
  rw [h, hc'] at hc
  exact (Option.some.inj hc).symm

/-- There is only one such split. -/
theorem Starts.unique {chars' : List Char} {rest' : Bytes} (h : Starts text chars rest)
    (h' : Starts text chars' rest') : chars = chars' ∧ rest = rest' := by
  have hchars := h.leading_eq (max chars.length chars'.length)
  rw [h'.leading_eq, List.take_of_length_le (Nat.le_max_right _ _),
    List.take_of_length_le (Nat.le_max_left _ _)] at hchars
  obtain rfl := List.map_injective_iff.2 utf8EncodeChar_injective hchars
  have hrest := h.text_eq
  rw [h'.text_eq, List.append_cancel_left_eq] at hrest
  exact ⟨rfl, hrest.symm⟩

/-- A request is met when there are as many characters, or when nothing but characters is there. -/
theorem Starts.complete_iff (h : Starts text chars rest) (n : Nat) :
    Kind.character.Complete n text none ↔ rest = [] ∨ n ≤ chars.length := by
  have hlen : (leading n text).length = n ↔ n ≤ chars.length := by
    rw [h.leading_eq, List.length_map, List.length_take]
    omega
  have hflat : (leading n text).flatten = text ↔ chars.length ≤ n ∧ rest = [] := by
    calc (leading n text).flatten = text
        ↔ encode (chars.take n) ++ [] = encode (chars.take n) ++ (encode (chars.drop n) ++ rest) := by
          rw [← List.append_assoc, encode_take_append_drop, List.append_nil, h.flatten_leading,
            ← h.text_eq]
      _ ↔ encode (chars.drop n) = [] ∧ rest = [] := by
          rw [List.append_cancel_left_eq, eq_comm, List.append_eq_nil_iff]
      _ ↔ chars.length ≤ n ∧ rest = [] := by
          rw [encode_eq_nil_iff, List.drop_eq_nil_iff]
  simp only [Kind.Complete, Kind.units, hlen, hflat, true_and]
  have := Nat.le_total n chars.length
  tauto

end Utf8

theorem flatten_splitLengths_eq_take {α : Type} (sizes : List Nat) (xs : List α) :
    (sizes.splitLengths xs).flatten = xs.take sizes.sum := by
  induction sizes generalizing xs with
  | nil => rfl
  | cons n sizes ih =>
    rw [List.splitLengths_cons, List.flatten_cons, ih, List.sum_cons, List.take_add]

namespace Intake

open Utf8

/-- The answers to requests have the octets of the characters that were asked for. -/
theorem flatten_fst_answers (requests : List Nat) (chars : List Char) :
    (((requests.splitLengths chars).map fun p => (encode p, p.length)).map Prod.fst).flatten =
      encode (chars.take requests.sum) := by
  calc (((requests.splitLengths chars).map fun p => (encode p, p.length)).map Prod.fst).flatten
      = ((requests.splitLengths chars).map encode).flatten := by
        rw [List.map_map]
        rfl
    _ = encode (requests.splitLengths chars).flatten := flatten_map_encode _
    _ = encode (chars.take requests.sum) := by rw [flatten_splitLengths_eq_take]

theorem snd_answers (requests : List Nat) (chars : List Char) :
    ((requests.splitLengths chars).map fun p => (encode p, p.length)).map Prod.snd =
      (requests.splitLengths chars).map List.length := by
  rw [List.map_map]
  rfl

theorem cause_of_refuses {rest : Bytes} {e : ObjectError} (hnone : character? rest = none)
    (h : Kind.character.Refuses rest none e) :
    e = .corruption .truncatedSource ∧ Incomplete rest ∨
      e = .corruption .malformedSource ∧ Malformed rest := by
  cases h with
  | malformed hbad => exact Or.inr ⟨rfl, hbad⟩
  | truncated hsound => exact Or.inl ⟨rfl, (incomplete_or_malformed hnone).resolve_right hsound⟩

section Requests

variable [Codec] {σ : Type} [FileStore σ] {s : σ} {Has : Source σ → Bytes → Option StreamError → Prop}
  {intake : Intake σ} {text rest : Bytes} {chars : List Char}

theorem fetch_pending {limit : Nat} {fetched : Bytes} {t : Intake σ × σ}
    (h : fetch limit (intake, s) = .ok fetched t) : t.1.pending = intake.pending := by
  unfold fetch at h
  dsimp only at h
  split at h <;> cases h
  rfl

/-- More rounds than a character has octets change nothing: every round but the last fetches
something, and what is kept from round to round is less than a character. -/
theorem takeText_stable {wanted fuel : Nat} (hfuel : 4 * wanted + 1 ≤ fuel + intake.pending.length)
    (hpos : 0 < fuel) (taken : Bytes) (count : Nat) :
    takeText wanted taken count (fuel + 1) (intake, s) =
      takeText wanted taken count fuel (intake, s) := by
  induction fuel generalizing intake wanted taken count s with
  | zero => exact absurd hpos (Nat.lt_irrefl 0)
  | succ fuel ih =>
    rw [takeText_succ, takeText_succ]
    have htaken := takeCharacters_eq wanted intake.pending taken 0
    have hsplit := Kind.units_append_drop .character wanted intake.pending
    have hoctets := length_flatten_leading_le wanted intake.pending
    dsimp only [Kind.units] at hsplit htaken
    -- `cs` are taken in this round, and `left` waits for the next.
    generalize leading wanted intake.pending = cs at htaken hsplit hoctets
    generalize intake.pending.drop cs.flatten.length = left at htaken hsplit
    have hlength := congrArg List.length hsplit
    rw [List.length_append] at hlength
    rcases htaken with ⟨htake, hstop⟩ | ⟨htake, -, -⟩
    · simp only [htake, Nat.zero_add]
      by_cases hall : wanted ≤ cs.length
      · simp only [if_pos hall]
      have hshort := (hstop.resolve_left (by omega)).length_le
      simp only [if_neg hall]
      cases hfetch : fetch fetchSize ({ intake with pending := left }, s) with
      | error e t => rfl
      | ok fetched t =>
        have hpending : t.1.pending = left := fetch_pending hfetch
        by_cases hend : fetched = []
        · simp only [if_pos hend]
        · simp only [if_neg hend]
          -- A round lowers the rounds that are left by one and adds an octet at least.
          have hgrown := List.length_pos_iff.2 hend
          apply ih
          · rw [List.length_append, hpending]
            omega
          · omega
    · simp only [htake]

theorem takeText_eq_take {wanted rounds : Nat} (hkind : intake.kind = .character)
    (hrounds : 4 * wanted + 1 ≤ rounds) :
    takeText wanted [] 0 rounds (intake, s) = take wanted (intake, s) := by
  have hrun : take wanted (intake, s) = takeText wanted [] 0 (4 * wanted + 1) (intake, s) := by
    simp only [take, hkind]
  rw [hrun]
  induction rounds, hrounds using Nat.le_induction with
  | base => rfl
  | succ rounds hrounds ih =>
    rw [takeText_stable (by omega) (by omega), ih]

/-- One request takes the next characters, or reaches what is none. -/
theorem take_starts (law : Sourced s Has) (hkind : intake.kind = .character)
    (h : intake.Offers Has text none) (hstarts : Starts text chars rest) (wanted : Nat) :
    ((rest = [] ∨ wanted ≤ chars.length) ∧ ∃ intake',
      take wanted (intake, s) =
        .ok (encode (chars.take wanted), (chars.take wanted).length) (intake', s) ∧
      intake'.kind = .character ∧ intake'.Offers Has (encode (chars.drop wanted) ++ rest) none) ∨
    (rest ≠ [] ∧ chars.length < wanted) ∧ ∃ e intake',
      take wanted (intake, s) = .error e (intake', s) ∧ Kind.character.Refuses rest none e := by
  have hrest := hstarts.drop_leading wanted
  have hcomplete := hstarts.complete_iff wanted
  rcases taking law h wanted with
    ⟨hdone, intake', hrun, hkind', hoffers⟩ | ⟨hfail, e, intake', hrun, hrefuses⟩
  · rw [hkind] at hdone hrun hkind' hoffers
    simp only [Kind.units] at hrun hoffers
    rw [hrest] at hoffers
    rw [hstarts.flatten_leading, hstarts.leading_eq, List.length_map] at hrun
    exact Or.inl ⟨hcomplete.1 hdone, intake', hrun, hkind', hoffers⟩
  · rw [hkind] at hfail hrefuses
    simp only [Kind.units] at hrefuses
    rw [hcomplete, not_or, Nat.not_le] at hfail
    rw [hrest, List.drop_of_length_le (Nat.le_of_lt hfail.2)] at hrefuses
    exact Or.inr ⟨hfail, e, intake', hrun, hrefuses⟩

/-- Requests one after the other take the characters in portions, or reach what is none. -/
theorem mapM_take_starts (law : Sourced s Has) (hkind : intake.kind = .character)
    (h : intake.Offers Has text none) (hstarts : Starts text chars rest) (requests : List Nat) :
    ((rest = [] ∨ requests.sum ≤ chars.length) ∧ ∃ intake',
      requests.mapM take (intake, s) =
        .ok ((requests.splitLengths chars).map fun p => (encode p, p.length)) (intake', s)) ∨
    (rest ≠ [] ∧ chars.length < requests.sum) ∧ ∃ e intake',
      requests.mapM take (intake, s) = .error e (intake', s) ∧
        Kind.character.Refuses rest none e := by
  -- By induction on the requests: what is left after one splits into the later characters and the
  -- same rest.
  induction requests generalizing intake text chars with
  | nil => exact Or.inl ⟨Or.inr (Nat.zero_le _), intake, rfl⟩
  | cons wanted requests ih =>
    rw [List.mapM_cons, List.sum_cons]
    rcases take_starts law hkind h hstarts wanted with
      ⟨hmet, intake₁, hrun, hkind₁, hoffers⟩ | ⟨⟨hrest, hlt⟩, e, intake₁, hrun, hrefuses⟩
    · rw [Step.bind_ok hrun]
      have hlater := ih hkind₁ hoffers (hstarts.drop wanted)
      rw [List.length_drop] at hlater
      rcases hlater with ⟨hlater, intake', hrun'⟩ | ⟨⟨hrest, hlt⟩, e, intake', hrun', hrefuses⟩
      · refine Or.inl ⟨?_, intake', ?_⟩
        · rcases hmet with hnil | hle
          · exact Or.inl hnil
          · exact hlater.imp_right (by omega)
        · rw [Step.bind_ok hrun', List.splitLengths_cons]
          rfl
      · refine Or.inr ⟨⟨hrest, ?_⟩, e, intake', ?_, hrefuses⟩
        · have hle := hmet.resolve_left hrest
          omega
        · rw [Step.bind_error hrun']
    · refine Or.inr ⟨⟨hrest, by omega⟩, e, intake₁, ?_, hrefuses⟩
      rw [Step.bind_error hrun]

/-- Text taken in by requests, however it arrives. The requests hand out the characters that it
starts with, each as many as it asks for until there are no more, and they fail exactly when they ask
for more of them and something that is no character comes next. A request is done within four rounds
for each character, and one. -/
theorem characters_exact {deliveries : List Delivery} (hreads : Delivery.OnlyReads deliveries) :
    ∃ chars rest, Starts (Delivery.outcome deliveries).1 chars rest ∧
      ∀ (requests : List Nat) (s : σ),
        let text := (Delivery.outcome deliveries).1
        let run := requests.mapM take ({ kind := .character, source := .planned deliveries }, s)
        ((∃ answers t, run = .ok answers t) ↔ rest = [] ∨ requests.sum ≤ chars.length) ∧
        (∀ answers t, run = .ok answers t →
          answers = (requests.splitLengths chars).map (fun p => (encode p, p.length)) ∧
          (answers.map Prod.fst).flatten = encode (chars.take requests.sum) ∧
          (answers.map Prod.snd = requests ∨ (answers.map Prod.fst).flatten = text)) ∧
        (∀ e t, run = .error e t →
          e = .corruption .truncatedSource ∧ Incomplete rest ∨
            e = .corruption .malformedSource ∧ Malformed rest) ∧
        ∀ (intake : Intake σ) (wanted rounds : Nat), intake.kind = .character →
          4 * wanted + 1 ≤ rounds →
          takeText wanted [] 0 rounds (intake, s) = take wanted (intake, s) := by
  obtain ⟨chars, rest, hstarts⟩ := exists_starts (Delivery.outcome deliveries).1
  refine ⟨chars, rest, hstarts, fun requests s => ?_⟩
  intro text run
  -- No file is read, so nothing need be known of the readers of the store.
  have law : Readable s fun (_ : FileStore.Reader σ) _ => False := ⟨nofun, nofun⟩
  have hoffers : ({ kind := .character, source := .planned deliveries } : Intake σ).Offers
      (Source.Gives fun (_ : FileStore.Reader σ) _ => False) text none := by
    refine ⟨nofun, text, rfl, ?_⟩
    rw [← hreads.outcome]
    exact .planned hreads.not_mem
  have hrounds : ∀ (intake : Intake σ) (wanted rounds : Nat), intake.kind = .character →
      4 * wanted + 1 ≤ rounds →
      takeText wanted [] 0 rounds (intake, s) = take wanted (intake, s) :=
    fun _ _ _ hkind hle => takeText_eq_take hkind hle
  rcases mapM_take_starts (Source.sourced law) rfl hoffers hstarts requests with
    ⟨hmet, intake', hrun⟩ | ⟨⟨hrest, hlt⟩, e, intake', hrun, hrefuses⟩
  · refine ⟨iff_of_true ⟨_, _, hrun⟩ hmet, fun answers t hok => ?_, fun e t herror => ?_, hrounds⟩
    · obtain ⟨rfl, -⟩ := EStateM.Result.ok.inj (hrun.symm.trans hok)
      have hflat := flatten_fst_answers requests chars
      refine ⟨rfl, hflat, ?_⟩
      rw [snd_answers, hflat]
      rcases Nat.lt_or_ge chars.length requests.sum with hlt | hle
      · -- More is asked for than there is, so nothing but characters is there.
        obtain rfl := hmet.resolve_right (Nat.not_le.2 hlt)
        refine Or.inr ?_
        calc encode (chars.take requests.sum) = encode chars := by
              rw [List.take_of_length_le (Nat.le_of_lt hlt)]
          _ = text := by rw [← List.append_nil (encode chars), ← hstarts.text_eq]
      · exact Or.inl (List.map_splitLengths_length chars requests hle)
    · cases hrun.symm.trans herror
  · refine ⟨iff_of_false ?_ ?_, fun answers t hok => ?_, fun e' t herror => ?_, hrounds⟩
    · rintro ⟨answers, t, hok⟩
      cases hrun.symm.trans hok
    · rintro (hnil | hle)
      · exact hrest hnil
      · omega
    · cases hrun.symm.trans hok
    · obtain ⟨rfl, -⟩ := EStateM.Result.error.inj (hrun.symm.trans herror)
      exact cause_of_refuses (character?_eq_none_iff.2 hstarts.stops) hrefuses

end Requests

def cutShort : List Delivery :=
  [.bytes [0x61, 0xC3], .interrupted, .bytes [0xA9, 0xF0], .bytes [0x9F]]

/-- Two characters, the second of them cut in two by an interruption, and the start of a third, which
is asked for or not. -/
theorem characters_exact_cutShort :
    Delivery.OnlyReads cutShort ∧
    (∃ t, [1, 1].mapM take (({ kind := .character, source := .planned cutShort } :
        Intake MemoryStore), default) = .ok [([0x61], 1), ([0xC3, 0xA9], 1)] t) ∧
    ∃ t, [1, 2].mapM take (({ kind := .character, source := .planned cutShort } :
        Intake MemoryStore), default) = .error (.corruption .truncatedSource) t := by
  have hreads : Delivery.OnlyReads cutShort := by
    intro d hd
    simp only [cutShort, List.mem_cons, List.not_mem_nil, or_false] at hd
    rcases hd with rfl | rfl | rfl | rfl <;> simp
  have hcut : Incomplete [0xF0, 0x9F] := by
    rintro lead rest hcons
    cases hcons
    exact ⟨4, by decide, by decide⟩
  have hsplit : Starts (Delivery.outcome cutShort).1 ['a', 'é'] [0xF0, 0x9F] :=
    ⟨by decide, character?_eq_none_iff.1 hcut.character?⟩
  obtain ⟨chars, rest, hstarts, h⟩ := characters_exact (σ := MemoryStore) hreads
  obtain ⟨rfl, rfl⟩ := hstarts.unique hsplit
  refine ⟨hreads, ?_, ?_⟩
  · obtain ⟨hok, hanswers, -⟩ := h [1, 1] default
    obtain ⟨answers, t, hrun⟩ := hok.2 (Or.inr (by decide))
    refine ⟨t, hrun.trans ?_⟩
    rw [(hanswers answers t hrun).1]
    congr 1
  · obtain ⟨hok, -, herror, -⟩ := h [1, 2] default
    cases hrun : [1, 2].mapM take (({ kind := .character, source := .planned cutShort } :
        Intake MemoryStore), default) with
    | ok answers t =>
      have hmet := hok.1 ⟨answers, t, hrun⟩
      exact absurd hmet (by decide)
    | error e t =>
      rcases herror e t hrun with ⟨rfl, -⟩ | ⟨-, hbad⟩
      · exact ⟨t, rfl⟩
      · exact absurd hbad hcut.not_malformed

end Intake

end LargeObjects

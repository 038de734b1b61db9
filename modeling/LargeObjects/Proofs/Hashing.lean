import Mathlib
import LargeObjects.Proofs.Comparing

/-! Hash codes. Values of one kind with the same content have the same code. A binary value and a
character value can have the same content as well, but their units differ: an octet is not a character,
and next to text a binary value counts for its digits. It is said for which contents they then have
different codes. -/
namespace LargeObjects

open Step

namespace Bytes

theorem isCharacter_hexDigit {n : UInt8} (h : n < 16) : Utf8.isCharacter [hexDigit n] := by
  have hall : ∀ i : Fin 16, Utf8.isCharacter [hexDigit (UInt8.ofNat i)] := by decide
  simpa only [UInt8.ofNat_toNat] using hall ⟨n.toNat, h⟩

/-- The digits of octets are characters, each of them one octet. -/
theorem isCharacter_of_mem_hex {octets : Bytes} {b : UInt8} (h : b ∈ hex octets) :
    Utf8.isCharacter [b] := by
  obtain ⟨octet, -, hdigit⟩ := List.mem_flatMap.1 h
  rcases List.mem_pair.1 hdigit with rfl | rfl
  · exact isCharacter_hexDigit (high_lt octet)
  · exact isCharacter_hexDigit (low_lt octet)

end Bytes

namespace Kind

/-- Characters that are put one after the other are all the units of their text. -/
theorem allUnits_flatten {characters : List Bytes} (h : ∀ c ∈ characters, Utf8.isCharacter c) :
    character.allUnits characters.flatten = characters := by
  have hfirst : character.units characters.length characters.flatten = characters :=
    Utf8.leading_flatten h
  have hall := allUnits_flatten_units character characters.length characters.flatten
  rwa [hfirst] at hall

theorem length_allUnits_hex (octets : Bytes) :
    (character.allUnits (Bytes.hex octets)).length = 2 * octets.length := by
  have hflat : ((Bytes.hex octets).map fun b => [b]).flatten = Bytes.hex octets := by
    rw [← List.flatMap_def, List.flatMap_singleton']
  have hall : ∀ c ∈ (Bytes.hex octets).map fun b => [b], Utf8.isCharacter c := by
    intro c hc
    obtain ⟨b, hb, rfl⟩ := List.mem_map.1 hc
    exact Bytes.isCharacter_of_mem_hex hb
  have hunits := allUnits_flatten hall
  rw [hflat] at hunits
  rw [hunits, List.length_map, Bytes.length_hex]

theorem length_allUnits_le (kind : Kind) (text : Bytes) : (kind.allUnits text).length ≤ text.length :=
  length_units_le kind _ text

def hashCode (kind : Kind) (content : Bytes) : UInt32 :=
  let units := (kind.allUnits content).length
  if Value.hashLimit < units then Value.foldPrecision units else Checksum.crc32 content

theorem hashCode_eq_crc32 {kind : Kind} {content : Bytes}
    (h : (kind.allUnits content).length ≤ Value.hashLimit) :
    kind.hashCode content = Checksum.crc32 content := if_neg (Nat.not_lt.2 h)

theorem hashCode_eq_foldPrecision {kind : Kind} {content : Bytes}
    (h : Value.hashLimit < (kind.allUnits content).length) :
    kind.hashCode content = Value.foldPrecision (kind.allUnits content).length := if_pos h

/-- Contents of two values that have the same content and yet not the same hash code. Of octets next to
a text there are more than the limit, since they are the octets of the text. Of a text next to octets
there are two characters for each octet. -/
inductive Scatters : Kind → Kind → Bytes → Bytes → Prop
  | octetsByNumber {X : Bytes} : Value.hashLimit < X.length →
    (character.allUnits X).length ≤ Value.hashLimit →
    Value.foldPrecision X.length ≠ Checksum.crc32 X → Scatters .binary .character X X
  | bothByNumber {X : Bytes} : Value.hashLimit < (character.allUnits X).length →
    Value.foldPrecision X.length ≠ Value.foldPrecision (character.allUnits X).length →
    Scatters .binary .character X X
  | digitsByContent {X : Bytes} : 2 * X.length ≤ Value.hashLimit →
    Checksum.crc32 (Bytes.hex X) ≠ Checksum.crc32 X → Scatters .character .binary (Bytes.hex X) X
  | digitsByNumber {X : Bytes} : Value.hashLimit < 2 * X.length → X.length ≤ Value.hashLimit →
    Value.foldPrecision (2 * X.length) ≠ Checksum.crc32 X →
    Scatters .character .binary (Bytes.hex X) X
  | digitsDoubled {X : Bytes} : Value.hashLimit < X.length →
    Value.foldPrecision (2 * X.length) ≠ Value.foldPrecision X.length →
    Scatters .character .binary (Bytes.hex X) X

theorem not_scatters_of_kind {k : Kind} {A B : Bytes} : ¬Scatters k k A B := by
  intro h
  cases k <;> cases h

/-- Octets and the text that they are. -/
theorem scatters_octets {X : Bytes} :
    Scatters .binary .character X X ↔ binary.hashCode X ≠ character.hashCode X := by
  have hle := length_allUnits_le character X
  constructor
  · intro h
    cases h with
    | octetsByNumber hmany hfew hne =>
      rw [hashCode_eq_crc32 hfew, hashCode_eq_foldPrecision (by rwa [length_allUnits_binary]),
        length_allUnits_binary]
      exact hne
    | bothByNumber hmany hne =>
      rw [hashCode_eq_foldPrecision hmany,
        hashCode_eq_foldPrecision (by rw [length_allUnits_binary]; omega), length_allUnits_binary]
      exact hne
  · intro hne
    rcases Nat.lt_or_ge Value.hashLimit X.length with hmany | hfew
    · rw [hashCode_eq_foldPrecision (by rwa [length_allUnits_binary]), length_allUnits_binary] at hne
      rcases Nat.lt_or_ge Value.hashLimit (character.allUnits X).length with hmore | hless
      · rw [hashCode_eq_foldPrecision hmore] at hne
        exact .bothByNumber hmore hne
      · rw [hashCode_eq_crc32 hless] at hne
        exact .octetsByNumber hmany hless hne
    · rw [hashCode_eq_crc32 (by rwa [length_allUnits_binary]), hashCode_eq_crc32 (hle.trans hfew)] at hne
      exact absurd rfl hne

/-- A text of digits and the octets that they stand for. -/
theorem scatters_digits {X : Bytes} : Scatters .character .binary (Bytes.hex X) X ↔
    character.hashCode (Bytes.hex X) ≠ binary.hashCode X := by
  have hdigits := length_allUnits_hex X
  have hoctets := length_allUnits_binary X
  -- What a pair scatters by is read off its octets, so the digits are named apart from them.
  have hcases : ∀ D, D = Bytes.hex X → Scatters .character .binary D X →
      character.hashCode (Bytes.hex X) ≠ binary.hashCode X := by
    rintro D hD h
    cases h with
    | digitsByContent hfew hne =>
      rw [hashCode_eq_crc32 (by rwa [hdigits]), hashCode_eq_crc32 (by omega)]
      exact hne
    | digitsByNumber hmany hfew hne =>
      rw [hashCode_eq_foldPrecision (by rwa [hdigits]), hashCode_eq_crc32 (by rwa [hoctets]), hdigits]
      exact hne
    | digitsDoubled hmany hne =>
      rw [hashCode_eq_foldPrecision (by omega), hashCode_eq_foldPrecision (by rwa [hoctets]), hdigits,
        hoctets]
      exact hne
  refine ⟨hcases _ rfl, fun hne => ?_⟩
  rcases Nat.lt_or_ge Value.hashLimit (2 * X.length) with hmany | hfew
  · rw [hashCode_eq_foldPrecision (by rwa [hdigits]), hdigits] at hne
    rcases Nat.lt_or_ge Value.hashLimit X.length with hmore | hless
    · rw [hashCode_eq_foldPrecision (by rwa [hoctets]), hoctets] at hne
      exact .digitsDoubled hmore hne
    · rw [hashCode_eq_crc32 (by rwa [hoctets])] at hne
      exact .digitsByNumber hmany hless hne
  · rw [hashCode_eq_crc32 (by rwa [hdigits]), hashCode_eq_crc32 (by omega)] at hne
    exact .digitsByContent hfew hne

/-- Contents that are the same have the same hash code, but for those that scatter. -/
theorem hashCode_iff {k k' : Kind} {A B : Bytes} :
    (Bytes.order A (k.view k' B) = .eq → k.hashCode A = k'.hashCode B) ↔ ¬Scatters k k' A B := by
  rw [Std.LawfulEqCmp.compare_eq_iff_eq]
  cases k <;> cases k'
  case binary.binary => exact iff_of_true (fun h => by rw [h]; rfl) not_scatters_of_kind
  case character.character => exact iff_of_true (fun h => by rw [h]; rfl) not_scatters_of_kind
  case binary.character =>
    by_cases hsame : A = B
    · subst hsame
      rw [scatters_octets, not_not]
      exact ⟨fun h => h rfl, fun h _ => h⟩
    · exact iff_of_true (fun h => absurd h hsame) fun h => by cases h <;> exact hsame rfl
  case character.binary =>
    by_cases hsame : A = Bytes.hex B
    · subst hsame
      rw [scatters_digits, not_not]
      exact ⟨fun h => h rfl, fun h _ => h⟩
    · exact iff_of_true (fun h => absurd h hsame) fun h => by cases h <;> exact hsame rfl

end Kind

namespace Value

section Digest

variable [Codec] {σ : Type} [FileStore σ] {w : World σ} {a b : Value} {A B : Bytes}

def Remembers (v : Value) (content : Bytes) : Prop :=
  ∀ code, v.hash = some code → code = Checksum.crc32 content

/-- A large value is not read. -/
theorem digest_large (w : World σ) {v : Value} (h : hashLimit < v.precision) :
    v.digest w = .ok (foldPrecision v.precision, v) w := by
  unfold digest
  rw [if_pos h]
  rfl

variable [QuietStore σ]

/-- The hash code of a value is that of its content, whether or not the value remembers it. From then on
it does, if it is no larger than the limit. -/
theorem digest_eq (ha : a.Reads A w) (hcode : a.Remembers A) :
    ∃ a' : Value, a.digest w = .ok (a.kind.hashCode A, a') w ∧ a'.Reads A w ∧ a'.Remembers A ∧
      a'.digest w = .ok (a.kind.hashCode A, a') w := by
  have hunits := ha.precision_eq
  by_cases hlarge : hashLimit < a.precision
  · have hcodes : a.kind.hashCode A = foldPrecision a.precision := by
      rw [hunits] at hlarge ⊢
      exact Kind.hashCode_eq_foldPrecision hlarge
    have hdigest : a.digest w = .ok (a.kind.hashCode A, a) w := by
      rw [digest_large w hlarge, hcodes]
    exact ⟨a, hdigest, ha, hcode, hdigest⟩
  have hcodes : a.kind.hashCode A = Checksum.crc32 A := by
    rw [hunits] at hlarge
    exact Kind.hashCode_eq_crc32 (Nat.not_lt.1 hlarge)
  -- Both what remembers the code and what has just learnt it give it out without reading.
  have hknown : ∀ v : Value, v.precision = a.precision → v.hash = some (Checksum.crc32 A) →
      v.digest w = .ok (a.kind.hashCode A, v) w := by
    intro v hprecision hhash
    unfold digest
    rw [hprecision, if_neg hlarge, hhash, hcodes]
    rfl
  cases hhash : a.hash with
  | some code =>
    obtain rfl := hcode code hhash
    exact ⟨a, hknown a rfl hhash, ha, hcode, hknown a rfl hhash⟩
  | none =>
    let a' : Value := { a with hash := some (Checksum.crc32 A) }
    have hdigest : a.digest w = .ok (a.kind.hashCode A, a') w := by
      unfold digest
      rw [if_neg hlarge, hhash, hcodes]
      exact bind_ok ha.readBytes_eq
    refine ⟨a', hdigest, ⟨⟨w, ha.readBytes_eq⟩, ha.text, hunits⟩, ?_, hknown a' rfl rfl⟩
    rintro code hsame
    cases hsame
    rfl

/-- Two values with the same content have the same hash code, but for contents that scatter: a binary
value and a character value of whose contents at least one is hashed by its length, or of which one is
the digits of the other. What values remember makes no difference. -/
theorem hash_agrees_iff (ha : a.Reads A w) (hb : b.Reads B w) (hcode : a.Remembers A)
    (hcode' : b.Remembers B) :
    ∃ (same : Bool) (x y : UInt32) (a' b' : Value),
      a.sameContent b w = .ok same w ∧
      a.digest w = .ok (x, a') w ∧ b.digest w = .ok (y, b') w ∧
      a'.digest w = .ok (x, a') w ∧ b'.digest w = .ok (y, b') w ∧
      ((same = true → x = y) ↔ ¬Kind.Scatters a.kind b.kind A B) := by
  obtain ⟨a', hdigest, -, -, hagain⟩ := digest_eq ha hcode
  obtain ⟨b', hdigest', -, -, hagain'⟩ := digest_eq hb hcode'
  refine ⟨_, _, _, a', b', sameContent_eq ha hb, hdigest, hdigest', hagain, hagain', ?_⟩
  rw [decide_eq_true_iff]
  exact Kind.hashCode_iff

end Digest

/-- An octet and the letter that it is have the same content and the same hash code, although only the
letter remembers it. -/
theorem hash_agrees_letter :
    let w : World MemoryStore := { store := default }
    let octet := single .binary 97
    let letter : Value := { single .character 97 with hash := some (Checksum.crc32 [97]) }
    octet.Reads [97] w ∧ letter.Reads [97] w ∧ octet.Remembers [97] ∧ letter.Remembers [97] ∧
      ∃ (x y : UInt32) (octet' letter' : Value),
        octet.digest w = .ok (x, octet') w ∧ letter.digest w = .ok (y, letter') w ∧ x = y := by
  intro w octet letter
  have hoctet : octet.Reads [97] w := reads_single .binary (by decide) w
  have hsingle : (single .character 97).Reads [97] w := reads_single .character (by decide) w
  have hletter : letter.Reads [97] w := ⟨hsingle.readBytes_ok, hsingle.text, hsingle.precision_eq⟩
  have hnone : octet.Remembers [97] := nofun
  have hsome : letter.Remembers [97] := fun code hcode => (Option.some.inj hcode).symm
  obtain ⟨same, x, y, octet', letter', hsame, hx, hy, -, -, hagrees⟩ :=
    hash_agrees_iff hoctet hletter hnone hsome
  have htrue : octet.sameContent letter w = .ok true w := rfl
  rw [hsame] at htrue
  injection htrue with htrue
  refine ⟨hoctet, hletter, hnone, hsome, x, y, octet', letter', hx, hy, hagrees.2 ?_ htrue⟩
  intro hscatters
  cases hscatters with
  | octetsByNumber hmany => exact absurd hmany (by decide)
  | bothByNumber hmany => exact absurd hmany (by decide)

def accents : Bytes := (List.replicate 4097 [0xC3, 0xA9]).flatten

def accented (kind : Kind) (precision : Nat) : Value where
  kind
  precision
  content := .inline accents none

/-- A text as octets has more units than as characters, and both numbers are past the limit. A text of
two digits and the octet that they stand for have the same content, seen from the text, but the code of
each is that of its own octets. -/
theorem hash_disagrees :
    let w : World MemoryStore := { store := default }
    let octets := accented .binary 8194
    let text := accented .character 4097
    let octet := single .binary 0x61
    let digits : Value := { kind := .character, precision := 2, content := .inline [0x36, 0x31] none }
    octets.Reads accents w ∧ text.Reads accents w ∧ octets.sameContent text w = .ok true w ∧
    octets.digest w = .ok (8194, octets) w ∧ text.digest w = .ok (4097, text) w ∧
    octet.Reads [0x61] w ∧ digits.Reads [0x36, 0x31] w ∧ digits.sameContent octet w = .ok true w ∧
    (∃ octet' digits', octet.digest w = .ok (Checksum.crc32 [0x61], octet') w ∧
      digits.digest w = .ok (Checksum.crc32 [0x36, 0x31], digits') w) ∧
    (8194 : UInt32) ≠ 4097 ∧ Checksum.crc32 [0x61] ≠ Checksum.crc32 [0x36, 0x31] := by
  intro w octets text octet digits
  have hcharacters : ∀ c ∈ List.replicate 4097 [(0xC3 : UInt8), 0xA9], Utf8.isCharacter c := by
    intro c hc
    rw [List.eq_of_mem_replicate hc]
    decide
  have hunits : Kind.character.allUnits accents = List.replicate 4097 [0xC3, 0xA9] :=
    Kind.allUnits_flatten hcharacters
  have hlength : accents.length = 8194 := by
    rw [accents, List.length_flatten, List.map_replicate, List.sum_replicate]
    rfl
  have hdefect : Utf8.defect? accents = none := by
    refine (Kind.flatten_allUnits_iff .character accents).1 ?_ rfl
    rw [hunits]
    rfl
  have hoctets : octets.Reads accents w := by
    refine ⟨⟨w, rfl⟩, nofun, ?_⟩
    show 8194 = (Kind.binary.allUnits accents).length
    rw [Kind.length_allUnits_binary, hlength]
  have htext : text.Reads accents w := by
    refine ⟨⟨w, rfl⟩, fun _ => hdefect, ?_⟩
    show 4097 = (Kind.character.allUnits accents).length
    rw [hunits, List.length_replicate]
  have hsame : octets.sameContent text w = .ok true w := by
    rw [sameContent_eq hoctets htext, decide_eq_true]
    exact Std.ReflCmp.compare_self
  have hdigits : digits.Reads [0x36, 0x31] w := by
    refine ⟨⟨w, rfl⟩, fun _ => by decide, ?_⟩
    show 2 = (Kind.character.allUnits [0x36, 0x31]).length
    decide
  have hcode : foldPrecision 8194 = 8194 := by decide +kernel
  have hcode' : foldPrecision 4097 = 4097 := by decide +kernel
  have hlarge : octets.digest w = .ok (8194, octets) w := by
    rw [← hcode]
    exact digest_large w (show hashLimit < 8194 by decide)
  have hlarge' : text.digest w = .ok (4097, text) w := by
    rw [← hcode']
    exact digest_large w (show hashLimit < 4097 by decide)
  exact ⟨hoctets, htext, hsame, hlarge, hlarge', reads_single .binary (by decide) w, hdigits, rfl,
    ⟨_, _, rfl, rfl⟩, by decide, by decide +kernel⟩

end Value

end LargeObjects

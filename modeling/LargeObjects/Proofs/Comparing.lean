import Mathlib
import LargeObjects.Compression.Frame
import LargeObjects.Proofs.DiskLaws
import LargeObjects.Proofs.Looking
import LargeObjects.Proofs.Units

/-! Comparing values. The first value decides how: next to text, a binary value is taken for its
digits, and next to octets, text is taken for octets. Values of one kind are in order of their contents.
Between kinds, two values can both come first and chains of values can close, and it is said of which
contents that is so. -/
namespace LargeObjects

open Step

namespace Bytes

instance : Std.TransCmp order := inferInstanceAs (Std.TransCmp (compare (α := Bytes)))

instance : Std.LawfulEqCmp order := inferInstanceAs (Std.LawfulEqCmp (compare (α := Bytes)))

theorem compare_hexDigit {m n : UInt8} (hm : m < 16) (hn : n < 16) :
    compare (hexDigit m) (hexDigit n) = compare m n := by
  have hall : ∀ i j : Fin 16, compare (hexDigit (UInt8.ofNat i)) (hexDigit (UInt8.ofNat j)) =
      compare (UInt8.ofNat i) (UInt8.ofNat j) := by decide
  have h := hall ⟨m.toNat, hm⟩ ⟨n.toNat, hn⟩
  simpa only [UInt8.ofNat_toNat] using h

/-- The high halves of octets decide, and after them the low halves. -/
theorem compare_halves (a b : UInt8) :
    (compare (a >>> 4) (b >>> 4)).then (compare (a &&& 15) (b &&& 15)) = compare a b := by
  have hhigh : ∀ c : UInt8, (c >>> 4).toNat = c.toNat / 16 := fun c => by
    simp [UInt8.toNat_shiftRight, Nat.shiftRight_eq_div_pow]
  have hlow : ∀ c : UInt8, (c &&& 15).toNat = c.toNat % 16 := fun c => by
    rw [UInt8.toNat_and]
    exact Nat.and_two_pow_sub_one_eq_mod _ 4
  simp only [UInt8.compare_eq_toNat_compare_toNat, hhigh, hlow]
  generalize a.toNat = m, b.toNat = n
  rcases Nat.lt_trichotomy (m / 16) (n / 16) with hlt | heq | hgt
  · have hless : m < n := by omega
    rw [Nat.compare_eq_lt.2 hlt, Nat.compare_eq_lt.2 hless]
    rfl
  · rw [Nat.compare_eq_eq.2 heq, Ordering.eq_then]
    rcases Nat.lt_trichotomy (m % 16) (n % 16) with hlt | hsame | hgt
    · rw [Nat.compare_eq_lt.2 hlt, Nat.compare_eq_lt.2 (by omega)]
    · rw [Nat.compare_eq_eq.2 hsame, Nat.compare_eq_eq.2 (by omega)]
    · rw [Nat.compare_eq_gt.2 hgt, Nat.compare_eq_gt.2 (by omega)]
  · have hmore : n < m := by omega
    rw [Nat.compare_eq_gt.2 hgt, Nat.compare_eq_gt.2 hmore]
    rfl

theorem high_lt (b : UInt8) : b >>> 4 < 16 := by
  rw [UInt8.lt_iff_toNat_lt, UInt8.toNat_shiftRight]
  have hlt := b.toNat_lt
  simp only [UInt8.reduceToNat, Nat.reduceMod, Nat.shiftRight_eq_div_pow]
  omega

theorem low_lt (b : UInt8) : b &&& 15 < 16 := by
  have hle : (b &&& 15).toNat ≤ 15 := by
    rw [UInt8.toNat_and]
    exact Nat.and_le_right
  rw [UInt8.lt_iff_toNat_lt]
  exact Nat.lt_succ_of_le hle

/-- Digits are in order as the octets that they stand for. -/
theorem order_hex (a b : Bytes) : order (hex a) (hex b) = order a b := by
  induction a generalizing b with
  | nil => cases b <;> rfl
  | cons x a ih =>
    cases b with
    | nil => rfl
    | cons y b =>
      have hcons : ∀ (z : UInt8) (c : Bytes), hex (z :: c) =
          hexDigit (z >>> 4) :: hexDigit (z &&& 15) :: hex c := fun _ _ => rfl
      rw [hcons, hcons]
      unfold order at ih ⊢
      rw [List.compare_cons_cons, List.compare_cons_cons, List.compare_cons_cons, ih,
        compare_hexDigit (high_lt x) (high_lt y), compare_hexDigit (low_lt x) (low_lt y),
        ← Ordering.then_assoc, compare_halves]

theorem length_hex (octets : Bytes) : (hex octets).length = 2 * octets.length := by
  unfold hex
  rw [List.length_flatMap]
  simp [Nat.mul_comm]

/-- A text has more digits than octets. -/
theorem hex_ne {octets : Bytes} (h : octets ≠ []) : hex octets ≠ octets := by
  have hlength := length_hex octets
  intro hsame
  rw [hsame] at hlength
  exact h (List.eq_nil_of_length_eq_zero (by omega))

end Bytes

def Kind.view (first second : Kind) (content : Bytes) : Bytes :=
  match first, second with
  | .character, .binary => Bytes.hex content
  | _, _ => content

theorem Kind.view_self (kind : Kind) (content : Bytes) : kind.view kind content = content := by
  cases kind <;> rfl

section Kinds

open Bytes

def Straddles (octets text : Bytes) : Prop := octets ≠ [] ∧
  ((order octets text).isLE ∧ (order text (hex octets)).isLE ∨
    (order (hex octets) text).isLE ∧ (order text octets).isLE)

def Doubles (octets text : Bytes) : Prop := octets ≠ [] ∧ (text = octets ∨ text = hex octets)

inductive Kind.Crosses (P : Bytes → Bytes → Prop) : Kind → Kind → Bytes → Bytes → Prop
  | octetsFirst {octets text : Bytes} : P octets text → Crosses P .binary .character octets text
  | textFirst {octets text : Bytes} : P octets text → Crosses P .character .binary text octets

/-- Contents of which the first is not after the second and the second not after the third, as values
of two kinds in turn go, and yet the third is before the first. -/
inductive Kind.Closes : Kind → Kind → Kind → Bytes → Bytes → Bytes → Prop
  | octets {A B C : Bytes} : order C A = .lt → (order A B).isLE → (order B (hex C)).isLE →
    Closes .binary .character .binary A B C
  | text {A B C : Bytes} : order C A = .lt → (order A (hex B)).isLE → (order B C).isLE →
    Closes .character .binary .character A B C

theorem straddles_iff {octets text : Bytes} :
    Straddles octets text ↔ order text (hex octets) ≠ order text octets := by
  have hswap : ∀ X Y : Bytes, order X Y = (order Y X).swap := fun _ _ => Std.OrientedCmp.eq_swap
  unfold Straddles
  rw [hswap octets, hswap (hex octets)]
  by_cases hempty : octets = []
  · subst hempty
    exact ⟨fun h => absurd rfl h.1, fun h => absurd rfl h⟩
  · have hone : ¬(order text octets = .eq ∧ order text (hex octets) = .eq) := by
      rintro ⟨hsame, hsame'⟩
      have htext := Std.LawfulEqCmp.eq_of_compare hsame
      have hdigits := Std.LawfulEqCmp.eq_of_compare hsame'
      exact hex_ne hempty (hdigits.symm.trans htext)
    generalize order text octets = o at hone ⊢
    generalize order text (hex octets) = o' at hone ⊢
    revert hone
    cases o <;> cases o' <;> simp [hempty]

theorem doubles_iff {octets text : Bytes} :
    Doubles octets text ↔ ¬(text = octets ↔ text = hex octets) := by
  unfold Doubles
  by_cases hempty : octets = []
  · subst hempty
    exact ⟨fun h => absurd rfl h.1, fun h => absurd Iff.rfl h⟩
  · have hne := hex_ne hempty
    constructor
    · rintro ⟨-, rfl | rfl⟩ hiff
      · exact hne (hiff.1 rfl).symm
      · exact hne (hiff.2 rfl)
    · intro hiff
      refine ⟨hempty, ?_⟩
      by_contra hneither
      rw [not_or] at hneither
      exact hiff (iff_of_false hneither.1 hneither.2)

namespace Kind

variable {k k' k'' : Kind} {A B C : Bytes}

/-- Comparing the other way round gives the reverse, but not where a text straddles octets. -/
theorem reverse_iff : order B (k'.view k A) = (order A (k.view k' B)).swap ↔
    ¬Crosses Straddles k k' A B := by
  have hswap : ∀ X Y : Bytes, (order X Y).swap = order Y X := fun X Y =>
    Std.OrientedCmp.eq_swap.symm
  cases k <;> cases k'
  case binary.binary => exact iff_of_true (hswap A B).symm nofun
  case character.character => exact iff_of_true (hswap A B).symm nofun
  case binary.character =>
    have hcrosses : Crosses Straddles .binary .character A B ↔ Straddles A B :=
      ⟨fun h => by cases h; assumption, .octetsFirst⟩
    rw [hswap, hcrosses, straddles_iff, not_not]
    rfl
  case character.binary =>
    have hcrosses : Crosses Straddles .character .binary A B ↔ Straddles B A :=
      ⟨fun h => by cases h; assumption, .textFirst⟩
    rw [hcrosses, straddles_iff, not_not, ← hswap, eq_comm, Ordering.swap_inj]
    rfl

/-- Contents are the same the other way round, but not where a text doubles octets. -/
theorem equal_iff : (order A (k.view k' B) = .eq ↔ order B (k'.view k A) = .eq) ↔
    ¬Crosses Doubles k k' A B := by
  simp only [Std.LawfulEqCmp.compare_eq_iff_eq]
  cases k <;> cases k'
  case binary.binary => exact iff_of_true eq_comm nofun
  case character.character => exact iff_of_true eq_comm nofun
  case binary.character =>
    have hcrosses : Crosses Doubles .binary .character A B ↔ Doubles A B :=
      ⟨fun h => by cases h; assumption, .octetsFirst⟩
    rw [hcrosses, doubles_iff, not_not, eq_comm (a := B) (b := A)]
    rfl
  case character.binary =>
    have hcrosses : Crosses Doubles .character .binary A B ↔ Doubles B A :=
      ⟨fun h => by cases h; assumption, .textFirst⟩
    rw [hcrosses, doubles_iff, not_not, eq_comm (a := A) (b := B)]
    exact iff_comm

/-- Where neither of two contents is after the next, the first is not after the third, but for three
that close. Digits take part like the octets that they stand for. -/
theorem trans_iff : (order A (k.view k' B) ≠ .gt → order B (k'.view k'' C) ≠ .gt →
    order A (k.view k'' C) ≠ .gt) ↔ ¬Closes k k' k'' A B C := by
  have htrans : ∀ X Y Z : Bytes, order X Y ≠ .gt → order Y Z ≠ .gt → order X Z ≠ .gt := by
    intro X Y Z hXY hYZ
    apply Ordering.isLE_iff_ne_gt.1
    exact Std.TransCmp.isLE_trans (Ordering.isLE_iff_ne_gt.2 hXY) (Ordering.isLE_iff_ne_gt.2 hYZ)
  have hafter : order A C = .gt ↔ order C A = .lt := Std.OrientedCmp.gt_iff_lt
  cases k <;> cases k' <;> cases k''
  case binary.binary.binary => exact iff_of_true (htrans A B C) nofun
  case binary.binary.character => exact iff_of_true (htrans A B C) nofun
  case binary.character.character => exact iff_of_true (htrans A B C) nofun
  case character.character.binary => exact iff_of_true (htrans A B (hex C)) nofun
  case character.character.character => exact iff_of_true (htrans A B C) nofun
  case character.binary.binary =>
    refine iff_of_true (fun hAB hBC => htrans A (hex B) (hex C) hAB ?_) nofun
    rw [order_hex]
    exact hBC
  case binary.character.binary =>
    constructor
    · intro h hcloses
      cases hcloses with
      | octets hCA hAB hBC =>
        exact h (Ordering.isLE_iff_ne_gt.1 hAB) (Ordering.isLE_iff_ne_gt.1 hBC) (hafter.2 hCA)
    · intro hcloses hAB hBC hAC
      exact hcloses (.octets (hafter.1 hAC) (Ordering.isLE_iff_ne_gt.2 hAB)
        (Ordering.isLE_iff_ne_gt.2 hBC))
  case character.binary.character =>
    constructor
    · intro h hcloses
      cases hcloses with
      | text hCA hAB hBC =>
        exact h (Ordering.isLE_iff_ne_gt.1 hAB) (Ordering.isLE_iff_ne_gt.1 hBC) (hafter.2 hCA)
    · intro hcloses hAB hBC hAC
      exact hcloses (.text (hafter.1 hAC) (Ordering.isLE_iff_ne_gt.2 hAB)
        (Ordering.isLE_iff_ne_gt.2 hBC))

end Kind

end Kinds

namespace Value

section Order

variable [Codec] {σ : Type} [FileStore σ] {w : World σ} {a b c : Value} {A B C : Bytes}

structure Reads (v : Value) (content : Bytes) (w : World σ) : Prop where
  readBytes_ok : ∃ w', v.readBytes w = .ok content w'
  text : v.kind = .character → Utf8.defect? content = none
  precision_eq : v.precision = (v.kind.allUnits content).length

variable [QuietStore σ]

theorem Reads.readBytes_eq (h : a.Reads A w) : a.readBytes w = .ok A w := by
  obtain ⟨w', hread⟩ := h.readBytes_ok
  rwa [(preserves_readBytes (· = w) a).ok rfl hread] at hread

theorem Reads.readText_eq (h : a.Reads A w) :
    a.readText w = .ok (Kind.character.view a.kind A) w := by
  unfold readText
  rw [bind_ok h.readBytes_eq]
  cases hkind : a.kind with
  | binary => rfl
  | character =>
    dsimp only
    rw [h.text hkind]
    rfl

/-- The content of the first value is compared with what the second is taken for next to it. -/
theorem compare_eq (ha : a.Reads A w) (hb : b.Reads B w) :
    a.compare b w = .ok (Bytes.order A (a.kind.view b.kind B)) w := by
  unfold compare
  cases hkind : a.kind with
  | binary =>
    dsimp only
    rw [bind_ok ha.readBytes_eq, bind_ok hb.readBytes_eq]
    rfl
  | character =>
    dsimp only
    rw [bind_ok ha.readText_eq, bind_ok hb.readText_eq, hkind]
    rfl

/-- Two values have the same content if and only if they compare as equal. -/
theorem sameContent_eq (ha : a.Reads A w) (hb : b.Reads B w) :
    a.sameContent b w = .ok (decide (Bytes.order A (a.kind.view b.kind B) = .eq)) w := by
  unfold sameContent
  by_cases hquick : a.kind = b.kind ∧ a.precision ≠ b.precision
  · obtain ⟨hkind, hprecision⟩ := hquick
    have hne : Bytes.order A (a.kind.view b.kind B) ≠ .eq := by
      rw [← hkind, Kind.view_self]
      intro heq
      rw [ha.precision_eq, hb.precision_eq, hkind, Std.LawfulEqCmp.eq_of_compare heq] at hprecision
      exact hprecision rfl
    rw [if_pos ⟨hkind, hprecision⟩, decide_eq_false hne]
    rfl
  · rw [if_neg hquick, bind_ok (compare_eq ha hb)]
    rfl

/-- Values are ordered by comparing them, but where octets and text meet: a comparison the other way
round gives the reverse unless the text straddles the octets, two values are the same in both ways
unless the text doubles the octets, and a chain of two values leads on unless its contents close. Two
values have the same content whenever they compare as equal. -/
theorem comparison_lawful_iff (ha : a.Reads A w) (hb : b.Reads B w) (hc : c.Reads C w) :
    ∃ ab ba bc ac : Ordering,
      a.compare b w = .ok ab w ∧ b.compare a w = .ok ba w ∧ b.compare c w = .ok bc w ∧
      a.compare c w = .ok ac w ∧
      a.sameContent b w = .ok (decide (ab = .eq)) w ∧ b.sameContent a w = .ok (decide (ba = .eq)) w ∧
      (ba = ab.swap ↔ ¬Kind.Crosses Straddles a.kind b.kind A B) ∧
      ((ab = .eq ↔ ba = .eq) ↔ ¬Kind.Crosses Doubles a.kind b.kind A B) ∧
      ((ab ≠ .gt → bc ≠ .gt → ac ≠ .gt) ↔ ¬Kind.Closes a.kind b.kind c.kind A B C) :=
  ⟨_, _, _, _, compare_eq ha hb, compare_eq hb ha, compare_eq hb hc, compare_eq ha hc,
    sameContent_eq ha hb, sameContent_eq hb ha, Kind.reverse_iff, Kind.equal_iff, Kind.trans_iff⟩

end Order

def single (kind : Kind) (octet : UInt8) : Value where
  kind
  precision := 1
  content := .inline [octet] none

/-- The octet may be a character. -/
theorem reads_single (kind : Kind) {octet : UInt8} (htext : Utf8.isCharacter [octet])
    (w : World MemoryStore) : (single kind octet).Reads [octet] w := by
  have hcharacter : Utf8.character? [octet] = some [octet] :=
    Utf8.character?_eq_some.2 ⟨htext, List.prefix_refl _⟩
  refine ⟨⟨w, rfl⟩, fun _ => ?_, ?_⟩
  · exact Utf8.defectFrom_character hcharacter 0
  · cases kind with
    | binary => rfl
    | character =>
      show 1 = (Utf8.leading 1 [octet]).length
      rw [Utf8.leading, hcharacter]
      rfl

/-- An octet, the text of a digit and another octet: the digit is after the first octet and after the
two digits of it, and before the second and its digits, so that all three are in order. -/
theorem comparison_lawful_letters :
    let w : World MemoryStore := { store := default }
    let a := single .binary 0x20
    let b := single .character 0x35
    let c := single .binary 0x62
    a.Reads [0x20] w ∧ b.Reads [0x35] w ∧ c.Reads [0x62] w ∧
      ∃ ab ba bc ac : Ordering,
        a.compare b w = .ok ab w ∧ b.compare a w = .ok ba w ∧ b.compare c w = .ok bc w ∧
        a.compare c w = .ok ac w ∧ ab = .lt ∧ ba = ab.swap ∧ bc = .lt ∧ ac ≠ .gt ∧
        a.sameContent b w = .ok false w ∧ b.sameContent a w = .ok false w := by
  intro w a b c
  have ha : a.Reads [0x20] w := reads_single .binary (by decide) w
  have hb : b.Reads [0x35] w := reads_single .character (by decide) w
  have hc : c.Reads [0x62] w := reads_single .binary (by decide) w
  obtain ⟨ab, ba, bc, ac, hab, hba, hbc, hac, hsame, hsame', hreverse, -, hchain⟩ :=
    comparison_lawful_iff ha hb hc
  have hless : a.compare b w = .ok .lt w := rfl
  have hless' : b.compare c w = .ok .lt w := rfl
  obtain rfl : ab = .lt := by
    rw [hab] at hless
    injection hless
  obtain rfl : bc = .lt := by
    rw [hbc] at hless'
    injection hless'
  have hswap : ba = Ordering.swap .lt := by
    refine hreverse.2 fun hcrosses => ?_
    cases hcrosses with
    | octetsFirst hstraddles => exact absurd (straddles_iff.1 hstraddles) (by decide)
  have hordered : ac ≠ .gt := by
    refine hchain.2 (fun hcloses => ?_) nofun nofun
    cases hcloses with
    | octets hback => exact absurd hback (by decide)
  rw [hswap] at hsame'
  exact ⟨ha, hb, hc, .lt, ba, .lt, ac, hab, hba, hbc, hac, rfl, hswap, rfl, hordered, hsame, hsame'⟩

/-- An octet is the same as a letter, but the letter is not the same as the octet and comes after it.
An octet is before a text and the text before another octet, which is before the first. -/
theorem comparison_unlawful :
    let w : World MemoryStore := { store := default }
    let octet := single .binary 97
    let letter := single .character 97
    octet.Reads [97] w ∧ letter.Reads [97] w ∧
    octet.compare letter w = .ok .eq w ∧ letter.compare octet w = .ok .gt w ∧
    octet.sameContent letter w = .ok true w ∧ letter.sameContent octet w = .ok false w ∧
    (single .binary 48).compare (single .character 49) w = .ok .lt w ∧
    (single .character 49).compare (single .binary 32) w = .ok .lt w ∧
    (single .binary 48).compare (single .binary 32) w = .ok .gt w :=
  ⟨reads_single .binary (by decide) _, reads_single .character (by decide) _, rfl, rfl, rfl, rfl, rfl,
    rfl, rfl⟩

end Value

end LargeObjects

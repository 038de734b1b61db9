import Mathlib
import LargeObjects.Proofs.Decoding
import LargeObjects.Proofs.Sweeping

/-! The spellings of names. Numerals are also read with a plus sign and with zeros in front, so that
each object has many names that are read as its own, and one that is written. A removal takes the files
with all of them. -/
namespace LargeObjects

namespace Numeral

structure Padding where
  plus : Bool := false
  zeros : Nat := 0
deriving DecidableEq

def Padding.pad (p : Padding) (numeral : List Char) : List Char :=
  (if p.plus then ['+'] else []) ++ (List.replicate p.zeros '0' ++ numeral)

namespace Padding

theorem count_pad (p : Padding) (numeral : List Char) (c : Char) : (p.pad numeral).count c =
    (if p.plus then ['+'] else []).count c +
      ((List.replicate p.zeros '0').count c + numeral.count c) := by
  rw [pad, List.count_append, List.count_append]

/-- Different paddings make different texts of a numeral, for sign and zeros can be counted. -/
theorem pad_injective {p p' : Padding} {numeral : List Char} (h : p.pad numeral = p'.pad numeral) :
    p = p' := by
  obtain ⟨plus, zeros⟩ := p
  obtain ⟨plus', zeros'⟩ := p'
  have hplus := congrArg (List.count '+') h
  have hzeros := congrArg (List.count '0') h
  simp only [count_pad, List.count_replicate] at hplus hzeros
  cases plus <;> cases plus' <;> simp at hplus hzeros ⊢ <;> exact hzeros

end Padding

theorem exists_digitChar {c : Char} (h : c.isDigit) : ∃ d < 10, c = Nat.digitChar d := by
  have hrange : 48 ≤ c.toNat ∧ c.toNat ≤ 57 := by
    simpa [Char.isDigit, UInt32.le_iff_toNat_le] using h
  refine ⟨c.toNat - 48, by omega, Char.toNat_inj.1 ?_⟩
  rw [Nat.toNat_digitChar_of_lt_ten (by omega)]
  omega

structure StandFor (digits : List Char) (word : UInt32) : Prop where
  ne_nil : digits ≠ []
  isDigit : ∀ c ∈ digits, c.isDigit
  value_eq : Nat.ofDigitChars 10 digits 0 = word.toNat

/-- Digits are zeros and the numeral of what they stand for. -/
theorem exists_zeros {digits : List Char} (hne : digits ≠ []) (hall : ∀ c ∈ digits, c.isDigit) :
    ∃ zeros, digits = List.replicate zeros '0' ++ write (Nat.ofDigitChars 10 digits 0) := by
  -- By induction on the digits, the last one last, as a digit goes behind a numeral.
  induction digits using List.reverseRecOn with
  | nil => exact absurd rfl hne
  | append_singleton digits c ih =>
    obtain ⟨d, hd, rfl⟩ := exists_digitChar (hall c (List.mem_append_right _ List.mem_cons_self))
    have hlast : write d = [d.digitChar] := Nat.toDigits_of_lt_base hd
    rw [Nat.ofDigitChars_append, Nat.ofDigitChars_cons_digitChar_of_lt_ten hd, Nat.ofDigitChars_nil]
    by_cases hempty : digits = []
    · refine ⟨0, ?_⟩
      rw [hempty, Nat.ofDigitChars_nil, Nat.mul_zero, Nat.zero_add, hlast]
      rfl
    obtain ⟨zeros, hzeros⟩ := ih hempty fun c hc => hall c (List.mem_append_left _ hc)
    generalize Nat.ofDigitChars 10 digits 0 = value at hzeros ⊢
    rcases Nat.eq_zero_or_pos value with rfl | hpos
    -- The numeral of zero is a zero itself, and becomes one of those in front.
    · refine ⟨zeros + 1, ?_⟩
      rw [hzeros, Nat.mul_zero, Nat.zero_add, hlast, List.replicate_succ']
      rfl
    · have hgrows : write value ++ write d = write (10 * value + d) :=
        Nat.toDigits_append_toDigits (by decide) hpos hd
      refine ⟨zeros, ?_⟩
      calc digits ++ [d.digitChar]
          = List.replicate zeros '0' ++ (write value ++ write d) := by
            rw [hlast, ← List.append_assoc, ← hzeros]
        _ = List.replicate zeros '0' ++ write (10 * value + d) := by rw [hgrows]

theorem standFor_iff {digits : List Char} {word : UInt32} :
    StandFor digits word ↔ ∃ zeros, digits = List.replicate zeros '0' ++ write word.toNat := by
  constructor
  · intro h
    rw [← h.value_eq]
    exact exists_zeros h.ne_nil h.isDigit
  · rintro ⟨zeros, rfl⟩
    refine ⟨List.append_ne_nil_of_right_ne_nil _ (write_ne_nil _), fun c hc => ?_, ?_⟩
    · rcases List.mem_append.1 hc with hc | hc
      · rw [List.eq_of_mem_replicate hc]
        decide
      · exact isDigit_of_mem_write hc
    · rw [Nat.ofDigitChars_append, Nat.ofDigitChars_replicate_zero, Nat.mul_zero]
      exact Nat.ofDigitChars_ten_toDigits

theorem read?_iff_standFor {text : List Char} {word : UInt32} :
    read? text = some word ↔
      StandFor text word ∨ ∃ digits, text = '+' :: digits ∧ StandFor digits word := by
  have hdigits : ∀ digits : List Char, (if digits ≠ [] ∧ digits.all Char.isDigit ∧
      Nat.ofDigitChars 10 digits 0 < UInt32.size then
        some (UInt32.ofNat (Nat.ofDigitChars 10 digits 0)) else none) = some word ↔
      StandFor digits word := by
    intro digits
    rw [Option.ite_none_right_eq_some, Option.some.injEq]
    constructor
    · rintro ⟨⟨hne, hall, hfits⟩, rfl⟩
      exact ⟨hne, List.all_eq_true.1 hall, (UInt32.toNat_ofNat_of_lt hfits).symm⟩
    · rintro ⟨hne, hall, hvalue⟩
      rw [hvalue]
      exact ⟨⟨hne, List.all_eq_true.2 hall, word.toNat_lt⟩, UInt32.ofNat_toNat⟩
  unfold read?
  split
  next rest =>
    have hplus : ¬StandFor ('+' :: rest) word := fun h =>
      absurd (h.isDigit '+' List.mem_cons_self) (by decide)
    rw [hdigits]
    simp [hplus]
  next hplus =>
    have hnone : ¬∃ digits, text = '+' :: digits ∧ StandFor digits word := fun ⟨digits, h, _⟩ =>
      hplus digits h
    rw [hdigits]
    simp [hnone]

/-- A word is read from its numeral, padded, and from nothing else. -/
theorem read?_eq_some {text : List Char} {word : UInt32} :
    read? text = some word ↔ ∃ p : Padding, text = p.pad (write word.toNat) := by
  simp only [read?_iff_standFor, standFor_iff]
  constructor
  · rintro (⟨zeros, rfl⟩ | ⟨digits, rfl, zeros, rfl⟩)
    · exact ⟨{ zeros }, rfl⟩
    · exact ⟨{ plus := true, zeros }, rfl⟩
  · rintro ⟨⟨_ | _, zeros⟩, rfl⟩
    · exact Or.inl ⟨zeros, rfl⟩
    · exact Or.inr ⟨_, rfl, zeros, rfl⟩

theorem Padding.read?_pad (p : Padding) (word : UInt32) :
    read? (p.pad (write word.toNat)) = some word := read?_eq_some.2 ⟨p, rfl⟩

theorem Padding.dot_not_mem_pad (p : Padding) (word : UInt32) : '.' ∉ p.pad (write word.toNat) :=
  dot_not_mem_of_read? (p.read?_pad word)

end Numeral

namespace Naming

structure Spelling where
  table : Numeral.Padding := {}
  number : Numeral.Padding := {}
deriving DecidableEq

namespace Spelling

variable {p p' : Spelling} {owner : Owner} {id : ObjectId} {name rest : Name}

def Fits (p : Spelling) : Owner → Prop
  | .temp => p.table = {}
  | .table _ => True

theorem fits_default (owner : Owner) : ({} : Spelling).Fits owner := by
  cases owner with
  | temp => rfl
  | table t => trivial

def mark (p : Spelling) : Owner → List Char
  | .temp => '.' :: tempMark.toList
  | .table t => '.' :: 't' :: p.table.pad (Numeral.write t.word.toNat)

def fileName (p : Spelling) (owner : Owner) (id : ObjectId) : Name :=
  p.number.pad (Numeral.write id.word.toNat) ++ (p.mark owner ++ objectSuffix.toList)

def flatEnding (p : Spelling) (owner : Owner) (id : ObjectId) : List Char :=
  let number := p.number.pad (Numeral.write id.word.toNat)
  match owner with
  | .temp => '.' :: number ++ flatTempSuffix.toList
  | .table t =>
    '.' :: p.table.pad (Numeral.write t.word.toNat) ++ '.' :: number ++ objectSuffix.toList

theorem fileName_default (owner : Owner) (id : ObjectId) :
    ({} : Spelling).fileName owner id = Naming.fileName owner id := by
  cases owner <;> rfl

theorem flatEnding_default (owner : Owner) (id : ObjectId) :
    ({} : Spelling).flatEnding owner id = Naming.flatEnding owner id := by
  cases owner <;> rfl

theorem readsSharded_iff :
    ReadsSharded name owner id ↔ ∃ p : Spelling, p.Fits owner ∧ name = p.fileName owner id := by
  constructor
  · intro h
    cases h with
    | temp hword =>
      obtain ⟨number, rfl⟩ := Numeral.read?_eq_some.1 hword
      exact ⟨{ number }, rfl, List.append_assoc ..⟩
    | table hword htable =>
      obtain ⟨number, rfl⟩ := Numeral.read?_eq_some.1 hword
      obtain ⟨table, rfl⟩ := Numeral.read?_eq_some.1 htable
      exact ⟨{ table, number }, trivial, List.append_assoc ..⟩
  · rintro ⟨p, -, rfl⟩
    rw [fileName, ← List.append_assoc]
    cases owner with
    | temp => exact .temp (p.number.read?_pad id.word)
    | table t => exact .table (p.number.read?_pad id.word) (p.table.read?_pad t.word)

theorem readsFlat_iff :
    ReadsFlat rest owner id ↔ ∃ p : Spelling, p.Fits owner ∧ '.' :: rest = p.flatEnding owner id := by
  constructor
  · intro h
    cases h with
    | temp hword =>
      obtain ⟨number, rfl⟩ := Numeral.read?_eq_some.1 hword
      exact ⟨{ number }, rfl, rfl⟩
    | table htable hword =>
      obtain ⟨number, rfl⟩ := Numeral.read?_eq_some.1 hword
      obtain ⟨table, rfl⟩ := Numeral.read?_eq_some.1 htable
      exact ⟨{ table, number }, trivial, rfl⟩
  · rintro ⟨p, -, hrest⟩
    cases owner with
    | temp =>
      rw [(List.cons.inj hrest).2]
      exact .temp (p.number.read?_pad id.word)
    | table t =>
      rw [(List.cons.inj hrest).2]
      exact .table (p.table.read?_pad t.word) (p.number.read?_pad id.word)

theorem fileName_injective (hp : p.Fits owner) (hp' : p'.Fits owner)
    (h : p.fileName owner id = p'.fileName owner id) : p = p' := by
  obtain ⟨table, number⟩ := p
  obtain ⟨table', number'⟩ := p'
  have hsplit := congrArg atDot? h
  cases owner with
  | temp =>
    obtain rfl : table = {} := hp
    obtain rfl : table' = {} := hp'
    simp only [fileName, mark, List.cons_append,
      atDot?_append (Numeral.Padding.dot_not_mem_pad _ _), Option.some.injEq,
      Prod.mk.injEq] at hsplit
    rw [Numeral.Padding.pad_injective hsplit.1]
  | table t =>
    simp only [fileName, mark, List.cons_append,
      atDot?_append (Numeral.Padding.dot_not_mem_pad _ _), Option.some.injEq, Prod.mk.injEq,
      List.cons.injEq, true_and, List.append_cancel_right_eq] at hsplit
    rw [Numeral.Padding.pad_injective hsplit.1, Numeral.Padding.pad_injective hsplit.2]

theorem flatEnding_injective (hp : p.Fits owner) (hp' : p'.Fits owner)
    (h : p.flatEnding owner id = p'.flatEnding owner id) : p = p' := by
  obtain ⟨table, number⟩ := p
  obtain ⟨table', number'⟩ := p'
  cases owner with
  | temp =>
    obtain rfl : table = {} := hp
    obtain rfl : table' = {} := hp'
    simp only [flatEnding, List.cons_append, List.cons.injEq, true_and,
      List.append_cancel_right_eq] at h
    rw [Numeral.Padding.pad_injective h]
  | table t =>
    -- The number ends at the last dot, and the table before it.
    have hnumbers := append_dot_inj (number.dot_not_mem_pad id.word)
      (number'.dot_not_mem_pad id.word) (List.append_cancel_right h)
    obtain rfl : number = number' := Numeral.Padding.pad_injective hnumbers.2
    obtain rfl : table = table' := Numeral.Padding.pad_injective (List.cons.inj hnumbers.1).2
    rfl

end Spelling

variable {n : Naming} {layout : Layout} {p p' : Spelling} {owner owner' : Owner} {id id' : ObjectId}
  {name : Name}

def read? (n : Naming) : Layout → Name → Option (Owner × ObjectId)
  | .sharded => parseSharded?
  | .flat => n.parseFlat?

def spelledName? (n : Naming) (layout : Layout) (p : Spelling) (owner : Owner) (id : ObjectId) :
    Option Name :=
  match layout with
  | .sharded => some (p.fileName owner id)
  | .flat => n.base.fileName?.map (· ++ p.flatEnding owner id)

def Writes (n : Naming) (name : Name) : Prop :=
  ∃ layout owner id, (n.path layout owner id).fileName? = some name

/-- An object has a place in the tree if its number is not that of a directory, and beside the tree if
the path of the database ends in a name. -/
def HasPlace (n : Naming) : Layout → ObjectId → Prop
  | .sharded, id => id.word % n.fanout ≠ 0
  | .flat, _ => IsName n.base.lastPiece

theorem read?_eq_some : n.read? layout name = some (owner, id) ↔
    ∃ p : Spelling, p.Fits owner ∧ n.spelledName? layout p owner id = some name := by
  cases layout with
  | sharded =>
    rw [read?, parseSharded?_eq_some, Spelling.readsSharded_iff]
    simp only [spelledName?, Option.some.injEq, eq_comm]
  | flat =>
    simp only [read?, spelledName?, parseFlat?_eq_some, Spelling.readsFlat_iff, Option.map_eq_some_iff]
    constructor
    · rintro ⟨lead, rest, hlead, rfl, p, hp, hrest⟩
      exact ⟨p, hp, lead, hlead, by rw [hrest]⟩
    · rintro ⟨p, hp, lead, hlead, rfl⟩
      obtain ⟨rest, hrest⟩ : ∃ rest, p.flatEnding owner id = '.' :: rest := by
        cases owner <;> exact ⟨_, rfl⟩
      exact ⟨lead, rest, hlead, by rw [hrest], p, hp, hrest.symm⟩

theorem spelling_unique (hp : p.Fits owner) (hp' : p'.Fits owner)
    (h : n.spelledName? layout p owner id = some name)
    (h' : n.spelledName? layout p' owner id = some name) : p = p' := by
  cases layout with
  | sharded =>
    exact Spelling.fileName_injective hp hp' (Option.some.inj (h.trans h'.symm))
  | flat =>
    obtain ⟨lead, hlead, hname⟩ := Option.map_eq_some_iff.1 h
    obtain ⟨lead', hlead', hname'⟩ := Option.map_eq_some_iff.1 h'
    cases hlead.symm.trans hlead'
    exact Spelling.flatEnding_injective hp hp' (List.append_cancel_left (hname.trans hname'.symm))

/-- Flat names end otherwise than those in the tree. -/
theorem ReadsFlat.not_marked {lead rest front mark : List Char} (h : ReadsFlat rest owner id)
    (hdot : '.' ∉ mark) (ht : 't' ∈ mark) :
    lead ++ '.' :: rest ≠ front ++ '.' :: mark ++ objectSuffix.toList := by
  intro hsame
  cases h with
  | temp =>
    simp only [← List.cons_append, ← List.append_assoc] at hsame
    exact not_object_of_temp hsame.symm
  | @table owner number table word howner hnumber =>
    have hwhole : ((lead ++ '.' :: owner) ++ '.' :: number) ++ objectSuffix.toList =
        (front ++ '.' :: mark) ++ objectSuffix.toList := by
      simpa only [List.append_assoc, List.cons_append] using hsame
    obtain ⟨-, rfl⟩ := append_dot_inj (Numeral.dot_not_mem_of_read? hnumber) hdot
      (List.append_cancel_right hwhole)
    exact Numeral.not_mem_of_read? hnumber (by decide) (by decide) ht

theorem ReadsSharded.exists_mark (h : ReadsSharded name owner id) : ∃ number mark,
    name = number ++ '.' :: mark ++ objectSuffix.toList ∧ '.' ∉ number ∧ '.' ∉ mark ∧ 't' ∈ mark := by
  cases h with
  | temp hword => exact ⟨_, _, rfl, Numeral.dot_not_mem_of_read? hword, by decide, by decide⟩
  | @table number owner word table hword htable =>
    refine ⟨number, 't' :: owner, rfl, Numeral.dot_not_mem_of_read? hword, ?_, List.mem_cons_self⟩
    rw [List.mem_cons, not_or]
    exact ⟨by decide, Numeral.dot_not_mem_of_read? htable⟩

theorem fileName?_flatPath (n : Naming) (owner : Owner) (id : ObjectId) :
    (n.flatPath owner id).fileName? = some (n.base.lastPiece ++ flatEnding owner id) :=
  Path.fileName?_of_components (components_flatPath n owner id)

theorem fileName?_shardedPath (owner : Owner) (hslot : id.word % n.fanout ≠ 0) :
    (n.shardedPath owner id).fileName? = some (fileName owner id) :=
  Path.fileName?_of_components (components_shardedPath n owner hslot)

/-- Every name in the tree, also of a number that is a directory's, has a mark of the owner. -/
theorem exists_mark_shardedPath (n : Naming) (owner : Owner) (id : ObjectId) : ∃ front mark,
    (n.shardedPath owner id).fileName? = some (front ++ '.' :: mark ++ objectSuffix.toList) ∧
      '.' ∉ mark ∧ 't' ∈ mark ∧ (id.word % n.fanout = 0 → '.' ∈ front) := by
  obtain ⟨mark, hmark⟩ := ownerMark_eq_cons owner
  have hdot : '.' ∉ mark := by
    have htail := dot_not_mem_ownerMark_tail owner
    rwa [hmark] at htail
  have ht : 't' ∈ mark := by
    cases owner with
    | temp =>
      rw [← (List.cons.inj hmark).2]
      decide
    | table t =>
      rw [← (List.cons.inj hmark).2]
      exact List.mem_cons_self
  by_cases hslot : id.word % n.fanout = 0
  · have hname := Path.fileName?_of_components (components_shardedPath_zero n owner hslot)
    rw [hmark, ← List.append_assoc] at hname
    refine ⟨_, mark, hname, hdot, ht, fun _ => ?_⟩
    obtain ⟨lead, hlead⟩ := n.exists_lastPiece_shardDirectory id
    rw [hlead]
    exact List.mem_append_right _ (by decide)
  · have hname := fileName?_shardedPath owner hslot
    rw [fileName, hmark, ← List.append_assoc] at hname
    exact ⟨_, mark, hname, hdot, ht, fun h => absurd h hslot⟩

/-- A name that is read as one in the tree is written only as that of its own object. -/
theorem ReadsSharded.writes_iff (h : ReadsSharded name owner id) :
    n.Writes name ↔ name = fileName owner id ∧ id.word % n.fanout ≠ 0 := by
  constructor
  · rintro ⟨layout, owner', id', hwritten⟩
    obtain ⟨number, mark, hname, hnumber, hdot, ht⟩ := h.exists_mark
    -- Flat names have a numeral for the mark, and numbers of directories have dots before it.
    cases layout with
    | flat =>
      obtain ⟨rest, hending, hreads⟩ := exists_flatEnding owner' id'
      have hflat := (n.fileName?_flatPath owner' id').symm.trans hwritten
      rw [hending, hname] at hflat
      exact absurd (Option.some.inj hflat) (hreads.not_marked hdot ht)
    | sharded =>
      by_cases hslot : id'.word % n.fanout = 0
      · obtain ⟨front, mark', hmarked, hdot', -, hfront⟩ := n.exists_mark_shardedPath owner' id'
        have hsame := hmarked.symm.trans hwritten
        rw [hname, Option.some.injEq, List.append_cancel_right_eq] at hsame
        obtain ⟨rfl, -⟩ := append_dot_inj hdot' hdot hsame
        exact absurd (hfront hslot) hnumber
      · have hsame := (fileName?_shardedPath owner' hslot).symm.trans hwritten
        cases hsame
        have hread := parseSharded?_eq_some.2 h
        rw [parseSharded?_fileName] at hread
        cases hread
        exact ⟨rfl, hslot⟩
  · rintro ⟨rfl, hslot⟩
    exact ⟨.sharded, owner, id, fileName?_shardedPath owner hslot⟩

/-- A name that is read as a flat one is written only as that of its own object. -/
theorem writes_flat_iff {lead rest : Name} (hlead : n.base.fileName? = some lead)
    (h : ReadsFlat rest owner id) : n.Writes (lead ++ '.' :: rest) ↔
      '.' :: rest = flatEnding owner id ∧ IsName n.base.lastPiece := by
  constructor
  · rintro ⟨layout, owner', id', hwritten⟩
    cases layout with
    | sharded =>
      obtain ⟨front, mark, hmarked, hdot, ht, -⟩ := n.exists_mark_shardedPath owner' id'
      have hsame := hwritten.symm.trans hmarked
      exact absurd (Option.some.inj hsame) (h.not_marked hdot ht)
    | flat =>
      obtain ⟨rest', hending, hreads⟩ := exists_flatEnding owner' id'
      have hsame := (n.fileName?_flatPath owner' id').symm.trans hwritten
      rw [hending, Option.some.injEq] at hsame
      obtain rfl := hreads.lead_unique h hsame
      have hname := Path.fileName?_eq_lastPiece_iff.1 hlead
      cases List.append_cancel_left hsame
      have hread := parseFlat?_eq_some.2 ⟨_, rest, hlead, rfl, h⟩
      rw [← hending, (n.parseFlat?_flat_iff owner' id').2 hname] at hread
      cases hread
      exact ⟨hending.symm, hname⟩
  · rintro ⟨hrest, hname⟩
    rw [Path.fileName?_eq_lastPiece_iff.2 hname, Option.some.injEq] at hlead
    refine ⟨.flat, owner, id, ?_⟩
    rw [hrest, ← hlead]
    exact n.fileName?_flatPath owner id

/-- The name of an object that has a place is written with nothing in front of its numerals. -/
theorem writes_iff (hp : p.Fits owner) (h : n.spelledName? layout p owner id = some name) :
    n.Writes name ↔ p = {} ∧ n.HasPlace layout id := by
  have hbare : n.spelledName? layout {} owner id = some name ↔ p = {} := by
    refine ⟨fun h' => spelling_unique hp (Spelling.fits_default owner) h h', ?_⟩
    rintro rfl
    exact h
  have hread := read?_eq_some.2 ⟨p, hp, h⟩
  rw [← hbare]
  cases layout with
  | sharded =>
    rw [(parseSharded?_eq_some.1 hread).writes_iff, spelledName?, Spelling.fileName_default,
      Option.some.injEq, eq_comm]
    rfl
  | flat =>
    obtain ⟨lead, rest, hlead, rfl, hreads⟩ := parseFlat?_eq_some.1 hread
    rw [writes_flat_iff hlead hreads, spelledName?, hlead, Option.map_some,
      Spelling.flatEnding_default, Option.some.injEq, List.append_cancel_left_eq, eq_comm]
    rfl

end Naming

namespace Database

open ReliableStore FallibleStore BrowsableStore Naming

variable {σ : Type} [FileStore σ] [FallibleStore σ] [BrowsableStore σ] {db : Database} {s t : σ}
  {owner : Owner} {q : List Component}

def LooksIn (db : Database) (s : σ) (layout : Layout) (dir : List Component) : Prop :=
  match layout with
  | .sharded =>
    db.layout = .sharded ∧ Reached s db.naming.shardRoot.components dir ∧ ¬Unlistable s dir
  | .flat => dir = db.naming.flatDirectory.components

theorem targets_iff_read : db.Targets s owner q ↔ (fileAt? (below s) q).isSome ∧
    ∃ layout dir name id, db.LooksIn s layout dir ∧ q = dir ++ [.name name] ∧
      db.naming.read? layout name = some (owner, id) := by
  constructor
  · rintro (⟨hlayout, dir, hreached, hlistable, hthere, name, id, rfl, hread⟩ |
      ⟨hthere, name, id, rfl, hread⟩)
    · exact ⟨hthere, .sharded, dir, name, id, ⟨hlayout, hreached, hlistable⟩, rfl, hread⟩
    · exact ⟨hthere, .flat, _, name, id, rfl, rfl, hread⟩
  · rintro ⟨hthere, layout, dir, name, id, hsearched, rfl, hread⟩
    cases layout with
    | sharded =>
      obtain ⟨hlayout, hreached, hlistable⟩ := hsearched
      exact Or.inl ⟨hlayout, dir, hreached, hlistable, hthere, name, id, rfl, hread⟩
    | flat =>
      cases hsearched
      exact Or.inr ⟨hthere, name, id, rfl, hread⟩

theorem Clears.gone_iff {doomed : List Component → Prop} {start report : RemovalReport}
    (h : Clears s doomed start report t) (hthere : ∀ q, doomed q → (fileAt? (below s) q).isSome) :
    (fileAt? (below s) q).isSome ∧ fileAt? (below t) q = none ↔ doomed q ∧ ¬Undeletable s q := by
  constructor
  · rintro ⟨hsome, hgone⟩
    by_contra hq
    rw [h.kept q fun hdoomed => not_not.1 fun hdeletable => hq ⟨hdoomed, hdeletable⟩] at hgone
    rw [hgone] at hsome
    cases hsome
  · rintro ⟨hdoomed, hdeletable⟩
    exact ⟨hthere q hdoomed, h.gone q hdoomed hdeletable⟩

theorem removal_gone_iff {directory : Path} {last : Name}
    (hbase : db.naming.base = directory.join last) (hlast : IsName last)
    (hdirectory : directory.spelling ≠ []) {w w' : World σ} (hs : Settled w.store)
    (hunnested : Unnested w.store) {report : RemovalReport}
    (hrun : db.removal owner w = .ok report w') :
    (fileAt? w.below.store q).isSome ∧ fileAt? w'.below.store q = none ↔
      db.Targets w.store owner q ∧ ¬Undeletable w.store q := by
  rw [removal_eq] at hrun
  have hgranted : ¬db.Refuses w.store := by
    intro hrefused
    obtain ⟨e, hsurvey⟩ := survey_error hs hunnested hbase hlast hdirectory hrefused
    cases hrun.symm.trans (removeOwned_error hsurvey)
  obtain ⟨survey, hsurvey, hfound⟩ := survey_ok hs hunnested hbase hlast hdirectory hgranted
  obtain ⟨hclears, -⟩ := hfound.clears hs owner
  cases hrun.symm.trans (removeOwned_ok owner hsurvey)
  exact hclears.gone_iff fun q => Targets.isSome

/-- A name is read as that of an object's file exactly when it is that name in some spelling, with a
plus sign or none and any number of zeros in front of each numeral, and every spelling makes another
name. The one with nothing in front is the only one that is written, and only if the object has a
place. A removal goes by what names are read as: gone after it are those files in the directories that
were searched that could be deleted and had the name, in any spelling, of an object of the owner. -/
theorem spelled_names_iff (db : Database) :
    (∀ layout name owner id, db.naming.read? layout name = some (owner, id) ↔
      ∃! p : Spelling, p.Fits owner ∧ db.naming.spelledName? layout p owner id = some name) ∧
    (∀ layout name owner id (p : Spelling), p.Fits owner →
      db.naming.spelledName? layout p owner id = some name →
        (db.naming.Writes name ↔ p = {} ∧ db.naming.HasPlace layout id)) ∧
    ∀ (directory : Path) (last : Name), db.naming.base = directory.join last → IsName last →
      directory.spelling ≠ [] → ∀ w : World σ, Settled w.store → Unnested w.store →
      ∀ owner report w', db.removal owner w = .ok report w' → ∀ q,
        ((fileAt? w.below.store q).isSome ∧ fileAt? w'.below.store q = none ↔
          (fileAt? w.below.store q).isSome ∧ ¬Undeletable w.store q ∧
          ∃ layout dir name id, ∃ p : Spelling, db.LooksIn w.store layout dir ∧
            q = dir ++ [.name name] ∧ p.Fits owner ∧
            db.naming.spelledName? layout p owner id = some name) := by
  refine ⟨fun layout name owner id => ?_, fun layout name owner id p hp h => writes_iff hp h,
    fun directory last hbase hlast hdirectory w hs hunnested owner report w' hrun q => ?_⟩
  · rw [read?_eq_some]
    refine ⟨fun ⟨p, hp, h⟩ => ⟨p, ⟨hp, h⟩, ?_⟩, ExistsUnique.exists⟩
    rintro p' ⟨hp', h'⟩
    exact spelling_unique hp' hp h' h
  -- What is deleted is found by its name, and names are found by their spellings.
  · rw [removal_gone_iff hbase hlast hdirectory hs hunnested hrun, targets_iff_read]
    simp only [read?_eq_some]
    constructor
    · rintro ⟨⟨hthere, layout, dir, name, id, hsearched, hq, p, hp, hname⟩, hdeletable⟩
      exact ⟨hthere, hdeletable, layout, dir, name, id, p, hsearched, hq, hp, hname⟩
    · rintro ⟨hthere, hdeletable, layout, dir, name, id, p, hsearched, hq, hp, hname⟩
      exact ⟨⟨hthere, layout, dir, name, id, hsearched, hq, p, hp, hname⟩, hdeletable⟩

open Session (smallDatabase)

def strangeWorld : World MemoryStore where
  store := ((default : MemoryStore).put (smallDatabase.naming.path .sharded (.table ⟨3⟩) ⟨2⟩) [2]).put
    (smallDatabase.naming.shardRoot.join "1.t003.lob.db".toList) [1]

/-- Beside a file of table 3 there is one that could be taken for its file, and both go. -/
theorem spelled_names_strange :
    ∃ w', smallDatabase.removal (.table ⟨3⟩) strangeWorld = .ok { removed := 2 } w' ∧
      fileAt? w'.below.store
        (smallDatabase.naming.shardRoot.components ++ [.name "1.t003.lob.db".toList]) = none ∧
      smallDatabase.naming.read? .sharded "1.t003.lob.db".toList = some (.table ⟨3⟩, ⟨1⟩) ∧
      ¬smallDatabase.naming.Writes "1.t003.lob.db".toList ∧
      smallDatabase.naming.Writes "2.t3.lob.db".toList := by
  have hunnested : Unnested strangeWorld.store := by
    apply MemoryStore.unnested
    decide +kernel
  have hlast : IsName ['b'] := ⟨by decide, by decide, by decide, by decide⟩
  have hbase : smallDatabase.naming.base = (⟨['d']⟩ : Path).join ['b'] := rfl
  obtain ⟨hread, hwritten, hgone⟩ := spelled_names_iff (σ := MemoryStore) smallDatabase
  let p : Spelling := { table := { zeros := 2 } }
  have hp : p.Fits (.table ⟨3⟩) := trivial
  have hstrange : smallDatabase.naming.spelledName? .sharded p (.table ⟨3⟩) ⟨1⟩ =
      some "1.t003.lob.db".toList := by decide
  have hplain : smallDatabase.naming.spelledName? .sharded {} (.table ⟨3⟩) ⟨2⟩ =
      some "2.t3.lob.db".toList := by decide
  have hplace : smallDatabase.naming.HasPlace .sharded ⟨2⟩ :=
    (by decide : (2 : UInt32) % 4 ≠ 0)
  obtain ⟨w', hrun⟩ : ∃ w', smallDatabase.removal (.table ⟨3⟩) strangeWorld =
      .ok { removed := 2 } w' := ⟨_, rfl⟩
  refine ⟨w', hrun, ?_, ?_, ?_, ?_⟩
  · exact ((hgone _ _ hbase hlast (by decide) _ trivial hunnested _ _ _ hrun _).2
      ⟨by decide +kernel, id, .sharded, _, _, ⟨1⟩, p, ⟨rfl, .root, id⟩, rfl, hp, hstrange⟩).2
  · refine (hread _ _ _ _).2 ⟨p, ⟨hp, hstrange⟩, ?_⟩
    rintro p' ⟨hp', hstrange'⟩
    exact spelling_unique hp' hp hstrange' hstrange
  · rw [hwritten _ _ _ _ p hp hstrange]
    exact fun h => absurd h.1 (by decide)
  · exact (hwritten _ _ _ _ _ (Spelling.fits_default _) hplain).2 ⟨rfl, hplace⟩

/-- Names with signs and zeros in front of their numerals are read, although no file gets them, and a
sweep deletes a file that has one. -/
theorem strange_names_read :
    parseSharded? "+1.t3.lob.db".toList = some (.table ⟨3⟩, ⟨1⟩) ∧
    "+1.t3.lob.db".toList ≠ fileName (.table ⟨3⟩) ⟨1⟩ ∧
    parseSharded? "007.temp.lob.db".toList = some (.temp, ⟨7⟩) ∧
    "007.temp.lob.db".toList ≠ fileName .temp ⟨7⟩ ∧
    (spelled "d/b").parseFlat? "b.06.1.lob.db".toList = some (.table ⟨6⟩, ⟨1⟩) ∧
    some "b.06.1.lob.db".toList ≠ ((spelled "d/b").flatPath (.table ⟨6⟩) ⟨1⟩).fileName? ∧
    ¬smallDatabase.naming.Writes "1.t003.lob.db".toList ∧
    ∃ w', smallDatabase.removeTable ⟨3⟩ strangeWorld = .ok { removed := 2 } w' ∧
      (fileAt? strangeWorld.store
        (smallDatabase.naming.shardRoot.components ++ [.name "1.t003.lob.db".toList])).isSome ∧
      fileAt? w'.store
        (smallDatabase.naming.shardRoot.components ++ [.name "1.t003.lob.db".toList]) = none := by
  have hread : parseSharded? "1.t003.lob.db".toList = some (.table ⟨3⟩, ⟨1⟩) := by decide
  refine ⟨by decide, by decide, by decide, by decide, by decide, by decide, ?_, _, rfl, ?_, ?_⟩
  · rw [(parseSharded?_eq_some.1 hread).writes_iff]
    decide
  · decide +kernel
  · decide +kernel

end Database

end LargeObjects

import Mathlib
import LargeObjects.Naming.Parse
import LargeObjects.Proofs.Paths

/-! The names of files tell whose they are: a path in the area of one database determines the
layout, the owner and the object that it belongs to. -/
namespace LargeObjects

namespace Numeral

theorem isDigit_of_mem_write {n : Nat} {c : Char} (h : c ∈ write n) : c.isDigit :=
  Nat.isDigit_of_mem_toDigits (by decide) (by decide) h

theorem not_mem_write {n : Nat} {c : Char} (h : c.isDigit = false) : c ∉ write n := by
  intro hmem
  rw [isDigit_of_mem_write hmem] at h
  cases h

theorem write_ne_nil (n : Nat) : write n ≠ [] := Nat.toDigits_ne_nil

/-- No two numbers have the same numeral. -/
theorem write_injective : Function.Injective write := by
  intro a b h
  have hvalue := congrArg (fun digits => Nat.ofDigitChars 10 digits 0) h
  simpa only [write, Nat.ofDigitChars_ten_toDigits] using hvalue

/-- Reading a numeral gives back the word that was written. -/
theorem read?_write (n : UInt32) : read? (write n.toNat) = some n := by
  have hplus : ∀ rest, write n.toNat ≠ '+' :: rest := by
    intro rest h
    have hmem : '+' ∈ write n.toNat := by
      rw [h]
      exact List.mem_cons_self
    exact not_mem_write (by decide) hmem
  have hvalue : Nat.ofDigitChars 10 (write n.toNat) 0 = n.toNat := Nat.ofDigitChars_ten_toDigits
  have hdigits : (write n.toNat).all Char.isDigit :=
    List.all_eq_true.2 fun c hc => isDigit_of_mem_write hc
  unfold read?
  split
  next rest h => exact absurd h (hplus rest)
  next =>
    simp only [hvalue]
    rw [if_pos ⟨write_ne_nil _, hdigits, n.toNat_lt⟩, UInt32.ofNat_toNat]

/-- A numeral that is read has nothing but digits and, in front, a plus sign. -/
theorem not_mem_of_read? {text : List Char} {n : UInt32} (h : read? text = some n) {c : Char}
    (hplus : c ≠ '+') (hdigit : c.isDigit = false) : c ∉ text := by
  have hdigits : ∀ digits : List Char, digits.all Char.isDigit = true → c ∉ digits := by
    intro digits hall hmem
    rw [List.all_eq_true.1 hall c hmem] at hdigit
    cases hdigit
  unfold read? at h
  dsimp only at h
  split at h
  next rest =>
    obtain ⟨⟨-, hall, -⟩, -⟩ := Option.ite_none_right_eq_some.1 h
    intro hmem
    rcases List.mem_cons.1 hmem with rfl | hmem
    · exact hplus rfl
    · exact hdigits rest hall hmem
  next =>
    obtain ⟨⟨-, hall, -⟩, -⟩ := Option.ite_none_right_eq_some.1 h
    exact hdigits text hall

theorem dot_not_mem_of_read? {text : List Char} {n : UInt32} (h : read? text = some n) :
    '.' ∉ text := not_mem_of_read? h (by decide) (by decide)

end Numeral

namespace Naming

theorem atDot?_append {a : List Char} (ha : '.' ∉ a) (rest : List Char) :
    atDot? (a ++ '.' :: rest) = some (a, rest) := by
  have hall : ∀ c ∈ a, decide (c ≠ '.') = true := by
    intro c hc
    have hne : c ≠ '.' := fun h => ha (h ▸ hc)
    simp [hne]
  unfold atDot?
  rw [List.dropWhile_append_of_pos hall, List.takeWhile_append_of_pos hall]
  simp

theorem afterLead?_eq_some {lead text rest : List Char} :
    afterLead? lead text = some rest ↔ text = lead ++ rest := by
  unfold afterLead?
  refine ⟨fun h => ?_, ?_⟩
  · split at h
    next hlead =>
      obtain ⟨tail, rfl⟩ := hlead
      rw [List.drop_left] at h
      cases h
      rfl
    next => cases h
  · rintro rfl
    rw [if_pos (List.prefix_append _ _), List.drop_left]

theorem beforeSuffix?_eq_some {suffix text front : List Char} :
    beforeSuffix? suffix text = some front ↔ text = front ++ suffix := by
  unfold beforeSuffix?
  refine ⟨fun h => ?_, ?_⟩
  · split at h
    next hsuffix =>
      obtain ⟨head, rfl⟩ := hsuffix
      rw [List.length_append, Nat.add_sub_cancel, List.take_left] at h
      cases h
      rfl
    next => cases h
  · rintro rfl
    rw [if_pos (List.suffix_append _ _), List.length_append, Nat.add_sub_cancel, List.take_left]

theorem atDot?_eq_some {text front rest : List Char} (h : atDot? text = some (front, rest)) :
    text = front ++ '.' :: rest := by
  have hsplit := List.takeWhile_append_dropWhile (p := fun c : Char => decide (c ≠ '.')) (l := text)
  unfold atDot? at h
  cases hdrop : text.dropWhile fun c => decide (c ≠ '.') with
  | nil =>
    rw [hdrop] at h
    cases h
  | cons first tail =>
    have hdot : first = '.' := by
      have hhead := List.head?_dropWhile_not (fun c : Char => decide (c ≠ '.')) text
      rw [hdrop] at hhead
      simpa using hhead
    rw [hdrop] at h hsplit
    cases h
    rw [hdot] at hsplit
    exact hsplit.symm

theorem dot_not_mem_write (n : Nat) : '.' ∉ Numeral.write n := Numeral.not_mem_write (by decide)

def fileName (owner : Owner) (id : ObjectId) : Name :=
  Numeral.write id.word.toNat ++ (ownerMark owner ++ objectSuffix.toList)

theorem separator_not_mem_ending (owner : Owner) : '/' ∉ ownerMark owner ++ objectSuffix.toList := by
  intro h
  rcases List.mem_append.1 h with h | h
  · cases owner with
    | temp =>
      revert h
      decide
    | table t =>
      simp only [ownerMark, List.mem_cons] at h
      rcases h with h | h | h
      · revert h
        decide
      · revert h
        decide
      · exact Numeral.not_mem_write (by decide) h
  · revert h
    decide

theorem length_ending (owner : Owner) : 2 < (ownerMark owner ++ objectSuffix.toList).length := by
  have hsuffix : objectSuffix.toList.length = 7 := by decide
  rw [List.length_append, hsuffix]
  omega

/-- The name of a file in a tree is one piece of a path. -/
theorem isName_fileName (owner : Owner) (id : ObjectId) : IsName (fileName owner id) := by
  apply IsName.of_length
  · have := length_ending owner
    rw [fileName, List.length_append]
    omega
  · intro h
    rcases List.mem_append.1 h with h | h
    · exact Numeral.not_mem_write (by decide) h
    · exact separator_not_mem_ending owner h

theorem ownerMark_temp_ne (t : TableId) : ownerMark .temp ≠ ownerMark (.table t) := by
  intro h
  have hmem : 'e' ∈ ownerMark (.table t) := by
    rw [← h]
    decide
  simp only [ownerMark, List.mem_cons] at hmem
  rcases hmem with hmem | hmem | hmem
  · revert hmem
    decide
  · revert hmem
    decide
  · exact Numeral.not_mem_write (by decide) hmem

/-- The mark tells whose a file is. -/
theorem ownerMark_injective : Function.Injective ownerMark := by
  intro a b h
  cases a with
  | temp =>
    cases b with
    | temp => rfl
    | table t => exact absurd h (ownerMark_temp_ne t)
  | table t =>
    cases b with
    | temp => exact absurd h.symm (ownerMark_temp_ne t)
    | table t' =>
      simp only [ownerMark, List.cons.injEq, true_and] at h
      have hword := UInt32.toNat_inj.1 (Numeral.write_injective h)
      cases t
      cases t'
      cases hword
      rfl

theorem ownerMark_eq_cons (owner : Owner) : ∃ rest, ownerMark owner = '.' :: rest := by
  cases owner with
  | temp => exact ⟨_, rfl⟩
  | table t => exact ⟨_, rfl⟩

/-- The name of a file tells owner and object. -/
theorem fileName_injective {owner owner' : Owner} {id id' : ObjectId}
    (h : fileName owner id = fileName owner' id') : owner = owner' ∧ id = id' := by
  obtain ⟨rest, hrest⟩ := ownerMark_eq_cons owner
  obtain ⟨rest', hrest'⟩ := ownerMark_eq_cons owner'
  have hdot := congrArg atDot? h
  simp only [fileName, hrest, hrest', List.cons_append, atDot?_append (dot_not_mem_write _),
    Option.some.injEq, Prod.mk.injEq] at hdot
  obtain ⟨hnumber, hmark⟩ := hdot
  have hword := UInt32.toNat_inj.1 (Numeral.write_injective hnumber)
  have hmark' := List.append_cancel_right hmark
  refine ⟨ownerMark_injective ?_, ?_⟩
  · rw [hrest, hrest', hmark']
  · cases id
    cases id'
    cases hword
    rfl

/-- A file in the tree takes up the number of its object. -/
theorem entryNumber?_fileName (owner : Owner) {id : ObjectId} (h : id.word ≠ 0) :
    entryNumber? (fileName owner id) = some id.word := by
  obtain ⟨rest, hrest⟩ := ownerMark_eq_cons owner
  have hsuffix : databaseSuffix.toList <:+ fileName owner id := by
    have hobject : databaseSuffix.toList <:+ objectSuffix.toList := by decide
    exact (hobject.trans (List.suffix_append _ _)).trans (List.suffix_append _ _)
  have hdot : atDot? (fileName owner id) =
      some (Numeral.write id.word.toNat, rest ++ objectSuffix.toList) := by
    rw [fileName, hrest, List.cons_append, atDot?_append (dot_not_mem_write _)]
  unfold entryNumber?
  rw [if_pos hsuffix, hdot]
  simp only [Option.bind_eq_bind, Option.bind_some, Numeral.read?_write, if_neg h]

inductive ReadsSharded : Name → Owner → ObjectId → Prop
  | temp {number : List Char} {word : UInt32} : Numeral.read? number = some word →
    ReadsSharded (number ++ '.' :: tempMark.toList ++ objectSuffix.toList) .temp ⟨word⟩
  | table {number owner : List Char} {word table : UInt32} : Numeral.read? number = some word →
    Numeral.read? owner = some table →
    ReadsSharded (number ++ '.' :: 't' :: owner ++ objectSuffix.toList) (.table ⟨table⟩) ⟨word⟩

/-- A name in the tree is read exactly when its parts can be. -/
theorem parseSharded?_eq_some {name : Name} {owner : Owner} {id : ObjectId} :
    parseSharded? name = some (owner, id) ↔ ReadsSharded name owner id := by
  unfold parseSharded?
  simp only [Option.bind_eq_bind, Option.bind_eq_some_iff]
  constructor
  · rintro ⟨text, htext, ⟨number, mark⟩, hsplit, word, hword, h⟩
    rw [beforeSuffix?_eq_some.1 htext, atDot?_eq_some hsplit]
    dsimp only at hword h
    split at h
    next hmark =>
      cases h
      rw [hmark]
      exact .temp hword
    next =>
      obtain ⟨rest, hrest, h⟩ := Option.bind_eq_some_iff.1 h
      obtain ⟨table, htable, h⟩ := Option.bind_eq_some_iff.1 h
      cases h
      rw [afterLead?_eq_some.1 hrest]
      exact .table hword htable
  · intro h
    cases h with
    | @temp number word hword =>
      refine ⟨_, beforeSuffix?_eq_some.2 rfl, _,
        atDot?_append (Numeral.dot_not_mem_of_read? hword) _, word, hword, ?_⟩
      rw [if_pos rfl]
      rfl
    | @table number owner word table hword htable =>
      -- No numeral makes the mark of a table that of temporary files.
      have hne : 't' :: owner ≠ tempMark.toList := by
        intro hmark
        have howner : owner = tempMark.toList.tail := congrArg List.tail hmark
        refine Numeral.not_mem_of_read? htable (c := 'e') (by decide) (by decide) ?_
        rw [howner]
        decide
      refine ⟨_, beforeSuffix?_eq_some.2 rfl, _,
        atDot?_append (Numeral.dot_not_mem_of_read? hword) _, word, hword, ?_⟩
      rw [if_neg hne]
      refine Option.bind_eq_some_iff.2 ⟨owner, afterLead?_eq_some.2 rfl, ?_⟩
      exact Option.bind_eq_some_iff.2 ⟨table, htable, rfl⟩

/-- The name of a file in the tree is read back as what it was made from. -/
theorem parseSharded?_fileName (owner : Owner) (id : ObjectId) :
    parseSharded? (fileName owner id) = some (owner, id) := by
  rw [parseSharded?_eq_some, fileName, ← List.append_assoc]
  cases owner with
  | temp => exact .temp (Numeral.read?_write id.word)
  | table t => exact .table (Numeral.read?_write id.word) (Numeral.read?_write t.word)

def directorySteps (n : Naming) (id : ObjectId) : List Component :=
  (digits n.fanout.toNat (id.word.toNat / n.fanout.toNat)).map fun d => .name (directoryName d)

theorem isName_directoryName (digit : Nat) : IsName (directoryName digit) := by
  have hsuffix : directorySuffix.toList.length = 8 := by decide
  apply IsName.of_length
  · rw [directoryName, List.length_append, hsuffix]
    omega
  · intro h
    rcases List.mem_append.1 h with h | h
    · exact Numeral.not_mem_write (by decide) h
    · revert h
      decide

/-- Each digit above the lowest is one directory down. -/
theorem components_foldl_join (digits : List Nat) (dir : Path) :
    (digits.foldl (fun dir digit => dir.join (directoryName digit)) dir).components =
      dir.components ++ digits.map fun d => .name (directoryName d) := by
  induction digits generalizing dir with
  | nil => simp
  | cons d rest ih =>
    rw [List.foldl_cons, ih, Path.components_join _ (isName_directoryName d), List.append_assoc]
    rfl

def rootName (n : Naming) : Name := n.base.lastPiece ++ directorySuffix.toList

theorem components_shardRoot (n : Naming) :
    n.shardRoot.components = n.base.lead ++ [.name n.rootName] :=
  Path.components_append n.base (by decide) (by decide)

/-- The directory of an object lies below the root of the tree, which stands beside the flat files. -/
theorem components_shardDirectory (n : Naming) (id : ObjectId) :
    (n.shardDirectory id).components =
      n.base.lead ++ .name n.rootName :: n.directorySteps id := by
  rw [shardDirectory, components_foldl_join, components_shardRoot, List.append_assoc]
  rfl

section Places

variable {fanout dir : UInt32} {slot : Nat}

/-- The sum of a directory and a place in it does not go round as long as words reach. -/
theorem toNat_place (hfits : dir.toNat + slot < UInt32.size) :
    (dir + UInt32.ofNat slot).toNat = dir.toNat + slot := by
  rw [UInt32.toNat_add, UInt32.toNat_ofNat', Nat.add_mod_mod, Nat.mod_eq_of_lt hfits]

theorem place_ne_zero (hpos : 1 ≤ slot) (hfits : dir.toNat + slot < UInt32.size) :
    dir + UInt32.ofNat slot ≠ 0 := by
  intro hzero
  have hword := toNat_place hfits
  rw [hzero, UInt32.toNat_zero] at hword
  omega

/-- The place is its lowest digit. -/
theorem place_mod (hdir : dir % fanout = 0) (hslot : slot < fanout.toNat)
    (hfits : dir.toNat + slot < UInt32.size) : ((dir + UInt32.ofNat slot) % fanout).toNat = slot := by
  have hzero : dir.toNat % fanout.toNat = 0 := by
    rw [← UInt32.toNat_mod, hdir]
    rfl
  rw [UInt32.toNat_mod, toNat_place hfits, Nat.add_mod, hzero, Nat.zero_add, Nat.mod_mod,
    Nat.mod_eq_of_lt hslot]

/-- A slot other than zero is never the number of a directory. -/
theorem place_mod_ne_zero (hdir : dir % fanout = 0) (hpos : 1 ≤ slot) (hslot : slot < fanout.toNat)
    (hfits : dir.toNat + slot < UInt32.size) : (dir + UInt32.ofNat slot) % fanout ≠ 0 := by
  intro hzero
  have hmod := place_mod hdir hslot hfits
  rw [hzero, UInt32.toNat_zero] at hmod
  omega

end Places

/-- The objects whose numbers agree above the lowest digit are in the directory of the number that
ends in zero. -/
theorem shardDirectory_place (n : Naming) {dir : UInt32} {slot : Nat} (hdir : dir % n.fanout = 0)
    (hslot : slot < n.fanout.toNat) (hfits : dir.toNat + slot < UInt32.size) :
    n.shardDirectory ⟨dir + UInt32.ofNat slot⟩ = n.stem ⟨dir⟩ := by
  have hdiv : n.fanout.toNat ∣ dir.toNat := by
    rw [Nat.dvd_iff_mod_eq_zero, ← UInt32.toNat_mod, hdir]
    rfl
  have hquotient : (dir.toNat + slot) / n.fanout.toNat = dir.toNat / n.fanout.toNat := by
    rw [Nat.add_div_of_dvd_right hdiv, Nat.div_eq_of_lt hslot, Nat.add_zero]
  unfold stem
  rw [if_pos hdir, shardDirectory, shardDirectory, toNat_place hfits, hquotient]

theorem append_join {dir : Path} {t suffix : List Char} (ht : t ≠ []) (hs : '/' ∉ t) :
    (dir.join t).append suffix = dir.join (t ++ suffix) := by
  obtain ⟨c, rest, rfl⟩ := List.exists_cons_of_ne_nil ht
  have hc : c ≠ '/' := fun h => hs (h ▸ List.mem_cons_self)
  by_cases hend : dir.spelling = [] ∨ dir.spelling.getLast? = some '/'
  · simp [Path.join, Path.append, hc, hend]
  · simp [Path.join, Path.append, hc, hend]

/-- The file of an object is right in its directory, under its number and its owner. -/
theorem components_shardedPath (n : Naming) (owner : Owner) {id : ObjectId}
    (h : id.word % n.fanout ≠ 0) :
    (n.shardedPath owner id).components =
      (n.shardDirectory id).components ++ [.name (fileName owner id)] := by
  have hslash : '/' ∉ Numeral.write id.word.toNat := Numeral.not_mem_write (by decide)
  rw [shardedPath, stem, if_neg h, append_join (Numeral.write_ne_nil _) hslash]
  exact Path.components_join _ (isName_fileName owner id)

theorem length_flatEnding (owner : Owner) (id : ObjectId) : 2 < (flatEnding owner id).length := by
  cases owner with
  | temp =>
    have hsuffix : flatTempSuffix.toList.length = 8 := by decide
    simp only [flatEnding, List.length_append, List.length_cons, hsuffix]
    omega
  | table t =>
    have hsuffix : objectSuffix.toList.length = 7 := by decide
    simp only [flatEnding, List.length_append, List.length_cons, hsuffix]
    omega

theorem separator_not_mem_flatEnding (owner : Owner) (id : ObjectId) :
    '/' ∉ flatEnding owner id := by
  have hnumber : ∀ n, '/' ∉ Numeral.write n := fun n => Numeral.not_mem_write (by decide)
  have htemp : '/' ∉ flatTempSuffix.toList := by decide
  have hobject : '/' ∉ objectSuffix.toList := by decide
  cases owner with
  | temp => simp [flatEnding, hnumber, htemp]
  | table t => simp [flatEnding, hnumber, hobject]

/-- A flat file stands where the database is named, with more behind the name. -/
theorem components_flatPath (n : Naming) (owner : Owner) (id : ObjectId) :
    (n.flatPath owner id).components =
      n.base.lead ++ [.name (n.base.lastPiece ++ flatEnding owner id)] :=
  Path.components_append n.base (length_flatEnding owner id) (separator_not_mem_flatEnding owner id)

theorem atDot?_flatEnding_temp (id : ObjectId) :
    atDot? (flatEnding .temp id).tail =
      some (Numeral.write id.word.toNat, flatTempSuffix.toList.tail) :=
  atDot?_append (dot_not_mem_write _) _

theorem atDot?_flatEnding_table (t : TableId) (id : ObjectId) :
    atDot? (flatEnding (.table t) id).tail =
      some (Numeral.write t.word.toNat, Numeral.write id.word.toNat ++ objectSuffix.toList) := by
  rw [← atDot?_append (dot_not_mem_write t.word.toNat)]
  simp [flatEnding]

/-- No temporary flat file has the name of one that a table owns. -/
theorem flatEnding_temp_ne (t : TableId) (id id' : ObjectId) :
    flatEnding .temp id ≠ flatEnding (.table t) id' := by
  intro h
  have hdot := congrArg (fun ending => atDot? ending.tail) h
  simp only [atDot?_flatEnding_temp, atDot?_flatEnding_table, Option.some.injEq,
    Prod.mk.injEq] at hdot
  obtain ⟨digit, rest, hnumber⟩ := List.exists_cons_of_ne_nil (Numeral.write_ne_nil id'.word.toNat)
  have hdigit : digit.isDigit := by
    apply Numeral.isDigit_of_mem_write
    rw [hnumber]
    exact List.mem_cons_self
  have hhead : some 't' = some digit := by
    have := congrArg List.head? hdot.2
    rw [hnumber, List.cons_append, List.head?_cons] at this
    rw [← this]
    decide
  cases hhead
  revert hdigit
  decide

/-- What a flat name adds tells owner and object. -/
theorem flatEnding_injective {owner owner' : Owner} {id id' : ObjectId}
    (h : flatEnding owner id = flatEnding owner' id') : owner = owner' ∧ id = id' := by
  have hword : ∀ {a b : UInt32}, Numeral.write a.toNat = Numeral.write b.toNat → a = b :=
    fun hab => UInt32.toNat_inj.1 (Numeral.write_injective hab)
  have hdot := congrArg (fun ending => atDot? ending.tail) h
  obtain ⟨id⟩ := id
  obtain ⟨id'⟩ := id'
  cases owner with
  | temp =>
    cases owner' with
    | temp =>
      simp only [atDot?_flatEnding_temp, Option.some.injEq, Prod.mk.injEq, and_true] at hdot
      obtain rfl : id = id' := hword hdot
      exact ⟨rfl, rfl⟩
    | table t => exact absurd h (flatEnding_temp_ne t _ _)
  | table t =>
    cases owner' with
    | temp => exact absurd h.symm (flatEnding_temp_ne t _ _)
    | table t' =>
      simp only [atDot?_flatEnding_table, Option.some.injEq, Prod.mk.injEq,
        List.append_cancel_right_eq] at hdot
      obtain ⟨t⟩ := t
      obtain ⟨t'⟩ := t'
      obtain rfl : t = t' := hword hdot.1
      obtain rfl : id = id' := hword hdot.2
      exact ⟨rfl, rfl⟩

/-- An object that can have a file: in the tree, numbers that end in zero are those of directories.
-/
structure Proper (n : Naming) (layout : Layout) (id : ObjectId) : Prop where
  word_ne : id.word ≠ 0
  slot_ne : layout = .sharded → id.word % n.fanout ≠ 0

theorem exists_components_path (n : Naming) (layout : Layout) (owner : Owner) (id : ObjectId) :
    ∃ steps name, (n.path layout owner id).components = steps ++ [.name name] := by
  cases layout with
  | flat => exact ⟨_, _, components_flatPath n owner id⟩
  | sharded =>
    exact ⟨_, _, Path.components_append (n.stem id) (length_ending owner)
      (separator_not_mem_ending owner)⟩

theorem nil_ne_components_path (n : Naming) (layout : Layout) (owner : Owner) (id : ObjectId) :
    [] ≠ (n.path layout owner id).components := by
  obtain ⟨steps, name, hcomponents⟩ := n.exists_components_path layout owner id
  rw [hcomponents]
  exact (List.append_ne_nil_of_right_ne_nil _ (List.cons_ne_nil _ _)).symm

/-- A path tells layout, owner and object. -/
theorem path_injective {n : Naming} {layout layout' : Layout} {owner owner' : Owner}
    {id id' : ObjectId} (hp : n.Proper layout id) (hp' : n.Proper layout' id')
    (h : (n.path layout owner id).components = (n.path layout' owner' id').components) :
    layout = layout' ∧ owner = owner' ∧ id = id' := by
  cases layout with
  | sharded =>
    have hleft := components_shardedPath n owner (hp.slot_ne rfl)
    cases layout' with
    | sharded =>
      have hright := components_shardedPath n owner' (hp'.slot_ne rfl)
      have hlast := h
      simp only [path] at hlast
      rw [hleft, hright] at hlast
      have hname := List.append_inj_right' hlast rfl
      simp only [List.cons.injEq, Component.name.injEq, and_true] at hname
      exact ⟨rfl, fileName_injective hname⟩
    | flat =>
      -- A path in the tree has one step more at least.
      have hlen := congrArg List.length h
      simp only [path] at hlen
      rw [hleft, components_shardDirectory, components_flatPath] at hlen
      simp at hlen
  | flat =>
    have hleft := components_flatPath n owner id
    cases layout' with
    | sharded =>
      have hlen := congrArg List.length h
      simp only [path] at hlen
      rw [hleft, components_shardedPath n owner' (hp'.slot_ne rfl), components_shardDirectory] at hlen
      simp at hlen
    | flat =>
      have hlast := h
      simp only [path] at hlast
      rw [hleft, components_flatPath] at hlast
      have hname := List.append_inj_right' hlast rfl
      simp only [List.cons.injEq, Component.name.injEq, List.append_cancel_left_eq, and_true] at hname
      exact ⟨rfl, flatEnding_injective hname⟩

theorem prefix_join (dir : Path) {t : Name} (h : '/' ∉ t) :
    dir.spelling <+: (dir.join t).spelling := by
  have hhead : t.head? ≠ some '/' := fun heq => h (List.mem_of_mem_head? heq)
  unfold Path.join
  rw [if_neg hhead]
  split
  · exact List.prefix_append _ _
  · exact List.prefix_append _ _

theorem prefix_foldl_join (digits : List Nat) (dir : Path) :
    dir.spelling <+: (digits.foldl (fun dir digit => dir.join (directoryName digit)) dir).spelling := by
  induction digits generalizing dir with
  | nil => exact List.prefix_refl _
  | cons d rest ih => exact (prefix_join dir (isName_directoryName d).no_separator).trans (ih _)

/-- Every name in the tree is spelled with the root of the tree in front. -/
theorem prefix_shardedPath (n : Naming) (owner : Owner) (id : ObjectId) :
    n.base.spelling ++ directorySuffix.toList <+: (n.shardedPath owner id).spelling := by
  have hdirectory : n.base.spelling ++ directorySuffix.toList <+: (n.shardDirectory id).spelling :=
    prefix_foldl_join _ n.shardRoot
  have hstem : n.base.spelling ++ directorySuffix.toList <+: (n.stem id).spelling := by
    unfold stem
    split
    · exact hdirectory
    · exact hdirectory.trans (prefix_join _ (Numeral.not_mem_write (by decide)))
  exact hstem.trans (List.prefix_append _ _)

/-- A number stands in a flat name where a directory of the tree has the start of its ending. -/
theorem directorySuffix_not_prefix_flatEnding (owner : Owner) (id : ObjectId) :
    ¬directorySuffix.toList <+: flatEnding owner id := by
  intro hending
  obtain ⟨k, rest, hflat⟩ : ∃ (k : Nat) (rest : List Char),
      flatEnding owner id = '.' :: (Numeral.write k ++ rest) := by
    cases owner with
    | temp => exact ⟨_, _, rfl⟩
    | table t =>
      refine ⟨t.word.toNat, '.' :: Numeral.write id.word.toNat ++ objectSuffix.toList, ?_⟩
      simp [flatEnding]
  obtain ⟨digit, digits, hwrite⟩ := List.exists_cons_of_ne_nil (Numeral.write_ne_nil k)
  have hdigit : digit.isDigit := Numeral.isDigit_of_mem_write (hwrite ▸ List.mem_cons_self)
  rw [hflat, hwrite, show directorySuffix.toList = '.' :: 'l' :: _ from rfl] at hending
  obtain ⟨-, hsecond⟩ := List.cons_prefix_cons.1 hending
  obtain ⟨hl, -⟩ := List.cons_prefix_cons.1 hsecond
  rw [← hl] at hdigit
  revert hdigit
  decide

/-- No name is both a flat one and one in the tree, also for numbers that end in zero. -/
theorem shardedPath_ne_flatPath (n : Naming) (owner owner' : Owner) (id id' : ObjectId) :
    n.shardedPath owner id ≠ n.flatPath owner' id' := by
  intro heq
  have hprefix := prefix_shardedPath n owner id
  rw [heq] at hprefix
  exact directorySuffix_not_prefix_flatEnding owner' id' ((List.prefix_append_right_inj _).1 hprefix)

/-- The layouts never give an object the same path. -/
theorem path_eq_iff (n : Naming) (layout layout' : Layout) (owner : Owner) (id : ObjectId) :
    n.path layout owner id = n.path layout' owner id ↔ layout = layout' := by
  refine ⟨fun heq => ?_, fun heq => by rw [heq]⟩
  cases layout with
  | sharded =>
    cases layout' with
    | sharded => rfl
    | flat => exact absurd heq (n.shardedPath_ne_flatPath _ _ _ _)
  | flat =>
    cases layout' with
    | sharded => exact absurd heq.symm (n.shardedPath_ne_flatPath _ _ _ _)
    | flat => rfl

end Naming

end LargeObjects

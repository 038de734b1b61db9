import Mathlib
import LargeObjects.Proofs.Freshness

/-! The directories of the tree and the digits of numbers. A directory holds the objects whose numbers
agree above the lowest digit, and no name of a file is one that a number ending in zero would get. -/
namespace LargeObjects.Naming

theorem digitsWithin_eq {radix : Nat} (hradix : 2 ≤ radix) {fuel n : Nat} (h : n < radix ^ fuel) :
    digitsWithin radix fuel n = (radix.digits n).reverse := by
  induction fuel generalizing n with
  | zero =>
    rw [Nat.pow_zero, Nat.lt_one_iff] at h
    rw [h, Nat.digits_zero]
    rfl
  | succ fuel ih =>
    unfold digitsWithin
    by_cases hzero : n = 0
    · rw [if_pos hzero, hzero, Nat.digits_zero]
      rfl
    · have hquotient : n / radix < radix ^ fuel := by
        rw [Nat.div_lt_iff_lt_mul (by omega)]
        rwa [Nat.pow_succ] at h
      have hdigits := Nat.digits_def' (show 1 < radix by omega) (Nat.pos_of_ne_zero hzero)
      rw [if_neg hzero, ih hquotient, hdigits, List.reverse_cons]

/-- The digits of a word are its digits. -/
theorem digits_eq {radix : Nat} (hradix : 2 ≤ radix) {n : Nat} (h : n < UInt32.size) :
    digits radix n = (radix.digits n).reverse := by
  apply digitsWithin_eq hradix
  -- Even in base two a word has no more digits than are written.
  calc n < 2 ^ 32 := h
    _ ≤ radix ^ 32 := Nat.pow_le_pow_left hradix 32

/-- A number ends in its lowest digit. -/
theorem digits_of_ne_zero {radix n : Nat} (hradix : 2 ≤ radix) (hn : n ≠ 0) (hlt : n < UInt32.size) :
    digits radix n = digits radix (n / radix) ++ [n % radix] := by
  have hquotient := Nat.lt_of_le_of_lt (Nat.div_le_self n radix) hlt
  rw [digits_eq hradix hlt, digits_eq hradix hquotient,
    Nat.digits_def' hradix (Nat.pos_of_ne_zero hn), List.reverse_cons]

theorem length_digits_mono {radix m n : Nat} (hradix : 2 ≤ radix) (hle : m ≤ n)
    (hlt : n < UInt32.size) : (digits radix m).length ≤ (digits radix n).length := by
  rw [digits_eq hradix (Nat.lt_of_le_of_lt hle hlt), digits_eq hradix hlt, List.length_reverse,
    List.length_reverse]
  exact Nat.le_length_digits_le radix m n hle

theorem length_digits_le (radix n : Nat) : (digits radix n).length ≤ 32 := by
  suffices h : ∀ fuel n, (digitsWithin radix fuel n).length ≤ fuel from h 32 n
  intro fuel
  induction fuel with
  | zero => exact fun n => Nat.le_refl 0
  | succ fuel ih =>
    intro n
    unfold digitsWithin
    split
    · exact Nat.zero_le _
    · rw [List.length_append, List.length_singleton]
      exact Nat.succ_le_succ (ih _)

theorem directoryName_injective : Function.Injective directoryName := by
  intro a b h
  exact Numeral.write_injective (List.append_cancel_right h)

variable {n : Naming} {id id' : ObjectId}

theorem two_le_toNat (h : 2 ≤ n.fanout) : 2 ≤ n.fanout.toNat := UInt32.le_iff_toNat_le.1 h

theorem quotient_lt (n : Naming) (id : ObjectId) :
    id.word.toNat / n.fanout.toNat < UInt32.size :=
  Nat.lt_of_le_of_lt (Nat.div_le_self _ _) id.word.toNat_lt

/-- Objects in one directory have numbers that agree above the lowest digit. -/
theorem quotient_eq_of_directorySteps (hfanout : 2 ≤ n.fanout)
    (h : n.directorySteps id = n.directorySteps id') :
    id.word.toNat / n.fanout.toNat = id'.word.toNat / n.fanout.toNat := by
  have hradix := two_le_toNat hfanout
  unfold directorySteps at h
  have hdigits := List.map_injective_iff.2
    (fun a b hab => directoryName_injective (Component.name.inj hab)) h
  rw [digits_eq hradix (n.quotient_lt id), digits_eq hradix (n.quotient_lt id')] at hdigits
  exact Nat.digits_inj_iff.1 (List.reverse_injective hdigits)

/-- Their numbers are told apart by the lowest digit. -/
theorem id_eq_of_directorySteps (hfanout : 2 ≤ n.fanout)
    (h : n.directorySteps id = n.directorySteps id')
    (hslot : id.word % n.fanout = id'.word % n.fanout) : id = id' := by
  have hquotient := quotient_eq_of_directorySteps hfanout h
  have hremainder := congrArg UInt32.toNat hslot
  rw [UInt32.toNat_mod, UInt32.toNat_mod] at hremainder
  have hword : id.word.toNat = id'.word.toNat := by
    rw [← Nat.div_add_mod id.word.toNat n.fanout.toNat, hquotient, hremainder, Nat.div_add_mod]
  obtain ⟨word⟩ := id
  obtain ⟨word'⟩ := id'
  exact congrArg ObjectId.mk (UInt32.toNat_inj.1 hword)

/-- An object is as deep in the tree as its number has digits above the lowest. -/
theorem length_directorySteps_le (hfanout : 2 ≤ n.fanout) (hslot : id.word % n.fanout ≠ 0) :
    (n.directorySteps id).length ≤ (n.fanout.toNat.digits (UInt32.size - 1)).length - 1 := by
  have hradix := two_le_toNat hfanout
  have hpos : 0 < id.word.toNat := by
    refine Nat.pos_of_ne_zero fun hzero => hslot ?_
    rw [UInt32.toNat_inj.1 (hzero.trans UInt32.toNat_zero.symm), UInt32.zero_mod]
  have hle : id.word.toNat ≤ UInt32.size - 1 := Nat.le_sub_one_of_lt id.word.toNat_lt
  have hdigits := Nat.digits_def' (show 1 < n.fanout.toNat by omega) hpos
  have hlength : (n.directorySteps id).length + 1 = (n.fanout.toNat.digits id.word.toNat).length := by
    unfold directorySteps
    rw [List.length_map, digits_eq hradix (n.quotient_lt id), List.length_reverse, hdigits,
      List.length_cons]
  have hmore := Nat.le_length_digits_le n.fanout.toNat _ _ hle
  omega

/-- What a name in the tree has before its ending. -/
theorem count_dot_ending (owner : Owner) :
    (ownerMark owner ++ objectSuffix.toList).count '.' = 3 := by
  have hmark : (ownerMark owner).count '.' = 1 := by
    cases owner with
    | temp => decide
    | table t =>
      have hwrite := List.count_eq_zero.2 (dot_not_mem_write t.word.toNat)
      rw [ownerMark, List.count_cons, List.count_cons, hwrite]
      rfl
  rw [List.count_append, hmark]
  rfl

theorem count_dot_fileName (owner : Owner) (id : ObjectId) : (fileName owner id).count '.' = 3 := by
  rw [fileName, List.count_append, List.count_eq_zero.2 (dot_not_mem_write _), count_dot_ending]

theorem exists_pieces_foldl_join (digits : List Nat) {dir : Path} (hdir : dir.EndsInName)
    (h : ∃ front lead, dir.pieces = front ++ [lead ++ directorySuffix.toList]) : ∃ front lead,
      (digits.foldl (fun dir digit => dir.join (directoryName digit)) dir).pieces =
        front ++ [lead ++ directorySuffix.toList] := by
  induction digits generalizing dir with
  | nil => exact h
  | cons d rest ih =>
    have hname := isName_directoryName d
    exact ih (Path.endsInName_join hdir hname) ⟨_, Numeral.write d, Path.pieces_join hdir hname⟩

/-- The directory of an object ends in what every directory of the tree ends in. -/
theorem exists_lastPiece_shardDirectory (n : Naming) (id : ObjectId) : ∃ lead,
    (n.shardDirectory id).lastPiece = lead ++ directorySuffix.toList := by
  have hroot : n.shardRoot.EndsInName := Path.endsInName_append n.base (by decide) (by decide)
  obtain ⟨front, lead, hpieces⟩ := exists_pieces_foldl_join
    (digits n.fanout.toNat (id.word.toNat / n.fanout.toNat)) hroot
    ⟨_, _, Path.splitOn_append_name n.base.spelling (by decide)⟩
  refine ⟨lead, ?_⟩
  have hlast := congrArg List.getLast? hpieces
  rw [List.getLast?_concat] at hlast
  exact Option.some.inj ((List.getLast?_eq_some_getLast _).symm.trans hlast)

/-- A number that ends in zero has a name that no file has: there are more dots in it. -/
theorem path_ne_of_slot_zero {owner owner' : Owner} (hslot : id.word % n.fanout ≠ 0)
    (hzero : id'.word % n.fanout = 0) :
    (n.path .sharded owner id).components ≠ (n.path .sharded owner' id').components := by
  intro heq
  obtain ⟨lead, hlast⟩ := n.exists_lastPiece_shardDirectory id'
  have hfile := components_shardedPath n owner hslot
  have hother : (n.shardedPath owner' id').components = (n.shardDirectory id').lead ++
      [.name ((n.shardDirectory id').lastPiece ++ (ownerMark owner' ++ objectSuffix.toList))] := by
    rw [shardedPath, stem, if_pos hzero]
    exact Path.components_append _ (length_ending owner') (separator_not_mem_ending owner')
  simp only [path] at heq
  rw [hfile, hother] at heq
  have hname := List.append_inj_right' heq rfl
  simp only [List.cons.injEq, Component.name.injEq, and_true] at hname
  -- Here the ending of a directory comes before that of an object.
  have hcount := congrArg (List.count '.') hname
  rw [count_dot_fileName, hlast, List.count_append, List.count_append, count_dot_ending] at hcount
  have hsuffix : directorySuffix.toList.count '.' = 2 := by decide
  omega

end LargeObjects.Naming

import Mathlib
import LargeObjects.Proofs.Decoding
import LargeObjects.Proofs.Directories

/-! How long names and paths get. What a database puts behind its path has no more than a few hundred
octets, whatever the owner and the number of an object. -/
namespace LargeObjects

namespace Disk

namespace Brief

variable {text : List Char} {j k : Nat} {p : Path}

theorem dot (h : Brief text j) : Brief ('.' :: text) (1 + j) := by
  have hdot : Brief ['.'] 1 := ⟨by decide, by decide⟩
  exact hdot.append h

/-- A word has ten digits at most. -/
theorem write {n : Nat} (h : n < UInt32.size) : Brief (Numeral.write n) 10 := by
  refine ⟨Numeral.not_mem_write (by decide), ?_⟩
  have hlength : (Numeral.write n).length ≤ 10 := Nat.toDigits_length 10 n 10 (by decide)
    (h.trans_le (by decide))
  have hdigits : ∀ text : List Char, (∀ c ∈ text, c.isDigit) → byteCount text = text.length := by
    intro text
    induction text with
    | nil => exact fun _ => rfl
    | cons c rest ih =>
      intro hall
      have hc : c.utf8Size = 1 := by
        have hdigit := hall c List.mem_cons_self
        simp only [Char.isDigit, Bool.and_eq_true, decide_eq_true_eq] at hdigit
        exact Char.utf8Size_eq_one_iff.2 (UInt32.le_trans hdigit.2 (by decide))
      have hone : byteCount [c] = 0 + c.utf8Size := rfl
      rw [← List.singleton_append, byteCount_append, hone, hc,
        ih fun u hu => hall u (List.mem_cons_of_mem c hu), List.length_append, List.length_singleton]
  rw [hdigits _ fun c hc => Numeral.isDigit_of_mem_write hc]
  exact hlength

/-- Joining a name to a path takes a separator and the name. -/
theorem join (h : Brief p.spelling j) (h' : Brief text k) (hsep : '/' ∉ text) :
    Brief (p.join text).spelling (j + (1 + k)) := by
  have hhead : text.head? ≠ some '/' := fun h => hsep (List.mem_of_mem_head? h)
  have hslash : Brief ['/'] 1 := ⟨by decide, by decide⟩
  unfold Path.join
  rw [if_neg hhead]
  split
  · exact (h.append h').mono (by omega)
  · exact h.append (hslash.append h')

end Brief

end Disk

namespace Naming

open Disk

theorem brief_directorySuffix : Brief directorySuffix.toList 8 := ⟨by decide, by decide⟩

theorem brief_objectSuffix : Brief objectSuffix.toList 7 := ⟨by decide, by decide⟩

theorem brief_flatTempSuffix : Brief flatTempSuffix.toList 8 := ⟨by decide, by decide⟩

theorem brief_directoryName {digit : Nat} (h : digit < UInt32.size) : Brief (directoryName digit) 18 :=
  (Brief.write h).append brief_directorySuffix

theorem brief_ownerMark (owner : Owner) : Brief (ownerMark owner) 12 := by
  cases owner with
  | temp => exact ⟨by decide, by decide⟩
  | table t =>
    have ht : Brief ['t'] 1 := ⟨by decide, by decide⟩
    exact (ht.append (Brief.write t.word.toNat_lt)).dot

theorem brief_ending (owner : Owner) : Brief (ownerMark owner ++ objectSuffix.toList) 19 :=
  (brief_ownerMark owner).append brief_objectSuffix

/-- No name of a file in a tree is longer than 29 octets. -/
theorem brief_fileName (owner : Owner) (id : ObjectId) : Brief (fileName owner id) 29 :=
  (Brief.write id.word.toNat_lt).append (brief_ending owner)

theorem brief_flatEnding (owner : Owner) (id : ObjectId) : Brief (flatEnding owner id) 29 := by
  have hnumber := (Brief.write id.word.toNat_lt).dot
  cases owner with
  | temp => exact (hnumber.append brief_flatTempSuffix).mono (by decide)
  | table t =>
    have htable := (Brief.write t.word.toNat_lt).dot
    exact (htable.append hnumber).append brief_objectSuffix

/-- A number has no more digits than are allowed for, and each of them is below any bound of the
number. -/
theorem digitsWithin_lt (radix : Nat) {bound : Nat} (fuel n : Nat) (hn : n < bound) :
    (digitsWithin radix fuel n).length ≤ fuel ∧ ∀ digit ∈ digitsWithin radix fuel n, digit < bound := by
  induction fuel generalizing n with
  | zero => exact ⟨Nat.le_refl _, List.forall_mem_nil _⟩
  | succ fuel ih =>
    unfold digitsWithin
    split
    · exact ⟨Nat.zero_le _, List.forall_mem_nil _⟩
    · obtain ⟨hlength, hdigits⟩ := ih (n / radix) ((Nat.div_le_self n radix).trans_lt hn)
      refine ⟨?_, fun digit hdigit => ?_⟩
      · rw [List.length_append, List.length_singleton]
        exact Nat.succ_le_succ hlength
      · rcases List.mem_append.1 hdigit with hdigit | hdigit
        · exact hdigits digit hdigit
        · rw [List.mem_singleton.1 hdigit]
          exact (Nat.mod_le n radix).trans_lt hn

/-- Each directory on the way down adds 19 octets at most. -/
theorem brief_foldl_join {dir : Path} {size : Nat} (digits : List Nat) (hdir : Brief dir.spelling size)
    (hdigits : ∀ digit ∈ digits, digit < UInt32.size) :
    Brief (digits.foldl (fun dir digit => dir.join (directoryName digit)) dir).spelling
      (size + digits.length * 19) := by
  induction digits generalizing dir size with
  | nil => exact hdir
  | cons first rest ih =>
    have hfirst := hdir.join (brief_directoryName (hdigits first List.mem_cons_self))
      (isName_directoryName first).no_separator
    refine (ih hfirst fun digit hdigit => hdigits digit (List.mem_cons_of_mem first hdigit)).mono ?_
    rw [List.length_cons]
    omega

variable {n : Naming} {size : Nat}

/-- So the directory of an object is 616 octets beyond the path of the database, at most. -/
theorem brief_shardDirectory (h : Brief n.base.spelling size) (id : ObjectId) :
    Brief (n.shardDirectory id).spelling (size + 616) := by
  obtain ⟨hlength, hdigits⟩ := digitsWithin_lt n.fanout.toNat 32
    (id.word.toNat / n.fanout.toNat) ((Nat.div_le_self _ _).trans_lt id.word.toNat_lt)
  have hroot : Brief n.shardRoot.spelling (size + 8) := h.append brief_directorySuffix
  refine (brief_foldl_join _ hroot hdigits).mono ?_
  omega

/-- Behind its own path a database has little to say. -/
theorem brief_path (h : Brief n.base.spelling size) (layout : Layout) (owner : Owner) (id : ObjectId) :
    Brief (n.path layout owner id).spelling (size + 646) := by
  cases layout with
  | flat => exact (h.append (brief_flatEnding owner id)).mono (by omega)
  | sharded =>
    have hdirectory := brief_shardDirectory h id
    have hstem : Brief (n.stem id).spelling (size + 627) := by
      unfold stem
      split
      · exact hdirectory.mono (by omega)
      · exact hdirectory.join (Brief.write id.word.toNat_lt) (Numeral.not_mem_write (by decide))
    exact hstem.append (brief_ending owner)

end Naming

end LargeObjects

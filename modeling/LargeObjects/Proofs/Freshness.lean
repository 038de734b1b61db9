import Mathlib
import LargeObjects.Proofs.Allocating
import LargeObjects.Proofs.Sessions

/-! Ids in a tree. However the tree is searched, by a scan or by a counter, the id that is found is
that of an object that can have a file and has none. -/
namespace LargeObjects

open ReliableStore

namespace Path

def EndsInName (p : Path) : Prop := ∃ front t, p.pieces = front ++ [t] ∧ IsName t

theorem endsInName_append (p : Path) {suffix : List Char} (hl : 2 < suffix.length)
    (hs : '/' ∉ suffix) : (p.append suffix).EndsInName :=
  ⟨_, _, splitOn_append_name p.spelling hs, p.isName_lastPiece_append hl hs⟩

theorem join_eq {p : Path} {t : Name} (hp : p.EndsInName) (ht : IsName t) :
    p.join t = ⟨p.spelling ++ '/' :: t⟩ := by
  obtain ⟨front, d, hpieces, hd⟩ := hp
  have hhead : t.head? ≠ some '/' := fun h => ht.no_separator (List.mem_of_head? h)
  have hlast : (p.spelling.splitOn '/').getLast? = some d := by
    show p.pieces.getLast? = _
    rw [hpieces, List.getLast?_concat]
  have hend : ¬(p.spelling = [] ∨ p.spelling.getLast? = some '/') := by
    rintro (hnil | hsep)
    · rw [hnil] at hlast
      cases hlast
      exact hd.ne_nil rfl
    · obtain ⟨xs, hxs⟩ := List.getLast?_eq_some_iff.1 hsep
      rw [hxs, List.splitOn_append_cons_self] at hlast
      simp at hlast
      exact hd.ne_nil hlast
  unfold join
  rw [if_neg hhead, if_neg hend]

theorem pieces_join {p : Path} {t : Name} (hp : p.EndsInName) (ht : IsName t) :
    (p.join t).pieces = p.pieces ++ [t] := by
  rw [join_eq hp ht]
  unfold pieces
  rw [List.splitOn_append_cons_self, List.splitOn_eq_singleton ht.no_separator]

theorem endsInName_join {p : Path} {t : Name} (hp : p.EndsInName) (ht : IsName t) :
    (p.join t).EndsInName := ⟨p.pieces, t, pieces_join hp ht, ht⟩

theorem blank_iff {t : Name} (ht : IsName t) : (Component.ofPiece? t).isNone = false := by
  rw [ht.ofPiece?]
  rfl

theorem pieces_ne {p : Path} (hp : p.EndsInName) : p.pieces ≠ [[]] := by
  obtain ⟨front, d, hpieces, hd⟩ := hp
  intro hnil
  have hlast := congrArg List.getLast? hnil
  rw [hpieces, List.getLast?_concat] at hlast
  exact hd.ne_nil (Option.some.inj hlast)

theorem anchor?_eq {p : Path} {first : Name} {rest : List Name} (hp : p.pieces = first :: rest)
    (hne : p.pieces ≠ [[]]) : p.anchor? = (anchorOf first).head? := by
  unfold anchor? anchorOf
  rw [hp]
  rcases rest with _ | ⟨second, rest⟩
  · have hfirst : first ≠ [] := fun hnil => hne (by rw [hp, hnil])
    split <;> split <;> simp_all
  · split <;> split <;> simp_all

/-- One more piece leaves the anchor as it is. -/
theorem anchor?_of_pieces {p p' : Path} {t : Name} (hpieces : p'.pieces = p.pieces ++ [t])
    (hne : p.pieces ≠ [[]]) : p'.anchor? = p.anchor? := by
  obtain ⟨first, rest, hp⟩ : ∃ first rest, p.pieces = first :: rest :=
    List.exists_cons_of_ne_nil (List.splitOn_ne_nil _ _)
  rw [hp, List.cons_append] at hpieces
  rw [anchor?_eq hp hne, anchor?_eq hpieces (by rw [hpieces]; simp)]

theorem body_of_pieces {p p' : Path} {t : Name} (hpieces : p'.pieces = p.pieces ++ [t])
    (hne : p.pieces ≠ [[]]) : p'.body = p.body ++ [t] := by
  unfold body
  rw [anchor?_of_pieces hpieces hne, hpieces]
  split
  · exact List.tail_append_of_ne_nil (List.splitOn_ne_nil _ _)
  · rfl

theorem body_of_endsInName {p : Path} (hp : p.EndsInName) :
    ∃ front t, p.body = front ++ [t] ∧ IsName t := by
  obtain ⟨front, d, hpieces, hd⟩ := hp
  rcases front with _ | ⟨first, front⟩
  · have hanchor : p.anchor? = none := by
      unfold anchor?
      rw [hpieces]
      split
      next heq => simp at heq
      next heq => exact absurd (List.cons.inj heq).1 hd.ne_dot
      next => rfl
    exact ⟨[], d, by rw [body, hanchor, hpieces]; rfl, hd⟩
  · cases hanchor : p.anchor? with
    | none => exact ⟨first :: front, d, by rw [body, hanchor, hpieces]; rfl, hd⟩
    | some _ => exact ⟨front, d, by rw [body, hanchor, hpieces]; rfl, hd⟩

theorem ofPieces_body {p : Path} (hp : p.EndsInName) : ofPieces p.anchor? p.body = p := by
  have hwhole : p = ⟨['/'].intercalate p.pieces⟩ :=
    congrArg Path.mk (List.intercalate_splitOn '/').symm
  have hne := pieces_ne hp
  obtain ⟨front, t, hbody, -⟩ := body_of_endsInName hp
  obtain ⟨second, rest, hcons⟩ : ∃ second rest, p.body = second :: rest := by
    rw [hbody]
    exact List.exists_cons_of_ne_nil (List.append_ne_nil_of_right_ne_nil _ (List.cons_ne_nil _ _))
  obtain ⟨first, others, hp⟩ : ∃ first others, p.pieces = first :: others :=
    List.exists_cons_of_ne_nil (List.splitOn_ne_nil _ _)
  have hanchor := anchor?_eq hp hne
  have hjoin : ∀ t : Name, ['/'].intercalate (t :: second :: rest) =
      t ++ '/' :: ['/'].intercalate (second :: rest) := fun t => by simp [List.intercalate]
  unfold anchorOf at hanchor
  split at hanchor
  · have hothers : others = second :: rest := by
      rw [← hcons, body, hanchor, hp]
      rfl
    rw [hanchor, hcons, hwhole, hp, hothers, hjoin]
    rfl
  · have hothers : others = second :: rest := by
      rw [← hcons, body, hanchor, hp]
      rfl
    rw [hanchor, hcons, hwhole, hp, hothers, hjoin]
    rfl
  · rw [body, hanchor]
    exact hwhole.symm

/-- Going up from a name that was joined leads back. -/
theorem parent?_join {p : Path} {t : Name} (hp : p.EndsInName) (ht : IsName t) :
    (p.join t).parent? = some p := by
  have hpieces := pieces_join hp ht
  have hne := pieces_ne hp
  obtain ⟨front, d, hbody, hd⟩ := body_of_endsInName hp
  -- Neither of the last two pieces is blank, so only the very last is taken off.
  have hrising : (p.join t).rising = t :: p.body.reverse := by
    rw [rising, body_of_pieces hpieces hne, List.reverse_append, List.reverse_singleton,
      List.singleton_append, List.dropWhile_cons_of_neg (by simp [blank_iff ht])]
  have hrest : (p.body.reverse.dropWhile fun piece => (Component.ofPiece? piece).isNone) =
      p.body.reverse := by
    rw [hbody, List.reverse_append, List.reverse_singleton, List.singleton_append,
      List.dropWhile_cons_of_neg (by simp [blank_iff hd])]
  rw [parent?_eq, hrising]
  dsimp only
  rw [hrest, List.reverse_reverse, anchor?_of_pieces hpieces hne, ofPieces_body hp]

end Path

namespace Naming

theorem endsInName_foldl_join (digits : List Nat) {dir : Path} (h : dir.EndsInName) :
    (digits.foldl (fun dir digit => dir.join (directoryName digit)) dir).EndsInName := by
  induction digits generalizing dir with
  | nil => exact h
  | cons d rest ih => exact ih (Path.endsInName_join h (isName_directoryName d))

theorem endsInName_shardDirectory (n : Naming) (id : ObjectId) : (n.shardDirectory id).EndsInName :=
  endsInName_foldl_join _ (Path.endsInName_append n.base (by decide) (by decide))

theorem isName_write (n : Nat) : IsName (Numeral.write n) := by
  refine ⟨Numeral.write_ne_nil n, ?_, ?_, Numeral.not_mem_write (by decide)⟩
  · intro h
    exact dot_not_mem_write n (h ▸ List.mem_cons_self)
  · intro h
    exact dot_not_mem_write n (h ▸ List.mem_cons_self)

/-- The file of an object is in the directory that its digits lead to. -/
theorem parent?_stem (n : Naming) {id : ObjectId} (h : id.word % n.fanout ≠ 0) :
    (n.stem id).parent? = some (n.shardDirectory id) := by
  unfold stem
  rw [if_neg h]
  exact Path.parent?_join (n.endsInName_shardDirectory id) (isName_write _)

structure Free {σ : Type} [FileStore σ] [ReliableStore σ] (n : Naming) (id : ObjectId) (s : σ) :
    Prop where
  proper : n.Proper .sharded id
  file_eq_none : ∀ owner, fileAt? s (n.path .sharded owner id).components = none

end Naming

variable {σ : Type} [FileStore σ] [ReliableStore σ] {w w' : World σ}

namespace Allocator

variable {naming : Naming}

/-- A counter stops at an id that is not taken. -/
theorem countFrom_ok {layout : Layout} {counter fuel : Nat} {id : ObjectId}
    (h : countFrom naming layout counter fuel w = .ok id w') :
    ∃ w₁, w₁.store = w.store ∧ isTaken naming layout id w₁ = .ok false w₁ := by
  induction fuel generalizing w with
  | zero => cases h
  | succ fuel ih =>
    obtain ⟨word, w₁, hnext, hsame⟩ : ∃ word w₁, World.nextCount counter w = .ok word w₁ ∧
      w₁.store = w.store := ⟨_, _, rfl, rfl⟩
    obtain ⟨taken, htaken⟩ := isTaken_ok naming layout ⟨word⟩ w₁
    rw [countFrom_succ hnext htaken] at h
    split at h
    · cases h
    cases taken with
    | true =>
      obtain ⟨w₂, hstore, hfree⟩ := ih h
      exact ⟨w₂, hstore.trans hsame, hfree⟩
    | false =>
      cases h
      exact ⟨_, hsame, htaken⟩

/-- A slot of the tree that is not taken is that of an object without a file. -/
theorem free_of_isSlotTaken {id : ObjectId} (h : isSlotTaken naming id w = .ok false w) :
    naming.Free id w.store := by
  have hslot : id.word % naming.fanout ≠ 0 := by
    intro hzero
    unfold isSlotTaken at h
    simp only [hzero, if_true] at h
    cases h
  have hword : id.word ≠ 0 := by
    intro hzero
    rw [hzero, UInt32.zero_mod] at hslot
    exact hslot rfl
  obtain ⟨numbers, hrun, hall⟩ := entryNumbers_ok (naming.shardDirectory id) w
  unfold isSlotTaken at h
  simp only [if_neg hslot, naming.parent?_stem hslot] at h
  rw [Step.bind_ok hrun] at h
  have hfree : (numbers.any fun n => decide (n % naming.fanout = id.word % naming.fanout)) = false := by
    injection h
  refine ⟨⟨hword, fun _ => hslot⟩, fun owner => ?_⟩
  by_contra hfile
  rw [show naming.path .sharded owner id = naming.shardedPath owner id from rfl,
    Naming.components_shardedPath _ _ hslot] at hfile
  -- The name of the file would take up the slot.
  have hmem := hall _ _ (Option.isSome_iff_ne_none.2 hfile)
    (Naming.entryNumber?_fileName owner hword)
  have hany := List.any_eq_false.1 hfree _ hmem
  exact hany (decide_eq_true rfl)

end Allocator

/-- Words are enough for the place that a scan finds. A counter needs no room. -/
def Database.Roomy (db : Database) (w : World σ) : Prop := ∀ maxProbes, db.allocator = .scan maxProbes →
  ∀ dir slot w', Allocator.placeFrom db.naming maxProbes maxProbes.toNat 0 w = .ok (dir, slot) w' →
    dir.toNat + slot < UInt32.size

omit [ReliableStore σ] in
theorem Database.Fits.roomy {db : Database} (h : db.Fits w) : db.Roomy w := by
  intro maxProbes hscan
  unfold Database.Fits at h
  rw [hscan] at h
  exact h

/-- Whatever finds ids in a tree finds free ones. -/
theorem Database.free_of_allocate {db : Database} (hlayout : db.layout = .sharded)
    (hroomy : db.Roomy w) {id : ObjectId} (h : db.allocate w = .ok id w') :
    db.naming.Free id w.store := by
  unfold Database.allocate Allocator.allocate at h
  cases hallocator : db.allocator with
  | scan maxProbes =>
    simp only [hallocator] at h
    obtain ⟨hproper, hfile⟩ := Allocator.scanFrom_ok (hroomy maxProbes hallocator) h
    exact ⟨hproper, hfile⟩
  | counter place =>
    simp only [hallocator, hlayout] at h
    obtain ⟨w₁, hstore, htaken⟩ := Allocator.countFrom_ok h
    rw [← hstore]
    exact Allocator.free_of_isSlotTaken htaken

/-- Where a scan finds the ids there is a tree, for a scan looks at nothing else. -/
def Database.ScansTree (db : Database) : Prop := ∀ maxProbes, db.allocator = .scan maxProbes →
  db.layout = .sharded

/-- The temporary file of an id that is found is not there yet. -/
theorem Database.temp_free_of_allocate {db : Database} (hscans : db.ScansTree) (hroomy : db.Roomy w)
    {id : ObjectId} (h : db.allocate w = .ok id w') :
    fileAt? w.store (db.naming.path db.layout .temp id).components = none := by
  cases hlayout : db.layout with
  | sharded => exact (free_of_allocate hlayout hroomy h).file_eq_none .temp
  | flat =>
    unfold allocate Allocator.allocate at h
    cases hallocator : db.allocator with
    | scan maxProbes =>
      rw [hscans maxProbes hallocator] at hlayout
      cases hlayout
    | counter place =>
      simp only [hallocator, hlayout] at h
      obtain ⟨w₁, hstore, htaken⟩ := Allocator.countFrom_ok h
      have hfree : FileStore.isFile (db.naming.flatPath .temp id) w₁.store = false := by
        injection htaken
      rw [isFile_eq, hstore] at hfree
      exact Option.isSome_eq_false_iff.1 hfree |> Option.isNone_iff_eq_none.1

end LargeObjects

import Mathlib
import LargeObjects.Proofs.Directories
import LargeObjects.Proofs.Effects

/-! What calls keep true of a file system, and that a file that was created is there. -/
namespace LargeObjects.Disk

section Sound

/-- What holds of every file system that comes about by calls: there are the directories in which
paths start, and from a directory one only gets to directories that are there. -/
structure Sound (d : Disk) : Prop where
  two_le : 2 ≤ d.directories.size
  above_lt : ∀ k < d.directories.size, (d.directory k).above < d.directories.size
  entry_lt : ∀ k, ∀ e ∈ (d.directory k).entries.entries, ∀ n,
    e.2 = .directory n → n < d.directories.size

variable {d d' : Disk} {p q : Path} {dir k n : Nat} {name : Name}

theorem sound_default : (default : Disk).Sound := by
  refine ⟨Nat.le_refl 2, fun k hk => ?_, fun k e he => ?_⟩
  · match k, hk with
    | 0, _ => decide
    | 1, _ => decide
  · match k, he with
    | 0, he => cases he
    | 1, he => cases he
    | k + 2, he => cases he

theorem directory_of_eq (hsame : d'.directories = d.directories) (k : Nat) :
    d'.directory k = d.directory k := by
  unfold directory
  rw [hsame]

/-- Contents and writers are of no concern. -/
theorem Sound.of_eq (h : d.Sound) (hsame : d'.directories = d.directories) : d'.Sound := by
  refine ⟨?_, fun k hk => ?_, fun k e he => ?_⟩
  · rw [hsame]
    exact h.two_le
  · rw [hsame] at hk ⊢
    rw [directory_of_eq hsame]
    exact h.above_lt k hk
  · rw [directory_of_eq hsame] at he
    rw [hsame]
    exact h.entry_lt k e he

theorem directory_modifyEntries (d : Disk) (dir : Nat)
    (f : SortedMap Name Entry → SortedMap Name Entry) (k : Nat) :
    (d.modifyEntries dir f).directory k =
      if dir = k ∧ k < d.directories.size then
        { d.directory k with entries := f (d.directory k).entries }
      else d.directory k := by
  unfold modifyEntries directory
  simp only [Array.getD_eq_getD_getElem?, Array.getElem?_modify]
  by_cases hk : k < d.directories.size
  · by_cases hdir : dir = k
    · simp [hdir, hk]
    · simp [hdir]
  · simp [hk]

/-- Entries are put into a directory or taken from it. -/
theorem Sound.modifyEntries (h : d.Sound) {f : SortedMap Name Entry → SortedMap Name Entry}
    (hf : ∀ entries, ∀ e ∈ (f entries).entries, e ∈ entries.entries ∨
      ∀ n, e.2 = .directory n → n < d.directories.size) :
    (d.modifyEntries dir f).Sound := by
  have hsize : (d.modifyEntries dir f).directories.size = d.directories.size := Array.size_modify
  refine ⟨hsize ▸ h.two_le, fun k hk => ?_, fun k e he => ?_⟩
  · rw [hsize] at hk ⊢
    rw [directory_modifyEntries]
    split <;> exact h.above_lt k hk
  · rw [hsize]
    rw [directory_modifyEntries] at he
    split at he
    · rcases hf _ e he with hold | hnew
      · exact h.entry_lt k e hold
      · exact hnew
    · exact h.entry_lt k e he

theorem Sound.setEntry (h : d.Sound) {entry : Entry}
    (hentry : ∀ n, entry = .directory n → n < d.directories.size) :
    (d.setEntry dir name entry).Sound := by
  apply h.modifyEntries
  intro entries e he
  rcases SortedMap.mem_insertEntry he with rfl | hold
  · exact Or.inr hentry
  · exact Or.inl hold

theorem Sound.eraseEntry (h : d.Sound) (dir : Nat) (name : Name) : (d.eraseEntry dir name).Sound := by
  apply h.modifyEntries
  intro entries e he
  exact Or.inl (List.mem_filter.1 he).1

theorem directory_push (d : Disk) (new : Directory) (k : Nat) :
    ({ d with directories := d.directories.push new } : Disk).directory k =
      if k = d.directories.size then new else d.directory k := by
  unfold directory
  simp only [Array.getD_eq_getD_getElem?, Array.getElem?_push]
  split <;> rfl

theorem Sound.push (h : d.Sound) {new : Directory} (habove : new.above < d.directories.size)
    (hempty : new.entries = ∅) : ({ d with directories := d.directories.push new } : Disk).Sound := by
  refine ⟨?_, fun k hk => ?_, fun k e he => ?_⟩
  · rw [Array.size_push]
    exact Nat.le_succ_of_le h.two_le
  · rw [directory_push, Array.size_push]
    rw [Array.size_push] at hk
    split
    · exact Nat.lt_succ_of_lt habove
    next hne =>
      have hold : k < d.directories.size := by omega
      exact Nat.lt_succ_of_lt (h.above_lt k hold)
  · rw [Array.size_push]
    rw [directory_push] at he
    split at he
    · rw [hempty] at he
      cases he
    · intro n hn
      exact Nat.lt_succ_of_lt (h.entry_lt k e he n hn)

theorem Sound.addDirectory (h : d.Sound) (hdir : dir < d.directories.size) (name : Name) :
    (d.addDirectory dir name).Sound := by
  unfold Disk.addDirectory
  -- The entry has the number that was the next to be given.
  apply (h.push hdir rfl).setEntry
  intro n hn
  cases hn
  rw [Array.size_push]
  exact Nat.lt_succ_self _

theorem Sound.child_lt (h : d.Sound) (hchild : d.child dir name = .ok (.directory n)) :
    n < d.directories.size :=
  h.entry_lt dir _ (SortedMap.mem_of_get? (child_eq_ok_iff.1 hchild).2) n rfl

theorem Sound.enter_lt (h : d.Sound) {piece : Name} (hdir : dir < d.directories.size)
    (henter : d.enter dir piece = .ok k) : k < d.directories.size := by
  cases hpiece : Component.ofPiece? piece with
  | none =>
    rw [enter_blank hpiece] at henter
    cases henter
    exact hdir
  | some c =>
    cases c with
    | name name => exact h.child_lt (enter_name_ok hpiece henter)
    | parent | root | current =>
      unfold enter at henter
      rw [hpiece] at henter
      cases henter
      exact h.above_lt dir hdir

/-- Steps lead to directories that are there. -/
theorem Sound.follow_lt (h : d.Sound) {c : Component} (hdir : dir < d.directories.size)
    (hfollow : d.follow dir c = .ok k) : k < d.directories.size := by
  cases c with
  | root | current =>
    cases hfollow
    exact hdir
  | parent =>
    cases hfollow
    exact h.above_lt dir hdir
  | name name => exact h.enter_lt hdir hfollow

theorem Sound.foldlM_follow_lt (h : d.Sound) {steps : List Component} (hdir : dir < d.directories.size)
    (hfollow : steps.foldlM d.follow dir = .ok k) : k < d.directories.size := by
  induction steps generalizing dir with
  | nil =>
    cases hfollow
    exact hdir
  | cons c steps ih =>
    obtain ⟨m, hstep, hrest⟩ := exists_of_bind hfollow
    exact ih (h.follow_lt hdir hstep) hrest

theorem Sound.origin_lt (h : d.Sound) (p : Path) : origin p < d.directories.size := by
  have htwo := h.two_le
  unfold origin
  split <;> omega

/-- The directory that a path leads into is there. -/
theorem Sound.locate (h : d.Sound) {slashed : Bool} (hlocate : d.locate p = .ok (.name dir name slashed)) :
    dir < d.directories.size := by
  obtain ⟨front, -, hfront⟩ := locate_name hlocate
  exact h.foldlM_follow_lt (h.origin_lt p) hfront

end Sound

section Growing

variable {d d' : Disk} {p : Path} {dir n : Nat} {name : Name}

structure Leads (d d' : Disk) : Prop where
  above : ∀ k < d.directories.size, (d'.directory k).above = (d.directory k).above
  directory : ∀ {dir name n}, d.child dir name = .ok (.directory n) →
    d'.child dir name = .ok (.directory n)

theorem Leads.enter (h : Leads d d') {dir k : Nat} {piece : Name} (hdir : dir < d.directories.size)
    (henter : d.enter dir piece = .ok k) : d'.enter dir piece = .ok k := by
  cases hpiece : Component.ofPiece? piece with
  | none =>
    rw [enter_blank hpiece] at henter ⊢
    exact henter
  | some c =>
    cases c with
    | name name =>
      have hchild := h.directory (enter_name_ok hpiece henter)
      unfold Disk.enter
      rw [hpiece]
      exact bind_of_ok hchild
    | parent | root | current =>
      unfold Disk.enter at henter ⊢
      rw [hpiece] at henter ⊢
      cases henter
      exact congrArg Except.ok (h.above dir hdir)

/-- What could be reached before can be reached the same way. -/
theorem Leads.foldlM_enter (h : Leads d d') (hd : d.Sound) {pieces : List Name} {dir k : Nat}
    (hdir : dir < d.directories.size) (hfold : pieces.foldlM d.enter dir = .ok k) :
    pieces.foldlM d'.enter dir = .ok k := by
  induction pieces generalizing dir with
  | nil => exact hfold
  | cons piece pieces ih =>
    obtain ⟨m, hstep, hrest⟩ := exists_of_bind hfold
    rw [List.foldlM_cons, bind_of_ok (h.enter hdir hstep)]
    exact ih (hd.enter_lt hdir hstep) hrest

/-- A path leads where it led before. -/
theorem Leads.locate (h : Leads d d') (hd : d.Sound) {t : Target} (hlocate : d.locate p = .ok t) :
    d'.locate p = .ok t := by
  have hobjection := objection?_of_locate hlocate
  rcases List.eq_nil_or_concat (p.pieces.filter (· ≠ [])) with hnil | ⟨init, last, hpieces⟩
  · rw [locate_nil hobjection hnil] at hlocate ⊢
    exact hlocate
  · rw [List.concat_eq_append] at hpieces
    rw [locate_concat hobjection hpieces] at hlocate ⊢
    obtain ⟨m, hinit, hlast⟩ := exists_of_bind hlocate
    have hsteps := hinit
    rw [Disk.foldlM_enter] at hsteps
    have hm : m < d.directories.size := hd.foldlM_follow_lt (hd.origin_lt p) hsteps
    have htarget : d'.target p last m = d.target p last m := by
      unfold target
      rw [h.above m hm]
    rw [bind_of_ok (h.foldlM_enter hd (hd.origin_lt p) hinit), htarget]
    exact hlast

structure Grows (d d' : Disk) : Prop where
  size_le : d.directories.size ≤ d'.directories.size
  above : ∀ k < d.directories.size, (d'.directory k).above = (d.directory k).above
  child : ∀ {dir name entry}, d.child dir name = .ok entry → d'.child dir name = .ok entry

theorem Grows.refl (d : Disk) : Grows d d := ⟨Nat.le_refl _, fun _ _ => rfl, id⟩

theorem Grows.trans {d'' : Disk} (h : Grows d d') (h' : Grows d' d'') : Grows d d'' :=
  ⟨h.size_le.trans h'.size_le,
    fun k hk => (h'.above k (Nat.lt_of_lt_of_le hk h.size_le)).trans (h.above k hk),
    fun hchild => h'.child (h.child hchild)⟩

theorem Grows.of_eq (hsame : d'.directories = d.directories) : Grows d d' := by
  refine ⟨by rw [hsame], fun k _ => by rw [directory_of_eq hsame], fun h => ?_⟩
  rw [child_eq_ok_iff] at h ⊢
  rwa [directory_of_eq hsame]

theorem get?_setEntry (d : Disk) (dir : Nat) (name : Name) (entry : Entry) (k : Nat) (other : Name) :
    ((d.setEntry dir name entry).directory k).entries.get? other =
      if (dir = k ∧ k < d.directories.size) ∧ name = other then some entry
      else (d.directory k).entries.get? other := by
  unfold setEntry
  rw [directory_modifyEntries]
  by_cases hdir : dir = k ∧ k < d.directories.size
  · rw [if_pos hdir, SortedMap.get?_insert]
    simp only [hdir, true_and]
  · simp only [hdir, false_and, if_false]

theorem size_setEntry (d : Disk) (dir : Nat) (name : Name) (entry : Entry) :
    (d.setEntry dir name entry).directories.size = d.directories.size := Array.size_modify

/-- A new entry takes nothing away. -/
theorem Grows.setEntry (hmissing : (d.directory dir).entries.get? name = none) (entry : Entry) :
    Grows d (d.setEntry dir name entry) := by
  refine ⟨(size_setEntry d dir name entry).ge, fun k _ => ?_, fun {k other found} h => ?_⟩
  · unfold Disk.setEntry
    rw [directory_modifyEntries]
    split <;> rfl
  · rw [child_eq_ok_iff] at h ⊢
    refine ⟨h.1, ?_⟩
    rw [get?_setEntry, if_neg, h.2]
    rintro ⟨⟨rfl, -⟩, rfl⟩
    rw [hmissing] at h
    cases h.2

theorem Grows.push (d : Disk) (new : Directory) :
    Grows d { d with directories := d.directories.push new } := by
  refine ⟨?_, fun k hk => ?_, fun {k other found} hchild => ?_⟩
  · rw [Array.size_push]
    exact Nat.le_succ _
  · rw [directory_push, if_neg (Nat.ne_of_lt hk)]
  · rw [child_eq_ok_iff] at hchild ⊢
    rw [directory_push, if_neg, hchild.2]
    · exact ⟨hchild.1, rfl⟩
    -- Past the last directory there is nothing in the place of one.
    · rintro rfl
      have hroot : d.directory d.directories.size = .root := by
        unfold directory
        rw [Array.getD_eq_getD_getElem?, Array.getElem?_eq_none (Nat.le_refl _)]
        rfl
      rw [hroot] at hchild
      cases hchild.2

/-- A new directory is in the way of nothing. -/
theorem Grows.addDirectory (hdir : dir < d.directories.size)
    (hmissing : (d.directory dir).entries.get? name = none) : Grows d (d.addDirectory dir name) := by
  unfold Disk.addDirectory
  refine (Grows.push d _).trans (.setEntry ?_ _)
  rwa [directory_push, if_neg (Nat.ne_of_lt hdir)]

theorem Grows.leads (h : Grows d d') : Leads d d' := ⟨h.above, h.child⟩

/-- No file is lost where a file system only grows. -/
theorem Grows.isFile (h : Grows d d') (hd : d.Sound) (hfile : d.isFile p = true) :
    d'.isFile p = true := by
  obtain ⟨dir, name, n, hlocate, hchild⟩ := exists_of_isFile hfile
  exact isFile_of_child (h.leads.locate hd hlocate) (h.child hchild)

end Growing

section Calls

open Step

variable {ε α β : Type} {d d' d'' : Disk} {dir n : Nat} {name : Name} {top : Path}

inductive Adds (top : Path) (d : Disk) : Disk → Prop
  | refl : Adds top d d
  | tail {d' : Disk} {dir : Nat} {name : Name} {front rest : List Component} : Adds top d d' →
      top.components = front ++ .name name :: rest → front.foldlM d'.follow (origin top) = .ok dir →
      d'.child dir name = .error .noSuchFile → Adds top d (d'.addDirectory dir name)

/-- What a call changes at a time. Contents and writers come and go; a directory or a file appears
where there was nothing; a file loses its name, or gets another one, maybe that of a file. -/
inductive Change (d : Disk) : Disk → Prop
  | contents {d' : Disk} : d'.directories = d.directories → d'.contents.length = d.contents.length →
      Change d d'
  | directory {dir : Nat} {name : Name} : dir < d.directories.size → IsName name →
      d.child dir name = .error .noSuchFile → Change d (d.addDirectory dir name)
  | file {dir : Nat} {name : Name} : dir < d.directories.size → IsName name →
      d.child dir name = .error .noSuchFile →
      Change d { d.setEntry dir name (.file d.contents.length) with contents := d.contents ++ [[]] }
  | erase {dir n : Nat} {name : Name} : d.child dir name = .ok (.file n) →
      Change d (d.eraseEntry dir name)
  | move {source : PlacedFile} {dir : Nat} {name : Name} :
      d.child source.dir source.name = .ok (.file source.number) → dir < d.directories.size →
      IsName name → (∀ k, (d.directory dir).entries.get? name ≠ some (.directory k)) →
      Change d ((d.eraseEntry source.dir source.name).setEntry dir name (.file source.number))

def Changes : Disk → Disk → Prop := Relation.ReflTransGen Change

theorem Adds.trans (h : Adds top d d') (h' : Adds top d' d'') : Adds top d d'' := by
  induction h' with
  | refl => exact h
  | tail _ hway hdir hmissing ih => exact ih.tail hway hdir hmissing

theorem Sound.change (h : d.Sound) (hchange : Change d d') : d'.Sound := by
  cases hchange with
  | contents hsame _ => exact h.of_eq hsame
  | directory hdir _ _ => exact h.addDirectory hdir _
  | file _ _ _ => exact (h.setEntry fun _ h => Entry.noConfusion h).of_eq rfl
  | erase _ => exact h.eraseEntry _ _
  | move _ _ _ _ => exact (h.eraseEntry _ _).setEntry fun _ h => Entry.noConfusion h

/-- Every call leaves a sound file system. -/
theorem Sound.changes (h : d.Sound) (hchanges : Changes d d') : d'.Sound := by
  induction hchanges with
  | refl => exact h
  | tail _ hchange ih => exact ih.change hchange

theorem isName_of_components {front rest : List Component}
    (h : top.components = front ++ .name name :: rest) : IsName name := by
  refine Path.isName_of_mem_components (p := top) ?_
  rw [h]
  exact List.mem_append_right _ List.mem_cons_self

theorem Adds.changes (h : Adds top d d') (hd : d.Sound) : Changes d d' := by
  induction h with
  | refl => exact .refl
  | tail _ hway hdir hmissing ih =>
    have hlt := (hd.changes ih).foldlM_follow_lt ((hd.changes ih).origin_lt top) hdir
    exact .tail ih (.directory hlt (isName_of_components hway) hmissing)

theorem Grows.adds (h : Adds top d d') (hd : d.Sound) : Grows d d' := by
  induction h with
  | refl => exact .refl d
  | tail hadds _ hdir hmissing ih =>
    have h' := hd.changes (hadds.changes hd)
    exact ih.trans (.addDirectory (h'.foldlM_follow_lt (h'.origin_lt top) hdir)
      (child_eq_missing_iff.1 hmissing).2)

/-- A path ends in a name that can be given. -/
theorem isName_of_locate {p : Path} {slashed : Bool} (h : d.locate p = .ok (.name dir name slashed)) :
    IsName name := by
  obtain ⟨front, hsteps, -⟩ := locate_name h
  exact isName_of_components hsteps

/-- A directory is made on the way of a path that goes on. -/
theorem adds_makeDirectory {path : Path} (hpath : path.components <+: top.components) (d : Disk) :
    Adds top d (after (makeDirectory path) d) := by
  cases hlocate : d.locate path with
  | error e =>
    simp only [after, makeDirectory, hlocate]
    exact .refl
  | ok t =>
    cases t with
    | directory k =>
      simp only [after, makeDirectory, hlocate]
      exact .refl
    | name dir name slashed =>
      cases hchild : d.child dir name with
      | ok entry =>
        simp only [after, makeDirectory, hlocate, hchild]
        exact .refl
      | error e =>
        simp only [after, makeDirectory, hlocate, hchild]
        cases e with
        | noSuchFile =>
          obtain ⟨front, hsteps, hfront⟩ := locate_name hlocate
          obtain ⟨rest, hrest⟩ := hpath
          rw [hsteps, List.append_assoc] at hrest
          have horigin : origin path = origin top := by
            rw [origin_eq, origin_eq, hsteps, ← hrest]
            cases front <;> rfl
          exact Adds.refl.tail hrest.symm (horigin ▸ hfront) hchild
        | _ => exact .refl

/-- Making a directory with those above it adds empty directories, and only on the way to it. -/
theorem adds_makeDirectories (fuel : Nat) {path : Path} (hpath : path.components <+: top.components)
    (d : Disk) : Adds top d (after (makeDirectories fuel path) d) := by
  induction fuel generalizing path d with
  | zero => exact .refl
  | succ fuel ih =>
    have hmade := adds_makeDirectory hpath d
    unfold after makeDirectories
    by_cases hne : path.spelling = []
    · simp only [if_pos hne]
      exact .refl
    simp only [if_neg hne]
    cases hmake : makeDirectory path d with
    | ok _ d₁ =>
      rw [after_ok hmake] at hmade
      exact hmade
    | error e d₁ =>
      rw [after_error hmake] at hmade
      -- Where something above is missing, that is made first. Other errors may not matter.
      cases e with
      | noSuchFile =>
        dsimp only
        cases hparent : path.parent? with
        | none => exact hmade
        | some above =>
          have hshort : above.components <+: path.components := by
            rw [Path.components_of_parent? hparent]
            exact List.dropLast_prefix _
          have habove := ih (hshort.trans hpath) d₁
          dsimp only
          cases hrest : makeDirectories fuel above d₁ with
          | error e d₂ =>
            rw [after_error hrest] at habove
            exact hmade.trans habove
          | ok _ d₂ =>
            rw [after_ok hrest] at habove
            have hagain := adds_makeDirectory hpath d₂
            dsimp only
            cases hlast : makeDirectory path d₂ with
            | ok _ d₃ =>
              rw [after_ok hlast] at hagain
              exact hmade.trans (habove.trans hagain)
            | error e d₃ =>
              rw [after_error hlast] at hagain
              dsimp only
              cases d₃.isDirectory path <;> exact hmade.trans (habove.trans hagain)
      | _ =>
        dsimp only
        cases d₁.isDirectory path <;> exact hmade

theorem adds_makeParents {path : Path} (htop : path.components.dropLast <+: top.components) (d : Disk) :
    Adds top d (after (makeParents path) d) := by
  unfold makeParents
  cases hparent : path.parent? with
  | none => exact .refl
  | some above =>
    rw [← Path.components_of_parent? hparent] at htop
    exact adds_makeDirectories _ htop d

/-- Parents are made before something is done with a path. -/
theorem changes_makeParents_bind (h : d.Sound) (path : Path) {rest : Step SystemError Disk β}
    (hrest : ∀ d', Adds path d d' → d'.Sound → Changes d' (after rest d')) :
    Changes d (after (makeParents path >>= fun _ => rest) d) := by
  have hadds := adds_makeParents (List.dropLast_prefix path.components) d
  cases hmake : makeParents path d with
  | error e d₁ =>
    rw [after_error hmake] at hadds
    rw [after_error (bind_error hmake)]
    exact hadds.changes h
  | ok _ d₁ =>
    rw [after_ok hmake] at hadds
    rw [after_congr (bind_ok hmake)]
    exact (hadds.changes h).trans (hrest d₁ hadds (h.changes (hadds.changes h)))

/-- Opening a file empties the one that is there, or makes one where there is none, or fails. -/
theorem openEmpty_cases (path : Path) (d : Disk) : (∃ e, openEmpty path d = .error e d) ∨
    ∃ dir name, d.locate path = .ok (.name dir name false) ∧
      ((∃ n, d.child dir name = .ok (.file n) ∧
          openEmpty path d = .ok n { d with contents := d.contents.set n [] }) ∨
        d.child dir name = .error .noSuchFile ∧ openEmpty path d = .ok d.contents.length
          { d.setEntry dir name (.file d.contents.length) with contents := d.contents ++ [[]] }) := by
  unfold openEmpty
  rcases hlocate : d.locate path with e | k | ⟨dir, name, _ | _⟩
  · exact Or.inl ⟨e, rfl⟩
  · exact Or.inl ⟨.isDirectory, rfl⟩
  · dsimp only
    rw [if_neg Bool.false_ne_true]
    rcases hchild : d.child dir name with e | n | n
    · by_cases he : e = .noSuchFile
      · subst he
        exact Or.inr ⟨dir, name, rfl, Or.inr ⟨hchild, rfl⟩⟩
      · exact Or.inl ⟨e, by cases e <;> first | rfl | exact absurd rfl he⟩
    · exact Or.inl ⟨.isDirectory, rfl⟩
    · exact Or.inr ⟨dir, name, rfl, Or.inl ⟨n, hchild, rfl⟩⟩
  · exact Or.inl ⟨.isDirectory, rfl⟩

/-- Opening a file empties its content or adds a file without any. -/
theorem changes_openEmpty (h : d.Sound) (path : Path) : Changes d (after (openEmpty path) d) := by
  rcases openEmpty_cases path d with ⟨e, hrun⟩ | ⟨dir, name, hlocate, ⟨n, hchild, hrun⟩ | ⟨hmissing, hrun⟩⟩
  · rw [after_error hrun]
    exact .refl
  · rw [after_ok hrun]
    exact .single (.contents rfl List.length_set)
  · rw [after_ok hrun]
    exact .single (.file (h.locate hlocate) (isName_of_locate hlocate) hmissing)

/-- Emptying or making a file comes before something that concerns contents and writers only. -/
theorem changes_openEmpty_bind (h : d.Sound) (path : Path) {rest : Nat → Step SystemError Disk β}
    (hrest : ∀ n d', (after (rest n) d').directories = d'.directories ∧
      (after (rest n) d').contents.length = d'.contents.length) :
    Changes d (after (openEmpty path >>= rest) d) := by
  have hopened := changes_openEmpty h path
  cases hopen : openEmpty path d with
  | error e d₁ =>
    rw [after_error hopen] at hopened
    rw [after_error (bind_error hopen)]
    exact hopened
  | ok n d₁ =>
    rw [after_ok hopen] at hopened
    rw [after_congr (bind_ok hopen)]
    exact hopened.tail (.contents (hrest n d₁).1 (hrest n d₁).2)

/-- A file loses its name, or nothing happens. -/
theorem unlink_cases (path : Path) (d : Disk) : (∃ e, unlink path d = .error e d) ∨
    ∃ dir name n, d.locate path = .ok (.name dir name false) ∧ d.child dir name = .ok (.file n) ∧
      unlink path d = .ok () (d.eraseEntry dir name) := by
  unfold unlink
  rcases hlocate : d.locate path with e | k | ⟨dir, name, slashed⟩
  · exact Or.inl ⟨e, rfl⟩
  · exact Or.inl ⟨.isDirectory, rfl⟩
  dsimp only
  rcases hchild : d.child dir name with e | n | n
  · exact Or.inl ⟨e, rfl⟩
  · exact Or.inl ⟨.isDirectory, rfl⟩
  · cases slashed with
    | true => exact Or.inl ⟨.notDirectory, rfl⟩
    | false => exact Or.inr ⟨dir, name, n, rfl, hchild, rfl⟩

theorem changes_unlink (d : Disk) (path : Path) : Changes d (after (unlink path) d) := by
  rcases unlink_cases path d with ⟨e, hrun⟩ | ⟨dir, name, n, -, hchild, hrun⟩
  · rw [after_error hrun]
    exact .refl
  · rw [after_ok hrun]
    exact .single (.erase hchild)

/-- A file gets the name that a path leads to, or nothing happens. A file that has the name already
stays where it is. -/
theorem moveFile_cases (source : PlacedFile) (path : Path) (d : Disk) :
    (∃ e, moveFile source path d = .error e d) ∨
    ∃ dir name, d.locate path = .ok (.name dir name false) ∧
      (∀ k, (d.directory dir).entries.get? name ≠ some (.directory k)) ∧
      moveFile source path d = .ok () (if dir = source.dir ∧ name = source.name then d
        else (d.eraseEntry source.dir source.name).setEntry dir name (.file source.number)) := by
  unfold moveFile
  rcases hlocate : d.locate path with e | k | ⟨dir, name, slashed⟩
  · exact Or.inl ⟨e, rfl⟩
  · exact Or.inl ⟨.busy, rfl⟩
  dsimp only
  by_cases hlong : d.child dir name = .error .nameTooLong
  · rw [hlong]
    exact Or.inl ⟨.nameTooLong, rfl⟩
  by_cases hdirectory : ∃ n, d.child dir name = .ok (.directory n)
  · obtain ⟨n, hchild⟩ := hdirectory
    rw [hchild]
    cases slashed with
    | true => exact Or.inl ⟨.notDirectory, rfl⟩
    | false => exact Or.inl ⟨_, rfl⟩
  cases slashed with
  | true =>
    refine Or.inl ⟨.notDirectory, ?_⟩
    split
    next h => exact absurd h hlong
    next => rfl
  | false =>
    refine Or.inr ⟨dir, name, rfl, fun k hk => ?_, ?_⟩
    · -- A name that is too long was found out before.
      unfold child at hlong hdirectory
      split at hlong
      · exact hlong rfl
      next hshort =>
        rw [if_neg hshort, hk] at hdirectory
        exact hdirectory ⟨k, rfl⟩
    · split
      next h => exact absurd h hlong
      next =>
        rw [if_neg Bool.false_ne_true]
        split
        next n h => exact absurd ⟨n, h⟩ hdirectory
        next => split <;> rfl

/-- A move gives one name what another one stood for. -/
theorem changes_moveFile (h : d.Sound) {source : PlacedFile}
    (hsource : d.child source.dir source.name = .ok (.file source.number)) (path : Path) :
    Changes d (after (moveFile source path) d) := by
  rcases moveFile_cases source path d with ⟨e, hrun⟩ | ⟨dir, name, hlocate, hplain, hrun⟩
  · rw [after_error hrun]
    exact .refl
  · rw [after_ok hrun]
    split
    · exact .refl
    · exact .single (.move hsource (h.locate hlocate) (isName_of_locate hlocate) hplain)

end Calls

instance : QuietStore Disk where
  openRead_keeps path d := by
    simp only [Step.after, FileStore.openRead]
    cases d.status path <;> rfl
  read_keeps limit t := by
    obtain ⟨r, d⟩ := t
    simp only [Step.after, FileStore.read]
    split_ifs <;> rfl
  list_keeps dir d := by
    simp only [Step.after, FileStore.list]
    cases d.status dir with
    | ok entry => cases entry <;> rfl
    | error e => cases e <;> rfl

section Requests

open Step

variable {α : Type} {d d' : Disk}

theorem after_refuse (act : Step SystemError Disk α) (d : Disk) :
    after (refuse act) d = after act d := by
  unfold refuse after EStateM.adaptExcept
  cases act d <;> rfl

theorem writeThrough_directories (d : Disk) (writer : Nat) (bytes : Bytes) :
    (d.writeThrough writer bytes).directories = d.directories ∧
      (d.writeThrough writer bytes).contents.length = d.contents.length := by
  unfold writeThrough
  split
  · exact ⟨rfl, rfl⟩
  · exact ⟨rfl, List.length_set⟩

theorem flushHeld_directories (d : Disk) (writer : Nat) :
    (d.flushHeld writer).directories = d.directories ∧
      (d.flushHeld writer).contents.length = d.contents.length := by
  unfold flushHeld
  dsimp only
  split
  · exact ⟨rfl, rfl⟩
  · exact writeThrough_directories d writer _

/-- Writing concerns contents, and names and directories stay. -/
theorem writeBuffered_directories (d : Disk) (writer : Nat) (bytes : Bytes) :
    (d.writeBuffered writer bytes).directories = d.directories ∧
      (d.writeBuffered writer bytes).contents.length = d.contents.length := by
  have hflushed (pushed : Prop) [Decidable pushed] :
      (if pushed then d.flushHeld writer else d).directories = d.directories ∧
        (if pushed then d.flushHeld writer else d).contents.length = d.contents.length := by
    split
    · exact flushHeld_directories d writer
    · exact ⟨rfl, rfl⟩
  unfold writeBuffered
  dsimp only
  split
  · exact hflushed _
  · obtain ⟨hsame, hlength⟩ := hflushed (bufferSize - (d.heldBy writer).length < bytes.length)
    obtain ⟨hsame', hlength'⟩ := writeThrough_directories
      (if bufferSize - (d.heldBy writer).length < bytes.length then d.flushHeld writer else d) writer bytes
    exact ⟨hsame'.trans hsame, hlength'.trans hlength⟩

theorem child_of_file? {path : Path} {file : PlacedFile} (h : d.file? path = some file) :
    d.child file.dir file.name = .ok (.file file.number) := by
  unfold file? at h
  split at h
  next dir name _ =>
    split at h
    next number hchild =>
      cases h
      exact hchild
    next => cases h
  next => cases h

theorem changes_withFile {path : Path} {act : PlacedFile → Step SystemError Disk α}
    (h : ∀ file : PlacedFile, d.child file.dir file.name = .ok (.file file.number) →
      Changes d (after (act file) d)) : Changes d (after (withFile path act) d) := by
  unfold after withFile
  cases hfile : d.file? path with
  | none => exact .refl
  | some file =>
    have hchanges := h file (child_of_file? hfile)
    rw [← after_refuse] at hchanges
    exact hchanges

/-- Every call changes a file system step by step. -/
theorem Sound.changes_run (h : d.Sound) (r : Request Disk) : Changes d (r.run d) := by
  cases r with
  | create path =>
    simp only [Request.run, FileStore.create, after_refuse]
    refine changes_makeParents_bind h path fun d' _ h' => ?_
    exact changes_openEmpty_bind h' path fun _ _ => ⟨rfl, rfl⟩
  | write w bytes =>
    exact .single (.contents (writeBuffered_directories d w bytes).1
      (writeBuffered_directories d w bytes).2)
  | flush w => exact .single (.contents (flushHeld_directories d w).1 (flushHeld_directories d w).2)
  | close w => exact .single (.contents (flushHeld_directories d w).1 (flushHeld_directories d w).2)
  | openRead path =>
    rw [show (Request.openRead path).run d = d from QuietStore.openRead_keeps path d]
    exact .refl
  | read r limit =>
    rw [show (Request.read r limit).run d = d from QuietStore.read_keeps limit (r, d)]
    exact .refl
  | delete path =>
    have hunlink := changes_unlink d path
    simp only [Request.run, after, FileStore.delete]
    cases hdelete : unlink path d with
    | ok _ d' => exact after_ok hdelete ▸ hunlink
    | error e d' =>
      rw [after_error hdelete] at hunlink
      cases e <;> exact hunlink
  | rename source target =>
    refine changes_withFile fun file hfile => ?_
    refine changes_makeParents_bind h target fun d' hadds h' => ?_
    exact changes_moveFile h' ((Grows.adds hadds h).child hfile) target
  | copy source target =>
    refine changes_withFile fun file hfile => ?_
    refine changes_makeParents_bind h target fun d' _ h' => ?_
    exact changes_openEmpty_bind h' target fun _ _ => ⟨rfl, List.length_set⟩
  | list dir =>
    rw [show (Request.list dir).run d = d from QuietStore.list_keeps dir d]
    exact .refl

theorem Sound.later_changes (h : d.Sound) (hlater : FallibleStore.Later d d') : Changes d d' := by
  induction hlater with
  | refl => exact .refl
  | tail _ hrun ih =>
    obtain ⟨r, rfl⟩ := hrun
    exact ih.trans ((h.changes ih).changes_run r)

/-- Every file system that calls make of an empty one is sound. -/
theorem Sound.later (h : d.Sound) (hlater : FallibleStore.Later d d') : d'.Sound :=
  h.changes (h.later_changes hlater)

end Requests

section Created

variable {d d' : Disk} {p : Path} {dir n : Nat} {name : Name}

/-- A file that was opened to be written is there. -/
theorem isFile_of_openEmpty (h : d.Sound) (hopen : openEmpty p d = .ok n d') : d'.isFile p = true := by
  rcases openEmpty_cases p d with ⟨e, hrun⟩ | ⟨dir, name, hlocate, ⟨m, hchild, hrun⟩ | ⟨hmissing, hrun⟩⟩
  · rw [hrun] at hopen
    cases hopen
  · rw [hrun] at hopen
    cases hopen
    have hgrows : Grows d { d with contents := d.contents.set n [] } := .of_eq rfl
    exact isFile_of_child (hgrows.leads.locate h hlocate) (hgrows.child hchild)
  · rw [hrun] at hopen
    cases hopen
    -- The new entry can be read because its directory is there and its name is not too long.
    obtain ⟨hlength, hnone⟩ := child_eq_missing_iff.1 hmissing
    have hgrows := Grows.setEntry hnone (.file d.contents.length)
    have hnew : (d.setEntry dir name (.file d.contents.length)).child dir name =
        .ok (.file d.contents.length) := by
      rw [child_eq_ok_iff, get?_setEntry, if_pos ⟨⟨rfl, h.locate hlocate⟩, rfl⟩]
      exact ⟨hlength, rfl⟩
    exact isFile_of_child (hgrows.leads.locate h hlocate) hnew

theorem refuse_eq_ok {α : Type} {act : Step SystemError Disk α} {a : α}
    (h : refuse act d = .ok a d') : act d = .ok a d' := by
  unfold refuse EStateM.adaptExcept at h
  cases hact : act d with
  | ok b d₁ =>
    rw [hact] at h
    cases h
    rfl
  | error e d₁ =>
    rw [hact] at h
    cases h

/-- A file that was created is there. -/
theorem isFile_of_create {writer : Nat} (h : d.Sound)
    (hcreate : FileStore.create p d = .ok writer d') : d'.isFile p = true := by
  obtain ⟨_, d₁, hparents, hrest⟩ := Step.bind_eq_ok (refuse_eq_ok hcreate)
  obtain ⟨n, d₂, hopen, hwriter⟩ := Step.bind_eq_ok hrest
  have hd₁ := h.changes ((adds_makeParents (List.dropLast_prefix p.components) d).changes h)
  rw [Step.after_ok hparents] at hd₁
  cases hwriter
  have hgrows : Grows d₂ { d₂ with writers := d₂.writers ++ [{ number := n }] } := .of_eq rfl
  have hd₂ := hd₁.changes (changes_openEmpty hd₁ p)
  rw [Step.after_ok hopen] at hd₂
  exact hgrows.isFile hd₂ (isFile_of_openEmpty hd₁ hopen)

end Created

end LargeObjects.Disk

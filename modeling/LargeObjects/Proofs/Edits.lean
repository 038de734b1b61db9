import Mathlib
import LargeObjects.Proofs.Paving

/-! What calls on a file system do at a path to a file of a ground. No call fails there but for a file
that is missing, and none touches another file. -/
namespace LargeObjects

namespace Disk

variable {d d' : Disk} {names : List Name} {t : Name} {k j n m : Nat}

theorem refuse_ok {α : Type} {act : Step SystemError Disk α} {a : α} (h : act d = .ok a d') :
    refuse act d = .ok a d' := by
  unfold refuse EStateM.adaptExcept
  rw [h]

theorem content_set (hn : n < d.contents.length) (bytes : Bytes) (m : Nat) :
    (d.contents.set n bytes).getD m [] = if m = n then bytes else d.content m := by
  unfold content
  rw [List.getD_eq_getElem?_getD, List.getElem?_set]
  by_cases hm : n = m
  · rw [if_pos hm, if_pos hn, if_pos hm.symm]
    rfl
  · rw [if_neg hm, if_neg fun h => hm h.symm]
    rfl

/-- Where the same directories are entered, the same way leads. -/
theorem descend_of_directories
    (hdirs : ∀ {k t n}, (d.directory k).entries.get? t = some (.directory n) →
      (d'.directory k).entries.get? t = some (.directory n))
    (hnames : ∀ t ∈ names, IsName t) (hj : d.descend k names = .ok j) : d'.descend k names = .ok j := by
  induction names using List.reverseRecOn generalizing j with
  | nil => exact hj
  | append_singleton init t ih =>
    have ht := hnames t (List.mem_append_right _ List.mem_cons_self)
    obtain ⟨i, hi, hchild⟩ := exists_of_descend_concat ht hj
    obtain ⟨hshort, hget⟩ := child_eq_ok_iff.1 hchild
    rw [descend_concat_ok (ih (fun u hu => hnames u (List.mem_append_left _ hu)) hi)]
    exact enter_of_directory ht (child_eq_ok_iff.2 ⟨hshort, hdirs hget⟩)

end Disk

namespace Ground

open Disk

variable {g : Ground} {d d' d'' : Disk} {p q : Path} {names names' init : List Name} {t : Name}
  {k n : Nat} {number number' : Option Nat}

theorem countP_place (g : Ground) (names : List Name) :
    (g.place names).countP (fun c => c matches .name _) = names.length := by
  have hanchor : g.anchor.toList.countP (fun c => c matches .name _) = 0 := by
    rcases g.anchored with h | h | h <;> rw [h] <;> rfl
  unfold place
  rw [List.countP_append, hanchor, Nat.zero_add, List.countP_map, List.countP_eq_length.2]
  exact fun _ _ => rfl

theorem length_le_pieces (hp : p.components = g.place names) : names.length ≤ p.pieces.length := by
  have hanchor : p.anchor?.toList.countP (fun c => c matches .name _) = 0 := by
    rcases p.anchor?_cases with h | h | ⟨h, -⟩ <;> rw [h] <;> rfl
  rw [← g.countP_place names, ← hp]
  unfold Path.components
  rw [List.countP_append, hanchor, Nat.zero_add]
  exact List.countP_le_length.trans (List.length_filterMap_le _ _)

theorem Houses.makeParents_ok (h : g.Houses d) (hway : g.Way init) (hp : g.Spells p (init ++ [t])) :
    ∃ d', makeParents p d = .ok () d' ∧ g.Paved init d d' := by
  obtain ⟨above, habove, hends⟩ := Path.parent?_of_endsInName hp.ends
    (hp.components_eq ▸ g.parent_not_mem_place _)
  have hsteps := Spells.of_prefix hp.components_eq habove
  have hobjection := objection?_of_prefix (Path.parent?_prefix habove) hp.objection
  unfold makeParents
  rw [habove]
  exact h.makeDirectories_ok hsteps (hends.imp_right And.left) hobjection hway
    (Nat.lt_succ_of_le (length_le_pieces hsteps))

structure Edited (g : Ground) (names : List Name) (number : Option Nat) (d d' : Disk) : Prop where
  houses : g.Houses d'
  here : d'.numberAt? g.start names = number
  elsewhere {names' : List Name} : g.Seat names' → names' ≠ names →
    d'.numberAt? g.start names' = d.numberAt? g.start names'

theorem Paved.then_edited (h : g.Paved init d d') (h' : g.Edited names number d' d'') :
    g.Edited names number d d'' :=
  ⟨h'.houses, h'.here, fun hseat hne => (h'.elsewhere hseat hne).trans (h.number_eq hseat)⟩

theorem Edited.contents (h : g.Edited names number d d') (hsame : d''.directories = d'.directories)
    (hlength : d'.contents.length ≤ d''.contents.length) : g.Edited names number d d'' := by
  have hnumber := numberAt?_congr hsame
  refine ⟨h.houses.contents hsame hlength, ?_, fun hseat hne => ?_⟩
  · rw [hnumber]
    exact h.here
  · rw [hnumber]
    exact h.elsewhere hseat hne

/-- No directory has the name of a file. -/
theorem Houses.not_directory (h : g.Houses d) (hseat : g.Seat (init ++ [t]))
    (hk : d.descend g.start init = .ok k) (m : Nat) :
    (d.directory k).entries.get? t ≠ some (.directory m) := by
  intro hdirectory
  have hshort := (hseat.usable t (List.mem_append_right _ List.mem_cons_self)).short
  have hchild := child_eq_ok_iff.2 ⟨hshort, hdirectory⟩
  rcases h.child_seat hseat hk with hfree | ⟨m', hfile⟩
  · cases hfree.symm.trans hchild
  · cases hfile.symm.trans hchild

/-- A change of the one entry that a path to a file leads to. -/
theorem Houses.edited (h : g.Houses d) (hseat : g.Seat (init ++ [t]))
    (hk : d.descend g.start init = .ok k) (htree : d'.Tree)
    (hget : ∀ k' t', (d'.directory k').entries.get? t' =
      if (k = k' ∧ k' < d.directories.size) ∧ t = t' then number.map .file
      else (d.directory k').entries.get? t') :
    g.Edited (init ++ [t]) number d d' := by
  have hsize := h.tree.sound.foldlM_follow_lt (g.start_lt h.tree.sound) hk
  have ht := hseat.usable t (List.mem_append_right _ List.mem_cons_self)
  have hinit : ∀ u ∈ init, IsName u := (hseat.way (List.cons_ne_nil _ _)).isName
  -- The directories are those that were there before.
  have hdirs : ∀ {k' t' m}, (d'.directory k').entries.get? t' = some (.directory m) ↔
      (d.directory k').entries.get? t' = some (.directory m) := by
    intro k' t' m
    rw [hget]
    split
    next hsame =>
      obtain ⟨⟨rfl, -⟩, rfl⟩ := hsame
      refine ⟨fun hnew => ?_, fun hold => absurd hold (h.not_directory hseat hk m)⟩
      obtain ⟨_, -, hfile⟩ := Option.map_eq_some_iff.1 hnew
      cases hfile
    next => exact Iff.rfl
  have hdown : ∀ {names j}, (∀ u ∈ names, IsName u) →
      (d'.descend g.start names = .ok j ↔ d.descend g.start names = .ok j) := fun hnames =>
    ⟨descend_of_directories (fun h => hdirs.1 h) hnames, descend_of_directories (fun h => hdirs.2 h) hnames⟩
  have hchild : ∀ m, d'.child k t = .ok (.file m) ↔ number = some m := by
    intro m
    rw [child_eq_ok_iff, hget, if_pos ⟨⟨rfl, hsize⟩, rfl⟩]
    simp [ht.short]
  refine ⟨⟨htree, fun {k' t' e} hentry => ?_⟩, ?_, fun {names'} hseat' hne => ?_⟩
  · rw [hget] at hentry
    split at hentry
    next hsame =>
      obtain ⟨⟨rfl, -⟩, rfl⟩ := hsame
      obtain ⟨m, -, rfl⟩ := Option.map_eq_some_iff.1 hentry
      exact ⟨init, (hdown hinit).2 hk, hseat⟩
    next =>
      obtain ⟨names', hnames', he⟩ := h.entry hentry
      refine ⟨names', (hdown ?_).2 hnames', he⟩
      cases e with
      | directory m => exact he.before.isName
      | file m => exact (he.way (List.cons_ne_nil _ _)).isName
  · apply Option.ext
    intro m
    rw [numberAt?_concat_ok ((hdown hinit).2 hk), hchild]
  · obtain ⟨init', t', rfl, hway'⟩ := hseat'.exists_concat
    have hinit' : ∀ u ∈ init', IsName u := hway'.isName
    have hother : ∀ {j m}, d.descend g.start init' = .ok j →
        (d'.child j t' = .ok (.file m) ↔ d.child j t' = .ok (.file m)) := by
      intro j m hj
      rw [child_eq_ok_iff, child_eq_ok_iff, hget, if_neg]
      rintro ⟨⟨rfl, -⟩, rfl⟩
      exact hne (by rw [h.names_unique hinit' hinit hj hk])
    apply Option.ext
    intro m
    constructor
    · intro hm
      obtain ⟨j, hj, hfile⟩ := exists_of_numberAt? hm
      have hj' := (hdown hinit').1 hj
      exact (numberAt?_concat_ok hj').2 ((hother hj').1 hfile)
    · intro hm
      obtain ⟨j, hj, hfile⟩ := exists_of_numberAt? hm
      exact (numberAt?_concat_ok ((hdown hinit').2 hj)).2 ((hother hj).2 hfile)

theorem Houses.edited_refl (h : g.Houses d) (hnumber : d.numberAt? g.start names = number) :
    g.Edited names number d d := ⟨h, hnumber, fun _ _ => rfl⟩

theorem Houses.erase (h : g.Houses d) (hseat : g.Seat (init ++ [t]))
    (hk : d.descend g.start init = .ok k) : g.Edited (init ++ [t]) none d (d.eraseEntry k t) :=
  h.edited hseat hk (h.tree.eraseEntry k t) fun k' t' => get?_eraseEntry d k t k' t'

/-- A name comes to stand for a content that no name stands for. -/
theorem Houses.put (h : g.Houses d) (hseat : g.Seat (init ++ [t]))
    (hk : d.descend g.start init = .ok k) (hn : n < d.contents.length)
    (hfree : ∀ k other, (d.directory k).entries.get? other ≠ some (.file n)) :
    g.Edited (init ++ [t]) (some n) d (d.setEntry k t (.file n)) := by
  have ht := hseat.isName t (List.mem_append_right _ List.mem_cons_self)
  exact h.edited hseat hk (h.tree.setFile ht hn hfree) fun k' t' => get?_setEntry d k t _ k' t'

structure Opened (g : Ground) (names : List Name) (n : Nat) (d d' : Disk) : Prop where
  edited : g.Edited names (some n) d d'
  number_eq : n = (d.numberAt? g.start names).getD d.contents.length
  content_self : d'.content n = []
  content_ne {m : Nat} : m < d.contents.length → m ≠ n → d'.content m = d.content m

theorem Houses.openEmpty_ok (h : g.Houses d) (hseat : g.Seat names) (hp : g.Spells p names)
    (hthere : d.locate p ≠ .error .noSuchFile) :
    ∃ n d', openEmpty p d = .ok n d' ∧ g.Opened names n d d' ∧ d'.writers = d.writers := by
  cases h.site hseat hp with
  | cut hlocate => exact absurd hlocate hthere
  | @free init k t hnames hk hlocate hchild hnumber =>
    subst hnames
    have hmore : g.Houses { d with contents := d.contents ++ [[]] } :=
      h.contents rfl (by rw [List.length_append]; exact Nat.le_add_right _ _)
    have hput := hmore.put (n := d.contents.length) hseat hk
      (by rw [List.length_append]; exact Nat.lt_succ_self _)
      fun k other hget => absurd (h.tree.content_lt hget) (Nat.lt_irrefl _)
    refine ⟨d.contents.length,
      { d.setEntry k t (.file d.contents.length) with contents := d.contents ++ [[]] }, ?_,
      ⟨?_, by rw [hnumber]; rfl, ?_, fun hm hne => ?_⟩, rfl⟩
    · simp only [openEmpty, hlocate, hchild, Bool.false_eq_true, if_false]
    · exact ⟨hput.houses, hput.here, hput.elsewhere⟩
    · simp [content]
    · simp [content, List.getElem?_append_left hm]
  | @taken init k n t hnames hk hlocate hchild hnumber =>
    have hn := h.number_lt hnumber
    have hedited : g.Edited names (some n) d { d with contents := d.contents.set n [] } :=
      (h.edited_refl hnumber).contents rfl List.length_set.ge
    refine ⟨n, _, ?_, ⟨hedited, by rw [hnumber]; rfl, ?_, fun hm hne => ?_⟩, rfl⟩
    · simp only [openEmpty, hlocate, hchild, Bool.false_eq_true, if_false]
    · exact (content_set hn [] n).trans (if_pos rfl)
    · exact (content_set hn [] _).trans (if_neg hne)

theorem content_of_eq (h : d'.contents = d.contents) (n : Nat) : d'.content n = d.content n := by
  unfold content
  rw [h]

/-- Where the directories on the way are made, they are found. -/
theorem Paved.locate_ne (h : g.Paved init d d') (hp : g.Spells p (init ++ [t])) :
    d'.locate p ≠ .error .noSuchFile := by
  obtain ⟨k, hk⟩ := h.reached
  rw [locate_of_spells hp, bind_of_ok hk]
  exact nofun

theorem Paved.then_opened (hseat : g.Seat names) (h : g.Paved init d d')
    (h' : g.Opened names n d' d'') : g.Opened names n d d'' where
  edited := h.then_edited h'.edited
  number_eq := by
    rw [h'.number_eq, h.number_eq hseat, h.contents_eq]
  content_self := h'.content_self
  content_ne {m} hm hne := by
    rw [h'.content_ne (by rwa [h.contents_eq]) hne, content_of_eq h.contents_eq]

/-- What follows once the directories on the way are made and the file is open. -/
theorem Houses.openParents_ok (h : g.Houses d) (hseat : g.Seat names) (hp : g.Spells p names) :
    ∃ d₁ n d', makeParents p d = .ok () d₁ ∧ openEmpty p d₁ = .ok n d' ∧ g.Opened names n d d' ∧
      d'.writers = d.writers := by
  obtain ⟨init, t, rfl, hway⟩ := hseat.exists_concat
  obtain ⟨d₁, hmade, hpaved⟩ := h.makeParents_ok hway hp
  obtain ⟨n, d', hopen, hopened, hwriters⟩ := hpaved.houses.openEmpty_ok hseat hp (hpaved.locate_ne hp)
  exact ⟨d₁, n, d', hmade, hopen, hpaved.then_opened hseat hopened, hwriters.trans hpaved.writers_eq⟩

theorem Houses.create_ok (h : g.Houses d) (hseat : g.Seat names) (hp : g.Spells p names) :
    ∃ n d', FileStore.create p d = .ok d.writers.length d' ∧ g.Opened names n d d' ∧
      d'.writers = d.writers ++ [{ number := n }] := by
  obtain ⟨d₁, n, d', hmade, hopen, hopened, hwriters⟩ := h.openParents_ok hseat hp
  refine ⟨n, { d' with writers := d'.writers ++ [{ number := n }] }, ?_,
    ⟨hopened.edited.contents rfl (Nat.le_refl _), hopened.number_eq, hopened.content_self,
      hopened.content_ne⟩, by rw [hwriters]⟩
  refine refuse_ok ((Step.bind_ok hmade).trans ((Step.bind_ok hopen).trans ?_))
  rw [← hwriters]

theorem Houses.delete_ok (h : g.Houses d) (hseat : g.Seat names) (hp : g.Spells p names) :
    ∃ d', FileStore.delete p d = .ok (d.numberAt? g.start names).isSome d' ∧
      g.Edited names none d d' ∧ d'.contents = d.contents ∧ d'.writers = d.writers := by
  cases h.site hseat hp with
  | cut hlocate hnumber =>
    refine ⟨d, ?_, h.edited_refl hnumber, rfl, rfl⟩
    simp only [FileStore.delete, unlink, hlocate, hnumber]
    rfl
  | free hnames hk hlocate hchild hnumber =>
    refine ⟨d, ?_, h.edited_refl hnumber, rfl, rfl⟩
    simp only [FileStore.delete, unlink, hlocate, hchild, hnumber]
    rfl
  | @taken init k n t hnames hk hlocate hchild hnumber =>
    subst hnames
    refine ⟨d.eraseEntry k t, ?_, h.erase hseat hk, rfl, rfl⟩
    simp only [FileStore.delete, unlink, hlocate, hchild, hnumber, Bool.false_eq_true, if_false]
    rfl

theorem Houses.file?_eq (h : g.Houses d) (hseat : g.Seat names) (hp : g.Spells p names) :
    (d.file? p = none ∧ d.numberAt? g.start names = none) ∨
    ∃ init t k n, names = init ++ [t] ∧ d.descend g.start init = .ok k ∧
      d.child k t = .ok (.file n) ∧ d.numberAt? g.start names = some n ∧
      d.file? p = some ⟨k, t, n⟩ := by
  cases h.site hseat hp with
  | cut hlocate hnumber =>
    refine Or.inl ⟨?_, hnumber⟩
    simp only [file?, hlocate]
  | free hnames hk hlocate hchild hnumber =>
    refine Or.inl ⟨?_, hnumber⟩
    simp only [file?, hlocate, hchild]
  | @taken init k n t hnames hk hlocate hchild hnumber =>
    refine Or.inr ⟨init, t, k, n, hnames, hk, hchild, hnumber, ?_⟩
    simp only [file?, hlocate, hchild]

theorem Houses.withFile_none {α : Type} (h : g.Houses d) (hseat : g.Seat names) (hp : g.Spells p names)
    (hnumber : d.numberAt? g.start names = none) (act : PlacedFile → Step SystemError Disk α) :
    withFile p act d = .error (.notFound p) d := by
  rcases h.file?_eq hseat hp with ⟨hnone, -⟩ | ⟨init, t, k, n, -, -, -, hsome, -⟩
  · simp only [withFile, hnone]
  · rw [hnumber] at hsome
    cases hsome

/-- A file gets another name, where none or another file has it, unless the name is its own. -/
theorem moveFile_eq {j : Nat} {t' : Name} (hlocate : d.locate q = .ok (.name j t' false))
    (hthere : d.child j t' = .error .noSuchFile ∨ ∃ m, d.child j t' = .ok (.file m)) :
    moveFile ⟨k, t, n⟩ q d = if j = k ∧ t' = t then .ok () d
      else .ok () ((d.eraseEntry k t).setEntry j t' (.file n)) := by
  unfold moveFile
  rw [hlocate]
  dsimp only
  rcases hthere with hfree | ⟨m, hother⟩
  · rw [hfree]
    rfl
  · rw [hother]
    rfl

/-- A file first loses its name, and then gets another one. -/
theorem Houses.move (h : g.Houses d) (hseat : g.Seat (init ++ [t])) (hk : d.descend g.start init = .ok k)
    (hchild : d.child k t = .ok (.file n)) {init' : List Name} {t' : Name} {j : Nat}
    (hseat' : g.Seat (init' ++ [t'])) (hj : d.descend g.start init' = .ok j) :
    g.Edited (init ++ [t]) none d (d.eraseEntry k t) ∧
      g.Edited (init' ++ [t']) (some n) (d.eraseEntry k t)
        ((d.eraseEntry k t).setEntry j t' (.file n)) := by
  have herased := h.erase hseat hk
  have hget := (child_eq_ok_iff.1 hchild).2
  have hj' := (leads_eraseEntry hchild).1.descend h.tree.sound (g.start_lt h.tree.sound) hj
  refine ⟨herased, herased.houses.put hseat' hj' (h.tree.content_lt hget) fun i other hother => ?_⟩
  -- Only the name that is gone has stood for the content.
  rw [get?_eraseEntry] at hother
  split at hother
  · cases hother
  next hne =>
    obtain ⟨rfl, rfl⟩ := h.tree.content_inj hother hget
    exact hne ⟨⟨rfl, lt_of_get? hother⟩, rfl⟩

/-- A file moves to another name, or stays where it is. -/
theorem Houses.rename_ok (h : g.Houses d) (hseat : g.Seat names) (hp : g.Spells p names)
    (hseat' : g.Seat names') (hq : g.Spells q names') (hnumber : d.numberAt? g.start names = some n) :
    ∃ d₁ d', FileStore.rename p q d = .ok () d' ∧ d'.contents = d.contents ∧ d'.writers = d.writers ∧
      (names = names' ∧ g.Edited names (some n) d d' ∨
        names ≠ names' ∧ g.Edited names none d d₁ ∧ d₁.contents = d.contents ∧
          g.Edited names' (some n) d₁ d') := by
  rcases h.file?_eq hseat hp with ⟨-, hnone⟩ | ⟨init, t, k, m, hnames, hk, hchild, hsome, hfile⟩
  · rw [hnumber] at hnone
    cases hnone
  obtain rfl : n = m := Option.some.inj (hnumber.symm.trans hsome)
  subst hnames
  obtain ⟨init', t', rfl, hway'⟩ := hseat'.exists_concat
  obtain ⟨d₀, hmade, hpaved⟩ := h.makeParents_ok hway' hq
  have h₀ := hpaved.houses
  have hstart := g.start_lt h.tree.sound
  have hk₀ := hpaved.grows.leads.descend h.tree.sound hstart hk
  have hchild₀ := hpaved.grows.child hchild
  have hrun : FileStore.rename p q d = refuse (do makeParents q; moveFile ⟨k, t, n⟩ q) d := by
    simp only [FileStore.rename, withFile, hfile]
  obtain ⟨j, hj⟩ := hpaved.reached
  have hlocate := locate_of_spells (d := d₀) hq
  rw [bind_of_ok hj] at hlocate
  have hmoved := moveFile_eq (k := k) (t := t) (n := n) hlocate (h₀.child_seat hseat' hj)
  have hnumber₀ := (hpaved.number_eq hseat).trans hnumber
  by_cases hsame : init ++ [t] = init' ++ [t']
  · obtain ⟨hfront, hlast⟩ := List.append_inj' hsame rfl
    obtain rfl : t' = t := by simpa using hlast.symm
    obtain rfl : j = k := by
      rw [← hfront, hk₀] at hj
      exact (Except.ok.inj hj).symm
    rw [if_pos ⟨rfl, rfl⟩] at hmoved
    refine ⟨d₀, d₀, ?_, hpaved.contents_eq, hpaved.writers_eq, Or.inl ⟨hsame, ?_⟩⟩
    · rw [hrun]
      exact refuse_ok ((Step.bind_ok hmade).trans hmoved)
    · exact hpaved.then_edited (h₀.edited_refl hnumber₀)
  · rw [if_neg] at hmoved
    · obtain ⟨herased, hput⟩ := h₀.move hseat hk₀ hchild₀ hseat' hj
      refine ⟨d₀.eraseEntry k t, (d₀.eraseEntry k t).setEntry j t' (.file n), ?_, hpaved.contents_eq,
        hpaved.writers_eq, Or.inr ⟨hsame, hpaved.then_edited herased, hpaved.contents_eq, hput⟩⟩
      rw [hrun]
      exact refuse_ok ((Step.bind_ok hmade).trans hmoved)
    · rintro ⟨rfl, rfl⟩
      have hbefore := hseat.way (List.cons_ne_nil _ _)
      exact hsame (by rw [h₀.names_unique hbefore.isName hway'.isName hk₀ hj])

/-- A file gets the content of another one. -/
theorem Houses.copy_ok (h : g.Houses d) (hseat : g.Seat names) (hp : g.Spells p names)
    (hseat' : g.Seat names') (hq : g.Spells q names') (hne : names ≠ names')
    (hnumber : d.numberAt? g.start names = some n) :
    ∃ m d', FileStore.copy p q d = .ok (d.content n).length d' ∧ g.Edited names' (some m) d d' ∧
      m = (d.numberAt? g.start names').getD d.contents.length ∧ d'.content m = d.content n ∧
      (∀ i < d.contents.length, i ≠ m → d'.content i = d.content i) ∧ d'.writers = d.writers := by
  rcases h.file?_eq hseat hp with ⟨-, hnone⟩ | ⟨init, t, k, m, hnames, hk, hchild, hsome, hfile⟩
  · rw [hnumber] at hnone
    cases hnone
  obtain rfl : n = m := Option.some.inj (hnumber.symm.trans hsome)
  obtain ⟨d₀, m, d₁, hmade, hopen, hopened, hwriters⟩ := h.openParents_ok hseat' hq
  have hkept := (hopened.edited.elsewhere hseat hne).trans hnumber
  -- The source keeps its number, and the target has another one.
  have hnm : n ≠ m := by
    rintro rfl
    exact hne (hopened.edited.houses.number_unique hseat hseat' hkept hopened.edited.here)
  have hn : d₁.content n = d.content n := hopened.content_ne (h.number_lt hnumber) hnm
  have hm := hopened.edited.houses.number_lt hopened.edited.here
  let d' : Disk := { d₁ with contents := d₁.contents.set m (d₁.content n) }
  have hcontent : ∀ i, d'.content i = if i = m then d₁.content n else d₁.content i :=
    content_set hm (d₁.content n)
  refine ⟨m, d', ?_, hopened.edited.contents rfl List.length_set.ge, hopened.number_eq, ?_,
    fun i hi hne => ?_, hwriters⟩
  · simp only [FileStore.copy, withFile, hfile]
    refine refuse_ok ((Step.bind_ok hmade).trans ((Step.bind_ok hopen).trans ?_))
    rw [← hn]
  · rw [hcontent, if_pos rfl, hn]
  · rw [hcontent, if_neg hne, hopened.content_ne hi hne]

theorem Houses.status_eq (h : g.Houses d) (hseat : g.Seat names) (hp : g.Spells p names) :
    d.status p = match d.numberAt? g.start names with
      | none => .error .noSuchFile
      | some n => .ok (.file n) := by
  cases h.site hseat hp with
  | cut hlocate hnumber =>
    rw [hnumber]
    unfold status
    rw [hlocate]
    rfl
  | free hnames hk hlocate hchild hnumber =>
    rw [hnumber]
    unfold status
    rw [bind_of_ok hlocate]
    dsimp only
    rw [hchild]
    rfl
  | taken hnames hk hlocate hchild hnumber =>
    rw [hnumber]
    unfold status
    rw [bind_of_ok hlocate]
    exact bind_of_ok hchild

theorem Houses.isDirectory_of_seat (h : g.Houses d) (hseat : g.Seat names) (hp : g.Spells p names) :
    d.isDirectory p = false := by
  rw [Bool.eq_false_iff, Ne, isDirectory_iff, h.status_eq hseat hp]
  cases d.numberAt? g.start names <;> rintro ⟨_, ⟨⟩⟩

end Ground

end LargeObjects

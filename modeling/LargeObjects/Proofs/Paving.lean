import Mathlib
import LargeObjects.Proofs.Grounds

/-! What happens to the files of a ground when entries come and go. The directories on the way to a
file can always be made, and neither that nor what is done at one file touches another. -/
namespace LargeObjects

namespace Path

variable {p q : Path} {t : Name}

def Blank (p : Path) : Prop := ∀ piece ∈ p.pieces, Component.ofPiece? piece = none

theorem getLast?_pieces_ofPieces {anchor : Option Component} {pieces : List Name} (hne : pieces ≠ [])
    (hs : ∀ t ∈ pieces, '/' ∉ t) : (ofPieces anchor pieces).pieces.getLast? = pieces.getLast? := by
  have hbody : (['/'].intercalate pieces).splitOn '/' = pieces := List.splitOn_intercalate '/' hs hne
  have hjoined : ∀ start : List Char,
      ((start ++ '/' :: ['/'].intercalate pieces).splitOn '/').getLast? = pieces.getLast? := by
    intro start
    rw [List.splitOn_append_cons_self, hbody, List.getLast?_append_of_ne_nil _ hne]
  unfold ofPieces Path.pieces
  split
  · dsimp only
    rw [if_neg (by simpa using hne)]
    exact hjoined ['.']
  · exact hjoined []
  · exact congrArg List.getLast? hbody

theorem blank_ofPieces_nil (anchor : Option Component) : (ofPieces anchor []).Blank := by
  unfold ofPieces Blank
  split <;> decide

/-- Going up from a name leads to a name or to where paths start. -/
theorem parent?_of_endsInName (hp : p.EndsInName) (hdots : .parent ∉ p.components) :
    ∃ q, p.parent? = some q ∧ (q.EndsInName ∨ q.Blank ∧ q.spelling.length ≤ 1) := by
  obtain ⟨front, t, hbody, ht⟩ := body_of_endsInName hp
  have hrising : p.rising = t :: front.reverse := by
    rw [rising, hbody, List.reverse_append, List.reverse_singleton, List.singleton_append,
      List.dropWhile_cons_of_neg (by simp [blank_iff ht])]
  refine ⟨_, by rw [parent?_eq, hrising], ?_⟩
  have hbelow := prefix_body_of_rising hrising
  generalize hpieces :
    (front.reverse.dropWhile fun piece => (Component.ofPiece? piece).isNone).reverse = pieces at hbelow
  have hs : ∀ u ∈ pieces, '/' ∉ u := by
    intro u hu
    have hmem : u ∈ p.body := hbelow.subset hu
    unfold body at hmem
    split at hmem
    · exact not_mem_of_mem_pieces (List.mem_of_mem_tail hmem)
    · exact not_mem_of_mem_pieces hmem
  rcases List.eq_nil_or_concat' pieces with rfl | ⟨init, last, rfl⟩
  · refine Or.inr ⟨blank_ofPieces_nil _, ?_⟩
    unfold ofPieces
    split <;> decide
  -- The last piece that is left is not blank, and it is no step up.
  have hlast : (Component.ofPiece? last).isSome := by
    have hhead : (front.reverse.dropWhile fun piece => (Component.ofPiece? piece).isNone).head? =
        some last := by
      rw [← List.reverse_reverse (front.reverse.dropWhile _), hpieces]
      simp
    have hnot := List.head?_dropWhile_not (fun piece => (Component.ofPiece? piece).isNone) front.reverse
    rw [hhead] at hnot
    simpa using hnot
  have hname : IsName last := by
    have hsep := hs last (List.mem_append_right _ List.mem_cons_self)
    refine ⟨?_, ?_, ?_, hsep⟩
    · rintro rfl
      cases hlast
    · rintro rfl
      cases hlast
    · rintro rfl
      refine hdots ?_
      rw [components_eq_body]
      refine List.mem_append_right _ (List.mem_filterMap.2 ⟨['.', '.'], ?_, rfl⟩)
      exact hbelow.subset (List.mem_append_right _ List.mem_cons_self)
  have hend : (ofPieces p.anchor? (init ++ [last])).pieces.getLast? = (init ++ [last]).getLast? :=
    getLast?_pieces_ofPieces (List.append_ne_nil_of_right_ne_nil init (List.cons_ne_nil last [])) hs
  rw [List.getLast?_concat] at hend
  obtain ⟨others, hothers⟩ := List.getLast?_eq_some_iff.1 hend
  exact Or.inl ⟨others, last, hothers, hname⟩

end Path

namespace Disk

variable {d d' : Disk} {names : List Name} {name t : Name} {dir k j n : Nat}

theorem descend_eq_foldlM (d : Disk) (k : Nat) (names : List Name) :
    d.descend k names = names.foldlM d.enter k := by
  unfold descend
  rw [List.foldlM_map]
  rfl

theorem Leads.descend (h : Leads d d') (hd : d.Sound) (hk : k < d.directories.size)
    (hj : d.descend k names = .ok j) : d'.descend k names = .ok j := by
  rw [descend_eq_foldlM] at hj ⊢
  exact h.foldlM_enter hd hk hj

/-- A new directory is the only one that can be entered newly. -/
theorem descend_of_addDirectory (hdir : dir < d.directories.size) (hnames : ∀ t ∈ names, IsName t)
    (hj : (d.addDirectory dir name).descend k names = .ok j) (hold : j < d.directories.size) :
    d.descend k names = .ok j := by
  induction names using List.reverseRecOn generalizing j with
  | nil => exact hj
  | append_singleton init t ih =>
    have ht := hnames t (List.mem_append_right _ List.mem_cons_self)
    obtain ⟨i, hi, hchild⟩ := exists_of_descend_concat ht hj
    obtain ⟨hshort, hget⟩ := child_eq_ok_iff.1 hchild
    rw [get?_addDirectory hdir] at hget
    split at hget
    · cases hget
      exact absurd hold (Nat.lt_irrefl _)
    · have hi' := ih (fun u hu => hnames u (List.mem_append_left _ hu)) hi (lt_of_get? hget)
      rw [descend_concat_ok hi']
      exact enter_of_directory ht (child_eq_ok_iff.2 ⟨hshort, hget⟩)

theorem child_file_addDirectory (hdir : dir < d.directories.size) :
    (d.addDirectory dir name).child k t = .ok (.file n) →
      d.child k t = .ok (.file n) := by
  rw [child_eq_ok_iff, child_eq_ok_iff, get?_addDirectory hdir]
  rintro ⟨hshort, hget⟩
  split at hget
  · cases hget
  · exact ⟨hshort, hget⟩

/-- A new directory holds no file. -/
theorem numberAt?_addDirectory (hd : d.Sound) (hk : k < d.directories.size)
    (hdir : dir < d.directories.size) (hfree : d.child dir name = .error .noSuchFile)
    (hnames : ∀ t ∈ names, IsName t) :
    (d.addDirectory dir name).numberAt? k names = d.numberAt? k names := by
  have hgrows := Grows.addDirectory hdir (child_eq_missing_iff.1 hfree).2
  cases names using List.reverseRecOn with
  | nil => rfl
  | append_singleton init t =>
    apply Option.ext
    intro n
    constructor
    · intro h
      obtain ⟨j, hj, hchild⟩ := exists_of_numberAt? h
      have hchild' := child_file_addDirectory hdir hchild
      have hj' := descend_of_addDirectory hdir (fun u hu => hnames u (List.mem_append_left _ hu)) hj
        (lt_of_get? (child_eq_ok_iff.1 hchild').2)
      exact (numberAt?_concat_ok hj').2 hchild'
    · intro h
      obtain ⟨j, hj, hchild⟩ := exists_of_numberAt? h
      exact (numberAt?_concat_ok (hgrows.leads.descend hd hk hj)).2 (hgrows.child hchild)

end Disk

namespace Ground

open Disk

variable {g : Ground} {d d' d'' : Disk} {p q : Path} {names names' init : List Name} {t : Name}
  {k n : Nat}

/-- The path without its last step leads to the directory of a file. -/
theorem Spells.of_prefix {t : Name} (hp : p.components = g.place (init ++ [t]))
    (hq : p.parent? = some q) : q.components = g.place init := by
  rw [Path.components_of_parent? hq, hp, place_concat, List.dropLast_concat]

/-- A new directory on a way leaves all files where they are. -/
theorem Houses.addDirectory (h : g.Houses d) (hk : d.descend g.start init = .ok k)
    (hway : g.Way (init ++ [t])) (hfree : d.child k t = .error .noSuchFile) :
    g.Houses (d.addDirectory k t) := by
  have hk' := h.tree.sound.foldlM_follow_lt (g.start_lt h.tree.sound) hk
  have hgrows := Grows.addDirectory hk' (child_eq_missing_iff.1 hfree).2
  have hlead : ∀ {names j}, d.descend g.start names = .ok j →
      (d.addDirectory k t).descend g.start names = .ok j :=
    hgrows.leads.descend h.tree.sound (g.start_lt h.tree.sound)
  refine ⟨h.tree.addDirectory hk' (hway.usable t (by simp)).isName, fun {j u e} hget => ?_⟩
  rw [get?_addDirectory hk'] at hget
  split at hget
  next hnew =>
    obtain ⟨rfl, rfl⟩ := hnew
    cases hget
    exact ⟨init, hlead hk, hway⟩
  next =>
    obtain ⟨names, hnames, he⟩ := h.entry hget
    exact ⟨names, hlead hnames, he⟩

structure Paved (g : Ground) (names : List Name) (d d' : Disk) : Prop where
  houses : g.Houses d'
  grows : Grows d d'
  reached : ∃ k, d'.descend g.start names = .ok k
  number_eq {names' : List Name} : g.Seat names' →
    d'.numberAt? g.start names' = d.numberAt? g.start names'
  contents_eq : d'.contents = d.contents
  writers_eq : d'.writers = d.writers

theorem Houses.paved (h : g.Houses d) (hk : d.descend g.start names = .ok k) : g.Paved names d d :=
  ⟨h, .refl d, ⟨k, hk⟩, fun _ => rfl, rfl, rfl⟩

theorem Houses.paved_addDirectory (h : g.Houses d) (hk : d.descend g.start init = .ok k)
    (hway : g.Way (init ++ [t])) (hfree : d.child k t = .error .noSuchFile) :
    g.Paved (init ++ [t]) d (d.addDirectory k t) := by
  have hk' := h.tree.sound.foldlM_follow_lt (g.start_lt h.tree.sound) hk
  have hstart := g.start_lt h.tree.sound
  have hgrows := Grows.addDirectory hk' (child_eq_missing_iff.1 hfree).2
  have ht := hway.usable t (List.mem_append_right _ List.mem_cons_self)
  refine ⟨h.addDirectory hk hway hfree, hgrows, ⟨d.directories.size, ?_⟩, fun hseat => ?_, rfl, rfl⟩
  · rw [descend_concat_ok (hgrows.leads.descend h.tree.sound hstart hk)]
    refine enter_of_directory ht.isName (child_eq_ok_iff.2 ⟨ht.short, ?_⟩)
    rw [get?_addDirectory hk', if_pos ⟨rfl, rfl⟩]
  · exact numberAt?_addDirectory h.tree.sound hstart hk' hfree hseat.isName

/-- More of a way can be paved once some of it is. -/
theorem Paved.trans (h : g.Paved names d d') (h' : g.Paved names' d' d'') : g.Paved names' d d'' :=
  ⟨h'.houses, h.grows.trans h'.grows, h'.reached,
    fun hseat => (h'.number_eq hseat).trans (h.number_eq hseat), h'.contents_eq.trans h.contents_eq,
    h'.writers_eq.trans h.writers_eq⟩

theorem status_of_blank (hp : p.Blank) (hobjection : objection? p = none) (hne : p.spelling ≠ []) :
    d.status p = .ok (.directory (origin p)) := by
  refine status_of_reach hobjection hne ?_
  have hsteps : p.pieces.filterMap Component.ofPiece? = [] := List.filterMap_eq_nil_iff.2 hp
  unfold reach
  show (p.anchor?.toList ++ p.pieces.filterMap Component.ofPiece?).foldlM d.follow _ = _
  rw [foldlM_anchor, hsteps]
  rfl

/-- A directory on the way is made where the way leads that far. -/
theorem Houses.makeDirectory_ok (h : g.Houses d) (hq : g.Spells q (init ++ [t]))
    (hway : g.Way (init ++ [t])) (hk : d.descend g.start init = .ok k) :
    (∃ d', makeDirectory q d = .ok () d' ∧ g.Paved (init ++ [t]) d d') ∨
    makeDirectory q d = .error .alreadyExists d ∧ d.isDirectory q = true ∧
      g.Paved (init ++ [t]) d d := by
  have ht := hway.usable t (List.mem_append_right _ List.mem_cons_self)
  have hlocate := locate_of_spells (d := d) hq
  rw [bind_of_ok hk] at hlocate
  rcases h.descend_way hway with ⟨j, hj⟩ | hmissing
  · obtain ⟨k', hk', hchild⟩ := exists_of_descend_concat ht.isName hj
    obtain rfl : k = k' := Except.ok.inj (hk.symm.trans hk')
    refine Or.inr ⟨?_, ?_, h.paved hj⟩
    · unfold makeDirectory
      rw [hlocate]
      dsimp only
      rw [hchild]
    · have hstatus : d.status q = .ok (.directory j) := (bind_of_ok hlocate).trans (bind_of_ok hchild)
      exact isDirectory_iff.2 ⟨_, hstatus⟩
  · have hfree : d.child k t = .error .noSuchFile := by
      rw [descend_concat_ok hk] at hmissing
      cases hchild : d.child k t with
      | error e =>
        rw [enter_of_error ht.isName hchild] at hmissing
        cases hmissing
        rfl
      | ok e =>
        exfalso
        unfold enter at hmissing
        rw [ht.isName.ofPiece?] at hmissing
        have hstep := (bind_of_ok hchild).symm.trans hmissing
        cases e <;> cases hstep
    refine Or.inl ⟨d.addDirectory k t, ?_, h.paved_addDirectory hk hway hfree⟩
    unfold makeDirectory
    rw [hlocate]
    dsimp only
    rw [hfree]

/-- No directory can be made inside one that is missing. -/
theorem makeDirectory_cut (hq : g.Spells q (init ++ [t]))
    (hmissing : d.descend g.start init = .error .noSuchFile) :
    makeDirectory q d = .error .noSuchFile d := by
  have hlocate := locate_of_spells (d := d) hq
  rw [hmissing] at hlocate
  unfold makeDirectory
  rw [hlocate]
  rfl

theorem makeDirectories_blank (hq : q.Blank) (hobjection : objection? q = none) (fuel : Nat) :
    makeDirectories (fuel + 1) q d = .ok () d := by
  unfold makeDirectories
  by_cases hne : q.spelling = []
  · rw [if_pos hne]
  rw [if_neg hne]
  have hstatus := status_of_blank (d := d) hq hobjection hne
  -- What is there already counts as made.
  have hmake : makeDirectory q d = .error .alreadyExists d := by
    unfold makeDirectory
    unfold status at hstatus
    obtain ⟨target, hlocate, hrest⟩ := exists_of_bind hstatus
    rw [hlocate]
    cases target with
    | directory m => rfl
    | name dir name slashed =>
      obtain ⟨e, hchild, -⟩ := exists_of_bind hrest
      dsimp only
      rw [hchild]
  rw [hmake]
  dsimp only
  rw [if_pos (isDirectory_iff.2 ⟨_, hstatus⟩)]

/-- Whatever is missing on a way is made, from the top down. -/
theorem Houses.makeDirectories_ok (h : g.Houses d) (hsteps : q.components = g.place names)
    (hq : q.EndsInName ∨ q.Blank) (hobjection : objection? q = none) (hway : g.Way names) {fuel : Nat}
    (hfuel : names.length < fuel) :
    ∃ d', makeDirectories fuel q d = .ok () d' ∧ g.Paved names d d' := by
  induction fuel generalizing q names with
  | zero => exact absurd hfuel (Nat.not_lt_zero _)
  | succ fuel ih =>
    rcases hq with hends | hblank
    · obtain ⟨init, t, rfl⟩ : ∃ init t, names = init ++ [t] := by
        refine (List.eq_nil_or_concat' names).resolve_left fun hnil => ?_
        obtain ⟨front, t, hpieces, ht⟩ := hends
        have hlast := Path.components_of_pieces hpieces ht.ofPiece?
        have hmem : .name t ∈ g.place names := by
          rw [← hsteps, hlast]
          exact List.mem_append_right _ List.mem_cons_self
        rw [name_mem_place, hnil] at hmem
        cases hmem
      have hspells : g.Spells q (init ++ [t]) := ⟨hsteps, hobjection, hends⟩
      have hne : q.spelling ≠ [] := by
        intro hnil
        obtain rfl : q = ⟨[]⟩ := congrArg Path.mk hnil
        rw [place_concat] at hsteps
        exact List.append_ne_nil_of_right_ne_nil _ (List.cons_ne_nil _ _) hsteps.symm
      unfold makeDirectories
      rw [if_neg hne]
      rcases h.descend_way hway.before with ⟨k, hk⟩ | hmissing
      · rcases h.makeDirectory_ok hspells hway hk with ⟨d', hmake, hpaved⟩ | ⟨hmake, hthere, hpaved⟩
        · rw [hmake]
          exact ⟨d', rfl, hpaved⟩
        · rw [hmake]
          dsimp only
          rw [if_pos hthere]
          exact ⟨d, rfl, hpaved⟩
      · -- The directories above come first; then there is one more to make.
        obtain ⟨above, habove, hends'⟩ := Path.parent?_of_endsInName hends
          (hsteps ▸ g.parent_not_mem_place _)
        have hobjection' := objection?_of_prefix (Path.parent?_prefix habove) hobjection
        rw [List.length_append, List.length_singleton] at hfuel
        obtain ⟨d₁, hmade, hpaved₁⟩ := ih (Spells.of_prefix hsteps habove)
          (hends'.imp_right And.left) hobjection' hway.before
          (by omega)
        obtain ⟨k, hk⟩ := hpaved₁.reached
        rw [makeDirectory_cut hspells hmissing]
        dsimp only
        rw [habove]
        dsimp only
        rw [hmade]
        dsimp only
        rcases hpaved₁.houses.makeDirectory_ok hspells hway hk with
          ⟨d', hmake, hpaved⟩ | ⟨hmake, hthere, hpaved⟩
        · rw [hmake]
          exact ⟨d', rfl, hpaved₁.trans hpaved⟩
        · rw [hmake]
          dsimp only
          rw [if_pos hthere]
          exact ⟨d₁, rfl, hpaved₁.trans hpaved⟩
    · obtain rfl : names = [] := by
        refine List.eq_nil_iff_forall_not_mem.2 fun t ht => ?_
        have hmem : .name t ∈ q.components := hsteps ▸ (name_mem_place g).2 ht
        have hnone : q.pieces.filterMap Component.ofPiece? = [] := List.filterMap_eq_nil_iff.2 hblank
        unfold Path.components at hmem
        rw [hnone, List.append_nil, Option.mem_toList] at hmem
        rcases q.anchor?_cases with h | h | ⟨h, -⟩ <;> rw [h] at hmem <;> cases hmem
      exact ⟨d, makeDirectories_blank hblank hobjection fuel, h.paved (descend_nil d g.start)⟩

end Ground

end LargeObjects

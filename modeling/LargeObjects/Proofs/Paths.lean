import Mathlib
import LargeObjects.Path

/-! How extending the spelling of a path extends its components. -/
namespace LargeObjects

structure IsName (t : Name) : Prop where
  ne_nil : t ≠ []
  ne_dot : t ≠ ['.']
  ne_dots : t ≠ ['.', '.']
  no_separator : '/' ∉ t

theorem IsName.of_length {t : Name} (hl : 2 < t.length) (hs : '/' ∉ t) : IsName t := by
  refine ⟨?_, ?_, ?_, hs⟩ <;> rintro rfl <;> simp at hl

theorem IsName.ofPiece? {t : Name} (ht : IsName t) : Component.ofPiece? t = some (.name t) := by
  unfold Component.ofPiece?
  split
  · exact absurd rfl ht.ne_nil
  · exact absurd rfl ht.ne_dot
  · exact absurd rfl ht.ne_dots
  · rfl

namespace Path

/-- A text without separators only makes the last piece longer. -/
theorem splitOn_append_name (xs : List Char) {t : Name} (ht : '/' ∉ t) :
    (xs ++ t).splitOn '/' =
      (xs.splitOn '/').dropLast ++ [(xs.splitOn '/').getLast (List.splitOn_ne_nil _ _) ++ t] := by
  induction xs with
  | nil => simpa using List.splitOn_eq_singleton ht
  | cons c xs ih =>
    obtain ⟨h, tl, hsplit⟩ := List.exists_cons_of_ne_nil (List.splitOn_ne_nil '/' xs)
    simp only [hsplit] at ih
    by_cases hc : c = '/'
    · simp [List.splitOn_cons_eq_if_modifyHead, hc, ih, hsplit]
    · have hc' : (c == '/') = false := by simpa using hc
      cases tl with
      | nil => simp_all [List.splitOn_cons_eq_if_modifyHead]
      | cons h' tl => simp_all [List.splitOn_cons_eq_if_modifyHead]

def anchorOf : Name → List Component
  | [] => [.root]
  | ['.'] => [.current]
  | _ => []

def leadOf : List Name → List Component
  | [] => []
  | first :: rest => anchorOf first ++ (first :: rest).filterMap Component.ofPiece?

theorem components_eq_leadOf {p : Path} (h : p.pieces ≠ [[]]) : p.components = leadOf p.pieces := by
  unfold components anchor?
  rcases hp : p.pieces with _ | ⟨first, _ | ⟨second, rest⟩⟩
  · rfl
  · have hfirst : first ≠ [] := fun hf => h (by rw [hp, hf])
    unfold leadOf anchorOf
    split <;> simp_all
  · unfold leadOf anchorOf
    split <;> simp_all

theorem leadOf_append_singleton {pieces : List Name} (h : pieces ≠ []) (t : Name) :
    leadOf (pieces ++ [t]) = leadOf pieces ++ (Component.ofPiece? t).toList := by
  obtain ⟨first, rest, rfl⟩ := List.exists_cons_of_ne_nil h
  simp only [List.cons_append, leadOf, List.append_assoc]
  rw [← List.cons_append, List.filterMap_append]
  cases hp : Component.ofPiece? t <;> simp [hp]

theorem not_mem_of_mem_pieces {xs : List Char} {t : Name} (h : t ∈ xs.splitOn '/') : '/' ∉ t := by
  induction xs generalizing t with
  | nil => simp_all
  | cons c xs ih =>
    obtain ⟨first, rest, hsplit⟩ := List.exists_cons_of_ne_nil (List.splitOn_ne_nil '/' xs)
    rw [List.splitOn_cons_eq_if_modifyHead, hsplit] at h
    rw [hsplit] at ih
    by_cases hc : c = '/' <;> simp_all <;> grind

/-- The last piece of a path is its last step when it is one. -/
theorem components_of_pieces {p : Path} {pieces : List Name} {t : Name} {c : Component}
    (hp : p.pieces = pieces ++ [t]) (ht : Component.ofPiece? t = some c) :
    p.components = leadOf pieces ++ [c] := by
  have hnil : t ≠ [] := by
    rintro rfl
    cases ht
  have hne : p.pieces ≠ [[]] := by
    intro h
    have hlast := congrArg List.getLast? h
    rw [hp] at hlast
    simp [hnil] at hlast
  rw [components_eq_leadOf hne, hp]
  rcases pieces with _ | ⟨first, rest⟩
  · have hanchor : anchorOf t = [] := by
      unfold anchorOf
      split
      · exact absurd rfl hnil
      · cases ht
      · rfl
    simp [leadOf, hanchor, ht]
  · rw [leadOf_append_singleton (List.cons_ne_nil _ _), ht]
    rfl

/-- An empty last piece is no step. -/
theorem components_of_blank {p : Path} {pieces : List Name} (hp : p.pieces = pieces ++ [[]]) :
    p.components = leadOf pieces := by
  by_cases hnil : pieces = []
  · simp [components, anchor?, leadOf, hp, hnil, Component.ofPiece?]
  · have hne : p.pieces ≠ [[]] := by simp [hp, hnil]
    rw [components_eq_leadOf hne, hp, leadOf_append_singleton hnil]
    simp [Component.ofPiece?]

def lead (p : Path) : List Component := leadOf p.pieces.dropLast

def lastPiece (p : Path) : Name := p.pieces.getLast (List.splitOn_ne_nil _ _)

theorem isName_lastPiece_append {suffix : List Char} (p : Path) (hl : 2 < suffix.length)
    (hs : '/' ∉ suffix) : IsName (p.lastPiece ++ suffix) := by
  apply IsName.of_length
  · rw [List.length_append]
    omega
  · have := not_mem_of_mem_pieces (List.getLast_mem (List.splitOn_ne_nil '/' p.spelling))
    simp [lastPiece, pieces, this, hs]

/-- What is appended to a path goes to its last piece. -/
theorem components_append {suffix : List Char} (p : Path) (hl : 2 < suffix.length)
    (hs : '/' ∉ suffix) :
    (p.append suffix).components = p.lead ++ [.name (p.lastPiece ++ suffix)] := by
  apply components_of_pieces (splitOn_append_name p.spelling hs)
  exact (p.isName_lastPiece_append hl hs).ofPiece?

/-- Joining a piece that is a step adds it. -/
theorem components_join_piece (p : Path) {t : Name} {c : Component}
    (ht : Component.ofPiece? t = some c) (hs : '/' ∉ t) :
    (p.join t).components = p.components ++ [c] := by
  have hhead : t.head? ≠ some '/' := fun h => hs (List.mem_of_head? h)
  have hsplit := List.dropLast_append_getLast (List.splitOn_ne_nil '/' p.spelling)
  unfold join
  rw [if_neg hhead]
  split
  · -- The last piece is empty, and the name takes its place.
    next hend =>
    have hlast : (p.spelling.splitOn '/').getLast (List.splitOn_ne_nil _ _) = [] := by
      rcases hend with hnil | hsep
      · simp [hnil]
      · obtain ⟨xs, hxs⟩ := List.getLast?_eq_some_iff.1 hsep
        simp [hxs, List.splitOn_append_cons_self]
    rw [hlast] at hsplit
    have hsplit' := splitOn_append_name p.spelling hs
    rw [hlast, List.nil_append] at hsplit'
    rw [components_of_blank hsplit.symm, components_of_pieces hsplit' ht]
  · next hend =>
    have hjoin : (Path.mk (p.spelling ++ '/' :: t)).pieces = p.pieces ++ [t] := by
      unfold pieces
      rw [List.splitOn_append_cons_self, List.splitOn_eq_singleton hs]
    have hne : p.pieces ≠ [[]] := by
      intro h
      have hwhole : ['/'].intercalate (p.spelling.splitOn '/') = p.spelling :=
        List.intercalate_splitOn '/'
      unfold pieces at h
      simp_all
    rw [components_of_pieces hjoin ht, components_eq_leadOf hne]

/-- Joining a name adds one step. -/
theorem components_join (p : Path) {t : Name} (ht : IsName t) :
    (p.join t).components = p.components ++ [.name t] :=
  components_join_piece p ht.ofPiece? ht.no_separator

theorem fileName?_of_components {p : Path} {steps : List Component} {t : Name}
    (h : p.components = steps ++ [.name t]) : p.fileName? = some t := by
  simp [fileName?, h]

theorem fileName?_join (p : Path) {t : Name} (ht : IsName t) : (p.join t).fileName? = some t :=
  fileName?_of_components (components_join p ht)

/-- The names among the components of a path are names. -/
theorem isName_of_mem_components {p : Path} {t : Name} (h : .name t ∈ p.components) : IsName t := by
  unfold components at h
  rcases List.mem_append.1 h with h | h
  · unfold anchor? at h
    split at h <;> simp at h
  · obtain ⟨piece, hmem, hpiece⟩ := List.mem_filterMap.1 h
    have hsep := not_mem_of_mem_pieces hmem
    unfold Component.ofPiece? at hpiece
    split at hpiece <;> simp_all
    subst hpiece
    exact ⟨by assumption, by assumption, by assumption, hsep⟩

theorem components_ne_nil {p : Path} (h : p.spelling ≠ []) : p.components ≠ [] := by
  have hne : p.pieces ≠ [[]] := by
    intro hpieces
    have hwhole : ['/'].intercalate p.pieces = p.spelling := List.intercalate_splitOn '/'
    rw [hpieces] at hwhole
    exact h hwhole.symm
  obtain ⟨first, rest, hpieces⟩ := List.exists_cons_of_ne_nil (List.splitOn_ne_nil '/' p.spelling)
  rw [components_eq_leadOf hne, show p.pieces = first :: rest from hpieces]
  -- What starts a path is its anchor or a step of its own.
  show anchorOf first ++ _ ≠ []
  unfold anchorOf
  split
  · exact List.cons_ne_nil _ _
  · exact List.cons_ne_nil _ _
  next hnil hdot =>
    have hfirst : (Component.ofPiece? first).isSome := by
      unfold Component.ofPiece?
      split <;> simp_all
    obtain ⟨c, hc⟩ := Option.isSome_iff_exists.1 hfirst
    rw [List.filterMap_cons_some hc]
    exact List.cons_ne_nil _ _

theorem anchorOf_of_isSome {t : Name} (h : (Component.ofPiece? t).isSome) : anchorOf t = [] := by
  unfold anchorOf
  split
  · cases h
  · cases h
  · rfl

/-- Leading pieces that are no steps make no difference. -/
theorem filterMap_dropWhile_blank (pieces : List Name) :
    (pieces.dropWhile fun piece => (Component.ofPiece? piece).isNone).filterMap Component.ofPiece? =
      pieces.filterMap Component.ofPiece? := by
  induction pieces with
  | nil => rfl
  | cons first rest ih =>
    cases hfirst : Component.ofPiece? first with
    | none => simp [hfirst, ih]
    | some c => simp [hfirst]

/-- Putting pieces back after an anchor gives their steps after it. -/
theorem components_ofPieces {anchor : Option Component} {pieces : List Name}
    (hanchor : anchor = some .root ∨ anchor = some .current ∨
      anchor = none ∧ ∀ first ∈ pieces.head?, (Component.ofPiece? first).isSome)
    (hs : ∀ t ∈ pieces, '/' ∉ t) :
    (ofPieces anchor pieces).components = anchor.toList ++ pieces.filterMap Component.ofPiece? := by
  rcases pieces with _ | ⟨first, rest⟩
  · rcases hanchor with rfl | rfl | ⟨rfl, -⟩ <;> rfl
  have hbody : (['/'].intercalate (first :: rest)).splitOn '/' = first :: rest :=
    List.splitOn_intercalate '/' hs (List.cons_ne_nil _ _)
  rcases hanchor with rfl | rfl | ⟨rfl, hfirst⟩
  · have hpieces : (ofPieces (some .root) (first :: rest)).pieces = [] :: first :: rest := by
      conv_rhs => rw [← hbody]
      exact List.splitOn_append_cons_self [] _
    rw [components_eq_leadOf (by rw [hpieces]; simp), hpieces]
    rfl
  · have hpieces : (ofPieces (some .current) (first :: rest)).pieces = ['.'] :: first :: rest := by
      conv_rhs => rw [← hbody]
      exact List.splitOn_append_cons_self ['.'] _
    rw [components_eq_leadOf (by rw [hpieces]; simp), hpieces]
    rfl
  · have hsome := hfirst first rfl
    have hpieces : (ofPieces none (first :: rest)).pieces = first :: rest := hbody
    have hne : first :: rest ≠ [[]] := by
      rintro ⟨⟩
      cases hsome
    rw [components_eq_leadOf (by rwa [hpieces]), hpieces]
    simp only [leadOf, anchorOf_of_isSome hsome]
    rfl

def body (p : Path) : List Name := if p.anchor?.isSome then p.pieces.tail else p.pieces

theorem components_eq_body (p : Path) :
    p.components = p.anchor?.toList ++ p.body.filterMap Component.ofPiece? := by
  unfold body components anchor?
  split
  next hroot =>
    rw [hroot]
    rfl
  next hcurrent =>
    rw [hcurrent]
    rfl
  next => rfl

theorem anchor?_cases (p : Path) : p.anchor? = some .root ∨ p.anchor? = some .current ∨
    p.anchor? = none ∧ (p.body = [[]] ∨ ∀ first ∈ p.body.head?, (Component.ofPiece? first).isSome) := by
  unfold body anchor?
  split
  next => exact Or.inl rfl
  next => exact Or.inr (Or.inl rfl)
  next hroot hcurrent =>
    refine Or.inr (Or.inr ⟨rfl, ?_⟩)
    rcases hp : p.pieces with _ | ⟨first, rest⟩
    · exact Or.inr nofun
    by_cases hnil : first = []
    · left
      rcases rest with _ | ⟨second, rest⟩
      · simp [hnil]
      · exact absurd (by rw [hp, hnil]) (hroot second rest)
    · right
      intro first' hfirst
      simp at hfirst
      subst hfirst
      unfold Component.ofPiece?
      split <;> simp_all

def rising (p : Path) : List Name :=
  p.body.reverse.dropWhile fun piece => (Component.ofPiece? piece).isNone

theorem components_eq_rising (p : Path) :
    p.components = p.anchor?.toList ++ p.rising.reverse.filterMap Component.ofPiece? := by
  rw [components_eq_body, rising, List.filterMap_reverse, filterMap_dropWhile_blank,
    ← List.filterMap_reverse, List.reverse_reverse]

theorem parent?_eq (p : Path) : p.parent? =
    match p.rising with
    | _ :: rest => some (ofPieces p.anchor?
      (rest.dropWhile fun piece => (Component.ofPiece? piece).isNone).reverse)
    | [] => if p.anchor? = some .current then some ⟨[]⟩ else none := rfl

/-- Only an anchor has no parent. -/
theorem length_components_of_parent?_eq_none {p : Path} (h : p.parent? = none) :
    p.components.length ≤ 1 := by
  rw [parent?_eq] at h
  split at h
  · cases h
  · next hrising =>
    rw [components_eq_rising, hrising]
    cases p.anchor? <;> simp

/-- What is left after going up is at the start of a path. -/
theorem prefix_body_of_rising {p : Path} {last : Name} {rest : List Name}
    (h : p.rising = last :: rest) :
    (rest.dropWhile fun piece => (Component.ofPiece? piece).isNone).reverse <+: p.body := by
  have hsuffix : rest.dropWhile (fun piece => (Component.ofPiece? piece).isNone) <:+
      p.body.reverse :=
    (List.dropWhile_suffix _).trans ((List.suffix_cons last rest).trans
      (h ▸ List.dropWhile_suffix _))
  have hstart := List.reverse_prefix.2 hsuffix
  rwa [List.reverse_reverse] at hstart

/-- The parent of a path has all of its steps but the last. -/
theorem components_of_parent? {p p' : Path} (h : p.parent? = some p') :
    p'.components = p.components.dropLast := by
  have hsteps := p.components_eq_rising
  rw [parent?_eq] at h
  cases hrising : p.rising with
  | nil =>
    rw [hrising] at h hsteps
    dsimp only at h
    split at h
    next hcurrent =>
      cases h
      rw [hsteps, hcurrent]
      rfl
    next => cases h
  | cons last rest =>
    rw [hrising] at h hsteps
    cases h
    obtain ⟨c, hc⟩ : ∃ c, Component.ofPiece? last = some c := by
      have hlast := List.head?_dropWhile_not (fun piece => (Component.ofPiece? piece).isNone)
        p.body.reverse
      rw [show p.body.reverse.dropWhile _ = _ from hrising] at hlast
      simp at hlast
      exact Option.isSome_iff_exists.1 hlast
    have hprefix := prefix_body_of_rising hrising
    rw [components_ofPieces, hsteps, List.reverse_cons, List.filterMap_append, ← List.append_assoc]
    · simp [hc, List.filterMap_reverse, filterMap_dropWhile_blank]
    · rcases p.anchor?_cases with hroot | hcurrent | ⟨hnone, hblank | hfirst⟩
      · exact Or.inl hroot
      · exact Or.inr (Or.inl hcurrent)
      · unfold rising at hrising
        rw [hblank] at hrising
        cases hrising
      · refine Or.inr (Or.inr ⟨hnone, fun first hmem => hfirst first ?_⟩)
        obtain ⟨more, hbody⟩ := hprefix
        rw [← hbody, List.head?_append, hmem]
        rfl
    · intro t ht
      have hmem : t ∈ p.body := hprefix.subset ht
      have hpiece : t ∈ p.spelling.splitOn '/' := by
        unfold body at hmem
        split at hmem
        · exact List.mem_of_mem_tail hmem
        · exact hmem
      exact not_mem_of_mem_pieces hpiece

/-- The parent of a name in a directory is that directory. -/
theorem exists_parent_join {p : Path} {t : Name} (ht : IsName t) (hp : p.spelling ≠ []) :
    ∃ above, (p.join t).parent? = some above ∧ above.spelling ≠ [] ∧
      above.components = p.components := by
  have hjoin := components_join p ht
  cases hparent : (p.join t).parent? with
  | some above =>
    have habove := components_of_parent? hparent
    rw [hjoin, List.dropLast_concat] at habove
    refine ⟨above, rfl, fun hnil => components_ne_nil hp ?_, habove⟩
    rw [← habove, show above = ⟨[]⟩ from congrArg Path.mk hnil]
    rfl
  | none =>
    have hlength := length_components_of_parent?_eq_none hparent
    rw [hjoin, List.length_append, List.length_singleton] at hlength
    exact absurd (List.length_eq_zero_iff.1 (by omega)) (components_ne_nil hp)

end Path

end LargeObjects

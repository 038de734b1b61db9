import Mathlib
import LargeObjects.Proofs.Names

/-! Reading flat names back, and the directory in which they are looked for. Both go by the last step
of the path of the database, and the names are made from its last piece. -/
namespace LargeObjects

namespace Naming

/-- A text has only one last dot. -/
theorem append_dot_inj {a b c d : List Char} (hb : '.' ∉ b) (hd : '.' ∉ d)
    (h : a ++ '.' :: b = c ++ '.' :: d) : a = c ∧ b = d := by
  -- If one front went on past the other, its last dot would be behind the other's.
  rcases List.append_eq_append_iff.1 h with ⟨e, hc, he⟩ | ⟨e, ha, he⟩
  · rcases e with _ | ⟨first, e⟩
    · rw [List.append_nil] at hc
      exact ⟨hc.symm, (List.cons.inj he).2⟩
    · have hmem : '.' ∈ b := by
        rw [(List.cons.inj he).2]
        exact List.mem_append_right _ List.mem_cons_self
      exact absurd hmem hb
  · rcases e with _ | ⟨first, e⟩
    · rw [List.append_nil] at ha
      exact ⟨ha, (List.cons.inj he).2.symm⟩
    · have hmem : '.' ∈ d := by
        rw [(List.cons.inj he).2]
        exact List.mem_append_right _ List.mem_cons_self
      exact absurd hmem hd

/-- No name ends both as files of tables and as temporary ones do. -/
theorem not_object_of_temp {front front' : List Char} :
    front ++ objectSuffix.toList ≠ front' ++ flatTempSuffix.toList := by
  intro h
  have hobject : objectSuffix.toList <:+ front ++ objectSuffix.toList := List.suffix_append _ _
  have htemp : flatTempSuffix.toList <:+ front ++ objectSuffix.toList := h ▸ List.suffix_append _ _
  have hshort : objectSuffix.toList.length ≤ flatTempSuffix.toList.length := by decide
  have hboth := List.suffix_of_suffix_length_le hobject htemp hshort
  revert hboth
  decide

inductive ReadsFlat : List Char → Owner → ObjectId → Prop
  | temp {number : List Char} {word : UInt32} : Numeral.read? number = some word →
    ReadsFlat (number ++ flatTempSuffix.toList) .temp ⟨word⟩
  | table {owner number : List Char} {table word : UInt32} : Numeral.read? owner = some table →
    Numeral.read? number = some word →
    ReadsFlat ((owner ++ '.' :: number) ++ objectSuffix.toList) (.table ⟨table⟩) ⟨word⟩

/-- A flat name is what names are read by, a dot and what tells owner and object. -/
theorem parseFlat?_eq_some {n : Naming} {name : Name} {owner : Owner} {id : ObjectId} :
    n.parseFlat? name = some (owner, id) ↔ ∃ lead rest, n.base.fileName? = some lead ∧
      name = lead ++ '.' :: rest ∧ ReadsFlat rest owner id := by
  unfold parseFlat?
  simp only [Option.bind_eq_bind, Option.bind_eq_some_iff]
  constructor
  · rintro ⟨lead, hlead, tail, htail, rest, hrest, h⟩
    rw [afterLead?_eq_some] at htail hrest
    refine ⟨lead, rest, hlead, by rw [htail, hrest]; rfl, ?_⟩
    split at h
    next number hnumber =>
      obtain ⟨word, hword, hread⟩ := Option.bind_eq_some_iff.1 h
      cases hread
      rw [beforeSuffix?_eq_some.1 hnumber]
      exact .temp hword
    next =>
      obtain ⟨text, htext, h⟩ := Option.bind_eq_some_iff.1 h
      obtain ⟨⟨mark, number⟩, hsplit, h⟩ := Option.bind_eq_some_iff.1 h
      obtain ⟨table, htable, h⟩ := Option.bind_eq_some_iff.1 h
      obtain ⟨word, hword, hread⟩ := Option.bind_eq_some_iff.1 h
      cases hread
      rw [beforeSuffix?_eq_some.1 htext, atDot?_eq_some hsplit]
      exact .table htable hword
  · rintro ⟨lead, rest, hlead, rfl, hreads⟩
    refine ⟨lead, hlead, '.' :: rest, afterLead?_eq_some.2 rfl, rest, afterLead?_eq_some.2 rfl, ?_⟩
    cases hreads with
    | @temp number word hword =>
      rw [beforeSuffix?_eq_some.2 rfl]
      exact Option.bind_eq_some_iff.2 ⟨word, hword, rfl⟩
    | @table mark number table word htable hword =>
      -- Names are tried as temporary ones first.
      have hnone : beforeSuffix? flatTempSuffix.toList
          ((mark ++ '.' :: number) ++ objectSuffix.toList) = none := by
        cases hfront : beforeSuffix? flatTempSuffix.toList
            ((mark ++ '.' :: number) ++ objectSuffix.toList) with
        | none => rfl
        | some front => exact absurd (beforeSuffix?_eq_some.1 hfront) not_object_of_temp
      rw [hnone]
      refine Option.bind_eq_some_iff.2 ⟨_, beforeSuffix?_eq_some.2 rfl, ?_⟩
      refine Option.bind_eq_some_iff.2 ⟨_, atDot?_append (Numeral.dot_not_mem_of_read? htable) _, ?_⟩
      refine Option.bind_eq_some_iff.2 ⟨table, htable, ?_⟩
      exact Option.bind_eq_some_iff.2 ⟨word, hword, rfl⟩

theorem exists_flatEnding (owner : Owner) (id : ObjectId) :
    ∃ rest, flatEnding owner id = '.' :: rest ∧ ReadsFlat rest owner id := by
  cases owner with
  | temp => exact ⟨_, rfl, .temp (Numeral.read?_write id.word)⟩
  | table table =>
    refine ⟨_, ?_, .table (Numeral.read?_write table.word) (Numeral.read?_write id.word)⟩
    unfold flatEnding
    simp only [List.cons_append, List.append_assoc]

/-- What stands before the last parts of a flat name does not depend on how they are read. -/
theorem ReadsFlat.lead_unique {lead lead' rest rest' : List Char} {owner owner' : Owner}
    {id id' : ObjectId} (h : ReadsFlat rest owner id) (h' : ReadsFlat rest' owner' id')
    (hsame : lead ++ '.' :: rest = lead' ++ '.' :: rest') : lead = lead' := by
  cases h with
  | @temp number word hword =>
    cases h' with
    | @temp number' word' hword' =>
      have hwhole : (lead ++ '.' :: number) ++ flatTempSuffix.toList =
          (lead' ++ '.' :: number') ++ flatTempSuffix.toList := by
        simpa only [List.append_assoc, List.cons_append] using hsame
      exact (append_dot_inj (Numeral.dot_not_mem_of_read? hword)
        (Numeral.dot_not_mem_of_read? hword') (List.append_cancel_right hwhole)).1
    | table =>
      simp only [← List.cons_append, ← List.append_assoc] at hsame
      exact absurd hsame.symm not_object_of_temp
  | @table mark number table word htable hword =>
    cases h' with
    | temp =>
      simp only [← List.cons_append, ← List.append_assoc] at hsame
      exact absurd hsame not_object_of_temp
    | @table mark' number' table' word' htable' hword' =>
      have hwhole : ((lead ++ '.' :: mark) ++ '.' :: number) ++ objectSuffix.toList =
          ((lead' ++ '.' :: mark') ++ '.' :: number') ++ objectSuffix.toList := by
        simpa only [List.append_assoc, List.cons_append] using hsame
      -- The number ends at the last dot, and the table at the one before.
      have hmarks := append_dot_inj (Numeral.dot_not_mem_of_read? hword)
        (Numeral.dot_not_mem_of_read? hword') (List.append_cancel_right hwhole)
      exact (append_dot_inj (Numeral.dot_not_mem_of_read? htable)
        (Numeral.dot_not_mem_of_read? htable') hmarks.1).1

end Naming

namespace Path

/-- A path that ends in a name has it as its last step. -/
theorem components_of_lastPiece {p : Path} (h : IsName p.lastPiece) :
    p.components = p.lead ++ [.name p.lastPiece] :=
  components_of_pieces (List.dropLast_append_getLast (List.splitOn_ne_nil '/' p.spelling)).symm
    h.ofPiece?

theorem fileName?_eq_lastPiece_iff {p : Path} : p.fileName? = some p.lastPiece ↔ IsName p.lastPiece := by
  refine ⟨fun h => ?_, fun h => fileName?_of_components (components_of_lastPiece h)⟩
  unfold fileName? at h
  split at h
  next hlast =>
    cases h
    exact isName_of_mem_components (List.mem_of_getLast? hlast)
  next => cases h

theorem intercalate_cons (t second : Name) (rest : List Name) :
    ['/'].intercalate (t :: second :: rest) = t ++ '/' :: ['/'].intercalate (second :: rest) := by
  simp [List.intercalate]

theorem intercalate_prefix {pieces body : List Name} (h : pieces <+: body) :
    ['/'].intercalate pieces <+: ['/'].intercalate body := by
  obtain ⟨more, rfl⟩ := h
  induction pieces with
  | nil => exact List.nil_prefix
  | cons first pieces ih =>
    cases pieces with
    | nil =>
      cases more with
      | nil => exact List.prefix_refl _
      | cons second more =>
        rw [List.singleton_append, intercalate_cons]
        simp [List.intercalate]
    | cons second pieces =>
      rw [List.cons_append, List.cons_append, intercalate_cons, intercalate_cons,
        List.prefix_append_right_inj]
      exact List.cons_prefix_cons.2 ⟨rfl, ih⟩

theorem ofPieces_prefix {p : Path} {pieces : List Name} (h : pieces <+: p.body) :
    (ofPieces p.anchor? pieces).spelling <+: p.spelling := by
  have hwhole : ['/'].intercalate p.pieces = p.spelling := List.intercalate_splitOn '/'
  rw [← hwhole]
  unfold body anchor? at h
  unfold anchor?
  split
  next second rest hpieces =>
    rw [hpieces] at h ⊢
    rw [intercalate_cons]
    exact List.cons_prefix_cons.2 ⟨rfl, intercalate_prefix h⟩
  next rest hpieces =>
    rw [hpieces] at h ⊢
    have hrest : pieces <+: rest := h
    unfold ofPieces
    dsimp only
    cases rest with
    | nil =>
      rw [List.prefix_nil.1 hrest]
      exact List.prefix_refl _
    | cons second rest =>
      rw [intercalate_cons]
      split
      · exact List.prefix_append _ _
      · exact List.cons_prefix_cons.2 ⟨rfl, List.cons_prefix_cons.2 ⟨rfl, intercalate_prefix hrest⟩⟩
  next hroot hcurrent =>
    apply intercalate_prefix
    split at h
    next second rest hpieces => exact (hroot second rest hpieces).elim
    next rest hpieces => exact (hcurrent rest hpieces).elim
    next => exact h

/-- Going up only takes away from the end of a path. -/
theorem parent?_prefix {p q : Path} (h : p.parent? = some q) : q.spelling <+: p.spelling := by
  rw [parent?_eq] at h
  cases hrising : p.rising with
  | nil =>
    rw [hrising] at h
    dsimp only at h
    split at h
    · cases h
      exact List.nil_prefix
    · cases h
  | cons last rest =>
    rw [hrising] at h
    cases h
    exact ofPieces_prefix (prefix_body_of_rising hrising)

end Path

namespace Naming

variable {n : Naming}

/-- A flat name is read back if and only if the path of the database ends in a name. -/
theorem parseFlat?_flat_iff (owner : Owner) (id : ObjectId) :
    n.parseFlat? (n.base.lastPiece ++ flatEnding owner id) = some (owner, id) ↔
      IsName n.base.lastPiece := by
  obtain ⟨rest, hending, hreads⟩ := exists_flatEnding owner id
  rw [hending, parseFlat?_eq_some, ← Path.fileName?_eq_lastPiece_iff]
  constructor
  · rintro ⟨lead, rest', hname, hsame, hreads'⟩
    rw [hreads.lead_unique hreads' hsame]
    exact hname
  · intro hname
    exact ⟨_, rest, hname, rfl, hreads⟩

/-- Flat files are looked for where they are if something stands before the name of the database. -/
theorem flatDirectory_of_lead (hname : IsName n.base.lastPiece) (hlead : n.base.lead ≠ []) :
    n.flatDirectory.components = n.base.lead ∧ n.flatDirectory.spelling ≠ [] ∧
      n.flatDirectory.spelling <+: n.base.spelling := by
  have hbase := Path.components_of_lastPiece hname
  cases hparent : n.base.parent? with
  | none =>
    have hlength := Path.length_components_of_parent?_eq_none hparent
    rw [hbase, List.length_append, List.length_singleton] at hlength
    exact absurd (List.length_eq_zero_iff.1 (by omega)) hlead
  | some above =>
    have hsteps := Path.components_of_parent? hparent
    rw [hbase, List.dropLast_concat] at hsteps
    have hspelling : above.spelling ≠ [] := by
      intro hnil
      apply hlead
      rw [← hsteps, show above = ⟨[]⟩ from congrArg Path.mk hnil]
      rfl
    have hdirectory : n.flatDirectory = above := by
      unfold flatDirectory
      rw [hparent]
      exact if_neg hspelling
    rw [hdirectory]
    exact ⟨hsteps, hspelling, Path.parent?_prefix hparent⟩

/-- Without a directory they are looked for behind a single dot. -/
theorem flatDirectory_of_bare (hname : IsName n.base.lastPiece) (hlead : n.base.lead = []) :
    n.flatDirectory = ⟨['.']⟩ := by
  have hbase := Path.components_of_lastPiece hname
  unfold flatDirectory
  cases hparent : n.base.parent? with
  | none => rfl
  | some above =>
    have hsteps := Path.components_of_parent? hparent
    rw [hbase, hlead, List.dropLast_concat] at hsteps
    exact if_pos (by_contra fun hne => Path.components_ne_nil hne hsteps)

end Naming

end LargeObjects

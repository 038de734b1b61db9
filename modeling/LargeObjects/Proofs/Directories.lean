import Mathlib
import LargeObjects.Store.Disk
import LargeObjects.Proofs.FlatNames

/-! Following paths on a file system. A path is followed step by step, however it is spelled, so a
file is listed by every path that leads to the directory that it is in. -/
namespace LargeObjects.Disk

section Results

variable {ε α β : Type} {x : Except ε α} {f : α → Except ε β} {a : α} {b : β}

theorem bind_of_ok (h : x = .ok a) : x >>= f = f a := by
  rw [h]
  rfl

theorem exists_of_bind (h : x >>= f = .ok b) : ∃ a, x = .ok a ∧ f a = .ok b := by
  cases x with
  | error e => cases h
  | ok a => exact ⟨a, rfl, h⟩

end Results

section Octets

theorem byteCount_append (text more : List Char) :
    byteCount (text ++ more) = byteCount text + byteCount more := by
  have hfrom : ∀ (more : List Char) (size : Nat),
      more.foldl (fun size c => size + c.utf8Size) size = size + byteCount more := by
    intro more
    unfold byteCount
    induction more with
    | nil => exact fun _ => rfl
    | cons c more ih =>
      intro size
      rw [List.foldl_cons, List.foldl_cons, ih, ih (0 + c.utf8Size)]
      omega
  unfold byteCount
  rw [List.foldl_append, hfrom]
  rfl

theorem byteCount_mono {text more : List Char} (h : text <+: more) :
    byteCount text ≤ byteCount more := by
  obtain ⟨rest, rfl⟩ := h
  rw [byteCount_append]
  exact Nat.le_add_right _ _

theorem byteCount_pos {text : List Char} (h : text ≠ []) : 0 < byteCount text := by
  obtain ⟨c, rest, rfl⟩ := List.exists_cons_of_ne_nil h
  have hc : byteCount [c] = 0 + c.utf8Size := rfl
  have hpos := c.utf8Size_pos
  rw [← List.singleton_append, byteCount_append]
  omega

structure Brief (text : List Char) (size : Nat) : Prop where
  clean : '\x00' ∉ text
  short : byteCount text ≤ size

namespace Brief

variable {text more : List Char} {j k : Nat}

theorem mono (h : Brief text j) (hle : j ≤ k) : Brief text k := ⟨h.clean, h.short.trans hle⟩

theorem append (h : Brief text j) (h' : Brief more k) : Brief (text ++ more) (j + k) := by
  refine ⟨?_, ?_⟩
  · rw [List.mem_append, not_or]
    exact ⟨h.clean, h'.clean⟩
  · rw [byteCount_append]
    exact Nat.add_le_add h.short h'.short

theorem shorten (h : Brief more k) (hgoes : text <+: more) : Brief text k :=
  ⟨fun hmem => h.clean (hgoes.subset hmem), (byteCount_mono hgoes).trans h.short⟩

end Brief

variable {p dir : Path}

/-- There is nothing wrong with the spelling of a path that is brief enough. -/
theorem objection?_eq_none : objection? p = none ↔ Brief p.spelling pathLimit := by
  unfold objection?
  constructor
  · intro h
    split at h
    · cases h
    next hclean =>
      split at h
      · cases h
      next hlong => exact ⟨hclean, Nat.not_lt.1 hlong⟩
  · intro h
    rw [if_neg h.clean, if_neg (Nat.not_lt.2 h.short)]

/-- Nothing is wrong with a path that only goes on where nothing is wrong. -/
theorem objection?_of_prefix (hgoes : dir.spelling <+: p.spelling) (h : objection? p = none) :
    objection? dir = none :=
  objection?_eq_none.2 ((objection?_eq_none.1 h).shorten hgoes)

/-- What is wrong with the spelling of a path is not that there is no such file. -/
theorem objection?_ne_noSuchFile (p : Path) : objection? p ≠ some .noSuchFile := by
  unfold objection?
  split_ifs <;> nofun

end Octets

section Walking

variable {d : Disk} {p q : Path} {dir k n : Nat} {name : Name} {slashed : Bool}

def follow (d : Disk) (dir : Nat) : Component → Except SystemError Nat
  | .root | .current => .ok dir
  | .parent => .ok (d.directory dir).above
  | .name name => d.enter dir name

def reach (d : Disk) (p : Path) : Except SystemError Nat := p.components.foldlM d.follow (origin p)

theorem enter_eq_follow {piece : Name} {c : Component} (h : Component.ofPiece? piece = some c) :
    d.enter dir piece = d.follow dir c := by
  unfold Component.ofPiece? at h
  split at h <;> cases h
  · rfl
  · rfl

theorem enter_blank {piece : Name} (h : Component.ofPiece? piece = none) :
    d.enter dir piece = .ok dir := by
  unfold enter
  rw [h]

/-- Pieces that are no steps make no difference. -/
theorem foldlM_enter (pieces : List Name) (dir : Nat) : pieces.foldlM d.enter dir =
    (pieces.filterMap Component.ofPiece?).foldlM d.follow dir := by
  induction pieces generalizing dir with
  | nil => rfl
  | cons piece pieces ih =>
    cases hpiece : Component.ofPiece? piece with
    | none =>
      rw [List.filterMap_cons_none hpiece, List.foldlM_cons, enter_blank hpiece]
      exact ih dir
    | some c =>
      rw [List.filterMap_cons_some hpiece, List.foldlM_cons, List.foldlM_cons,
        enter_eq_follow hpiece]
      exact congrArg _ (funext ih)

theorem filterMap_filter (pieces : List Name) :
    (pieces.filter (· ≠ [])).filterMap Component.ofPiece? = pieces.filterMap Component.ofPiece? := by
  rw [List.filterMap_filter]
  apply List.filterMap_congr
  intro piece _
  split
  · rfl
  next hne =>
    have hnil : piece = [] := by simpa using hne
    rw [hnil]
    rfl

/-- Where a path starts is no step. -/
theorem foldlM_anchor (steps : List Component) (dir : Nat) :
    (p.anchor?.toList ++ steps).foldlM d.follow dir = steps.foldlM d.follow dir := by
  unfold Path.anchor?
  split <;> rfl

theorem reach_eq (d : Disk) (p : Path) :
    d.reach p = (p.pieces.filter (· ≠ [])).foldlM d.enter (origin p) := by
  rw [foldlM_enter, filterMap_filter]
  exact foldlM_anchor _ _

def target (d : Disk) (p : Path) (last : Name) (dir : Nat) : Target :=
  match Component.ofPiece? last with
  | some (.name name) => .name dir name (p.spelling.getLast? = some '/')
  | some _ => .directory (d.directory dir).above
  | none => .directory dir

theorem locate_concat {init : List Name} {last : Name} (hobjection : objection? p = none)
    (hpieces : p.pieces.filter (· ≠ []) = init ++ [last]) :
    d.locate p = init.foldlM d.enter (origin p) >>= fun dir => .ok (d.target p last dir) := by
  unfold locate target
  rw [hobjection, hpieces]
  dsimp only
  rw [List.getLast?_concat, List.dropLast_concat]
  refine congrArg (init.foldlM d.enter (origin p) >>= ·) (funext fun dir => ?_)
  cases Component.ofPiece? last with
  | none => rfl
  | some c => cases c <;> rfl

theorem locate_nil (hobjection : objection? p = none) (hpieces : p.pieces.filter (· ≠ []) = []) :
    d.locate p = if p.spelling = [] then .error .noSuchFile else .ok (.directory (origin p)) := by
  unfold locate
  rw [hobjection, hpieces]
  rfl

theorem objection?_of_locate {t : Target} (h : d.locate p = .ok t) : objection? p = none := by
  cases hobjection : objection? p with
  | none => rfl
  | some e =>
    unfold locate at h
    rw [hobjection] at h
    cases h

theorem enter_name_ok {piece : Name} (hpiece : Component.ofPiece? piece = some (.name name))
    (h : d.enter dir piece = .ok k) : d.child dir name = .ok (.directory k) := by
  unfold enter at h
  rw [hpiece] at h
  obtain ⟨entry, hchild, hentry⟩ := exists_of_bind h
  cases entry with
  | file n => cases hentry
  | directory n =>
    cases hentry
    exact hchild

/-- A path that leads to a directory is found to be one. -/
theorem status_of_reach (hobjection : objection? p = none) (hne : p.spelling ≠ [])
    (h : d.reach p = .ok k) : d.status p = .ok (.directory k) := by
  rw [reach_eq] at h
  unfold status
  rcases List.eq_nil_or_concat (p.pieces.filter (· ≠ [])) with hnil | ⟨init, last, hpieces⟩
  · rw [hnil] at h
    rw [locate_nil hobjection hnil, if_neg hne]
    cases h
    rfl
  · rw [List.concat_eq_append] at hpieces
    rw [hpieces, List.foldlM_append] at h
    obtain ⟨m, hinit, hrest⟩ := exists_of_bind h
    obtain ⟨_, hlast, hend⟩ := exists_of_bind hrest
    cases hend
    rw [locate_concat hobjection hpieces, bind_of_ok hinit]
    -- The last step was taken like the others; here it is looked up instead.
    unfold target
    cases hpiece : Component.ofPiece? last with
    | none =>
      rw [enter_blank hpiece] at hlast
      cases hlast
      rfl
    | some c =>
      cases c with
      | name name => exact bind_of_ok (enter_name_ok hpiece hlast)
      | parent | root | current =>
        unfold enter at hlast
        rw [hpiece] at hlast
        cases hlast
        rfl

theorem isDirectory_iff : d.isDirectory p = true ↔ ∃ k, d.status p = .ok (.directory k) := by
  unfold isDirectory
  split
  next k hstatus => exact ⟨fun _ => ⟨k, hstatus⟩, fun _ => rfl⟩
  next hstatus => exact ⟨nofun, fun ⟨k, hk⟩ => absurd hk (hstatus k)⟩

/-- What is found to be a directory is where the path leads. -/
theorem reach_of_status (h : d.status p = .ok (.directory k)) : d.reach p = .ok k := by
  rw [reach_eq]
  unfold status at h
  obtain ⟨found, hlocate, hrest⟩ := exists_of_bind h
  have hobjection := objection?_of_locate hlocate
  rcases List.eq_nil_or_concat (p.pieces.filter (· ≠ [])) with hnil | ⟨init, last, hpieces⟩
  · rw [locate_nil hobjection hnil] at hlocate
    split at hlocate <;> cases hlocate
    cases hrest
    rw [hnil]
    rfl
  · rw [List.concat_eq_append] at hpieces
    rw [locate_concat hobjection hpieces] at hlocate
    obtain ⟨m, hinit, hlast⟩ := exists_of_bind hlocate
    rw [hpieces, List.foldlM_append, bind_of_ok hinit]
    have hend : d.enter m last = .ok k := by
      unfold target at hlast
      unfold enter
      cases hpiece : Component.ofPiece? last with
      | none =>
        rw [hpiece] at hlast
        cases hlast
        cases hrest
        rfl
      | some c =>
        rw [hpiece] at hlast
        cases c with
        | name name =>
          cases hlast
          obtain ⟨entry, hchild, hentry⟩ := exists_of_bind hrest
          refine (bind_of_ok hchild).trans ?_
          cases entry with
          | directory n =>
            cases hentry
            rfl
          | file n =>
            dsimp only at hentry
            split at hentry <;> cases hentry
        | parent | root | current =>
          cases hlast
          cases hrest
          rfl
    exact bind_of_ok hend

/-- A name that a path ends in is looked for where the steps before it lead. -/
theorem locate_name (h : d.locate p = .ok (.name dir name slashed)) :
    ∃ front, p.components = front ++ [.name name] ∧
      front.foldlM d.follow (origin p) = .ok dir := by
  have hobjection := objection?_of_locate h
  rcases List.eq_nil_or_concat (p.pieces.filter (· ≠ [])) with hnil | ⟨init, last, hpieces⟩
  · rw [locate_nil hobjection hnil] at h
    split at h <;> cases h
  · rw [List.concat_eq_append] at hpieces
    rw [locate_concat hobjection hpieces] at h
    obtain ⟨m, hinit, hlast⟩ := exists_of_bind h
    have htarget : d.target p last m = .name dir name slashed := by
      injection hlast
    unfold target at htarget
    split at htarget
    next c hpiece =>
      cases htarget
      have hsteps : p.components =
          (p.anchor?.toList ++ init.filterMap Component.ofPiece?) ++ [.name name] := by
        unfold Path.components
        rw [← filterMap_filter, hpieces, List.filterMap_append, List.append_assoc]
        simp [hpiece]
      refine ⟨_, hsteps, ?_⟩
      -- The pieces that are no steps were passed over on the way.
      rw [foldlM_anchor, ← foldlM_enter]
      exact hinit
    next => cases htarget
    next => cases htarget

/-- How a path that leads to a file ends. -/
theorem exists_of_isFile (h : d.isFile p = true) : ∃ dir name n,
    d.locate p = .ok (.name dir name false) ∧ d.child dir name = .ok (.file n) := by
  unfold isFile at h
  split at h
  next n hstatus =>
    obtain ⟨t, hlocate, hrest⟩ := exists_of_bind hstatus
    cases t with
    | directory k => cases hrest
    | name dir name slashed =>
      obtain ⟨entry, hchild, hentry⟩ := exists_of_bind hrest
      cases entry with
      | directory k => cases hentry
      | file m =>
        cases slashed with
        | true => cases hentry
        | false => exact ⟨dir, name, m, hlocate, hchild⟩
  next => cases h

theorem isFile_of_child (hlocate : d.locate p = .ok (.name dir name false))
    (hchild : d.child dir name = .ok (.file n)) : d.isFile p = true := by
  have hstatus : d.status p = .ok (.file n) := (bind_of_ok hlocate).trans (bind_of_ok hchild)
  unfold isFile
  rw [hstatus]

theorem child_eq_ok_iff {entry : Entry} : d.child dir name = .ok entry ↔
    byteCount name ≤ nameLimit ∧ (d.directory dir).entries.get? name = some entry := by
  unfold child
  by_cases hlong : nameLimit < byteCount name
  · rw [if_pos hlong]
    exact ⟨nofun, fun h => absurd h.1 (Nat.not_le.2 hlong)⟩
  · rw [if_neg hlong]
    cases (d.directory dir).entries.get? name with
    | none => exact ⟨nofun, fun h => nomatch h.2⟩
    | some found =>
      constructor
      · intro h
        cases h
        exact ⟨Nat.not_lt.1 hlong, rfl⟩
      · rintro ⟨-, h⟩
        cases h
        rfl

/-- Where there is no entry, the name is not to blame. -/
theorem child_eq_missing_iff : d.child dir name = .error .noSuchFile ↔
    byteCount name ≤ nameLimit ∧ (d.directory dir).entries.get? name = none := by
  unfold child
  by_cases hlong : nameLimit < byteCount name
  · rw [if_pos hlong]
    exact ⟨nofun, fun h => absurd h.1 (Nat.not_le.2 hlong)⟩
  · rw [if_neg hlong]
    cases (d.directory dir).entries.get? name with
    | none => exact ⟨fun _ => ⟨Nat.not_lt.1 hlong, rfl⟩, fun _ => rfl⟩
    | some found => exact ⟨nofun, fun h => nomatch h.2⟩

theorem list_of_status (h : d.status p = .ok (.directory k)) :
    FileStore.list p d = .ok ((d.directory k).entries.keys.map p.join) d := by
  simp only [FileStore.list, h]

/-- A file is listed in every directory that the steps before its name lead to. -/
theorem mem_list_of_isFile {dir : Path} {front : List Component} (hfile : d.isFile p = true)
    (hsteps : p.components = front ++ [.name name]) (hobjection : objection? dir = none)
    (hne : dir.spelling ≠ []) (hreach : d.reach dir = front.foldlM d.follow (origin p)) :
    ∃ entries, FileStore.list dir d = .ok entries d ∧ dir.join name ∈ entries := by
  obtain ⟨k, last, n, hlocate, hchild⟩ := exists_of_isFile hfile
  obtain ⟨front', hsteps', hfront⟩ := locate_name hlocate
  rw [hsteps] at hsteps'
  obtain ⟨rfl, hlast⟩ := List.append_inj' hsteps' rfl
  cases hlast
  rw [hfront] at hreach
  refine ⟨_, list_of_status (status_of_reach hobjection hne hreach), ?_⟩
  apply List.mem_map_of_mem
  exact List.mem_map.2 ⟨_, SortedMap.mem_of_get? (child_eq_ok_iff.1 hchild).2, rfl⟩

theorem ofPiece?_ne_root (piece : Name) : Component.ofPiece? piece ≠ some .root := by
  unfold Component.ofPiece?
  split <;> nofun

theorem head?_components_iff (p : Path) :
    p.components.head? = some .root ↔ p.spelling.head? = some '/' := by
  constructor
  · intro h
    have hwhole : ['/'].intercalate p.pieces = p.spelling := List.intercalate_splitOn '/'
    unfold Path.components Path.anchor? at h
    split at h
    next second rest hpieces =>
      rw [← hwhole, hpieces, Path.intercalate_cons]
      rfl
    next => cases h
    next =>
      obtain ⟨piece, -, hroot⟩ := List.mem_filterMap.1 (List.mem_of_mem_head? h)
      exact absurd hroot (ofPiece?_ne_root piece)
  · intro h
    obtain ⟨rest, hrest⟩ := List.head?_eq_some_iff.1 h
    obtain ⟨second, more, hsplit⟩ := List.exists_cons_of_ne_nil (List.splitOn_ne_nil '/' rest)
    have hpieces : p.pieces = [] :: second :: more := by
      unfold Path.pieces
      rw [hrest, ← hsplit]
      exact List.splitOn_append_cons_self [] rest
    unfold Path.components Path.anchor?
    rw [hpieces]
    rfl

/-- Where a path starts is told by its first step. -/
theorem origin_eq (p : Path) : origin p = if p.components.head? = some .root then 0 else 1 := by
  unfold origin
  simp only [head?_components_iff]

end Walking

end LargeObjects.Disk

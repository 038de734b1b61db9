import Mathlib
import LargeObjects.Proofs.DiskTrees
import LargeObjects.Proofs.Browsing

/-! Stores in which paths that go down by different names lead to different files. What is done with
the one then concerns neither the other one nor a directory in which only names of the other count. -/
namespace LargeObjects

open Step

namespace Path

variable {p q : Path} {front rest : List Component}

def undotted (steps : List Component) : List Component := steps.filter (· ≠ .current)

def way (p : Path) : List Component := undotted p.components

theorem undotted_append (front rest : List Component) :
    undotted (front ++ rest) = undotted front ++ undotted rest := List.filter_append _ _

theorem undotted_cons {c : Component} (hc : c ≠ .current) (rest : List Component) :
    undotted (c :: rest) = c :: undotted rest := List.filter_cons_of_pos (decide_eq_true hc)

theorem way_of_components (h : p.components = front ++ rest) (hrest : .current ∉ rest) :
    p.way = undotted front ++ rest := by
  have hkept : undotted rest = rest :=
    List.filter_eq_self.2 fun c hc => decide_eq_true fun hdot => hrest (hdot ▸ hc)
  rw [way, h, undotted_append, hkept]

theorem mem_components_of_mem_way {c : Component} (h : c ∈ p.way) : c ∈ p.components :=
  (List.mem_filter.1 h).1

/-- A way starts at the root when the path does. -/
theorem head?_way (p : Path) : p.way.head? = some .root ↔ p.components.head? = some .root := by
  constructor
  · intro h
    have hroot : .root ∈ p.components := mem_components_of_mem_way (List.mem_of_mem_head? h)
    unfold components at hroot ⊢
    rcases List.mem_append.1 hroot with hanchor | hpiece
    · rw [Option.mem_toList.1 hanchor]
      rfl
    · obtain ⟨piece, -, hpiece⟩ := List.mem_filterMap.1 hpiece
      exact absurd hpiece (Disk.ofPiece?_ne_root piece)
  · intro h
    obtain ⟨rest, hrest⟩ := List.head?_eq_some_iff.1 h
    rw [way, hrest]
    rfl

def Parts (down : Component → Prop) (p q : Path) : Prop :=
  ∃ front a b rest rest', a ≠ b ∧ (∀ c ∈ rest, down c) ∧ (∀ c ∈ rest', down c) ∧
    p.way = front ++ .name a :: rest ∧ q.way = front ++ .name b :: rest'

theorem getLast?_pieces_join (p : Path) {t : Name} (ht : '/' ∉ t) :
    (p.join t).pieces.getLast? = some t := by
  have hhead : t.head? ≠ some '/' := fun h => ht (List.mem_of_mem_head? h)
  unfold join pieces
  rw [if_neg hhead]
  split
  next hend =>
    rcases hend with hnil | hsep
    · rw [hnil, List.nil_append, List.splitOn_eq_singleton ht]
      rfl
    · obtain ⟨xs, hxs⟩ := List.getLast?_eq_some_iff.1 hsep
      rw [hxs, List.append_assoc, List.singleton_append, List.splitOn_append_cons_self,
        List.splitOn_eq_singleton ht, List.getLast?_concat]
  next =>
    rw [List.splitOn_append_cons_self, List.splitOn_eq_singleton ht, List.getLast?_concat]

theorem lastPiece_join (p : Path) {t : Name} (ht : IsName t) : (p.join t).lastPiece = t := by
  unfold lastPiece
  exact List.getLast_of_getLast?_eq_some (getLast?_pieces_join p ht.no_separator)

theorem lead_join (p : Path) {t : Name} (ht : IsName t) : (p.join t).lead = p.components := by
  have hlast := lastPiece_join p ht
  have hsteps := components_of_lastPiece (p := p.join t) (by rwa [hlast])
  rw [components_join p ht, hlast] at hsteps
  exact (List.append_cancel_right hsteps).symm

end Path

inductive SameBut {σ : Type} (name : Name) :
    EStateM.Result StoreError σ (List Path) → EStateM.Result StoreError σ (List Path) → Prop
  | ok {entries entries' : List Path} {s t : σ} :
    (∀ e, e.fileName? ≠ some name → (e ∈ entries ↔ e ∈ entries')) →
    SameBut name (.ok entries s) (.ok entries' t)
  | error {e : StoreError} {s t : σ} : SameBut name (.error e s) (.error e t)

theorem SameBut.refl {σ : Type} (name : Name) (r : EStateM.Result StoreError σ (List Path)) :
    SameBut name r r := by
  cases r with
  | ok entries s => exact .ok fun _ _ => Iff.rfl
  | error e s => exact .error

/-- A store in which directories are walked downwards, so that paths that go down by different names
lead to different files. -/
class LocalStore (σ : Type) [FileStore σ] where
  /-- What holds of every store that comes about by calls. -/
  Sane : σ → Prop
  /-- What tells the files of a store apart. -/
  Place : Type
  place? : σ → Path → Option Place
  content? : σ → Place → Option Bytes
  /-- A step from a directory to one of its entries. -/
  Down : Component → Prop
  down_name {t : Name} : IsName t → Down (.name t)
  not_down_current : ¬Down .current
  list_keeps (dir : Path) {s : σ} : Sane s → Sane (after (FileStore.list dir) s) ∧
    place? (after (FileStore.list dir) s) = place? s ∧
    content? (after (FileStore.list dir) s) = content? s
  list_down {dir : Path} {s t : σ} {entries : List Path} : Sane s → dir.components ≠ [] →
    FileStore.list dir s = .ok entries t →
    ∀ e ∈ entries, ∃ c, Down c ∧ e.components = dir.components ++ [c]
  delete_keeps (path : Path) {s : σ} : Sane s → Sane (after (FileStore.delete path) s) ∧
    place? (after (FileStore.delete path) s) = place? s ∧
    ∀ p, place? s path ≠ some p → content? (after (FileStore.delete path) s) p = content? s p
  apart {p q : Path} {s : σ} {place : Place} : Sane s → p.Parts Down q → place? s p = some place →
    place? s q ≠ some place
  /-- Without a file below it, a directory has at most that entry less that leads to the file. -/
  list_deleted {dir path : Path} {s : σ} {name : Name} {rest : List Component} : Sane s →
    dir.components ≠ [] → path.way = dir.way ++ .name name :: rest → (∀ c ∈ rest, Down c) →
    SameBut name (FileStore.list dir s) (FileStore.list dir (after (FileStore.delete path) s))

namespace MemoryStore

theorem ne_current_of_child {s : MemoryStore} {dir : Path} {c : Component}
    (hdir : dir.components ≠ []) (h : c ∈ s.children dir) : c ≠ .current := by
  rintro rfl
  obtain ⟨hpiece, -⟩ := piece_of_child hdir h
  cases hpiece

/-- Erasing a file takes away at most the first step toward it. -/
theorem mem_children_erase {s : MemoryStore} {dir path : Path} {name : Name} {rest : List Component}
    {c : Component} (hdir : dir.components ≠ []) (hway : path.way = dir.way ++ .name name :: rest)
    (hc : c ≠ .name name) : c ∈ (s.erase path).children dir ↔ c ∈ s.children dir := by
  constructor
  · intro h
    obtain ⟨more, hfile⟩ := mem_children_iff.1 h
    rw [at?_erase] at hfile
    split at hfile
    · cases hfile
    · exact mem_children_iff.2 ⟨more, hfile⟩
  · intro h
    obtain ⟨more, hfile⟩ := mem_children_iff.1 h
    refine mem_children_iff.2 ⟨more, ?_⟩
    rw [at?_erase, if_neg]
    · exact hfile
    · intro hsteps
      rw [Path.way, hsteps, Path.undotted_append, Path.way, List.append_cancel_left_eq,
        Path.undotted_cons (ne_current_of_child hdir h)] at hway
      exact hc (List.cons.inj hway).1

end MemoryStore

open MemoryStore in
instance : LocalStore MemoryStore where
  Sane _ := True
  Place := List Component
  place? _ p := some p.components
  content? := at?
  Down c := c ≠ .current
  down_name _ := Component.noConfusion
  not_down_current h := h rfl
  list_keeps _ _ _ := ⟨trivial, rfl, rfl⟩
  list_down := by
    rintro dir s _ _ - hdir ⟨⟩ e hmem
    obtain ⟨c, hc, rfl⟩ := List.mem_map.1 hmem
    exact ⟨c, ne_current_of_child hdir hc, components_join_child hc⟩
  delete_keeps path s _ := by
    refine ⟨trivial, rfl, fun place hne => ?_⟩
    exact (at?_erase s path place).trans (if_neg fun h => hne (congrArg some h))
  apart := by
    rintro p q s _ - ⟨front, a, b, rest, rest', hne, -, -, hp, hq⟩ ⟨⟩ hsame
    have hway : q.way = p.way := congrArg Path.undotted (Option.some.inj hsame)
    rw [hp, hq, List.append_cancel_left_eq, List.cons.injEq, Component.name.injEq] at hway
    exact hne hway.1.symm
  list_deleted := by
    intro dir path s name rest _ hdir hway _
    refine .ok fun e he => ?_
    rw [List.mem_map, List.mem_map]
    refine exists_congr fun c => and_congr_left fun heq => ?_
    refine (mem_children_erase hdir hway fun hc => he ?_).symm
    have hname : IsName name := by
      have hmem : .name name ∈ path.way := hway ▸ List.mem_append_right _ List.mem_cons_self
      exact Path.isName_of_mem_components (Path.mem_components_of_mem_way hmem)
    rw [← heq, hc]
    exact Path.fileName?_join dir hname

namespace Disk

variable {d d' : Disk} {p q dir : Path} {k x : Nat} {t a : Name} {front rest : List Component}

/-- A dot is no step of the way. -/
theorem foldlM_way (steps : List Component) (k : Nat) :
    (Path.undotted steps).foldlM d.follow k = steps.foldlM d.follow k := by
  induction steps generalizing k with
  | nil => rfl
  | cons c steps ih =>
    by_cases hc : c = .current
    · rw [hc]
      exact ih k
    · rw [Path.undotted_cons hc, List.foldlM_cons, List.foldlM_cons]
      exact congrArg _ (funext ih)

/-- A dot at the start leads nowhere else. -/
theorem reach_eq_way (d : Disk) (p : Path) : d.reach p = p.way.foldlM d.follow (origin p) :=
  (foldlM_way p.components (origin p)).symm

/-- Ways that agree up to names start in the same directory. -/
theorem origin_eq_of_way {more more' : List Component} (hp : p.way = front ++ more)
    (hq : q.way = front ++ more') (hmore : more.head? ≠ some .root)
    (hmore' : more'.head? ≠ some .root) : origin p = origin q := by
  rw [origin_eq, origin_eq]
  simp only [← Path.head?_way, hp, hq]
  cases front with
  | nil => rw [List.nil_append, List.nil_append, if_neg hmore, if_neg hmore']
  | cons c front => rfl

theorem exists_names (h : ∀ c ∈ rest, ∃ u, c = .name u ∧ IsName u) :
    ∃ names : List Name, rest = names.map .name ∧ ∀ u ∈ names, IsName u := by
  induction rest with
  | nil => exact ⟨[], rfl, nofun⟩
  | cons c rest ih =>
    obtain ⟨u, rfl, hu⟩ := h c List.mem_cons_self
    obtain ⟨names, rfl, hnames⟩ := ih fun c hc => h c (List.mem_cons_of_mem _ hc)
    refine ⟨u :: names, rfl, fun v hv => ?_⟩
    rcases List.mem_cons.1 hv with rfl | hv
    · exact hu
    · exact hnames v hv

/-- The place of a file that a path goes down to by names. -/
theorem Tree.place_of_way (h : d.Tree) (hplace : d.place? p = some (k, t))
    (hway : p.way = front ++ .name a :: rest) (hrest : ∀ c ∈ rest, ∃ u, c = .name u ∧ IsName u) :
    ∃ x names, front.foldlM d.follow (origin p) = .ok x ∧
      (d.directory k).place ++ [t] = (d.directory x).place ++ a :: names := by
  obtain ⟨names, rfl, hnames⟩ := exists_names hrest
  have ha : IsName a := by
    have hmem : .name a ∈ p.way := hway ▸ List.mem_append_right _ List.mem_cons_self
    exact Path.isName_of_mem_components (Path.mem_components_of_mem_way hmem)
  obtain ⟨steps, hsteps, hreach⟩ := locate_name (place?_eq_some_iff.1 hplace)
  rw [← foldlM_way] at hreach
  have hlast := Path.way_of_components hsteps (by simp)
  rw [hway] at hlast
  -- The last name is the file's, and those before it lead to its directory.
  obtain ⟨init, last, hsplit⟩ : ∃ init last, a :: names = init ++ [last] :=
    ⟨_, _, (List.dropLast_append_getLast (List.cons_ne_nil a names)).symm⟩
  have hinit : ∀ u ∈ init, IsName u := by
    intro u hu
    rcases List.mem_cons.1 (hsplit ▸ List.mem_append_left _ hu) with rfl | hu
    · exact ha
    · exact hnames u hu
  have hwhole : front ++ .name a :: names.map .name =
      (front ++ init.map .name) ++ [Component.name last] := by
    rw [← List.map_cons, hsplit, List.map_append, List.append_assoc]
    rfl
  obtain ⟨hfront, hname⟩ := List.append_inj' (hwhole.symm.trans hlast) rfl
  rw [← hfront, List.foldlM_append] at hreach
  obtain ⟨x, hx, hdown⟩ := exists_of_bind hreach
  refine ⟨x, names, hx, ?_⟩
  rw [h.place_of_follow hinit hdown, List.append_assoc, hsplit]
  simp only [List.cons.injEq, Component.name.injEq, and_true] at hname
  rw [hname]

theorem list_of_error {e : SystemError} (h : d.status dir = .error e) (h' : d'.status dir = .error e)
    (name : Name) : SameBut name (FileStore.list dir d) (FileStore.list dir d') := by
  simp only [FileStore.list, h, h']
  cases e with
  | noSuchFile => exact .ok fun _ _ => Iff.rfl
  | _ => exact .error

/-- A directory from which an entry is taken away lists the others. -/
theorem list_eraseEntry {name : Name} {n : Nat} (h : d.Tree) (hfile : d.child k t = .ok (.file n))
    (hreach : d.reach dir = .ok x) (hne : dir.spelling ≠ []) (hgone : k = x → t = name) :
    SameBut name (FileStore.list dir d) (FileStore.list dir (d.eraseEntry k t)) := by
  cases hobjection : objection? dir with
  | some e =>
    have hstatus : ∀ d₀ : Disk, d₀.status dir = .error e := by
      intro d₀
      unfold status locate
      rw [hobjection]
      rfl
    exact list_of_error (hstatus d) (hstatus _) name
  | none =>
    have hreach' : (d.eraseEntry k t).reach dir = .ok x := by
      rw [reach_eq] at hreach ⊢
      exact (leads_eraseEntry hfile).1.foldlM_enter h.sound (h.sound.origin_lt dir) hreach
    rw [list_of_status (status_of_reach hobjection hne hreach),
      list_of_status (status_of_reach hobjection hne hreach')]
    refine .ok fun e he => ?_
    simp only [List.mem_map, SortedMap.mem_keys_iff]
    refine exists_congr fun u => and_congr_left fun heq => ?_
    rw [get?_eraseEntry]
    by_cases hu : (k = x ∧ x < d.directories.size) ∧ t = u
    -- The entry that was taken away has the name in which the listings may differ.
    · obtain ⟨⟨hk, -⟩, rfl⟩ := hu
      have ht : IsName t := h.isName (child_eq_ok_iff.1 hfile).2
      rw [hgone hk] at ht heq
      exact absurd (heq ▸ Path.fileName?_join dir ht) he
    · rw [if_neg hu]

end Disk

open Disk in
instance : LocalStore Disk where
  Sane := Tree
  Place := Nat × Name
  place? := Disk.place?
  content? := contentOf?
  Down c := ∃ t, c = .name t ∧ IsName t
  down_name ht := ⟨_, rfl, ht⟩
  not_down_current := by
    rintro ⟨_, h, -⟩
    cases h
  list_keeps dir d h := by
    rw [QuietStore.list_keeps]
    exact ⟨h, rfl, rfl⟩
  list_down := by
    intro dir d d' entries h _ hlist e hmem
    have hentries : entries = [] ∨ ∃ k, entries = (d.directory k).entries.keys.map dir.join := by
      simp only [FileStore.list] at hlist
      split at hlist
      next k _ =>
        cases hlist
        exact Or.inr ⟨k, rfl⟩
      next => cases hlist
      next =>
        cases hlist
        exact Or.inl rfl
      next => cases hlist
    rcases hentries with rfl | ⟨k, rfl⟩
    · cases hmem
    · obtain ⟨t, ht, rfl⟩ := List.mem_map.1 hmem
      obtain ⟨entry, hget⟩ := Option.isSome_iff_exists.1 (SortedMap.mem_keys_iff.1 ht)
      exact ⟨_, ⟨t, rfl, h.isName hget⟩, Path.components_join dir (h.isName hget)⟩
  delete_keeps path d h := by
    rcases run_delete_cases d path with hsame | ⟨k, t, n, hplace, hfile, hgone⟩
    · rw [show after (FileStore.delete path) d = d from hsame]
      exact ⟨h, rfl, fun _ _ => rfl⟩
    · rw [show after (FileStore.delete path) d = d.eraseEntry k t from hgone]
      refine ⟨h.eraseEntry k t, funext (place?_eraseEntry h.sound hfile), fun place hne => ?_⟩
      exact contentOf?_eraseEntry fun heq => hne (heq ▸ hplace)
  apart := by
    rintro p q d ⟨k, t⟩ h ⟨front, a, b, rest, rest', hne, hrest, hrest', hp, hq⟩ hplace hplace'
    obtain ⟨x, names, hx, hside⟩ := h.place_of_way hplace hp hrest
    obtain ⟨x', names', hx', hside'⟩ := h.place_of_way hplace' hq hrest'
    rw [origin_eq_of_way hp hq nofun nofun, hx'] at hx
    cases hx
    rw [hside, List.append_cancel_left_eq] at hside'
    exact hne (List.cons.inj hside').1
  list_deleted := by
    intro dir path d name rest h hdir hway hrest
    rcases run_delete_cases d path with hsame | ⟨k, t, n, hplace, hfile, hgone⟩
    · rw [show after (FileStore.delete path) d = d from hsame]
      exact .refl name _
    · rw [show after (FileStore.delete path) d = d.eraseEntry k t from hgone]
      obtain ⟨x, names, hx, hside⟩ := h.place_of_way hplace hway hrest
      refine list_eraseEntry (x := x) h hfile ?_ (fun hnil => hdir ?_) fun hk => ?_
      · rw [reach_eq_way, origin_eq_of_way (List.append_nil dir.way).symm hway nofun nofun]
        exact hx
      · rw [show dir = ⟨[]⟩ from congrArg Path.mk hnil]
        rfl
      · rw [hk, List.append_cancel_left_eq] at hside
        exact (List.cons.inj hside).1

namespace Faulty

/-- Whether one operation fails does not go by the calls of another one. -/
theorem judge_judge {operation other : Operation} (hne : operation ≠ other) (path path' : Path)
    (faults : List Fault) :
    (Fault.judge operation path (Fault.judge other path' faults).2).1 =
      (Fault.judge operation path faults).1 := by
  induction faults with
  | nil => rfl
  | cons first rest ih =>
    by_cases hother : first.operation = other ∧ first.path.same path' = true
    · -- Only the calls that the fault lets through are counted, and it is for the other operation.
      have hjudge : (Fault.judge other path' (first :: rest)).2 = first :: rest ∨
          (Fault.judge other path' (first :: rest)).2 =
            { first with skip := first.skip - 1 } :: rest := by
        unfold Fault.judge
        rw [if_pos hother]
        split
        · exact Or.inr rfl
        · exact Or.inl rfl
      have hfirst : first.operation ≠ operation := fun h => hne (h.symm.trans hother.1)
      rcases hjudge with hjudge | hjudge
      · rw [hjudge]
      · rw [hjudge, Fault.judge, Fault.judge, if_neg fun h => hfirst h.1, if_neg fun h => hfirst h.1]
    · have hjudge : (Fault.judge other path' (first :: rest)).2 =
          first :: (Fault.judge other path' rest).2 := by
        rw [Fault.judge, if_neg hother]
      rw [hjudge, Fault.judge, Fault.judge]
      by_cases hfirst : first.operation = operation ∧ first.path.same path = true
      · rw [if_pos hfirst, if_pos hfirst]
        split <;> rfl
      · rw [if_neg hfirst, if_neg hfirst]
        exact ih

variable {σ α : Type} {s s' : Faulty σ} {name : Name} {dir : Path}

/-- Faults are used up by calls, and by nothing that the store answers. -/
theorem guarded_faults {operation : Operation} {path : Path} {act : Step StoreError σ α} :
    (after (guarded operation path act) s).faults =
      (Fault.judge operation path s.faults).2 := by
  unfold after guarded judge
  rcases Fault.judge operation path s.faults with ⟨_ | _ | _, faults⟩
  · simp only [pass]
    cases act s.store <;> rfl
  · rfl
  · simp only [pass]
    cases act s.store <;> rfl

theorem sameBut_guarded [FileStore σ]
    (hverdict : (Fault.judge .list dir s'.faults).1 = (Fault.judge .list dir s.faults).1)
    (h : SameBut name (FileStore.list dir s.store) (FileStore.list dir s'.store)) :
    SameBut name (FileStore.list dir s) (FileStore.list dir s') := by
  show SameBut name (guarded .list dir (FileStore.list dir) s)
    (guarded .list dir (FileStore.list dir) s')
  unfold guarded judge
  generalize Fault.judge .list dir s.faults = judged at hverdict ⊢
  generalize Fault.judge .list dir s'.faults = judged' at hverdict ⊢
  obtain ⟨verdict, faults⟩ := judged
  obtain ⟨_, faults'⟩ := judged'
  cases hverdict
  cases verdict with
  | pass =>
    simp only [pass]
    generalize FileStore.list dir s.store = r at h ⊢
    generalize FileStore.list dir s'.store = r' at h ⊢
    cases h with
    | ok hsame => exact .ok hsame
    | error => exact .error
  | fail => exact .error
  | failAfter =>
    simp only [pass]
    cases FileStore.list dir s.store <;> cases FileStore.list dir s'.store <;> exact .error

end Faulty

open Faulty LocalStore in
instance {σ : Type} [FileStore σ] [LocalStore σ] : LocalStore (Faulty σ) where
  Sane s := Sane s.store
  Place := Place σ
  place? s := place? s.store
  content? s := content? s.store
  Down := Down σ
  down_name := down_name
  not_down_current := not_down_current
  list_keeps dir s h := by
    rcases after_guarded .list dir (FileStore.list dir) s with hsame | hinner
    · rw [show (after (FileStore.list dir) s).store = s.store from hsame]
      exact ⟨h, rfl, rfl⟩
    · rw [show (after (FileStore.list dir) s).store = _ from hinner]
      exact list_keeps dir h
  list_down h hdir hlist := list_down h hdir (guarded_ok hlist)
  delete_keeps path s h := by
    rcases after_guarded .delete path (FileStore.delete path) s with hsame | hinner
    · rw [show (after (FileStore.delete path) s).store = s.store from hsame]
      exact ⟨h, rfl, fun _ _ => rfl⟩
    · rw [show (after (FileStore.delete path) s).store = _ from hinner]
      exact delete_keeps path h
  apart h := LocalStore.apart h
  list_deleted := by
    intro dir path s name rest h hdir hway hrest
    have hother : Operation.list ≠ .delete := nofun
    have hverdict := judge_judge hother dir path s.faults
    rw [← guarded_faults ] at hverdict
    refine sameBut_guarded hverdict ?_
    rcases after_guarded .delete path (FileStore.delete path) s with hsame | hinner
    · rw [show (after (FileStore.delete path) s).store = s.store from hsame]
      exact .refl name _
    · rw [show (after (FileStore.delete path) s).store = _ from hinner]
      exact list_deleted h hdir hway hrest

namespace LocalStore

variable {σ : Type} [FileStore σ] [LocalStore σ] {s s' s'' : σ}

def contentAt? (s : σ) (p : Path) : Option Bytes := (place? s p).bind (content? s)

structure SameFiles (s s' : σ) : Prop where
  sane : Sane s'
  place_eq : place? s' = place? s
  content_eq : content? s' = content? s

theorem SameFiles.refl (hs : Sane s) : SameFiles s s := ⟨hs, rfl, rfl⟩

theorem SameFiles.trans (h : SameFiles s s') (h' : SameFiles s' s'') : SameFiles s s'' :=
  ⟨h'.sane, h'.place_eq.trans h.place_eq, h'.content_eq.trans h.content_eq⟩

theorem kept_list (hs : Sane s) {dir : Path} (h : after (FileStore.list dir) s = s') :
    SameFiles s s' := by
  obtain ⟨hsane, hplace, hcontent⟩ := list_keeps dir hs
  rw [h] at hsane hplace hcontent
  exact ⟨hsane, hplace, hcontent⟩

/-- Where nothing has changed that concerns files, paths lead to what they led to. -/
theorem SameFiles.contentAt?_eq (h : SameFiles s s') (p : Path) : contentAt? s' p = contentAt? s p := by
  unfold contentAt?
  rw [h.place_eq, h.content_eq]

/-- A file is still there after another one was deleted. -/
theorem contentAt?_delete (hs : Sane s) {p q : Path} (hparts : p.Parts (Down σ) q) :
    Sane (after (FileStore.delete p) s) ∧
      contentAt? (after (FileStore.delete p) s) q = contentAt? s q := by
  obtain ⟨hsane, hplace, hcontent⟩ := delete_keeps p hs
  refine ⟨hsane, ?_⟩
  unfold contentAt?
  rw [hplace]
  cases hq : place? s q with
  | none => rfl
  | some place => exact hcontent place fun hp => apart hs hparts hp hq

end LocalStore

end LargeObjects

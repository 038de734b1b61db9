import Mathlib
import LargeObjects.Proofs.Folders
import LargeObjects.Proofs.Pouring

/-! The files right below a directory of a file system, known by their names. A call may make the
directory and those above it; it leads to files with the names that it is about, and leaves the others
as they are. -/
namespace LargeObjects.Disk

open Step

variable {d d' d'' : Disk} {dir p q : Path} {names : List Name} {t u : Name} {k j n : Nat}

def fileIn? (dir : Path) (d : Disk) (t : Name) : Option Bytes :=
  match d.reach dir with
  | .ok k => d.contentOf? (k, t)
  | .error _ => none

def Settled (dir : Path) (d : Disk) : Prop :=
  ∃ (front : List Component) (names : List Name) (k : Nat),
    dir.components = front ++ names.map .name ∧ front.foldlM d.follow (origin dir) = .ok k

def FolderIn (dir : Path) (d : Disk) (t : Name) : Prop :=
  ∃ k n, d.reach dir = .ok k ∧ d.child k t = .ok (.directory n)

def Holds (d : Disk) (dir : Path) (t : Name) (n : Nat) : Prop :=
  ∃ k, d.reach dir = .ok k ∧ d.child k t = .ok (.file n)

section Files

theorem fileIn?_of_reach (h : d.reach dir = .ok k) (t : Name) :
    d.fileIn? dir t = d.contentOf? (k, t) := by
  unfold fileIn?
  rw [h]

theorem Holds.fileIn?_eq (h : d.Holds dir t n) : d.fileIn? dir t = some (d.content n) := by
  obtain ⟨k, hreach, hchild⟩ := h
  rw [fileIn?_of_reach hreach]
  unfold contentOf?
  rw [hchild]

theorem exists_holds (h : (d.fileIn? dir t).isSome) : ∃ n, d.Holds dir t n := by
  unfold fileIn? at h
  split at h
  next k hreach =>
    unfold contentOf? at h
    split at h
    next n hchild => exact ⟨n, k, hreach, hchild⟩
    next => cases h
  next => cases h

theorem reach_congr (h : d'.directories = d.directories) : d'.reach = d.reach := by
  funext p
  unfold reach
  rw [follow_congr h]

theorem Holds.congr (h : d.Holds dir t n) (hsame : d'.directories = d.directories) :
    d'.Holds dir t n := by
  obtain ⟨k, hreach, hchild⟩ := h
  refine ⟨k, (congrFun (reach_congr hsame) dir).trans hreach, ?_⟩
  rw [child_eq_ok_iff] at hchild ⊢
  rwa [directory_of_eq hsame]

theorem contentOf?_congr
    (hget : (d'.directory k).entries.get? t = (d.directory k).entries.get? t)
    (hcontent : ∀ n, d.child k t = .ok (.file n) → d'.content n = d.content n) :
    d'.contentOf? (k, t) = d.contentOf? (k, t) := by
  have hchild : d'.child k t = d.child k t := by
    unfold child
    rw [hget]
  unfold contentOf?
  dsimp only
  rw [hchild]
  rcases hfile : d.child k t with e | m | n
  · rfl
  · rfl
  · exact congrArg some (hcontent n hfile)

theorem contentOf?_of_missing (h : (d.directory k).entries.get? t = none) :
    d.contentOf? (k, t) = none := by
  unfold contentOf?
  split
  next n hchild =>
    rw [(child_eq_ok_iff.1 hchild).2] at h
    cases h
  next => rfl

theorem origin_of_enters (hp : p.Enters dir t) : origin p = origin dir := by
  rw [origin_eq, origin_eq, show p.components = _ from hp]
  cases dir.components <;> rfl

/-- A path that goes on from a directory by a name is looked up there. -/
theorem locate_enters {slashed : Bool} (hp : p.Enters dir t)
    (h : d.locate p = .ok (.name k u slashed)) : d.reach dir = .ok k ∧ u = t := by
  obtain ⟨front, hsteps, hfront⟩ := locate_name h
  rw [show p.components = _ from hp] at hsteps
  obtain ⟨hdir, hname⟩ := List.append_inj' hsteps rfl
  refine ⟨?_, by simpa using hname.symm⟩
  unfold reach
  rw [hdir, ← origin_of_enters hp]
  exact hfront

theorem holds_of_locate {slashed : Bool} (hp : p.Enters dir t)
    (hlocate : d.locate p = .ok (.name k u slashed)) (hchild : d.child k u = .ok (.file n)) :
    d.Holds dir t n := by
  obtain ⟨hreach, rfl⟩ := locate_enters hp hlocate
  exact ⟨k, hreach, hchild⟩

theorem Leads.foldlM_follow (h : Leads d d') (hd : d.Sound) {steps : List Component}
    (hk : k < d.directories.size) (hfold : steps.foldlM d.follow k = .ok j) :
    steps.foldlM d'.follow k = .ok j := by
  induction steps generalizing k with
  | nil => exact hfold
  | cons c steps ih =>
    obtain ⟨m, hstep, hrest⟩ := exists_of_bind hfold
    have hstep' : d'.follow k c = .ok m := by
      cases c with
      | root | current => exact hstep
      | parent =>
        cases hstep
        exact congrArg Except.ok (h.above k hk)
      | name t => exact h.enter hk hstep
    rw [List.foldlM_cons, bind_of_ok hstep']
    exact ih (hd.follow_lt hk hstep) hrest

theorem Leads.reach (h : Leads d d') (hd : d.Sound) (hreach : d.reach dir = .ok k) :
    d'.reach dir = .ok k :=
  h.foldlM_follow hd (hd.origin_lt dir) hreach

end Files

/-- Where directories are entered as before, a path still goes down from a directory that is there. -/
theorem Settled.leads (hdir : Settled dir d) (hd : d.Sound) (hleads : Leads d d') : Settled dir d' := by
  obtain ⟨front, steps, k, hsteps, hfront⟩ := hdir
  exact ⟨front, steps, k, hsteps, hleads.foldlM_follow hd (hd.origin_lt dir) hfront⟩

/-- A directory that was there is not reached newly. -/
theorem Settled.reach_old (hdir : Settled dir d) (hd : d.Sound) (hleads : Leads d d')
    (hback : ∀ {k n t}, d'.child k t = .ok (.directory n) → n < d.directories.size →
      d.child k t = .ok (.directory n))
    (hreach : d'.reach dir = .ok k) (hk : k < d.directories.size) : d.reach dir = .ok k := by
  obtain ⟨front, steps, m, hsteps, hfront⟩ := hdir
  have hnames : ∀ t ∈ steps, IsName t := by
    intro t ht
    refine Path.isName_of_mem_components (p := dir) ?_
    rw [hsteps]
    exact List.mem_append_right _ (List.mem_map_of_mem ht)
  have hfront' := hleads.foldlM_follow hd (hd.origin_lt dir) hfront
  unfold reach at hreach ⊢
  rw [hsteps, List.foldlM_append] at hreach ⊢
  rw [bind_of_ok hfront'] at hreach
  rw [bind_of_ok hfront]
  -- From the end upwards, every directory on the way was there.
  have hdown : d'.descend m steps = .ok k := hreach
  show d.descend m steps = .ok k
  clear hsteps hreach
  induction steps using List.reverseRecOn generalizing k with
  | nil => exact hdown
  | append_singleton init t ih =>
    have ht := hnames t (List.mem_append_right _ List.mem_cons_self)
    obtain ⟨j, hj, hchild⟩ := exists_of_descend_concat ht hdown
    have hold := hback hchild hk
    have hj' := ih (lt_of_get? (child_eq_ok_iff.1 hold).2)
      (fun u hu => hnames u (List.mem_append_left _ hu)) hj
    rw [descend_concat_ok hj']
    exact enter_of_directory ht hold

structure Near (dir : Path) (names : List Name) (d d' : Disk) : Prop where
  tree : d'.Tree
  settled : Settled dir d'
  size_le : d.directories.size ≤ d'.directories.size
  leads : Leads d d'
  /-- A directory that was there is entered as before. -/
  back {k n : Nat} {t : Name} : d'.child k t = .ok (.directory n) → n < d.directories.size →
    d.child k t = .ok (.directory n)
  folders {k n : Nat} {t : Name} : d'.reach dir = .ok k → d'.child k t = .ok (.directory n) →
    d.child k t = .ok (.directory n)
  content {k : Nat} {t : Name} : (d'.reach dir = .ok k → t ∉ names) →
    d'.contentOf? (k, t) = d.contentOf? (k, t)

namespace Near

theorem refl (h : d.Tree) (hdir : Settled dir d) : Near dir names d d :=
  ⟨h, hdir, Nat.le_refl _, ⟨fun _ _ => rfl, id⟩, fun hchild _ => hchild, fun _ => id, fun _ => rfl⟩

theorem trans (h : Near dir names d d') (h' : Near dir names d' d'') : Near dir names d d'' where
  tree := h'.tree
  settled := h'.settled
  size_le := h.size_le.trans h'.size_le
  leads := by
    refine ⟨fun k hk => ?_, fun hchild => h'.leads.directory (h.leads.directory hchild)⟩
    rw [h'.leads.above k (Nat.lt_of_lt_of_le hk h.size_le), h.leads.above k hk]
  back hchild hn := h.back (h'.back hchild (Nat.lt_of_lt_of_le hn h.size_le)) hn
  folders {k n t} hreach hchild := by
    have hbetween := h'.folders hreach hchild
    have hlt := lt_of_get? (child_eq_ok_iff.1 hbetween).2
    exact h.folders (h.settled.reach_old h.tree.sound h'.leads h'.back hreach hlt) hbetween
  content {k t} helse := by
    rw [h'.content helse]
    exact h.content fun hreach => helse (h'.leads.reach h.tree.sound hreach)

theorem mono {names' : List Name} (h : Near dir names d d') (hsub : names ⊆ names') :
    Near dir names' d d' where
  tree := h.tree
  settled := h.settled
  size_le := h.size_le
  leads := h.leads
  back := h.back
  folders := h.folders
  content helse := h.content fun hreach ht => helse hreach (hsub ht)

theorem fileIn?_eq (h : Near dir names d d') (hd : d.Sound) (hdir : Settled dir d) (ht : t ∉ names) :
    d'.fileIn? dir t = d.fileIn? dir t := by
  cases hreach' : d'.reach dir with
  | ok k =>
    rw [fileIn?_of_reach hreach', h.content fun _ => ht]
    by_cases hk : k < d.directories.size
    · rw [fileIn?_of_reach (hdir.reach_old hd h.leads h.back hreach' hk)]
    -- The directory is new, so that nothing was in it.
    · have hreach : ∀ j, d.reach dir ≠ .ok j := by
        intro j hj
        have hjk := h.leads.reach hd hj
        rw [hreach'] at hjk
        cases hjk
        exact hk (hd.foldlM_follow_lt (hd.origin_lt dir) hj)
      have hnone : (d.directory k).entries.get? t = none := by
        rw [directory_of_le (Nat.not_lt.1 hk)]
        rfl
      rw [contentOf?_of_missing hnone]
      unfold fileIn?
      split
      next j hj => exact absurd hj (hreach j)
      next => rfl
  | error e =>
    unfold fileIn?
    rw [hreach']
    cases hreach : d.reach dir with
    | ok j =>
      rw [h.leads.reach hd hreach] at hreach'
      cases hreach'
    | error => rfl

theorem folderIn_iff (h : Near dir names d d') (hd : d.Sound) (hdir : Settled dir d) (t : Name) :
    d'.FolderIn dir t ↔ d.FolderIn dir t := by
  constructor
  · rintro ⟨k, n, hreach, hchild⟩
    have hold := h.folders hreach hchild
    have hlt := lt_of_get? (child_eq_ok_iff.1 hold).2
    exact ⟨k, n, hdir.reach_old hd h.leads h.back hreach hlt, hold⟩
  · rintro ⟨k, n, hreach, hchild⟩
    exact ⟨k, n, h.leads.reach hd hreach, h.leads.directory hchild⟩

/-- Files with the names have come, gone, changed or got the names of each other. -/
theorem of_entries (h : d.Tree) (hdir : Settled dir d) (h' : d'.Tree)
    (hsize : d'.directories.size = d.directories.size)
    (habove : ∀ k, (d'.directory k).above = (d.directory k).above)
    (hdirs : ∀ {k n t}, (d'.directory k).entries.get? t = some (.directory n) ↔
      (d.directory k).entries.get? t = some (.directory n))
    (hget : ∀ {k t}, (d.reach dir = .ok k → t ∉ names) →
      (d'.directory k).entries.get? t = (d.directory k).entries.get? t)
    (hcontent : ∀ {k t n}, (d.reach dir = .ok k → t ∉ names) → d.child k t = .ok (.file n) →
      d'.content n = d.content n) : Near dir names d d' := by
  have hchild : ∀ {k n t}, d'.child k t = .ok (.directory n) ↔ d.child k t = .ok (.directory n) := by
    intro k n t
    rw [child_eq_ok_iff, child_eq_ok_iff, hdirs]
  have hleads : Leads d d' := ⟨fun k _ => habove k, hchild.2⟩
  refine ⟨h', hdir.leads h.sound hleads, hsize.ge, hleads, fun hnew _ => hchild.1 hnew,
    fun _ => hchild.1, fun helse => ?_⟩
  have helse' := fun hreach => helse (hleads.reach h.sound hreach)
  exact contentOf?_congr (hget helse') fun n => hcontent helse'

/-- The content of a file with one of the names may change. -/
theorem pours (h : d.Tree) (hdir : Settled dir d) (hholds : d.Holds dir t n) (ht : t ∈ names)
    (hpours : Pours n d d') : Near dir names d d' := by
  have hsame := hpours.directories_eq
  refine of_entries h hdir (h.contents hsame hpours.length_eq.ge) (by rw [hsame])
    (fun k => by rw [directory_of_eq hsame]) (by simp only [directory_of_eq hsame, implies_true])
    (fun _ => by rw [directory_of_eq hsame]) fun {k u m} helse hchild => hpours.content_ne ?_
  rintro rfl
  obtain ⟨j, hreach, hchild'⟩ := hholds
  obtain ⟨rfl, rfl⟩ := h.content_inj (child_eq_ok_iff.1 hchild).2 (child_eq_ok_iff.1 hchild').2
  exact helse hreach ht

end Near

section Parents

/-- A step on the way to a directory that is missing is a name, and so are those after it. -/
theorem Settled.exists_names (hdir : Settled dir d) {front rest : List Component}
    (hway : dir.components = front ++ .name t :: rest) (hk : front.foldlM d.follow (origin dir) = .ok k)
    (hfree : d.child k t = .error .noSuchFile) : ∃ names : List Name, rest = names.map .name := by
  obtain ⟨known, names, j, hsteps, hj⟩ := hdir
  rw [hway] at hsteps
  rcases List.append_eq_append_iff.1 hsteps with ⟨more, rfl, hmore⟩ | ⟨more, rfl, hmore⟩
  · cases more with
    | nil =>
      rw [List.nil_append] at hmore
      cases names with
      | nil => cases hmore
      | cons u names => exact ⟨names, (List.cons.inj hmore).2⟩
    | cons c more =>
      -- The missing directory would be one of those that are known to be there.
      obtain ⟨rfl, -⟩ := List.cons.inj hmore
      rw [List.foldlM_append, bind_of_ok hk] at hj
      obtain ⟨m, hstep, -⟩ := exists_of_bind hj
      have ht := isName_of_components hway
      rw [show d.follow k (.name t) = d.enter k t from rfl, enter_of_error ht hfree] at hstep
      cases hstep
  · obtain ⟨_, after, -, -, hafter⟩ := List.map_eq_append_iff.1 hmore
    cases after with
    | nil => cases hafter
    | cons u names => exact ⟨names, (List.cons.inj hafter).2.symm⟩

/-- A directory on the way is not made in the one that the path leads to. -/
theorem near_addDirectory (h : d.Tree) (hdir : Settled dir d) {front rest : List Component}
    (hway : dir.components = front ++ .name t :: rest) (hk : front.foldlM d.follow (origin dir) = .ok k)
    (hfree : d.child k t = .error .noSuchFile) : Near dir names d (d.addDirectory k t) := by
  have hlt := h.sound.foldlM_follow_lt (h.sound.origin_lt dir) hk
  have ht := isName_of_components hway
  have hgrows := Grows.addDirectory hlt (child_eq_missing_iff.1 hfree).2
  have htree := h.addDirectory hlt ht
  have hold : ∀ {j u n}, ¬(k = j ∧ t = u) → (d.addDirectory k t).child j u = .ok (.directory n) →
      d.child j u = .ok (.directory n) := by
    intro j u n hne hchild
    rw [child_eq_ok_iff] at hchild ⊢
    rwa [get?_addDirectory hlt, if_neg hne] at hchild
  have hnew : (d.addDirectory k t).child k t = .ok (.directory d.directories.size) := by
    refine child_eq_ok_iff.2 ⟨(child_eq_missing_iff.1 hfree).1, ?_⟩
    rw [get?_addDirectory hlt, if_pos ⟨rfl, rfl⟩]
  refine ⟨htree, hdir.leads h.sound hgrows.leads, hgrows.size_le, hgrows.leads, ?_, ?_, ?_⟩
  · intro j n u hchild hn
    refine hold ?_ hchild
    rintro ⟨rfl, rfl⟩
    rw [hnew] at hchild
    cases hchild
    exact Nat.lt_irrefl _ hn
  · intro j n u hreach hchild
    refine hold ?_ hchild
    rintro ⟨rfl, rfl⟩
    -- The path goes on below the new directory.
    obtain ⟨steps, rfl⟩ := hdir.exists_names hway hk hfree
    have hk' := hgrows.leads.foldlM_follow h.sound (h.sound.origin_lt dir) hk
    unfold reach at hreach
    rw [hway, List.foldlM_append, bind_of_ok hk'] at hreach
    have hnames : ∀ u ∈ t :: steps, IsName u := by
      intro u hu
      refine Path.isName_of_mem_components (p := dir) ?_
      rw [hway, ← List.map_cons]
      exact List.mem_append_right _ (List.mem_map_of_mem hu)
    have hplace := congrArg List.length (htree.place_of_follow hnames hreach)
    rw [List.length_append, List.length_cons] at hplace
    omega
  · intro j u _
    by_cases hsame : k = j ∧ t = u
    · -- Neither the new directory nor what was missing has a content.
      obtain ⟨rfl, rfl⟩ := hsame
      unfold contentOf?
      rw [hnew, hfree]
    · refine contentOf?_congr ?_ fun _ _ => rfl
      rw [get?_addDirectory hlt, if_neg hsame]

theorem near_adds (h : d.Tree) (hdir : Settled dir d) (hadds : Adds dir d d') : Near dir names d d' := by
  induction hadds with
  | refl => exact .refl h hdir
  | tail _ hway hk hfree ih => exact ih.trans (near_addDirectory ih.tree ih.settled hway hk hfree)

theorem preserves_makeParents (hp : p.Enters dir t) : Preserves (Near dir names d) (makeParents p) := by
  have htop : p.components.dropLast <+: dir.components := by
    rw [show p.components = _ from hp, List.dropLast_concat]
  exact fun d' h => endsIn_iff.2 (h.trans (near_adds h.tree h.settled (adds_makeParents htop d')))

end Parents

section Calls

/-- Opening a file empties it or makes it. -/
theorem Tree.openEmpty (h : d.Tree) (hdir : Settled dir d) (hp : p.Enters dir t)
    (hopen : openEmpty p d = .ok n d') :
    Near dir [t] d d' ∧ d'.Holds dir t n ∧ d'.content n = [] := by
  rcases openEmpty_cases p d with ⟨e, hrun⟩ | ⟨k, u, hlocate, ⟨m, hchild, hrun⟩ | ⟨hfree, hrun⟩⟩
  · rw [hrun] at hopen
    cases hopen
  · rw [hrun] at hopen
    cases hopen
    have hholds := holds_of_locate hp hlocate hchild
    have hlt := h.content_lt (child_eq_ok_iff.1 hchild).2
    refine ⟨Near.pours h hdir hholds List.mem_cons_self ⟨rfl, List.length_set, fun hm => ?_⟩,
      hholds.congr rfl, ?_⟩
    · exact (content_set hlt [] _).trans (if_neg hm)
    · exact (content_set hlt [] _).trans (if_pos rfl)
  · rw [hrun] at hopen
    cases hopen
    obtain ⟨hreach, rfl⟩ := locate_enters hp hlocate
    obtain ⟨hshort, hnone⟩ := child_eq_missing_iff.1 hfree
    have hk := h.sound.locate hlocate
    have htree := h.change (.file hk (isName_of_locate hlocate) hfree)
    have hget : ∀ j v, (({ d.setEntry k u (.file d.contents.length) with
          contents := d.contents ++ [[]] } : Disk).directory j).entries.get? v =
        if (k = j ∧ j < d.directories.size) ∧ u = v then some (.file d.contents.length)
        else (d.directory j).entries.get? v := get?_setEntry d k u _
    have habove := fun j => (place_modifyEntries d k
      (fun entries => entries.insert u (.file d.contents.length)) j).2
    have hnear : Near dir [u] d _ := .of_entries h hdir htree (size_setEntry d k u _) habove (fun {j m v} => ?_)
      (fun {j v} helse => ?_) fun {j v m} _ hchild => ?_
    · refine ⟨hnear, ⟨k, hnear.leads.reach h.sound hreach, ?_⟩, ?_⟩
      · rw [child_eq_ok_iff, hget, if_pos ⟨⟨rfl, hk⟩, rfl⟩]
        exact ⟨hshort, rfl⟩
      · simp [content]
    · rw [hget]
      split
      next hnew =>
        obtain ⟨⟨rfl, -⟩, rfl⟩ := hnew
        rw [hnone]
        simp
      next => rfl
    · rw [hget, if_neg]
      rintro ⟨⟨rfl, -⟩, rfl⟩
      exact helse hreach List.mem_cons_self
    · have hm := h.content_lt (child_eq_ok_iff.1 hchild).2
      simp [content, List.getElem?_append_left hm]

/-- Once a file is open, what follows may change its content. -/
theorem preserves_openEmpty_bind {α : Type} {rest : Nat → Step SystemError Disk α} (hp : p.Enters dir t)
    (hrest : ∀ n d', d'.Tree → d'.Holds dir t n → Pours n d' (after (rest n) d')) :
    Preserves (Near dir [t] d) (openEmpty p >>= rest) := by
  intro d₁ h
  cases hopen : openEmpty p d₁ with
  | ok n d₂ =>
    obtain ⟨hnear, hholds, -⟩ := h.tree.openEmpty h.settled hp hopen
    rw [bind_ok hopen]
    exact endsIn_iff.2 ((h.trans hnear).trans
      (.pours hnear.tree hnear.settled hholds List.mem_cons_self (hrest n d₂ hnear.tree hholds)))
  | error e d₂ =>
    rw [bind_error hopen]
    rcases openEmpty_cases p d₁ with ⟨e', hrun⟩ | ⟨k, u, -, ⟨m, -, hrun⟩ | ⟨-, hrun⟩⟩ <;>
      rw [hrun] at hopen <;> cases hopen
    exact .error h

theorem near_create (h : d.Tree) (hdir : Settled dir d) (hp : p.Enters dir t) :
    Near dir [t] d (after (FileStore.create p) d) := by
  show Near dir [t] d (after (refuse _) d)
  rw [after_refuse]
  refine ((preserves_makeParents hp).bind fun _ =>
    preserves_openEmpty_bind hp fun n d' _ _ => ?_).after (Near.refl h hdir)
  exact ⟨rfl, rfl, fun _ => rfl⟩

theorem near_delete (h : d.Tree) (hdir : Settled dir d) (hp : p.Enters dir t) :
    after (FileStore.delete p) d = d ∨ Near dir [t] d (after (FileStore.delete p) d) ∧
      (after (FileStore.delete p) d).fileIn? dir t = none := by
  rcases run_delete_cases d p with hsame | ⟨k, u, n, hplace, hchild, hgone⟩
  · exact Or.inl hsame
  right
  obtain ⟨hreach, rfl⟩ := locate_enters hp (place?_eq_some_iff.1 hplace)
  rw [show after (FileStore.delete p) d = d.eraseEntry k u from hgone]
  have hleads := (leads_eraseEntry hchild).1
  have hget := (child_eq_ok_iff.1 hchild).2
  constructor
  · refine .of_entries h hdir (h.eraseEntry k u) Array.size_modify
      (fun j => (place_modifyEntries d k _ j).2) (fun {j m v} => ?_) (fun {j v} helse => ?_)
      fun _ _ => rfl
    · rw [get?_eraseEntry]
      split
      next hnew =>
        obtain ⟨⟨rfl, -⟩, rfl⟩ := hnew
        rw [hget]
        exact ⟨nofun, nofun⟩
      next => rfl
    · rw [get?_eraseEntry, if_neg]
      rintro ⟨⟨rfl, -⟩, rfl⟩
      exact helse hreach List.mem_cons_self
  · rw [fileIn?_of_reach (hleads.reach h.sound hreach)]
    apply contentOf?_of_missing
    rw [get?_eraseEntry, if_pos ⟨⟨rfl, lt_of_get? hget⟩, rfl⟩]

theorem file?_enters {file : PlacedFile} (hp : p.Enters dir t) (h : d.file? p = some file) :
    d.reach dir = .ok file.dir ∧ file.name = t := by
  unfold file? at h
  split at h
  next k u hlocate =>
    split at h
    next =>
      cases h
      exact locate_enters hp hlocate
    next => cases h
  next => cases h

/-- A file gets another name in its directory and loses the one that it had, or keeps its name. -/
theorem Tree.moveFile_cases {file : PlacedFile} (h : d.Tree) (hdir : Settled dir d)
    (hfile : d.child file.dir file.name = .ok (.file file.number))
    (hreach : d.reach dir = .ok file.dir) (hq : q.Enters dir u) :
    (∃ e, moveFile file q d = .error e d) ∨
      ∃ d', moveFile file q d = .ok () d' ∧ Near dir [file.name, u] d d' ∧
        (file.name ≠ u → d'.fileIn? dir file.name = none) := by
  rcases Disk.moveFile_cases file q d with herror | ⟨k, v, hlocate, hplain, hrun⟩
  · exact Or.inl herror
  obtain ⟨hk, rfl⟩ := locate_enters hq hlocate
  obtain rfl : file.dir = k := Except.ok.inj (hreach.symm.trans hk)
  refine Or.inr ⟨_, hrun, ?_⟩
  split
  next hsame => exact ⟨.refl h hdir, fun hne => absurd hsame.2.symm hne⟩
  next hmoved =>
    have hlt := h.sound.locate hlocate
    have hname := isName_of_locate hlocate
    have hget : ∀ j w, (((d.eraseEntry file.dir file.name).setEntry file.dir v
          (.file file.number)).directory j).entries.get? w =
        if (file.dir = j ∧ j < d.directories.size) ∧ v = w then some (.file file.number)
        else if (file.dir = j ∧ j < d.directories.size) ∧ file.name = w then none
        else (d.directory j).entries.get? w := by
      intro j w
      rw [get?_setEntry, get?_eraseEntry,
        show (d.eraseEntry file.dir file.name).directories.size = _ from Array.size_modify]
    have hold := (child_eq_ok_iff.1 hfile).2
    have hnear : Near dir [file.name, v] d
        ((d.eraseEntry file.dir file.name).setEntry file.dir v (.file file.number)) := by
      refine .of_entries h hdir (h.change (.move hfile hlt hname hplain)) ?_ (fun j => ?_)
        (fun {j m w} => ?_) (fun {j w} helse => ?_) fun _ _ => rfl
      · exact (size_setEntry _ _ _ _).trans Array.size_modify
      · exact (place_modifyEntries _ _ _ j).2.trans (place_modifyEntries d _ _ j).2
      · rw [hget]
        split
        next hnew =>
          obtain ⟨⟨rfl, -⟩, rfl⟩ := hnew
          exact ⟨nofun, fun hdirectory => absurd hdirectory (hplain m)⟩
        next =>
          split
          next hgone =>
            obtain ⟨⟨rfl, -⟩, rfl⟩ := hgone
            rw [hold]
            exact ⟨nofun, nofun⟩
          next => rfl
      · rw [hget, if_neg, if_neg]
        · rintro ⟨⟨rfl, -⟩, rfl⟩
          exact helse hreach List.mem_cons_self
        · rintro ⟨⟨rfl, -⟩, rfl⟩
          exact helse hreach (List.mem_cons_of_mem _ List.mem_cons_self)
    refine ⟨hnear, fun hne => ?_⟩
    rw [fileIn?_of_reach (hnear.leads.reach h.sound hreach)]
    apply contentOf?_of_missing
    rw [hget, if_neg fun hnew => hne hnew.2.symm, if_pos ⟨⟨rfl, hlt⟩, rfl⟩]

/-- Directories are made and a file is moved, or directories are made at most. -/
theorem Tree.rename_cases (h : d.Tree) (hdir : Settled dir d) (hp : p.Enters dir t)
    (hq : q.Enters dir u) :
    (∃ e d', FileStore.rename p q d = .error e d' ∧ Near dir [] d d') ∨
      ∃ d', FileStore.rename p q d = .ok () d' ∧ Near dir [t, u] d d' ∧
        (t ≠ u → d'.fileIn? dir t = none) := by
  show (∃ e d', withFile p _ d = .error e d' ∧ _) ∨ ∃ d', withFile p _ d = .ok () d' ∧ _
  unfold withFile
  cases hfile : d.file? p with
  | none => exact Or.inl ⟨_, d, rfl, .refl h hdir⟩
  | some file =>
    obtain ⟨hreach, rfl⟩ := file?_enters hp hfile
    unfold refuse EStateM.adaptExcept
    dsimp only
    cases hmake : makeParents q d with
    | error e d₁ =>
      rw [bind_error hmake]
      exact Or.inl ⟨_, d₁, rfl, (preserves_makeParents hq).error (.refl h hdir) hmake⟩
    | ok _ d₁ =>
      rw [bind_ok hmake]
      have hnear : ∀ {names}, Near dir names d d₁ :=
        (preserves_makeParents hq).ok (.refl h hdir) hmake
      have hadds := adds_makeParents (List.dropLast_prefix q.components) d
      rw [after_ok hmake] at hadds
      have hchild := (Grows.adds hadds h.sound).child (child_of_file? hfile)
      have hnear₀ : Near dir [] d d₁ := hnear
      have hreach' := hnear₀.leads.reach h.sound hreach
      rcases hnear₀.tree.moveFile_cases hnear₀.settled hchild hreach' hq with
        ⟨e, hrun⟩ | ⟨d', hrun, hmoved, hgone⟩
      · rw [hrun]
        exact Or.inl ⟨_, d₁, rfl, hnear⟩
      · rw [hrun]
        exact Or.inr ⟨d', rfl, hnear.trans hmoved, hgone⟩

theorem near_copy (h : d.Tree) (hdir : Settled dir d) (p : Path) (hq : q.Enters dir u) :
    Near dir [u] d (after (FileStore.copy p q) d) := by
  show Near dir [u] d (after (withFile p _) d)
  cases hfile : d.file? p with
  | none =>
    rw [show after (withFile p _) d = d by simp only [after, withFile, hfile]]
    exact .refl h hdir
  | some file =>
    simp only [after, withFile, hfile]
    show Near dir [u] d (after (refuse _) d)
    rw [after_refuse]
    refine ((preserves_makeParents hq).bind fun _ =>
      preserves_openEmpty_bind hq fun n d' h' hholds => ?_).after (Near.refl h hdir)
    obtain ⟨k, -, hchild⟩ := hholds
    have hlt := h'.content_lt (child_eq_ok_iff.1 hchild).2
    exact ⟨rfl, List.length_set, fun hm => (content_set hlt _ _).trans (if_neg hm)⟩

def Writes (w : Nat) (dir : Path) (t : Name) (d : Disk) : Prop :=
  ∃ (n : Nat) (text held : Bytes), d.Holds dir t n ∧ d.Stands w n text held

theorem writes_create {w : Nat} (h : d.Tree) (hdir : Settled dir d) (hp : p.Enters dir t)
    (hcreate : FileStore.create p d = .ok w d') : Writes w dir t d' := by
  obtain ⟨_, d₁, hmake, hrest⟩ := bind_eq_ok (refuse_eq_ok hcreate)
  obtain ⟨n, d₂, hopen, hwriter⟩ := bind_eq_ok hrest
  have hnear : Near dir [] d d₁ := (preserves_makeParents hp).ok (.refl h hdir) hmake
  obtain ⟨hnear', hholds, hempty⟩ := hnear.tree.openEmpty hnear.settled hp hopen
  obtain ⟨k, -, hchild⟩ := id hholds
  have hlt := hnear'.tree.content_lt (child_eq_ok_iff.1 hchild).2
  cases hwriter
  refine ⟨n, [], [], hholds.congr rfl, ?_, hempty, hlt⟩
  exact List.getElem?_concat_length

theorem near_run {r : Request Disk} (h : d.Tree) (hdir : Settled dir d)
    (hr : r.Within (fun w t => Writes w dir t d) dir names) : Near dir names d (r.run d) := by
  cases hr with
  | create hp => exact near_create h hdir hp
  | write bytes hw =>
    obtain ⟨n, text, held, hholds, hstands⟩ := hw
    obtain ⟨_, _, -, -, hpours⟩ := hstands.writeBuffered bytes
    exact .pours h hdir hholds List.mem_cons_self hpours
  | flush hw | close hw =>
    obtain ⟨n, text, held, hholds, hstands⟩ := hw
    exact .pours h hdir hholds List.mem_cons_self hstands.flushHeld.2
  | delete hp =>
    rcases near_delete h hdir hp with hsame | ⟨hnear, -⟩
    · rw [show (Request.delete _).run d = d from hsame]
      exact .refl h hdir
    · exact hnear
  | @rename p q t u hp hq =>
    show Near dir _ d (after (FileStore.rename p q) d)
    rcases h.rename_cases hdir hp hq with ⟨e, d', hrun, hnear⟩ | ⟨d', hrun, hnear, -⟩
    · rw [after_error hrun]
      exact hnear.mono (List.nil_subset _)
    · rw [after_ok hrun]
      exact hnear
  | copy p hq => exact near_copy h hdir p hq

theorem folderIn_of_isDirectory (hp : p.Enters dir t) (h : d.isDirectory p = true) :
    d.FolderIn dir t := by
  obtain ⟨n, hstatus⟩ := isDirectory_iff.1 h
  have hreach := reach_of_status hstatus
  unfold reach at hreach
  rw [origin_of_enters hp, show p.components = _ from hp, List.foldlM_append] at hreach
  obtain ⟨k, hk, hrest⟩ := exists_of_bind hreach
  obtain ⟨_, hstep, hend⟩ := exists_of_bind hrest
  cases hend
  have hname : IsName t := isName_of_components hp
  exact ⟨k, n, hk, enter_name_ok hname.ofPiece? hstep⟩

/-- What has a name in a directory is listed with it. -/
theorem Tree.listed {entries : List Path} (h : d.Tree) (hne : dir.spelling ≠ [])
    (hlist : FileStore.list dir d = .ok entries d')
    (hthere : (d.fileIn? dir t).isSome ∨ d.FolderIn dir t) : ∃ e ∈ entries, e.fileName? = some t := by
  obtain ⟨k, entry, hreach, hget⟩ : ∃ k entry, d.reach dir = .ok k ∧
      (d.directory k).entries.get? t = some entry := by
    rcases hthere with hfile | ⟨k, n, hreach, hchild⟩
    · obtain ⟨n, k, hreach, hchild⟩ := exists_holds hfile
      exact ⟨k, _, hreach, (child_eq_ok_iff.1 hchild).2⟩
    · exact ⟨k, _, hreach, (child_eq_ok_iff.1 hchild).2⟩
  cases hobjection : objection? dir with
  | some e =>
    have hstatus : d.status dir = .error e := by
      unfold status locate
      rw [hobjection]
      rfl
    simp only [FileStore.list, hstatus] at hlist
    cases e with
    | noSuchFile => exact absurd hobjection (objection?_ne_noSuchFile dir)
    | _ => cases hlist
  | none =>
    rw [list_of_status (status_of_reach hobjection hne hreach)] at hlist
    cases hlist
    have hname := h.isName hget
    refine ⟨_, List.mem_map_of_mem (SortedMap.mem_keys_iff.2 ?_), Path.fileName?_join dir hname⟩
    rw [hget]
    rfl

end Calls

end LargeObjects.Disk

namespace LargeObjects

open Step Disk in
instance : FolderStore Disk where
  Settled := Disk.Settled
  fileIn? := Disk.fileIn?
  FolderIn dir d := d.FolderIn dir
  Writes := Disk.Writes
  run_keeps := by
    intro dir r names d h hdir hr
    have hnear := near_run h hdir hr
    exact ⟨hnear.tree, hnear.settled, hnear.folderIn_iff h.sound hdir,
      fun t ht => hnear.fileIn?_eq h.sound hdir ht⟩
  create_writes h hdir hp hcreate := writes_create h hdir hp hcreate
  write_writes := by
    rintro dir t w d bytes ⟨n, text, held, hholds, hstands⟩
    obtain ⟨_, _, hstands', -, hpours⟩ := hstands.writeBuffered bytes
    exact ⟨n, _, _, hholds.congr hpours.directories_eq, hstands'⟩
  flush_writes := by
    rintro dir t w d ⟨n, text, held, hholds, hstands⟩
    obtain ⟨hstands', hpours⟩ := hstands.flushHeld
    exact ⟨n, _, _, hholds.congr hpours.directories_eq, hstands'⟩
  delete_less := by
    intro dir p t d h hdir hp
    rcases near_delete h hdir hp with hsame | ⟨-, hgone⟩
    · rw [hsame]
      exact Or.inr rfl
    · exact Or.inl hgone
  rename_ok := by
    intro dir p q t u d d' h hdir hp hq hne hrename
    rcases h.rename_cases hdir hp hq with ⟨e, d₁, hrun, -⟩ | ⟨d₁, hrun, -, hgone⟩
    · cases hrun.symm.trans hrename
    · cases hrun.symm.trans hrename
      exact hgone hne
  rename_error := by
    intro dir p q t u d d' e h hdir hp hq hrename
    rcases h.rename_cases hdir hp hq with ⟨e', d₁, hrun, hnear⟩ | ⟨d₁, hrun, -⟩
    · cases hrun.symm.trans hrename
      exact funext fun v => hnear.fileIn?_eq h.sound hdir List.not_mem_nil
    · cases hrun.symm.trans hrename
  isSome_of_isFile := by
    intro dir p t d hp hfile
    obtain ⟨k, u, n, hlocate, hchild⟩ := exists_of_isFile hfile
    exact Option.isSome_of_mem (holds_of_locate hp hlocate hchild).fileIn?_eq
  folderIn_of_isDirectory hp hdirectory := folderIn_of_isDirectory hp hdirectory
  listed h hne hlist hthere := h.listed hne hlist hthere

end LargeObjects

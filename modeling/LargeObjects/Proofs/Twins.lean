import Mathlib
import LargeObjects.Proofs.Edits

/-! A store in memory and a file system that have the same files. At a path to a file of a ground both
do the same and answer alike, and have the same files again. -/
namespace LargeObjects

namespace Step

inductive Agree {ε σ τ α β : Type} (R : σ → τ → Prop) (A : α → β → Prop) :
    EStateM.Result ε σ α → EStateM.Result ε τ β → Prop
  | ok {a : α} {b : β} {s : σ} {t : τ} : A a b → R s t → Agree R A (.ok a s) (.ok b t)
  | error {e : ε} {s : σ} {t : τ} : R s t → Agree R A (.error e s) (.error e t)

variable {ε σ τ σ' τ' α β γ δ : Type} {R : σ → τ → Prop} {R' : σ → τ → Prop} {A : α → β → Prop}
  {B : γ → δ → Prop}

/-- Sequences agree if their parts do. -/
theorem Agree.bind {x : Step ε σ α} {y : Step ε τ β} {f : α → Step ε σ γ} {f' : β → Step ε τ δ} {s : σ}
    {t : τ} (h : Agree R A (x s) (y t))
    (hrest : ∀ {a b s t}, A a b → R s t → Agree R B (f a s) (f' b t)) :
    Agree R B ((x >>= f) s) ((y >>= f') t) := by
  generalize hx : x s = r at h
  generalize hy : y t = r' at h
  cases h with
  | ok hanswer hstate =>
    rw [bind_ok hx, bind_ok hy]
    exact hrest hanswer hstate
  | error hstate =>
    rw [bind_error hx, bind_error hy]
    exact .error hstate

theorem Agree.ok_or_error {r : EStateM.Result ε σ α} {r' : EStateM.Result ε τ β} (h : Agree R A r r') :
    (∃ a b s t, r = .ok a s ∧ r' = .ok b t ∧ A a b ∧ R s t) ∨
      ∃ e s t, r = .error e s ∧ r' = .error e t ∧ R s t := by
  cases h with
  | ok ha hs => exact Or.inl ⟨_, _, _, _, rfl, rfl, ha, hs⟩
  | error hs => exact Or.inr ⟨_, _, _, rfl, rfl, hs⟩

theorem Agree.mono {A' : α → β → Prop} {r : EStateM.Result ε σ α} {r' : EStateM.Result ε τ β}
    (h : Agree R A r r') (hstate : ∀ {s t}, R s t → R' s t) (hanswer : ∀ {a b}, A a b → A' a b) :
    Agree R' A' r r' := by
  cases h with
  | ok ha hs => exact .ok (hanswer ha) (hstate hs)
  | error hs => exact .error (hstate hs)

end Step

open Step

structure Twins (g : Ground) (s : MemoryStore) (d : Disk) : Prop where
  houses : g.Houses d
  spelled : ∀ e ∈ s.files.entries, ∃ names, g.Seat names ∧ g.Spells e.2.1 names
  same {names : List Name} : g.Seat names →
    s.at? (g.place names) = (d.numberAt? g.start names).map d.content

namespace Twins

open MemoryStore Ground

variable {g : Ground} {s s' : MemoryStore} {d d' : Disk} {p q : Path} {names names' : List Name}
  {n : Nat} {number : Option Nat}

theorem empty (g : Ground) : Twins g default default where
  houses := g.houses_default
  spelled := nofun
  same {names} hseat := by
    obtain ⟨init, t, rfl, -⟩ := hseat.exists_concat
    have hnone : (default : Disk).numberAt? g.start (init ++ [t]) = none := by
      rw [Option.eq_none_iff_forall_ne_some]
      intro n hn
      obtain ⟨k, -, hchild⟩ := Disk.exists_of_numberAt? hn
      exact absurd (Disk.Tree.default.content_lt (Disk.child_eq_ok_iff.1 hchild).2) (Nat.not_lt_zero _)
    rw [hnone]
    rfl

/-- A file in memory holds what the file system holds where its names lead. -/
theorem at?_eq (h : Twins g s d) (hseat : g.Seat names) (hp : g.Spells p names) :
    s.at? p.components = (d.numberAt? g.start names).map d.content := by
  rw [hp.components_eq]
  exact h.same hseat

/-- The same has been done to one file. -/
theorem of_edited (h : Twins g s d) (hseat : g.Seat names) (hedited : g.Edited names number d d')
    (hother : ∀ m < d.contents.length, number ≠ some m → d'.content m = d.content m)
    (hspelled : ∀ e ∈ s'.files.entries, e ∈ s.files.entries ∨ g.Spells e.2.1 names)
    (hat : ∀ place, s'.at? place =
      if g.place names = place then number.map d'.content else s.at? place) : Twins g s' d' where
  houses := hedited.houses
  spelled e he := by
    rcases hspelled e he with hold | hnew
    · exact h.spelled e hold
    · exact ⟨names, hseat, hnew⟩
  same {names'} hseat' := by
    rw [hat]
    by_cases hsame : names' = names
    · rw [hsame, if_pos rfl, hedited.here]
    · rw [if_neg fun hplace => hsame (place_injective hplace).symm, h.same hseat',
        hedited.elsewhere hseat' hsame]
      cases hm : d.numberAt? g.start names' with
      | none => rfl
      | some m =>
        -- Its content is not the one that has changed, since that belongs to the other file.
        have hne : number ≠ some m := by
          intro hnumber
          refine hsame (hedited.houses.number_unique hseat' hseat ?_ (hedited.here.trans hnumber))
          rw [hedited.elsewhere hseat' hsame, hm]
        rw [Option.map_some, Option.map_some, hother m (h.houses.number_lt hm) hne]

theorem spells_spelling (h : Twins g s d) (hp : g.Spells p names) : g.Spells (s.spelling p) names := by
  have hsteps := s.components_spelling p
  unfold spelling at hsteps ⊢
  cases hget : s.files.get? p.components with
  | none => exact hp
  | some e =>
    rw [hget] at hsteps
    obtain ⟨_, -, hspells⟩ := h.spelled _ (SortedMap.mem_of_get? hget)
    exact ⟨hsteps.trans hp.components_eq, hspells.objection, hspells.ends⟩

/-- Both have the same files again after one has been written in both. -/
theorem put (h : Twins g s d) (hseat : g.Seat names) (hp : g.Spells p names)
    (hedited : g.Edited names (some n) d d')
    (hother : ∀ m < d.contents.length, m ≠ n → d'.content m = d.content m) :
    Twins g (s.put p (d'.content n)) d' := by
  refine h.of_edited hseat hedited (fun m hm hne => hother m hm fun h => hne (congrArg some h.symm))
    (fun e he => ?_) fun place => ?_
  · rcases SortedMap.mem_insertEntry he with rfl | hold
    · exact Or.inr (h.spells_spelling hp)
    · exact Or.inl hold
  · rw [at?_put, hp.components_eq]
    rfl

/-- And after one has gone from both. -/
theorem erase (h : Twins g s d) (hseat : g.Seat names) (hp : g.Spells p names)
    (hedited : g.Edited names none d d') (hcontents : d'.contents = d.contents) :
    Twins g (s.erase p) d' := by
  refine h.of_edited hseat hedited (fun m _ _ => content_of_eq hcontents m)
    (fun e he => Or.inl (List.mem_filter.1 he).1) fun place => ?_
  rw [at?_erase, hp.components_eq]
  rfl

theorem isFile_eq (h : Twins g s d) (hseat : g.Seat names) (hp : g.Spells p names) :
    FileStore.isFile p s = FileStore.isFile p d := by
  show s.isFile p = d.isFile p
  rw [isFile_eq_at?, h.at?_eq hseat hp]
  unfold Disk.isFile
  rw [h.houses.status_eq hseat hp]
  cases d.numberAt? g.start names <;> rfl

theorem delete (h : Twins g s d) (hseat : g.Seat names) (hp : g.Spells p names) :
    Agree (Twins g) Eq (FileStore.delete p s) (FileStore.delete p d) := by
  obtain ⟨d', hdelete, hedited, hcontents, -⟩ := h.houses.delete_ok hseat hp
  have hfound : s.isFile p = (d.numberAt? g.start names).isSome := by
    rw [isFile_eq_at?, h.at?_eq hseat hp, Option.isSome_map]
  rw [hdelete]
  exact .ok hfound (h.erase hseat hp hedited hcontents)

/-- Where a file is missing, every call by its path says so. -/
theorem withFile_none {α : Type} (h : Twins g s d) (hseat : g.Seat names) (hp : g.Spells p names)
    (hnumber : d.numberAt? g.start names = none) (act : Bytes → MemoryStore → α × MemoryStore) :
    MemoryStore.withFile p act s = .error (.notFound p) s := by
  have hat := h.at?_eq hseat hp
  rw [hnumber] at hat
  unfold MemoryStore.withFile
  rw [get?_eq_at?, hat]
  rfl

theorem withFile_some {α : Type} (h : Twins g s d) (hseat : g.Seat names) (hp : g.Spells p names)
    (hnumber : d.numberAt? g.start names = some n) (act : Bytes → MemoryStore → α × MemoryStore) :
    MemoryStore.withFile p act s = .ok (act (d.content n) s).1 (act (d.content n) s).2 := by
  apply withFile_eq
  rw [h.at?_eq hseat hp, hnumber]
  rfl

/-- A file moves in both, or is missing in both. -/
theorem rename (h : Twins g s d) (hseat : g.Seat names) (hp : g.Spells p names)
    (hseat' : g.Seat names') (hq : g.Spells q names') :
    Agree (Twins g) Eq (FileStore.rename p q s) (FileStore.rename p q d) := by
  cases hnumber : d.numberAt? g.start names with
  | none =>
    have hdisk : FileStore.rename p q d = .error (.notFound p) d :=
      h.houses.withFile_none hseat hp hnumber _
    have hmemory : FileStore.rename p q s = .error (.notFound p) s :=
      h.withFile_none hseat hp hnumber _
    rw [hdisk, hmemory]
    exact .error h
  | some n =>
    obtain ⟨d₁, d', hrename, hcontents, -, hmoved⟩ :=
      h.houses.rename_ok hseat hp hseat' hq hnumber
    have hmemory : FileStore.rename p q s = .ok () ((s.erase p).put q (d.content n)) :=
      h.withFile_some hseat hp hnumber _
    rw [hmemory, hrename]
    refine .ok rfl ?_
    rw [← content_of_eq hcontents]
    rcases hmoved with ⟨rfl, hedited⟩ | ⟨-, hgone, hcontents₁, hput⟩
    · refine h.of_edited hseat hedited (fun m _ _ => content_of_eq hcontents m) (fun e he => ?_)
        fun place => ?_
      · rcases SortedMap.mem_insertEntry he with rfl | hold
        · right
          have hmissing : (s.erase p).files.get? q.components = none := by
            show (s.files.erase p.components).get? q.components = none
            rw [SortedMap.get?_erase, if_pos (hp.components_eq.trans hq.components_eq.symm)]
          show g.Spells ((s.erase p).spelling q) names
          unfold spelling
          rw [hmissing]
          exact hq
        · exact Or.inl (List.mem_filter.1 hold).1
      · rw [at?_put, at?_erase, hp.components_eq, hq.components_eq]
        split <;> rfl
    · refine (h.erase hseat hp hgone hcontents₁).put hseat' hq hput fun m _ _ => ?_
      rw [content_of_eq hcontents, content_of_eq hcontents₁]

/-- A file is copied in both, or is missing in both. -/
theorem copy (h : Twins g s d) (hseat : g.Seat names) (hp : g.Spells p names)
    (hseat' : g.Seat names') (hq : g.Spells q names') (hne : names ≠ names') :
    Agree (Twins g) Eq (FileStore.copy p q s) (FileStore.copy p q d) := by
  cases hnumber : d.numberAt? g.start names with
  | none =>
    have hdisk : FileStore.copy p q d = .error (.notFound p) d :=
      h.houses.withFile_none hseat hp hnumber _
    have hmemory : FileStore.copy p q s = .error (.notFound p) s :=
      h.withFile_none hseat hp hnumber _
    rw [hdisk, hmemory]
    exact .error h
  | some n =>
    obtain ⟨m, d', hcopy, hedited, -, hcontent, hother, -⟩ :=
      h.houses.copy_ok hseat hp hseat' hq hne hnumber
    have hmemory : FileStore.copy p q s = .ok (d.content n).length (s.put q (d.content n)) :=
      h.withFile_some hseat hp hnumber _
    rw [hmemory, hcopy, ← hcontent]
    exact .ok rfl (h.put hseat' hq hedited hother)

theorem size (h : Twins g s d) (hseat : g.Seat names) (hp : g.Spells p names) :
    Agree (Twins g) Eq (FileStore.size p s) (FileStore.size p d) := by
  have hstatus := h.houses.status_eq hseat hp
  cases hnumber : d.numberAt? g.start names with
  | none =>
    have hmemory : FileStore.size p s = .error (.notFound p) s := h.withFile_none hseat hp hnumber _
    rw [hnumber] at hstatus
    have hdisk : FileStore.size p d = .error (.notFound p) d := by
      simp only [FileStore.size, hstatus]
      rfl
    rw [hmemory, hdisk]
    exact .error h
  | some n =>
    have hmemory : FileStore.size p s = .ok (d.content n).length s := h.withFile_some hseat hp hnumber _
    rw [hnumber] at hstatus
    have hdisk : FileStore.size p d = .ok (d.content n).length d := by
      simp only [FileStore.size, hstatus]
    rw [hmemory, hdisk]
    exact .ok rfl h

end Twins

end LargeObjects

import Mathlib
import LargeObjects.Proofs.Fallible

/-! What calls leave as it was, and what is asked of the calls that fail: that they change nothing,
or that cleaning up after them works. -/
namespace LargeObjects.FallibleStore

open ReliableStore

variable {σ : Type} [FileStore σ]

def Later : σ → σ → Prop := Relation.ReflTransGen fun s s' => ∃ r : Request σ, r.run s = s'

variable [FallibleStore σ] {s s' s'' t : σ} {places places' : List (List Component)}

structure Near (places : List (List Component)) (s s' : σ) : Prop where
  later : Later s s'
  elsewhere : ∀ q ∉ places, fileAt? (below s') q = fileAt? (below s) q

structure Looked (s s' : σ) : Prop where
  later : Later s s'
  below_eq : below s' = below s

namespace Near

theorem refl (places : List (List Component)) (s : σ) : Near places s s := ⟨.refl, fun _ _ => rfl⟩

theorem mono (h : Near places s s') (hsub : places ⊆ places') : Near places' s s' :=
  ⟨h.later, fun q hq => h.elsewhere q fun hmem => hq (hsub hmem)⟩

theorem trans (h : Near places s s') (h' : Near places s' s'') : Near places s s'' :=
  ⟨h.later.trans h'.later, fun q hq => (h'.elsewhere q hq).trans (h.elsewhere q hq)⟩

theorem file_eq (h : Near [] s s') (q : List Component) :
    fileAt? (below s') q = fileAt? (below s) q := h.elsewhere q List.not_mem_nil

theorem run (r : Request σ) (h : r.run s = s') : Near (r.places target) s s' :=
  ⟨.single ⟨r, h⟩, fun _ hq => h ▸ FallibleStore.elsewhere r s hq⟩

end Near

namespace Looked

theorem refl (s : σ) : Looked s s := ⟨.refl, rfl⟩

theorem trans (h : Looked s s') (h' : Looked s' s'') : Looked s s'' :=
  ⟨h.later.trans h'.later, h'.below_eq.trans h.below_eq⟩

theorem near (h : Looked s s') (places : List (List Component)) : Near places s s' :=
  ⟨h.later, fun q _ => by rw [h.below_eq]⟩

theorem run (r : Request σ) (h : r.run s = s') (hnone : r.places target = []) : Looked s s' :=
  ⟨.single ⟨r, h⟩, h ▸ looks r s hnone⟩

end Looked

/-- From here on, a call that makes, deletes or renames a file changes no file when it fails. -/
structure Mild (s : σ) : Prop where
  create_error {s' t : σ} {path : Path} {e : StoreError} : Later s s' →
    FileStore.create path s' = .error e t → ∀ q, fileAt? (below t) q = fileAt? (below s') q
  delete_error {s' t : σ} {path : Path} {e : StoreError} : Later s s' →
    FileStore.delete path s' = .error e t → ∀ q, fileAt? (below t) q = fileAt? (below s') q
  rename_error {s' t : σ} {source goal : Path} {e : StoreError} : Later s s' →
    FileStore.rename source goal s' = .error e t → ∀ q, fileAt? (below t) q = fileAt? (below s') q

/-- From here on, what is made can be deleted: no deletion fails where there is no file now. -/
def Cleans (s : σ) : Prop := ∀ s', Later s s' → ∀ path : Path, fileAt? (below s) path.components = none →
  ∃ found t, FileStore.delete path s' = .ok found t

theorem Mild.later (h : Mild s) (hlater : Later s s') : Mild s' :=
  ⟨fun h' => h.create_error (hlater.trans h'), fun h' => h.delete_error (hlater.trans h'),
    fun h' => h.rename_error (hlater.trans h')⟩

/-- Cleaning up leaves no file. -/
theorem Cleans.gone (h : Cleans s) (hlater : Later s s') {path : Path}
    (hnone : fileAt? (below s) path.components = none) :
    fileAt? (below (Step.after (FileStore.delete path) s')) path.components = none := by
  obtain ⟨found, t, hdelete⟩ := h s' hlater path hnone
  obtain ⟨t', hbase, hgone, -⟩ := ReliableStore.delete_ok path (below s')
  have hbelow := FallibleStore.delete_ok hdelete
  rw [hbase] at hbelow
  cases hbelow
  rw [Step.after_ok hdelete]
  exact hgone

/-- What a failed deletion leaves is what was there. -/
theorem Mild.delete_files (h : Mild s) {path : Path} {e : StoreError}
    (herror : FileStore.delete path s = .error e t) : Near [] s t :=
  ⟨(Near.run (.delete path) (Step.after_error herror)).later,
    fun q _ => h.delete_error .refl herror q⟩

theorem Mild.create_files (h : Mild s) {path : Path} {e : StoreError}
    (herror : FileStore.create path s = .error e t) : Near [] s t :=
  ⟨(Near.run (.create path) (Step.after_error herror)).later,
    fun q _ => h.create_error .refl herror q⟩

theorem Mild.rename_files (h : Mild s) {source goal : Path} {e : StoreError}
    (herror : FileStore.rename source goal s = .error e t) : Near [] s t :=
  ⟨(Near.run (.rename source goal) (Step.after_error herror)).later,
    fun q _ => h.rename_error .refl herror q⟩

theorem mild_memory (s : MemoryStore) : Mild s := by
  refine ⟨fun _ h => ?_, fun _ h => ?_, fun _ h q => ?_⟩
  · cases h
  · cases h
  · rw [MemoryStore.withFile_error h]

theorem cleans_memory (s : MemoryStore) : Cleans s := fun _ _ _ _ => ⟨_, _, rfl⟩

end FallibleStore

/-- Faults only get closer, and what else is said of them stays. -/
theorem Fault.forall_judge {P : Fault → Prop} (hskip : ∀ f n, P f → P { f with skip := n })
    {operation : Operation} {path : Path} {faults : List Fault} (h : ∀ f ∈ faults, P f) :
    ∀ f ∈ (judge operation path faults).2, P f := by
  induction faults with
  | nil => exact h
  | cons first rest ih =>
    have hfirst := h first List.mem_cons_self
    have hrest : ∀ f ∈ rest, P f := fun f hf => h f (List.mem_cons_of_mem _ hf)
    unfold judge
    split
    · split
      · intro f hf
        rcases List.mem_cons.1 hf with rfl | hf
        · exact hskip _ _ hfirst
        · exact hrest f hf
      · exact h
    · intro f hf
      rcases List.mem_cons.1 hf with rfl | hf
      · exact hfirst
      · exact ih hrest f hf

/-- A call that is failed or failed afterwards has a fault of its own. -/
theorem Fault.exists_of_judge {operation : Operation} {path : Path} {faults : List Fault} :
    ((judge operation path faults).1 ≠ .pass →
        ∃ f ∈ faults, f.operation = operation ∧ f.path.components = path.components) ∧
      ((judge operation path faults).1 = .failAfter →
        ∃ f ∈ faults, f.operation = operation ∧ f.after = true) := by
  induction faults with
  | nil => exact ⟨fun h => absurd rfl h, nofun⟩
  | cons first rest ih =>
    unfold judge
    split
    next hsame =>
      split
      · exact ⟨fun h => absurd rfl h, nofun⟩
      · have hpath := of_decide_eq_true hsame.2
        refine ⟨fun _ => ⟨first, List.mem_cons_self, hsame.1, hpath⟩, fun h => ?_⟩
        refine ⟨first, List.mem_cons_self, hsame.1, ?_⟩
        by_contra hafter
        rw [if_neg hafter] at h
        cases h
    next =>
      refine ⟨fun h => ?_, fun h => ?_⟩
      · obtain ⟨f, hmem, hf⟩ := ih.1 h
        exact ⟨f, List.mem_cons_of_mem _ hmem, hf⟩
      · obtain ⟨f, hmem, hf⟩ := ih.2 h
        exact ⟨f, List.mem_cons_of_mem _ hmem, hf⟩

namespace Faulty

open ReliableStore FallibleStore

section Guarded

variable {σ α : Type} {s s' : Faulty σ} {operation : Operation} {path : Path}

theorem faults_guarded (act : Step StoreError σ α) :
    (Step.after (guarded operation path act) s).faults =
      (Fault.judge operation path s.faults).2 := by
  unfold Step.after guarded judge
  rcases Fault.judge operation path s.faults with ⟨_ | _ | _, faults⟩
  · simp only [pass]
    cases act s.store <;> rfl
  · rfl
  · simp only [pass]
    cases act s.store <;> rfl

theorem faults_guardedOpen (act : Step StreamError σ α) :
    (Step.after (guardedOpen operation path act) s).faults =
      (Fault.judge operation path s.faults).2 := by
  unfold Step.after guardedOpen judge
  rcases Fault.judge operation path s.faults with ⟨_ | _ | _, faults⟩
  · dsimp only
    cases act s.store <;> rfl
  · rfl
  · rfl

/-- A call by path fails without being made, or fails beneath, or is failed afterwards. -/
theorem guarded_error {act : Step StoreError σ α} {e : StoreError}
    (h : guarded operation path act s = .error e s') : s'.store = s.store ∨
      (∃ e', act s.store = .error e' s'.store) ∨
        (Fault.judge operation path s.faults).1 = .failAfter := by
  unfold guarded judge at h
  rcases hjudge : Fault.judge operation path s.faults with ⟨_ | _ | _, faults⟩
  · simp only [hjudge, pass] at h
    split at h
    next => cases h
    next hact =>
      cases h
      exact Or.inr (Or.inl ⟨_, hact⟩)
  · simp only [hjudge] at h
    cases h
    exact Or.inl rfl
  · exact Or.inr (Or.inr rfl)

/-- A call by path that is not failed goes as it goes beneath. -/
theorem guarded_pass {act : Step StoreError σ α} {a : α} {t : σ}
    (hpass : (Fault.judge operation path s.faults).1 = .pass) (h : act s.store = .ok a t) :
    ∃ s', guarded operation path act s = .ok a s' := by
  rcases hjudge : Fault.judge operation path s.faults with ⟨_ | _ | _, faults⟩
  · simp only [guarded, judge, hjudge, pass, h]
    exact ⟨_, rfl⟩
  · rw [hjudge] at hpass
    cases hpass
  · rw [hjudge] at hpass
    cases hpass

end Guarded

variable {σ : Type} [FileStore σ]

theorem run_faults (r : Request (Faulty σ)) (s : Faulty σ) : (r.run s).faults = s.faults ∨
    ∃ operation path, (r.run s).faults = (Fault.judge operation path s.faults).2 := by
  cases r with
  | create | openRead | delete | rename | copy | list => exact Or.inr ⟨_, _, faults_guarded _⟩
  | write | flush => exact Or.inr ⟨_, _, faults_guardedOpen _⟩
  | close => exact Or.inl rfl
  | read r limit =>
    obtain ⟨path, r⟩ := r
    refine Or.inr ⟨.read, path, ?_⟩
    simp only [Request.run, Step.after, FileStore.read, judge]
    rcases Fault.judge .read path s.faults with ⟨_ | _ | _, faults⟩
    · dsimp only
      cases FileStore.read limit (r, s.store) <;> rfl
    · rfl
    · rfl

theorem forall_later {P : Fault → Prop} (hskip : ∀ f n, P f → P { f with skip := n })
    {s s' : Faulty σ} (hlater : Later s s') (h : ∀ f ∈ s.faults, P f) : ∀ f ∈ s'.faults, P f := by
  induction hlater with
  | refl => exact h
  | tail _ hlast ih =>
    obtain ⟨r, rfl⟩ := hlast
    rcases run_faults r _ with hsame | ⟨operation, path, hjudge⟩
    · rwa [hsame]
    · rw [hjudge]
      exact Fault.forall_judge hskip ih

variable [FallibleStore σ]

/-- Faults that strike before the call, or strike copying only, make no call that fails leave
anything. -/
theorem mild (hinner : ∀ t : σ, Mild t) {s : Faulty σ}
    (h : ∀ f ∈ s.faults, f.after = true → f.operation = .copy) : Mild s := by
  -- Faults only wear off, so no call but copying is failed after it was made.
  have hbefore : ∀ {s' : Faulty σ}, Later s s' → ∀ {operation path}, operation ≠ .copy →
      (Fault.judge operation path s'.faults).1 ≠ .failAfter := by
    intro s' hlater operation path hne hjudge
    obtain ⟨f, hmem, rfl, hafter⟩ := Fault.exists_of_judge.2 hjudge
    exact hne (forall_later (fun _ _ => id) hlater h f hmem hafter)
  refine ⟨fun hlater herror q => ?_, fun hlater herror q => ?_, fun hlater herror q => ?_⟩
  · rcases guarded_error herror with hsame | ⟨e, hact⟩ | hjudge
    · exact congrArg (fun t : σ => fileAt? (below t) q) hsame
    · rcases Step.bind_eq_error hact with hcreate | ⟨_, _, _, hpure⟩
      · exact (hinner _).create_error .refl hcreate q
      · cases hpure
    · exact absurd hjudge (hbefore hlater nofun)
  · rcases guarded_error herror with hsame | ⟨e, hact⟩ | hjudge
    · exact congrArg (fun t : σ => fileAt? (below t) q) hsame
    · exact (hinner _).delete_error .refl hact q
    · exact absurd hjudge (hbefore hlater nofun)
  · rcases guarded_error herror with hsame | ⟨e, hact⟩ | hjudge
    · exact congrArg (fun t : σ => fileAt? (below t) q) hsame
    · exact (hinner _).rename_error .refl hact q
    · exact absurd hjudge (hbefore hlater nofun)

omit [FallibleStore σ] in
/-- What calls make of a store with faults, calls make of the store beneath. -/
theorem later_store {s s' : Faulty σ} (h : Later s s') : Later s.store s'.store := by
  induction h with
  | refl => exact .refl
  | tail _ hlast ih =>
    obtain ⟨r, rfl⟩ := hlast
    rcases run_store r _ with hsame | hrun
    · rwa [hsame]
    · exact ih.tail ⟨inner r, hrun.symm⟩

/-- Where faults for deleting strike only files that are there, others can be deleted. -/
theorem cleans {s : Faulty σ} (hinner : Cleans s.store)
    (h : ∀ f ∈ s.faults, f.operation = .delete → (fileAt? (below s) f.path.components).isSome) :
    Cleans s := by
  intro s' hlater path hnone
  -- A fault for deleting would be at the path, where there is no file.
  have hpass : (Fault.judge .delete path s'.faults).1 = .pass := by
    by_contra hjudge
    obtain ⟨f, hmem, hdelete, hsame⟩ := Fault.exists_of_judge.1 hjudge
    have hthere := forall_later (P := fun f => f.operation = .delete →
      (fileAt? (below s) f.path.components).isSome) (fun _ _ => id) hlater h f hmem hdelete
    rw [hsame, hnone] at hthere
    cases hthere
  obtain ⟨found, t, hdelete⟩ := hinner s'.store (later_store hlater) path hnone
  obtain ⟨t', hrun⟩ := guarded_pass hpass hdelete
  exact ⟨found, t', hrun⟩

end Faulty

end LargeObjects

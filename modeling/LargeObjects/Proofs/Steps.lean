import Mathlib
import LargeObjects.Database

/-! Steps that may fail, one after the other, and what the elementary ones do to the state that all
values share. -/
namespace LargeObjects

namespace Step

variable {ε τ α β : Type} {x : Step ε τ α} {f : α → Step ε τ β} {s s' : τ}

theorem bind_ok {a : α} (h : x s = .ok a s') : (x >>= f) s = f a s' := by
  simp only [bind, EStateM.bind, h]

theorem bind_error {e : ε} (h : x s = .error e s') : (x >>= f) s = .error e s' := by
  simp only [bind, EStateM.bind, h]

/-- A sequence that succeeds has gone through both of its parts. -/
theorem bind_eq_ok {b : β} (h : (x >>= f) s = .ok b s') :
    ∃ a s₁, x s = .ok a s₁ ∧ f a s₁ = .ok b s' := by
  cases hx : x s with
  | ok a s₁ => exact ⟨a, s₁, rfl, by rwa [bind_ok hx] at h⟩
  | error e s₁ => rw [bind_error hx] at h; cases h

/-- A sequence fails in its first part, or in its second after the first went through. -/
theorem bind_eq_error {e : ε} (h : (x >>= f) s = .error e s') :
    x s = .error e s' ∨ ∃ a s₁, x s = .ok a s₁ ∧ f a s₁ = .error e s' := by
  cases hx : x s with
  | ok a s₁ => exact Or.inr ⟨a, s₁, rfl, by rwa [bind_ok hx] at h⟩
  | error e' s₁ =>
    rw [bind_error hx] at h
    cases h
    exact Or.inl rfl

def after (x : Step ε τ α) (t : τ) : τ :=
  match x t with
  | .ok _ t' => t'
  | .error _ t' => t'

theorem after_ok {a : α} (h : x s = .ok a s') : x.after s = s' := by
  simp only [after, h]

theorem after_error {e : ε} (h : x s = .error e s') : x.after s = s' := by
  simp only [after, h]

theorem after_congr {y : Step ε τ α} (h : x s = y s') : x.after s = y.after s' := by
  simp only [after, h]

inductive EndsIn (P : τ → Prop) : EStateM.Result ε τ α → Prop
  | ok {a : α} {s : τ} : P s → EndsIn P (.ok a s)
  | error {e : ε} {s : τ} : P s → EndsIn P (.error e s)

def Preserves (P : τ → Prop) (x : Step ε τ α) : Prop := ∀ s, P s → EndsIn P (x s)

section Preserving

variable {P : τ → Prop}

theorem endsIn_iff : EndsIn P (x s) ↔ P (x.after s) := by
  unfold after
  cases x s with
  | ok a s' => exact ⟨fun | .ok h => h, .ok⟩
  | error e s' => exact ⟨fun | .error h => h, .error⟩

theorem Preserves.after (h : Preserves P x) (hs : P s) : P (x.after s) := endsIn_iff.1 (h s hs)

theorem Preserves.ok (h : Preserves P x) (hs : P s) {a : α} (hx : x s = .ok a s') : P s' :=
  after_ok hx ▸ h.after hs

theorem Preserves.error (h : Preserves P x) (hs : P s) {e : ε} (hx : x s = .error e s') : P s' :=
  after_error hx ▸ h.after hs

theorem preserves_pure (a : α) : Preserves P (pure a : Step ε τ α) := fun _ => .ok

/-- What each part of a sequence preserves, the sequence preserves. -/
theorem Preserves.bind (h : Preserves P x) (hrest : ∀ a, Preserves P (f a)) :
    Preserves P (x >>= f) := by
  intro s hs
  cases hx : x s with
  | ok a s' =>
    rw [bind_ok hx]
    exact hrest a s' (h.ok hs hx)
  | error e s' =>
    rw [bind_error hx]
    exact .error (h.error hs hx)

end Preserving

end Step

namespace World

variable {σ α : Type} {w : World σ} {id : HandleId}

theorem onStore_ok {act : Step StoreError σ α} {a : α} {s : σ} (h : act w.store = .ok a s) :
    onStore act w = .ok a { w with store := s } := by
  simp only [onStore, h]

theorem onStore_error {act : Step StoreError σ α} {e : StoreError} {s : σ}
    (h : act w.store = .error e s) : onStore act w = .error (.storage e) { w with store := s } := by
  simp only [onStore, h]

theorem livePath_ok (h : (w.handle id).retired = false) :
    livePath id w = .ok (w.handle id).path w := by
  simp only [livePath, bind, EStateM.bind, get, getThe, MonadStateOf.get, EStateM.get, h]
  rfl

/-- A retired handle has no path to use, and asking for it changes nothing. -/
theorem livePath_error (h : (w.handle id).retired = true) :
    livePath id w = .error (.useAfterClose (w.handle id).path) w := by
  simp only [livePath, bind, EStateM.bind, get, getThe, MonadStateOf.get, EStateM.get, h]
  rfl

end World

namespace Database

variable {σ : Type} {db : Database} {layout : Layout} {w : World σ}

/-- A database serves the layout it works with. -/
theorem serves_own (db : Database) : ¬(db.layout = .sharded ∧ db.layout = .flat) := by
  rintro ⟨hsharded, hflat⟩
  rw [hsharded] at hflat
  cases hflat

theorem requireServed_ok (h : ¬(layout = .sharded ∧ db.layout = .flat)) :
    db.requireServed layout w = .ok () w := by
  simp only [requireServed, if_neg h]
  rfl

/-- A file in a tree is refused by a database with flat names, and by no other. -/
theorem requireServed_error (h : layout = .sharded ∧ db.layout = .flat) :
    db.requireServed layout w = .error (.unsupported .shardedInFlat) w := by
  simp only [requireServed, if_pos h]
  rfl

end Database

end LargeObjects

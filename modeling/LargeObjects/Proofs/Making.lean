import Mathlib
import LargeObjects.Proofs.Freshness
import LargeObjects.Proofs.Operations

/-! Making a value of the whole of a content that is somewhere already. The new value has all of the
content, and where it needs a file that file is new: what was there before stays as it was. -/
namespace LargeObjects

open ReliableStore

namespace World

variable {σ : Type} [FileStore σ] [ReliableStore σ] {w w' w'' : World σ}

structure Extends (w w' : World σ) : Prop where
  handle_eq : ∀ k, w.Knows k → w'.handle k = w.handle k
  file_eq : ∀ q, (fileAt? w.store q).isSome → fileAt? w'.store q = fileAt? w.store q

namespace Extends

theorem refl (w : World σ) : w.Extends w := ⟨fun _ _ => rfl, fun _ _ => rfl⟩

/-- New handles and new files extend a world. -/
theorem of_append {more : List Handle} (hhandles : w'.handles = w.handles ++ more)
    (hfiles : ∀ q, (fileAt? w.store q).isSome → fileAt? w'.store q = fileAt? w.store q) : w.Extends w' :=
  ⟨fun _ hk => handle_append_old hhandles hk, hfiles⟩

end Extends

end World

/-- A file that is new replaces none. -/
theorem Changes.file_eq {σ : Type} [FileStore σ] [ReliableStore σ] {p : List Component}
    {content : Option Bytes} {s s' : σ} (h : Changes p content s s') (hfree : fileAt? s p = none)
    (q : List Component) (hq : (fileAt? s q).isSome) : fileAt? s' q = fileAt? s q := by
  refine h.elsewhere q ?_
  rintro rfl
  rw [hfree] at hq
  cases hq

section

variable {σ : Type} [FileStore σ] [ReliableStore σ] {db : Database} {w : World σ}

/-- An id that is looked for and found is that of an object without a temporary file, under the layout
that the database has. -/
def Database.FindsFree (db : Database) (w : World σ) : Prop :=
  ∀ {id w₁}, db.allocate w = .ok id w₁ →
    fileAt? w.store (db.naming.path db.layout .temp id).components = none

/-- A database that was opened scans its tree or tests the flat names, whichever it has. -/
theorem Database.Opened.findsFree {n : Naming} (h : db.Opened n) (hroomy : db.Roomy w) :
    db.FindsFree w := by
  have hscans : db.ScansTree := by
    intro maxProbes hscan
    cases h with
    | tree hlayout => exact hlayout
    | flat => cases hscan
  intro id w₁ halloc
  exact Database.temp_free_of_allocate hscans hroomy halloc

end

/-- What making a value of a content takes: a threshold below the largest chunk, and where the content
needs a file, an id that is found. -/
structure Database.Ready {σ : Type} [FileStore σ] (db : Database) (kind : Kind) (content : Bytes)
    (w : World σ) : Prop where
  threshold_lt : db.settings.inlineThreshold < ChunkSize.limit
  finds : db.settings.inlineThreshold < (kind.allUnits content).length →
    ∃ id w₁, db.allocate w = .ok id w₁

namespace Value

structure Measured (v : Value) (content : Bytes) : Prop where
  text : v.kind = .character → Utf8.defect? content = none
  precision_eq : v.precision = (v.kind.allUnits content).length

/-- A measured value says how many octets, or what starts a character, its content has. -/
theorem Measured.count_eq {v : Value} {content : Bytes} (h : v.Measured content) :
    v.precision = v.kind.count content := h.precision_eq.trans (Kind.length_allUnits h.text)

variable [Codec] {σ : Type} [FileStore σ] [ReliableStore σ] {db : Database} {kind : Kind} {v : Value}
  {content : Bytes} {w w' : World σ} {p : List Component} {source : Source σ}

structure Intact (v : Value) (content : Bytes) (w : World σ) : Prop extends v.Measured content where
  bears : v.Bears content w

/-- A value keeps its content in every world that extends the one in which it has it. -/
theorem Bears.of_extends (h : v.Bears content w) (hextends : w.Extends w') : v.Bears content w' := by
  cases hcontent : v.content with
  | inline data stamp =>
    unfold Bears at h ⊢
    rw [hcontent] at h ⊢
    exact h
  | file ref =>
    obtain ⟨hlive, stored, hfile, hstores⟩ := (bears_file hcontent).1 h
    have hhandle := hextends.handle_eq _ (World.knows_of_live hlive)
    refine (bears_file hcontent).2 ⟨by rw [hhandle]; exact hlive, stored, ?_, hstores⟩
    rw [hhandle, hextends.file_eq _ (Option.isSome_of_mem hfile)]
    exact hfile

/-- What a value bears can be read, from a file that is there if it has one. -/
theorem Bears.reader_ok (h : v.Bears content w) : ∃ r p, v.reader w = .ok r w ∧
    Source.Supplies p w.store (.stored r) content none ∧ (p = [] ∨ (fileAt? w.store p).isSome) := by
  cases hcontent : v.content with
  | inline data stamp =>
    unfold Bears at h
    rw [hcontent] at h
    obtain rfl : data = content := h
    exact ⟨_, [], reader_inline hcontent, .stored (.inline data), Or.inl rfl⟩
  | file ref =>
    obtain ⟨hlive, stored, hfile, hstores⟩ := (bears_file hcontent).1 h
    obtain ⟨r, hreader, hholds, -⟩ := Value.reader_ok hcontent hlive hfile hstores
    exact ⟨r, _, hreader, .stored hholds, Or.inr (Option.isSome_of_mem hfile)⟩

theorem Intact.of_extends (h : v.Intact content w) (hextends : w.Extends w') : v.Intact content w' :=
  ⟨h.toMeasured, h.bears.of_extends hextends⟩

omit [Codec] in
/-- What is read from is nothing or there already, so it is not the new file. -/
theorem ne_temp_of_allocate (hfree : db.FindsFree w)
    {id : ObjectId} {w₁ : World σ} (halloc : db.allocate w = .ok id w₁)
    (hp : p = [] ∨ (fileAt? w.store p).isSome) : p ≠ (db.naming.path db.layout .temp id).components := by
  rcases hp with rfl | hthere
  · exact db.naming.nil_ne_components_path _ _ _
  · rintro rfl
    rw [hfree halloc] at hthere
    cases hthere

inductive Made (db : Database) (kind : Kind) (content : Bytes) (w : World σ) : Value → World σ → Prop
  | inline : (kind.allUnits content).length ≤ db.settings.inlineThreshold →
    Made db kind content w
      { kind
        precision := (kind.allUnits content).length
        content := .inline (kind.allUnits content).flatten none } w
  | file {id : ObjectId} {w₁ : World σ} {store : σ} {stored : Bytes} :
    db.settings.inlineThreshold < (kind.allUnits content).length → db.allocate w = .ok id w₁ →
    Changes (db.naming.path db.layout .temp id).components (some stored) w.store store →
    Stores (db.settings.compressionFor kind).isSome stored (kind.allUnits content).flatten →
    Made db kind content w
      { kind
        precision := (kind.allUnits content).length
        content := .file
          { id
            owner := .temp
            compressed := (db.settings.compressionFor kind).isSome
            layout := db.layout
            handle := w.handles.length } }
      (filed w₁ (db.naming.path db.layout .temp id) 1 store)

omit [Codec] in
theorem filed_handles {id : ObjectId} {w₁ : World σ} (halloc : db.allocate w = .ok id w₁) (path : Path)
    (holders : Nat) (store : σ) :
    (filed w₁ path holders store).handles = w.handles ++ [{ path, armed := true, holders }] := by
  rw [← (db.allocate_sameFiles.1 halloc).handles_eq]
  rfl

namespace Made

theorem kind_eq (h : Made db kind content w v w') : v.kind = kind := by
  cases h <;> rfl

theorem precision_eq (h : Made db kind content w v w') :
    v.precision = (kind.allUnits content).length := by
  cases h <;> rfl

theorem table?_eq (h : Made db kind content w v w') : v.table? = none := by
  cases h <;> rfl

/-- A new value goes without a file exactly up to the threshold. -/
theorem isInline_iff (h : Made db kind content w v w') :
    v.isInline ↔ v.precision ≤ db.settings.inlineThreshold := by
  cases h with
  | inline hsmall => exact iff_of_true rfl hsmall
  | file hlarge => exact iff_of_false nofun (Nat.not_le.2 hlarge)

theorem world_eq (h : Made db kind content w v w') (hv : v.isInline) : w' = w := by
  cases h with
  | inline => rfl
  | file => cases hv

/-- A new value has the units that were taken, whether with its row or in a file. -/
theorem bears (h : Made db kind content w v w') :
    v.Bears (kind.allUnits content).flatten w' := by
  cases h with
  | inline => rfl
  | file hlarge halloc hchanges hstores =>
    refine (bears_file rfl).2 ?_
    rw [World.handle_append_new (filed_handles halloc _ 1 _)]
    exact ⟨rfl, _, hchanges.there, hstores⟩

theorem intact (h : Made db kind content w v w')
    (htext : kind = .character → Utf8.defect? content = none) : v.Intact content w' := by
  have hbears := h.bears
  rw [(Kind.flatten_allUnits_iff kind content).2 htext] at hbears
  refine ⟨⟨?_, ?_⟩, hbears⟩
  · rw [h.kind_eq]
    exact htext
  · rw [h.kind_eq, h.precision_eq]

/-- Making a value takes nothing from what was there, since the new file is at a free place. -/
theorem extends_world (h : Made db kind content w v w') (hfree : db.FindsFree w) :
    w.Extends w' := by
  cases h with
  | inline => exact .refl w
  | file hlarge halloc hchanges =>
    exact .of_append (filed_handles halloc _ 1 _) (hchanges.file_eq (hfree halloc))

end Made

/-- Making a value of all the units that there are. Where the content stops being text before there are
as many as wanted, nothing is left behind. -/
theorem create_all [Codec.Inverts] (hsource : source.Supplies p w.store content none)
    {declared : Option Nat} (hunits : kind.units (declared.getD unlimited) content = kind.allUnits content)
    (hready : db.Ready kind content w) (hfinds : db.FindsFree w)
    (hp : p = [] ∨ (fileAt? w.store p).isSome) :
    let complete := kind.Complete (declared.getD unlimited) content none
    (complete ∧ ∃ v w', create db kind source declared w = .ok v w' ∧ Made db kind content w v w') ∨
    ¬complete ∧ ∃ cause w', create db kind source declared w = .error (.corruption cause) w' ∧
      w.Extends w' ∧ ∀ q, fileAt? w'.store q = fileAt? w.store q := by
  intro complete
  -- The first chunk goes past the threshold, so that what does not fit there is known to need a file.
  rcases create_eq db kind hsource hready.threshold_lt declared with
    ⟨hdone, hsmall, hrun⟩ | ⟨hfail, e, hrun, hcause⟩ | ⟨hlarge, -, hfile⟩
  · rw [hunits] at hsmall hrun
    exact Or.inl ⟨hdone, _, _, hrun, .inline hsmall⟩
  · obtain ⟨cause, rfl⟩ := hcause rfl
    exact Or.inr ⟨hfail, cause, w, hrun, .refl w, fun _ => rfl⟩
  rw [hunits] at hlarge hfile
  rcases hfile with ⟨e, w₁, herror, -⟩ | ⟨id, w₁, halloc, hin⟩
  · obtain ⟨id, w₂, hid⟩ := hready.finds hlarge
    rw [hid] at herror
    cases herror
  -- The new file is not the one that is read from, so that writing leaves the rest of the content alone.
  have hfree := hfinds halloc
  have hne := ne_temp_of_allocate hfinds halloc hp
  rcases hin hne with ⟨hdone, store, stored, hrun, hstored, hstores, helse⟩ |
    ⟨hfail, e, store, hrun, hgone, helse, hcause⟩
  · exact Or.inl ⟨hdone, _, _, hrun, .file hlarge halloc ⟨hstored, helse⟩ hstores⟩
  · obtain ⟨cause, rfl⟩ := hcause rfl
    have hfiles : ∀ q, fileAt? store q = fileAt? w.store q := by
      intro q
      by_cases hq : q = (db.naming.path db.layout .temp id).components
      · rw [hq, hgone, hfree]
      · exact helse q hq
    exact Or.inr ⟨hfail, cause, _, hrun,
      .of_append (filed_handles halloc _ 0 store) fun q _ => hfiles q, hfiles⟩

end Value

end LargeObjects

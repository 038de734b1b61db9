import Mathlib
import LargeObjects.Proofs.Making

/-! What a session holds can be used. Every value that is held, and whose file has not gone to another
handle, bears the content that it was made with and says the right things of it. -/
namespace LargeObjects

open ReliableStore

namespace Value

variable {σ : Type} {v v' : Value} {content : Bytes} {kind : Kind} {w w' : World σ}

/-- A value with as many units as it says, and nothing but these units. -/
theorem measured_of_units (hlength : (v.kind.units v.precision content).length = v.precision)
    (hflat : (v.kind.units v.precision content).flatten = content) : v.Measured content := by
  have hall := Kind.allUnits_flatten_units v.kind v.precision content
  rw [hflat] at hall
  refine ⟨(Kind.flatten_allUnits_iff v.kind content).1 ?_, ?_⟩
  · rw [hall, hflat]
  · rw [hall, hlength]

/-- A value of the units that were taken has as many units as it says. -/
theorem measured_flatten (kind : Kind) (n : Nat) (text : Bytes) (place : Content) (hash : Option UInt32) :
    Measured { kind, precision := (kind.units n text).length, content := place, hash }
      (kind.units n text).flatten := by
  have hunits := Kind.units_flatten kind n text
  exact measured_of_units (congrArg List.length hunits) (congrArg List.flatten hunits)

/-- A value without a file is made only of what its kind allows. -/
theorem measured_of_inline {data : Bytes} (h : inline kind data = .ok v) : v.Measured data := by
  obtain ⟨hbytes, hwhole⟩ := inline_whole h
  cases hcontent : v.content with
  | file ref =>
    rw [inlineBytes?, hcontent] at hbytes
    cases hbytes
  | inline data' stamp =>
    rw [inlineBytes?, hcontent] at hbytes
    obtain rfl := Option.some.inj hbytes
    obtain ⟨hlength, hflat⟩ := hwhole _ _ hcontent
    exact measured_of_units hlength hflat

structure Resembles (v' v : Value) : Prop where
  kind_eq : v'.kind = v.kind
  precision_eq : v'.precision = v.precision
  inlineBytes?_eq : v'.inlineBytes? = v.inlineBytes?

theorem Resembles.refl (v : Value) : v.Resembles v := ⟨rfl, rfl, rfl⟩

theorem Measured.of_resembles (h : v.Measured content) (hsame : v'.Resembles v) :
    v'.Measured content := by
  obtain ⟨htext, hprecision⟩ := h
  rw [← hsame.kind_eq] at htext hprecision
  exact ⟨htext, hsame.precision_eq.trans hprecision⟩

theorem resembles_withFile {ref : ValueFile} (h : v.content = .file ref) (ref' : ValueFile) :
    (v.withFile ref').Resembles v := by
  refine ⟨rfl, rfl, ?_⟩
  simp only [inlineBytes?, withFile, h]

theorem resembles_of_clone (h : v.clone w = .ok v' w') : v'.Resembles v := by
  cases hcontent : v.content with
  | inline data stamp =>
    rw [clone_inline (by rw [file?, hcontent])] at h
    cases h
    exact .refl v
  | file ref =>
    rw [clone_file hcontent] at h
    cases h
    exact .refl v

variable [FileStore σ] {db : Database}

theorem resembles_of_moveTo {ref : ValueFile} {table : TableId} (hcontent : v.content = .file ref)
    (h : moveTo db v ref table w = .ok v' w') : v'.Resembles v := by
  unfold moveTo at h
  obtain ⟨path, w₁, -, h⟩ := Step.bind_eq_ok h
  obtain ⟨_, w₂, -, h⟩ := Step.bind_eq_ok h
  obtain ⟨_, w₃, -, h⟩ := Step.bind_eq_ok h
  obtain ⟨handle, w₄, -, h⟩ := Step.bind_eq_ok h
  cases h
  exact resembles_withFile hcontent _

theorem resembles_of_copyTo {ref : ValueFile} {table : TableId} (hcontent : v.content = .file ref)
    (h : copyTo db v ref table w = .ok v' w') : v'.Resembles v := by
  unfold copyTo at h
  obtain ⟨path, w₁, -, h⟩ := Step.bind_eq_ok h
  obtain ⟨id, w₂, -, h⟩ := Step.bind_eq_ok h
  dsimp only at h
  split at h
  · split at h <;> cases h
  · split at h
    · cases h
    · cases h
      exact resembles_withFile hcontent _

/-- Linking changes where content is and whose it is, but not what it is. -/
theorem resembles_of_link {table : TableId} (h : v.link db table w = .ok v' w') : v'.Resembles v := by
  cases hcontent : v.content with
  | inline data stamp =>
    rw [link_inline hcontent] at h
    cases h
    split
    · exact .refl v
    · refine ⟨rfl, rfl, ?_⟩
      simp only [inlineBytes?, hcontent]
  | file ref =>
    unfold link at h
    simp only [hcontent] at h
    obtain ⟨path, w₁, -, h⟩ := Step.bind_eq_ok h
    obtain ⟨_, w₂, -, h⟩ := Step.bind_eq_ok h
    cases howner : ref.owner with
    | temp =>
      rw [howner] at h
      exact resembles_of_moveTo hcontent h
    | table owner =>
      simp only [howner] at h
      split at h
      · exact resembles_of_clone h
      · exact resembles_of_copyTo hcontent h

/-- Nor does unlinking. -/
theorem resembles_of_unlink (h : v.unlink db w = .ok v' w') : v'.Resembles v := by
  cases hcontent : v.content with
  | inline data stamp =>
    rw [unlink_inline hcontent] at h
    cases h
    exact .refl v
  | file ref =>
    unfold unlink at h
    simp only [hcontent] at h
    obtain ⟨path, w₁, -, h⟩ := Step.bind_eq_ok h
    obtain ⟨_, w₂, -, h⟩ := Step.bind_eq_ok h
    split at h
    · exact resembles_of_clone h
    · obtain ⟨_, w₃, -, h⟩ := Step.bind_eq_ok h
      obtain ⟨_, w₄, -, h⟩ := Step.bind_eq_ok h
      obtain ⟨_, w₅, -, h⟩ := Step.bind_eq_ok h
      obtain ⟨handle, w₆, -, h⟩ := Step.bind_eq_ok h
      cases h
      exact resembles_withFile hcontent _

theorem resembles_of_handOver {first : Value} {table : TableId}
    (h : handOver db first table w = .ok v w') : v.Resembles first := by
  unfold handOver at h
  split at h
  next linked w₁ hlink =>
    split at h
    · cases h
      exact resembles_of_link hlink
    · cases h
  next =>
    split at h <;> cases h

variable [Codec]

/-- What can be opened is not retired. -/
theorem live_of_reader {r : ContentReader σ} (h : v.reader w = .ok r w') {ref : ValueFile}
    (hcontent : v.content = .file ref) : (w.handle ref.handle).retired = false := by
  refine Bool.eq_false_iff.2 fun hretired => ?_
  unfold reader at h
  simp only [hcontent] at h
  rw [Step.bind_error (World.livePath_error hretired)] at h
  cases h

variable [ReliableStore σ] {p : List Component} {source : Source σ} {text : Bytes}
  {ending : Option StreamError} {declared : Option Nat}

/-- A value that was just made says the right things of what it has with its row, or else of the units that
were wanted. -/
theorem measured_of_create [Codec.Inverts] (hsource : source.Supplies p w.store text ending)
    (hp : NeedsFile db kind source declared w → ∀ {id w₁}, db.allocate w = .ok id w₁ →
      p ≠ (db.naming.path db.layout .temp id).components)
    (h : create db kind source declared w = .ok v w') :
    v.Measured (v.inlineBytes?.getD (kind.units (declared.getD unlimited) text).flatten) := by
  rcases create_outcome db kind hsource declared with
    ⟨m, hrun⟩ | ⟨e, hrun⟩ | ⟨hneeds, ⟨e, w₁, -, hrun⟩ | ⟨id, w₁, halloc, hin⟩⟩
  · rw [h] at hrun
    cases hrun
    exact measured_flatten kind m text _ none
  · rw [h] at hrun
    cases hrun
  · rw [h] at hrun
    cases hrun
  · rcases hin (hp hneeds halloc) with ⟨-, store, stored, hrun, -⟩ | ⟨-, e, store, hrun, -⟩
    · rw [h] at hrun
      cases hrun
      exact measured_flatten kind _ text _ none
    · rw [h] at hrun
      cases hrun

end Value

namespace Session

variable [Codec] {σ : Type} [FileStore σ] [ReliableStore σ] {n : Naming} {db : Database}
  {s first : Session σ} {h : Held}

def Measures (s : Session σ) : Prop := ∀ h ∈ s.held, h.value.Measured h.text

omit [Codec] [FileStore σ] [ReliableStore σ] in
theorem Measures.hold (hs : s.Measures) (hmeasured : h.value.Measured h.text) (w : World σ) :
    (s.hold h w).Measures := by
  intro h' hmem
  rcases List.mem_append.1 hmem with hold | hnew
  · exact hs h' hold
  · rw [List.mem_singleton.1 hnew]
    exact hmeasured

omit [Codec] [FileStore σ] [ReliableStore σ] in
theorem Measures.acquire (hs : s.Measures) {act : Action σ Value} {origin : Bytes}
    (hact : ∀ v w, act s.world = .ok v w → v.Measured (Held.text ⟨v, origin⟩)) :
    (s.acquire act origin).Measures := by
  unfold Session.acquire
  split
  next v w hrun => exact hs.hold (hact v w hrun) w
  next => exact hs

omit [Codec] [FileStore σ] [ReliableStore σ] in
theorem Measures.run (hs : s.Measures) (act : Action σ Unit) : (s.run act).Measures := by
  unfold Session.run
  split <;> exact hs

/-- What is held and not retired bears its content. -/
theorem bears_of_held (hk : Kept db n s) (hmem : h ∈ s.held)
    (hlive : ∀ ref, h.value.content = .file ref → (s.world.handle ref.handle).retired = false) :
    h.value.Bears h.text s.world := by
  cases hcontent : h.value.content with
  | inline data stamp =>
    unfold Value.Bears
    rw [hcontent]
    exact (Held.text_inline hcontent).symm
  | file ref =>
    obtain ⟨-, -, -, hstored⟩ := stored_of_held hk hmem hcontent (hlive ref hcontent)
    rw [Held.text_file hcontent]
    exact (Value.bears_file hcontent).2 ⟨hlive ref hcontent, hstored⟩

omit [Codec] in
/-- A value that resembles the one that it comes from has the same content. -/
theorem measured_of_resembles (hmeasured : h.value.Measured h.text) {v : Value}
    (hsame : v.Resembles h.value) : v.Measured (Held.text ⟨v, h.origin⟩) := by
  have htext : Held.text ⟨v, h.origin⟩ = h.text := by
    simp only [Held.text, hsame.inlineBytes?_eq]
  rw [htext]
  exact hmeasured.of_resembles hsame

/-- A converted value says the right things of the content in the units of the other kind. -/
theorem measured_of_convert [Codec.Inverts] (hopen : db.Opened n) (hk : Kept db n s)
    (hs : s.Measures) (hmem : h ∈ s.held) {kind : Kind}
    (hfits : ∀ r w, h.value.kind ≠ kind → h.value.reader s.world = .ok r w →
      Value.NeedsFile db kind (.stored r) none w → db.Fits s.world) {v : Value} {w : World σ}
    (hrun : h.value.convert db kind s.world = .ok v w) :
    v.Measured (Held.text ⟨v, if h.value.kind = kind then h.origin
      else (kind.units Value.unlimited h.text).flatten⟩) := by
  unfold Value.convert at hrun
  split at hrun
  next hkind =>
    rw [if_pos hkind]
    exact measured_of_resembles (hs h hmem) (Value.resembles_of_clone hrun)
  next hkind =>
    rw [if_neg hkind]
    obtain ⟨r, w₁, hreader, hcreate⟩ := Step.bind_eq_ok hrun
    have hbears := bears_of_held hk hmem fun _ => Value.live_of_reader hreader
    obtain ⟨r', p, hreader', hsource, hp⟩ := hbears.reader_ok
    rw [hreader] at hreader'
    cases hreader'
    refine Value.measured_of_create hsource (fun hneeds id w₂ halloc => ?_) hcreate
    have hroomy := (hfits _ _ hkind hreader hneeds).roomy
    exact Value.ne_temp_of_allocate (hopen.findsFree hroomy) halloc hp

/-- A value that has come to have a file says of it what it said of the bytes in its row. -/
theorem measured_of_spill [Codec.Inverts] (hk : Kept db n s) (hs : s.Measures)
    (hmem : h ∈ s.held) {v : Value} {w : World σ} (hrun : h.value.spill db s.world = .ok v w) :
    v.Measured (Held.text ⟨v, h.text⟩) := by
  have hmeasured := hs h hmem
  cases hcontent : h.value.content with
  | file ref =>
    rw [Value.spill_file hcontent] at hrun
    rw [Held.text_file hcontent]
    exact measured_of_resembles hmeasured (Value.resembles_of_clone hrun)
  | inline data stamp =>
    obtain ⟨hlength, hflat⟩ := hk.whole h (hk.held_made hmem) _ _ hcontent
    rw [Held.text_inline hcontent] at hmeasured ⊢
    by_cases hsmall : h.value.precision ≤ db.settings.inlineThreshold
    · rw [Value.spill_small hcontent hsmall] at hrun
      cases hrun
      rw [Held.text_inline (h := ⟨_, data⟩) hcontent]
      exact hmeasured
    -- A delivery of nothing would be the end, but what is too large is not empty.
    have hdata : data ≠ [] := by
      intro hnil
      rw [hnil, Kind.units_nil, List.length_nil] at hlength
      omega
    rw [Value.spill_eq hcontent hsmall] at hrun
    obtain ⟨first, w₁, hcreate, hrest⟩ := Step.bind_eq_ok hrun
    have hfirst := Value.measured_of_create (Source.supplies_bytes s.world.store hdata)
      (fun _ _ _ _ => db.naming.nil_ne_components_path _ _ _) hcreate
    rw [Option.getD_some, hflat] at hfirst
    cases stamp with
    | none =>
      cases hrest
      exact hfirst
    | some table =>
      exact measured_of_resembles (h := ⟨first, data⟩) hfirst (Value.resembles_of_handOver hrest)

/-- Every operation gives values that say the right things of their contents. -/
theorem Measures.step [Codec.Inverts] (hopen : db.Opened n) (hk : Kept db n s) (hs : s.Measures)
    (e : Event) (hfits : s.Allocates db e → db.Fits s.world) : (s.step db e).Measures := by
  -- Where nothing is held at an index, nothing is done.
  have hheld : ∀ (i : Nat) (act : Held → Session σ),
      (∀ h, s.held[i]? = some h → (act h).Measures) → (s.onHeld i act).Measures := by
    intro i act hact
    unfold onHeld
    split
    next h hi => exact hact h hi
    next => exact hs
  cases e with
  | create kind plan declared =>
    refine hs.acquire fun v w hrun => ?_
    exact Value.measured_of_create (p := []) (.planned plan.genuine)
      (fun _ _ _ _ => db.naming.nil_ne_components_path _ _ _) hrun
  | inline kind data =>
    simp only [Session.step]
    split
    next v hrun =>
      have htext : Held.text ⟨v, data⟩ = data := by
        rw [Held.text, (Value.inline_whole hrun).1, Option.getD_some]
      refine hs.hold ?_ s.world
      rw [htext]
      exact Value.measured_of_inline hrun
    next => exact hs
  | clone i =>
    refine hheld i _ fun h hi => hs.acquire fun v w hrun => ?_
    exact measured_of_resembles (hs h (List.mem_of_getElem? hi)) (Value.resembles_of_clone hrun)
  | link i table =>
    refine hheld i _ fun h hi => hs.acquire fun v w hrun => ?_
    exact measured_of_resembles (hs h (List.mem_of_getElem? hi)) (Value.resembles_of_link hrun)
  | unlink i =>
    refine hheld i _ fun h hi => hs.acquire fun v w hrun => ?_
    exact measured_of_resembles (hs h (List.mem_of_getElem? hi)) (Value.resembles_of_unlink hrun)
  | close i => exact hheld i _ fun h _ => hs.run h.value.close
  | convert i kind =>
    refine hheld i _ fun h hi => hs.acquire fun v w hrun => ?_
    refine measured_of_convert hopen hk hs (List.mem_of_getElem? hi) ?_ hrun
    intro r w₁ hkind hreader hneeds
    exact hfits ⟨h, r, w₁, hi, hkind, hreader, hneeds⟩
  | spill i =>
    refine hheld i _ fun h hi => hs.acquire fun v w hrun => ?_
    exact measured_of_spill hk hs (List.mem_of_getElem? hi) hrun
  | drop i =>
    refine hheld i _ fun h _ h' hmem => ?_
    exact hs h' (List.mem_of_mem_eraseIdx hmem)

/-- In whatever state operations lead to, what is held and not retired is intact. -/
theorem Reaches.intact [Codec.Inverts] (h : Reaches db first s) (hopen : db.Opened n)
    (hk : Kept db n first) (hfirst : first.Measures) : ∀ h ∈ s.held,
      (∀ ref, h.value.content = .file ref → (s.world.handle ref.handle).retired = false) →
      h.value.Intact h.text s.world := by
  have hkept := h.kept hopen hk
  have hmeasures : s.Measures := by
    induction h with
    | start => exact hfirst
    | step e hreaches hfits ih =>
      exact (ih (hreaches.kept hopen hk)).step hopen (hreaches.kept hopen hk) e hfits
  intro held hmem hlive
  exact ⟨hmeasures held hmem, bears_of_held hkept hmem hlive⟩

end Session

end LargeObjects

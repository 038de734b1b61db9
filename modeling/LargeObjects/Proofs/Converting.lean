import Mathlib
import LargeObjects.Proofs.Coverage
import LargeObjects.Proofs.Standing

/-! Converting between octets and characters. Octets can be converted if they are text, and text always,
and what is converted back is what there was. The value that is converted stays as it is. -/
namespace LargeObjects

open ReliableStore

namespace Kind

variable {kind : Kind} {content : Bytes}

/-- What stops being text has fewer units than octets. -/
theorem length_allUnits_lt (h : ¬(kind = .character → Utf8.defect? content = none)) :
    (kind.allUnits content).length < content.length := by
  have hfront := flatten_units_prefix kind content.length content
  have hle := length_le_flatten_units kind content.length content
  refine Nat.lt_of_le_of_lt hle (Nat.lt_of_le_of_ne hfront.length_le fun heq => h ?_)
  exact (flatten_allUnits_iff kind content).1 (hfront.eq_of_length heq)

/-- Where more units are wanted than there are octets, they can all be taken from a text only. -/
theorem complete_iff {n : Nat} (hle : content.length ≤ n) :
    kind.Complete n content none ↔ (kind = .character → Utf8.defect? content = none) := by
  rw [← not_iff_not, not_complete_iff]
  constructor
  · rintro ⟨hkind, hdefect, -⟩ htext
    exact hdefect (htext hkind)
  · intro htext
    have hlt := length_allUnits_lt htext
    obtain ⟨hkind, hdefect⟩ := Classical.not_imp.1 htext
    exact ⟨hkind, hdefect, Nat.lt_of_lt_of_le hlt hle⟩

end Kind

namespace Value

section Convert

variable [Codec] [Codec.Inverts] {σ : Type} [FileStore σ] [ReliableStore σ] {db : Database}
  {kind : Kind} {v : Value} {content : Bytes} {w : World σ}

/-- Converting to the other kind makes a value of the content, or fails and leaves nothing behind. -/
theorem convert_made (h : v.Bears content w) (hkind : v.kind ≠ kind)
    (hlength : content.length ≤ unlimited) (hready : db.Ready kind content w) (hfree : db.FindsFree w) :
    let text := kind = .character → Utf8.defect? content = none
    (text ∧ ∃ v' w', v.convert db kind w = .ok v' w' ∧ Made db kind content w v' w') ∨
    ¬text ∧ ∃ cause w', v.convert db kind w = .error (.corruption cause) w' ∧
      w.Extends w' ∧ ∀ q, fileAt? w'.store q = fileAt? w.store q := by
  obtain ⟨r, p, hreader, hsource, hp⟩ := h.reader_ok
  have hconvert : v.convert db kind w = create db kind (.stored r) none w := by
    unfold convert
    rw [if_neg hkind]
    exact Step.bind_ok hreader
  have hunits : kind.units ((none : Option Nat).getD unlimited) content = kind.allUnits content :=
    Kind.units_of_length_le hlength
  have hcreate := create_all hsource hunits hready hfree hp
  rw [hconvert]
  simp only [Option.getD_none, Kind.complete_iff hlength] at hcreate
  exact hcreate

/-- Converting a value to the other kind, with any codec whose decoder inverts its encoder. Where the
octets are text it gives a value with the same content, measured in the units of the new kind, which
nobody owns and which has a file exactly if it is larger than the threshold; converted back, it is of
the old kind and precision again. Where they are not it fails, with corruption, and no file is new. In
any case the value stays as it is, and so do all files and handles that are there. What is asked of the
search for ids is that it finds a free one, as it does in every database that was opened. -/
theorem convert_exact (h : v.Intact content w) (hkind : v.kind ≠ kind)
    (hlength : content.length ≤ unlimited) (hready : db.Ready kind content w)
    (hfree : db.FindsFree w) :
    let text := kind = .character → Utf8.defect? content = none
    (text → ∃ v' w', v.convert db kind w = .ok v' w' ∧
      v'.kind = kind ∧ v'.precision = kind.count content ∧ v'.readBytes w' = .ok content w' ∧
      v'.table? = none ∧ (v'.isInline ↔ v'.precision ≤ db.settings.inlineThreshold) ∧
      (v'.isInline → w' = w) ∧ w.Extends w' ∧ v.Intact content w' ∧
      ∀ db' : Database, db'.Ready v.kind content w' → db'.FindsFree w' → ∃ v'' w'',
        v'.convert db' v.kind w' = .ok v'' w'' ∧ v''.kind = v.kind ∧ v''.precision = v.precision ∧
        v''.readBytes w'' = .ok content w'') ∧
    (¬text → ∃ cause w', v.convert db kind w = .error (.corruption cause) w' ∧
      w.Extends w' ∧ v.Intact content w' ∧ ∀ q, fileAt? w'.store q = fileAt? w.store q) := by
  intro text
  rcases convert_made h.bears hkind hlength hready hfree with
    ⟨htext, v', w', hrun, hmade⟩ | ⟨htext, cause, w', hrun, hextends, hfiles⟩
  · refine ⟨fun _ => ?_, fun hnot => absurd htext hnot⟩
    have hintact := hmade.intact htext
    have hextends := hmade.extends_world hfree
    have hcount := hintact.count_eq
    rw [hmade.kind_eq] at hcount
    refine ⟨v', w', hrun, hmade.kind_eq, hcount, hintact.bears.readBytes_eq, hmade.table?_eq,
      hmade.isInline_iff, hmade.world_eq, hextends, h.of_extends hextends,
      fun db' hready' hfree' => ?_⟩
    -- The way back starts from the value that was just made, which is intact as well.
    have hback : v'.kind ≠ v.kind := by
      rw [hmade.kind_eq]
      exact hkind.symm
    rcases convert_made hintact.bears hback hlength hready' hfree' with
      ⟨-, v'', w'', hrun', hmade'⟩ | ⟨hnot, -⟩
    · refine ⟨v'', w'', hrun', hmade'.kind_eq, ?_, (hmade'.intact h.text).bears.readBytes_eq⟩
      rw [hmade'.precision_eq, h.precision_eq]
    · exact absurd h.text hnot
  · exact ⟨fun hyes => absurd hyes htext, fun _ =>
      ⟨cause, w', hrun, hextends, h.of_extends hextends, hfiles⟩⟩

end Convert

open Session

def accentedOctets : Plan := ⟨[.bytes [0x61, 0xC3, 0xA9]], by decide⟩

def accentedSession : Session MemoryStore :=
  ({ world := emptyWorld : Session MemoryStore }.step packedDatabase
    (.create .binary accentedOctets none)).step packedDatabase (.link 0 ⟨6⟩)

/-- Three octets need a file, which is compressed, the two characters that they are need none, and
converted back they need one again. -/
theorem convert_exact_accent :
    let w := accentedSession.world
    let content : Bytes := [0x61, 0xC3, 0xA9]
    Codec.Inverts ∧
    ∃ v : Value, v.Intact content w ∧ v.kind ≠ .character ∧ content.length ≤ unlimited ∧
      packedDatabase.Ready .character content w ∧ packedDatabase.Ready .binary content w ∧
      packedDatabase.FindsFree w ∧ v.state w = .linked ∧ v.file?.map (·.compressed) = some true ∧
      ∃ v' v'' w'', v.convert packedDatabase .character w = .ok v' w ∧
        v'.isInline ∧ v'.precision = 2 ∧ v'.convert packedDatabase .binary w = .ok v'' w'' ∧
        v''.precision = 3 ∧ v''.readBytes w'' = .ok content w'' := by
  intro w content
  have hreaches : Reaches packedDatabase { world := emptyWorld } accentedSession := by
    refine .step _ (.step _ .start fun _ => ?_) fun _ => ?_
    · exact fits_of_place 0 1 rfl (by decide)
    · exact fits_of_place 0 2 rfl (by decide)
  have hopen : packedDatabase.Opened packedDatabase.naming := .tree rfl
  have hkept : Kept packedDatabase packedDatabase.naming { world := emptyWorld } := kept_start nofun
  obtain ⟨h, hmem, hkind, hprecision, htext, hstate, hcompressed, hlive⟩ :
      ∃ h ∈ accentedSession.held, h.value.kind = .binary ∧ h.value.precision = 3 ∧
        h.text = content ∧ h.value.state w = .linked ∧
        h.value.file?.map (·.compressed) = some true ∧
        ∀ ref, h.value.content = .file ref → (w.handle ref.handle).retired = false := by
    refine ⟨_, List.mem_cons_of_mem _ List.mem_cons_self, rfl, rfl, rfl, rfl, rfl, ?_⟩
    rintro ref ⟨⟩
    rfl
  have hintact := hreaches.intact hopen hkept nofun h hmem hlive
  rw [htext] at hintact
  have hfree : packedDatabase.FindsFree w :=
    hopen.findsFree (fits_of_place 0 2 rfl (by decide)).roomy
  have hready : ∀ kind : Kind, packedDatabase.Ready kind content w := fun kind =>
    ⟨by decide, fun _ => ⟨_, _, rfl⟩⟩
  have hother : h.value.kind ≠ .character := by
    rw [hkind]
    nofun
  obtain ⟨v', w', hrun, -, hcount, -, -, hinline, hsame, -, -, hback⟩ :=
    (convert_exact hintact hother (by decide) (hready .character) hfree).1 fun _ => by decide
  have htwo : v'.precision = 2 := hcount.trans (by decide)
  have hsmall : v'.isInline := by
    rw [hinline, htwo]
    exact Nat.le_refl 2
  obtain rfl := hsame hsmall
  rw [hkind] at hback
  obtain ⟨v'', w'', hrun', -, hthree, hread⟩ := hback packedDatabase (hready .binary) hfree
  exact ⟨Frame.inverts, h.value, hintact, hother, by decide, hready .character, hready .binary, hfree,
    hstate, hcompressed, v', v'', w'', hrun, hsmall, htwo, hrun', hthree.trans hprecision, hread⟩

end Value

end LargeObjects

import Mathlib
import LargeObjects.Value.Content
import LargeObjects.Proofs.Steps
import LargeObjects.Proofs.Streams

/-! Reading a value gives the content that its file stores. -/
namespace LargeObjects.Value

open ReliableStore

variable [Codec] {σ : Type} [FileStore σ] [ReliableStore σ] {v : Value} {w : World σ}
  {ref : ValueFile} {stored content : Bytes}

omit [ReliableStore σ] in
theorem reader_inline {data : Bytes} {stamp : Option TableId} (h : v.content = .inline data stamp) :
    v.reader w = .ok (.inline data) w := by
  unfold reader
  rw [h]
  rfl

/-- A value whose handle has its file can be opened, and what it has left to read is its content. -/
theorem reader_ok (h : v.content = .file ref) (hlive : (w.handle ref.handle).retired = false)
    (hfile : fileAt? w.store (w.handle ref.handle).path.components = some stored)
    (hstores : Stores ref.compressed stored content) :
    ∃ c, v.reader w = .ok c w ∧ c.Holds (w.handle ref.handle).path.components w.store content ∧
      content.length ≤ c.unread w.store := by
  obtain ⟨r, hopen, hr⟩ := openRead_ok hfile
  obtain ⟨c, hstart, hc, hlen⟩ := ContentReader.start_ok hr hstores
  refine ⟨c, ?_, hc, hlen⟩
  unfold reader
  rw [h]
  dsimp only
  rw [Step.bind_ok (World.livePath_ok hlive), Step.bind_ok (World.onStore_ok hopen),
    World.onStore_ok hstart]

omit [ReliableStore σ] in
theorem readBytes_inline {data : Bytes} {stamp : Option TableId}
    (h : v.content = .inline data stamp) : v.readBytes w = .ok data w := by
  unfold readBytes
  rw [h]
  rfl

/-- Read in full, a file gives what it was made with. -/
theorem readBytes_ok (h : v.content = .file ref) (hlive : (w.handle ref.handle).retired = false)
    (hfile : fileAt? w.store (w.handle ref.handle).path.components = some stored)
    (hstores : Stores ref.compressed stored content) : v.readBytes w = .ok content w := by
  obtain ⟨c, hreader, hc, hlen⟩ := reader_ok h hlive hfile hstores
  obtain ⟨c', hread⟩ := ContentReader.readAll_ok hc hlen (min v.precision roomLimit)
  unfold readBytes
  rw [h]
  dsimp only
  rw [Step.bind_ok hreader]
  unfold readAll
  rw [hread]

def Bears (v : Value) (content : Bytes) (w : World σ) : Prop :=
  match v.content with
  | .inline data _ => data = content
  | .file ref => (w.handle ref.handle).retired = false ∧ ∃ stored,
    fileAt? w.store (w.handle ref.handle).path.components = some stored ∧
      Stores ref.compressed stored content

/-- For a value with a file, bearing a content is that the handle has its file, which stores it. -/
theorem bears_file (h : v.content = .file ref) : v.Bears content w ↔
    (w.handle ref.handle).retired = false ∧ ∃ stored,
      fileAt? w.store (w.handle ref.handle).path.components = some stored ∧
        Stores ref.compressed stored content := by
  unfold Bears
  rw [h]

/-- Whatever a value bears is what is read from it, and reading changes nothing. -/
theorem Bears.readBytes_eq (h : v.Bears content w) : v.readBytes w = .ok content w := by
  cases hcontent : v.content with
  | inline data stamp =>
    unfold Bears at h
    rw [hcontent] at h
    rw [readBytes_inline hcontent, h]
  | file ref =>
    obtain ⟨hlive, stored, hfile, hstores⟩ := (bears_file hcontent).1 h
    exact readBytes_ok hcontent hlive hfile hstores

end LargeObjects.Value

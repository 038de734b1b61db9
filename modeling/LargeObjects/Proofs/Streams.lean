import Mathlib
import LargeObjects.Proofs.Recording
import LargeObjects.Proofs.StoreLaws

/-! Sinks and readers over the files of a reliable store: what they do to the file at one place, and
that they leave the others alone. -/
namespace LargeObjects

open ReliableStore

variable {σ : Type} [FileStore σ] [ReliableStore σ] {p : List Component} {s s' s'' : σ}

structure OnlyAt (p : List Component) (s s' : σ) : Prop where
  file_eq : ∀ q ≠ p, fileAt? s' q = fileAt? s q
  reading : ∀ r q rest, q ≠ p → Reading r q rest s → Reading r q rest s'

namespace OnlyAt

theorem refl (p : List Component) (s : σ) : OnlyAt p s s := ⟨fun _ _ => rfl, fun _ _ _ _ h => h⟩

theorem trans (h : OnlyAt p s s') (h' : OnlyAt p s' s'') : OnlyAt p s s'' := by
  refine ⟨fun q hq => ?_, fun r q rest hq hr => ?_⟩
  · rw [h'.file_eq q hq, h.file_eq q hq]
  · exact h'.reading r q rest hq (h.reading r q rest hq hr)

end OnlyAt

/-- A writer of a reliable store appends to its file and touches no other. -/
theorem ReliableStore.appends (w : FileStore.Writer σ) (p : List Component) (s : σ) :
    Appends w (fun given s' => Writing w p given s' ∧ OnlyAt p s s') fun s' => fileAt? s' p where
  write_ok := by
    rintro given s' more ⟨hw, honly⟩
    obtain ⟨s'', hwrite, hw', hfile, hread⟩ := write_ok more hw
    exact ⟨s'', hwrite, hw', honly.trans ⟨hfile, hread⟩⟩
  flush_ok := by
    rintro given s' ⟨hw, honly⟩
    obtain ⟨s'', hflush, hw', hfile, hread⟩ := flush_ok hw
    exact ⟨s'', hflush, hw', honly.trans ⟨hfile, hread⟩⟩
  close_eq h := (close_ok h.1).1

variable [Codec]

namespace Sink

variable {w : FileStore.Writer σ} {given content : Bytes} {compressed : Bool} {sink : Sink σ}

inductive Takes (w : FileStore.Writer σ) (p : List Component) :
    Bool → Sink σ → Bytes → σ → Prop
  | plain {content : Bytes} {s : σ} : Writing w p content s → Takes w p false (.plain w) content s
  | framed {written ready content : Bytes} {encoder : Codec.Encoder} {s : σ} :
      Writing w p (Algorithm.zstdTag :: written) s → Codec.Carries encoder (written ++ ready) content →
      Takes w p true (.framed w encoder ready) content s

theorem Takes.writing (h : Takes w p compressed sink content s) : ∃ given, Writing w p given s := by
  cases h with
  | plain hw => exact ⟨_, hw⟩
  | framed hw _ => exact ⟨_, hw⟩

/-- A sink on a file of a reliable store is one whose writer appends, with the other files unharmed. -/
theorem Takes.carries (h : Takes w p compressed sink content s) :
    sink.Carries w (fun given s' => Writing w p given s' ∧ OnlyAt p s s') compressed content s := by
  cases h with
  | plain hw => exact .plain ⟨hw, .refl p s⟩
  | framed hw he => exact .framed ⟨hw, .refl p s⟩ he

theorem Carries.takes
    (h : sink.Carries w (fun given s' => Writing w p given s' ∧ OnlyAt p s s') compressed content s') :
    Takes w p compressed sink content s' ∧ OnlyAt p s s' := by
  cases h with
  | plain hgiven => exact ⟨.plain hgiven.1, hgiven.2⟩
  | framed hgiven he => exact ⟨.framed hgiven.1 he, hgiven.2⟩

/-- A stream can be started on any file that is open and empty. -/
theorem start_ok [Codec.Inverts] (h : Writing w p [] s) (compression : Option Algorithm) :
    ∃ sink s', start w compression s = .ok sink s' ∧
      Takes w p compression.isSome sink [] s' ∧ OnlyAt p s s' := by
  obtain ⟨sink, s', hstart, hsink⟩ := (appends w p s).start ⟨h, .refl p s⟩ compression
  exact ⟨sink, s', hstart, hsink.takes⟩

/-- Writing adds to the content and touches no other file. -/
theorem write_ok (h : Takes w p compressed sink content s) (more : Bytes) :
    ∃ sink' s', write more (sink, s) = .ok () (sink', s') ∧
      Takes w p compressed sink' (content ++ more) s' ∧ OnlyAt p s s' := by
  obtain ⟨sink', s', hwrite, hsink⟩ := (appends w p s).write h.carries more
  exact ⟨sink', s', hwrite, hsink.takes⟩

/-- Finished, the file holds what stores the content. -/
theorem finish_ok (h : Takes w p compressed sink content s) :
    ∃ s' stored, finish (sink, s) = .ok () (sink, s') ∧ Writing w p stored s' ∧
      Stores compressed stored content ∧ OnlyAt p s s' := by
  obtain ⟨s', stored, hfinish, ⟨hw, honly⟩, hstores⟩ := (appends w p s).finish h.carries
  exact ⟨s', stored, hfinish, hw, hstores, honly⟩

end Sink

omit [Codec] in
/-- Readers that are open on the file at a place. -/
theorem ReliableStore.readable (p : List Component) (s : σ) :
    Readable s fun r left => Reading r p left s :=
  ⟨read_ok, unread_ge⟩

namespace ContentReader

inductive Holds (p : List Component) (s : σ) : ContentReader σ → Bytes → Prop
  | inline (text : Bytes) : Holds p s (.inline text) text
  | plain {r : FileStore.Reader σ} {text : Bytes} : Reading r p text s → Holds p s (.plain r) text
  | framed {r : FileStore.Reader σ} {decoding : Decoding} {left ready text : Bytes} :
      Reading r p left s → decoding.outcome left = (text, none) →
      Holds p s (.framed r decoding ready) (ready ++ text)

theorem holds_iff {c : ContentReader σ} {text : Bytes} :
    c.Holds p s text ↔ c.Gives (fun r left => Reading r p left s) text none := by
  constructor
  · intro h
    cases h with
    | inline => exact .inline _
    | plain hr => exact .plain hr
    | framed hr hd => exact .framed hr hd
  · intro h
    cases h with
    | inline => exact .inline _
    | plain hr => exact .plain hr
    | framed hr hd => exact .framed hr hd

/-- A reader does not notice what becomes of other files. -/
theorem Holds.elsewhere {q : List Component} {c : ContentReader σ} {text : Bytes}
    (h : Holds p s c text) (honly : OnlyAt q s s') (hpq : p ≠ q) : Holds p s' c text := by
  cases h with
  | inline => exact .inline _
  | plain hr => exact .plain (honly.reading _ _ _ hpq hr)
  | framed hr hd => exact .framed (honly.reading _ _ _ hpq hr) hd

/-- The file of a content is opened, and all the content is still to be read. -/
theorem start_ok {r : FileStore.Reader σ} {compressed : Bool} {stored content : Bytes}
    (hr : Reading r p stored s) (h : Stores compressed stored content) :
    ∃ c, start r compressed s = .ok c s ∧ Holds p s c content ∧ content.length ≤ c.unread s := by
  obtain ⟨c, hstart, hc, hlen⟩ := start_gives (readable p s) hr h
  exact ⟨c, hstart, holds_iff.2 hc, hlen⟩

/-- A reader serves what it holds; reading changes nothing in the store. -/
theorem serves (p : List Component) (s : σ) : Serves (read (σ := σ))
    (fun t text ending => t.2 = s ∧ ending = none ∧ Holds p s t.1 text) fun _ => False := by
  refine ⟨?_⟩
  rintro t text ending limit ⟨hs, rfl, hc⟩ hlimit
  rcases (serves_of_readable (readable p s)).read_eq ⟨hs, holds_iff.1 hc⟩ hlimit with
    ⟨piece, more, t', hread, htext, hlen, hnil, hs', hc'⟩ | ⟨e, t', -, -, hend, -⟩
  · exact Or.inl ⟨piece, more, t', hread, htext, hlen, hnil, hs', rfl, holds_iff.2 hc'⟩
  · cases hend

/-- Read to the end, the content comes back in full. -/
theorem readAll_ok {c : ContentReader σ} {text : Bytes} (hc : Holds p s c text)
    (hlen : text.length ≤ c.unread s) (capacity : Nat) :
    ∃ c', readAll capacity (c, s) = .ok text (c', s) :=
  readAll_gives (readable p s) (holds_iff.1 hc) hlen capacity

end ContentReader

end LargeObjects

import Mathlib
import LargeObjects.Proofs.Pouring
import LargeObjects.Proofs.Intakes

/-! A new file that is filled in two stores at once. One keeps the file up to date, the other one holds
octets back, which come out when the file is closed. Until then they differ in nothing else, and what
is read from other files in the meantime is the same. -/
namespace LargeObjects

open Step Disk

/-- A file that is open for writing in both stores. Once it is closed, both have the same files. -/
structure Filling (g : Ground) (names : List Name) (w n : Nat) (s : MemoryStore) (d : Disk) : Prop where
  twins : Twins g s (d.flushHeld w)
  number_eq : d.numberAt? g.start names = some n
  stands : ∃ text held, d.Stands w n text held

namespace Filling

variable {g : Ground} {p : Path} {names : List Name} {w n : Nat} {s : MemoryStore} {d : Disk}

theorem close (h : Filling g names w n s d) (p : Path) :
    Twins g (FileStore.close p s) (FileStore.close w d) :=
  h.twins

theorem at?_eq (h : Filling g names w n s d) (hseat : g.Seat names) (hp : g.Spells p names)
    {text held : Bytes} (hstands : d.Stands w n text held) : s.at? p.components = some (text ++ held) := by
  obtain ⟨hflushed, hpours⟩ := hstands.flushHeld
  rw [h.twins.at?_eq hseat hp, numberAt?_congr hpours.directories_eq, h.number_eq, Option.map_some,
    hflushed.content_eq]

/-- Writing gives the same octets to both. -/
theorem write (h : Filling g names w n s d) (hseat : g.Seat names) (hp : g.Spells p names)
    (bytes : Bytes) : ∃ s' d', FileStore.write p bytes s = .ok () s' ∧
      FileStore.write w bytes d = .ok () d' ∧ Filling g names w n s' d' ∧ Pours n d d' := by
  obtain ⟨text, held, hstands⟩ := h.stands
  obtain ⟨text', held', hstands', htext, hpours⟩ := hstands.writeBuffered bytes
  obtain ⟨hflushed, hpours₁⟩ := hstands.flushHeld
  obtain ⟨hflushed', hpours₂⟩ := hstands'.flushHeld
  have hat := h.at?_eq hseat hp hstands
  have hnumber' := (congrFun₂ (numberAt?_congr hpours.directories_eq) g.start names).trans h.number_eq
  have hwritten : FileStore.write p bytes s = .ok () (s.put p (text ++ held ++ bytes)) := by
    simp only [FileStore.write, MemoryStore.get?_eq_at?, hat]
  refine ⟨_, d.writeBuffered w bytes, hwritten, rfl, ⟨?_, hnumber', _, _, hstands'⟩, hpours⟩
  -- Seen after the file is closed, one content has become longer.
  have hdirs := (hpours.trans hpours₂).directories_eq.trans hpours₁.directories_eq.symm
  have hlength := (hpours.trans hpours₂).length_eq.trans hpours₁.length_eq.symm
  have hnumber₁ := (congrFun₂ (numberAt?_congr hpours₁.directories_eq) g.start names).trans h.number_eq
  have hedited := (h.twins.houses.edited_refl hnumber₁).contents hdirs hlength.ge
  rw [← htext, ← hflushed'.content_eq]
  refine h.twins.put hseat hp hedited fun m _ hm => ?_
  rw [(hpours.trans hpours₂).content_ne hm, hpours₁.content_ne hm]

theorem flush (h : Filling g names w n s d) : Filling g names w n s (d.flushHeld w) ∧
    Pours n d (d.flushHeld w) := by
  obtain ⟨text, held, hstands⟩ := h.stands
  obtain ⟨hflushed, hpours⟩ := hstands.flushHeld
  have hagain : (d.flushHeld w).flushHeld w = d.flushHeld w := by
    rw [Disk.flushHeld, hflushed.heldBy_eq]
    exact if_pos rfl
  refine ⟨⟨?_, ?_, _, _, hflushed⟩, hpours⟩
  · rw [hagain]
    exact h.twins
  · rw [numberAt?_congr hpours.directories_eq]
    exact h.number_eq

theorem writeAll (h : Filling g names w n s d) (hseat : g.Seat names) (hp : g.Spells p names)
    (bytes : Bytes) : ∃ s' d', Sink.writeAll p bytes s = .ok () s' ∧
      Sink.writeAll w bytes d = .ok () d' ∧ Filling g names w n s' d' ∧ Pours n d d' := by
  unfold Sink.writeAll
  by_cases hnil : bytes = []
  · rw [if_pos hnil, if_pos hnil]
    exact ⟨s, d, rfl, rfl, h, .refl n d⟩
  · rw [if_neg hnil, if_neg hnil]
    exact h.write hseat hp bytes

end Filling

variable [Codec]

inductive Sinks (p : Path) (w : Nat) : Sink MemoryStore → Sink Disk → Prop
  | plain : Sinks p w (.plain p) (.plain w)
  | framed (encoder : Codec.Encoder) (ready : Bytes) :
      Sinks p w (.framed p encoder ready) (.framed w encoder ready)

def Sunk (g : Ground) (p : Path) (names : List Name) (w n : Nat) (d : Disk) :
    Sink MemoryStore × MemoryStore → Sink Disk × Disk → Prop := fun (sink, s) (sink', d') =>
  Sinks p w sink sink' ∧ Filling g names w n s d' ∧ Pours n d d'

section Sinks

variable {g : Ground} {p : Path} {names : List Name} {w n : Nat} {s : MemoryStore} {d : Disk}
  {sink : Sink MemoryStore} {sink' : Sink Disk}

/-- The codec is the same in both stores, and so are its failures. -/
theorem Sinks.start (h : Filling g names w n s d) (hseat : g.Seat names) (hp : g.Spells p names)
    (compression : Option Algorithm) :
    Agree (fun s' d' => Filling g names w n s' d' ∧ Pours n d d') (Sinks p w)
      (Sink.start (σ := MemoryStore) p compression s) (Sink.start (σ := Disk) w compression d) := by
  cases compression with
  | none => exact .ok .plain ⟨h, .refl n d⟩
  | some a =>
    obtain ⟨level⟩ := a
    obtain ⟨s', d', hmemory, hdisk, h', hpours⟩ := h.writeAll hseat hp [(Algorithm.zstd level).tag]
    simp only [Sink.start, hmemory, hdisk]
    cases Codec.newEncoder level with
    | ok encoder => exact .ok (.framed encoder []) ⟨h', hpours⟩
    | error e => exact .error ⟨h', hpours⟩

theorem Sinks.write (hsinks : Sinks p w sink sink') (h : Filling g names w n s d)
    (hseat : g.Seat names) (hp : g.Spells p names) (content : Bytes) :
    Agree (Sunk g p names w n d) Eq (Sink.write content (sink, s)) (Sink.write content (sink', d)) := by
  cases hsinks with
  | plain =>
    obtain ⟨s', d', hmemory, hdisk, h', hpours⟩ := h.writeAll hseat hp content
    simp only [Sink.write, hmemory, hdisk]
    exact .ok rfl ⟨.plain, h', hpours⟩
  | framed encoder ready =>
    by_cases hnil : content = []
    · simp only [Sink.write, if_pos hnil]
      exact .ok rfl ⟨.framed encoder ready, h, .refl n d⟩
    · obtain ⟨s', d', hmemory, hdisk, h', hpours⟩ := h.writeAll hseat hp ready
      simp only [Sink.write, if_neg hnil, hmemory, hdisk]
      cases Codec.absorb encoder content with
      | ok absorbed => exact .ok rfl ⟨.framed absorbed.1 absorbed.2, h', hpours⟩
      | error e => exact .error ⟨.framed encoder [], h', hpours⟩

theorem Sinks.finish (hsinks : Sinks p w sink sink') (h : Filling g names w n s d)
    (hseat : g.Seat names) (hp : g.Spells p names) :
    Agree (fun t t' => Filling g names w n t.2 t'.2) Eq (Sink.finish (sink, s))
      (Sink.finish (sink', d)) := by
  cases hsinks with
  | plain => exact .ok rfl h.flush.1
  | framed encoder ready =>
    obtain ⟨s₁, d₁, hmemory₁, hdisk₁, h₁, -⟩ := h.writeAll hseat hp ready
    simp only [Sink.finish, hmemory₁, hdisk₁]
    cases Codec.finish encoder with
    | error e => exact .error h₁
    | ok octets =>
      obtain ⟨s₂, d₂, hmemory₂, hdisk₂, h₂, -⟩ := h₁.writeAll hseat hp octets
      simp only [hmemory₂, hdisk₂]
      exact .ok rfl h₂.flush.1

end Sinks

def MemoryStore.Left (r : FileStore.Reader MemoryStore) (left : Bytes) : Prop := r = left

section Readers

variable {g : Ground} {p : Path} {names : List Name} {s : MemoryStore} {d : Disk} {left : Bytes}
  {S : Nat → Prop}

omit [Codec] in
/-- The same file opened in both stores. -/
theorem Twins.openRead (h : Twins g s d) (hseat : g.Seat names) (hp : g.Spells p names) :
    Agree (fun s' d' => s' = s ∧ d' = d)
      (fun r r' => ∃ n left, d.numberAt? g.start names = some n ∧ MemoryStore.Left r left ∧
        Disk.Left (· = n) d r' left)
      (FileStore.openRead p s) (FileStore.openRead p d) := by
  have hstatus := h.houses.status_eq hseat hp
  cases hnumber : d.numberAt? g.start names with
  | none =>
    have hmemory : FileStore.openRead p s = .error (.notFound p) s := h.withFile_none hseat hp hnumber _
    rw [hnumber] at hstatus
    have hdisk : FileStore.openRead p d = .error (.notFound p) d := by
      simp only [FileStore.openRead, hstatus]
      rfl
    rw [hmemory, hdisk]
    exact .error ⟨rfl, rfl⟩
  | some n =>
    have hmemory : FileStore.openRead p s = .ok (d.content n) s := h.withFile_some hseat hp hnumber _
    rw [hnumber] at hstatus
    have hdisk : FileStore.openRead p d = .ok ({ entry := .file n } : DiskReader) d := by
      simp only [FileStore.openRead, hstatus]
    rw [hmemory, hdisk]
    exact .ok ⟨n, d.content n, rfl, rfl, n, rfl, rfl, rfl⟩ ⟨rfl, rfl⟩

/-- Readers with the same octets left check the same tag, and then have the same content to give. -/
theorem ContentReader.start_agree {r : FileStore.Reader MemoryStore} {r' : FileStore.Reader Disk}
    (hr : MemoryStore.Left r left) (hr' : Disk.Left S d r' left) (compressed : Bool) :
    Agree (fun s' d' => s' = s ∧ d' = d)
      (fun c c' => ∃ text ending, c.Gives MemoryStore.Left text ending ∧
        c'.Gives (Disk.Left S d) text ending)
      (ContentReader.start r compressed s) (ContentReader.start r' compressed d) := by
  unfold ContentReader.start
  cases compressed with
  | false => exact .ok ⟨left, none, .plain hr, .plain hr'⟩ ⟨rfl, rfl⟩
  | true =>
    obtain ⟨piece, more, next, hread, hleft, hlen, hnil, hnext⟩ :=
      s.readable.read_ok (show r = left from hr) Nat.one_pos
    obtain ⟨piece', more', next', hread', hleft', hlen', hnil', hnext'⟩ :=
      (Disk.readable S d).read_ok hr' Nat.one_pos
    rw [Bool.not_true, if_neg Bool.false_ne_true, if_neg Bool.false_ne_true, hread, hread']
    cases piece with
    | nil =>
      obtain rfl : piece' = [] := by
        rw [hnil rfl] at hleft'
        exact (List.append_eq_nil_iff.1 hleft'.symm).1
      exact .error ⟨rfl, rfl⟩
    | cons tag rest =>
      -- One octet was asked for and came.
      obtain rfl : rest = [] := List.eq_nil_of_length_eq_zero (by simpa using hlen)
      obtain rfl : piece' = [tag] := by
        cases piece' with
        | nil =>
          rw [hnil' rfl] at hleft
          cases hleft
        | cons tag' rest' =>
          obtain rfl : rest' = [] := List.eq_nil_of_length_eq_zero (by simpa using hlen')
          rw [hleft] at hleft'
          rw [(List.cons.inj hleft').1]
      obtain rfl : more = more' := List.append_cancel_left (hleft.symm.trans hleft')
      by_cases htag : tag = Algorithm.zstdTag
      · dsimp only
        rw [if_pos htag, if_pos htag]
        cases Codec.newDecoder with
        | error e => exact .error ⟨rfl, rfl⟩
        | ok decoder => exact .ok ⟨_, _, .unready hnext rfl, .unready hnext' rfl⟩ ⟨rfl, rfl⟩
      · dsimp only
        rw [if_neg htag, if_neg htag]
        exact .error ⟨rfl, rfl⟩

end Readers

structure Intakes (S : Nat → Prop) (d : Disk) (intake : Intake MemoryStore) (intake' : Intake Disk) :
    Prop where
  kind_eq : intake.kind = intake'.kind
  offers : ∃ text ending, intake.Offers (Source.Gives MemoryStore.Left) text ending ∧
    intake'.Offers (Source.Gives (Disk.Left S d)) text ending

section Intakes

variable {n : Nat} {S T : Nat → Prop} {s : MemoryStore} {d d' : Disk} {intake : Intake MemoryStore}
  {intake' : Intake Disk}

/-- Where the contents that are read stay, so does the source. -/
theorem Intakes.mono (h : Intakes S d intake intake') (hsub : ∀ m, S m → T m)
    (hsame : ∀ m, S m → d'.content m = d.content m) : Intakes T d' intake intake' := by
  obtain ⟨text, ending, hmemory, hdisk⟩ := h.offers
  refine ⟨h.kind_eq, text, ending, hmemory, hdisk.mono fun hsource => hsource.mono fun hleft => ?_⟩
  obtain ⟨m, hm, hentry, hleft⟩ := hleft
  exact ⟨m, hsub m hm, hentry, by rw [hleft, hsame m hm]⟩

theorem Intakes.pours (h : Intakes (· ≠ n) d intake intake') (hpours : Pours n d d') :
    Intakes (· ≠ n) d' intake intake' := h.mono (fun _ hm => hm) fun _ hm => hpours.content_ne hm

theorem Intakes.withCapacity (h : Intakes S d intake intake') (capacity : Nat) :
    Intakes S d { intake with capacity } { intake' with capacity } := by
  obtain ⟨text, ending, hmemory, hdisk⟩ := h.offers
  exact ⟨h.kind_eq, text, ending, hmemory.withCapacity capacity, hdisk.withCapacity capacity⟩

/-- Both take in the same units or fail for the same reason. -/
theorem Intakes.take (h : Intakes S d intake intake') (s : MemoryStore) (wanted : Nat) :
    (∃ taken next next', Intake.take wanted (intake, s) = .ok taken (next, s) ∧
      Intake.take wanted (intake', d) = .ok taken (next', d) ∧ Intakes S d next next' ∧
      next.kind = intake.kind) ∨
    ∃ e next next', Intake.take wanted (intake, s) = .error e (next, s) ∧
      Intake.take wanted (intake', d) = .error e (next', d) := by
  obtain ⟨text, ending, hmemory, hdisk⟩ := h.offers
  have htaking := Intake.taking (Source.sourced s.readable) hmemory wanted
  have htaking' := Intake.taking (Source.sourced (Disk.readable S d)) hdisk wanted
  rw [← h.kind_eq] at htaking'
  rcases htaking with ⟨hdone, next, hrun, hkind, hoffers⟩ | ⟨hfail, e, next, hrun, hrefuses⟩
  · rcases htaking' with ⟨-, next', hrun', hkind', hoffers'⟩ | ⟨hfail', -⟩
    · refine Or.inl ⟨_, next, next', hrun, hrun', ⟨hkind.trans hkind'.symm, _, _, hoffers, hoffers'⟩, hkind⟩
    · exact absurd hdone hfail'
  · rcases htaking' with ⟨hdone', -⟩ | ⟨-, e', next', hrun', hrefuses'⟩
    · exact absurd hdone' hfail
    · rw [hrefuses.unique hrefuses'] at hrun
      exact Or.inr ⟨e', next, next', hrun, hrun'⟩

end Intakes

namespace Value

variable {g : Ground} {p : Path} {names : List Name} {w n : Nat} {s : MemoryStore} {d : Disk}
  {intake : Intake MemoryStore} {intake' : Intake Disk} {sink : Sink MemoryStore} {sink' : Sink Disk}

inductive Pouring (g : Ground) (p : Path) (names : List Name) (w n : Nat) :
    EStateM.Result ObjectError (Intake MemoryStore × Sink MemoryStore × MemoryStore) Nat →
    EStateM.Result ObjectError (Intake Disk × Sink Disk × Disk) Nat → Prop
  | ok {total : Nat} {intake : Intake MemoryStore} {intake' : Intake Disk} {sink : Sink MemoryStore}
      {sink' : Sink Disk} {s : MemoryStore} {d : Disk} : Sinks p w sink sink' →
      Filling g names w n s d →
      Pouring g p names w n (.ok total (intake, sink, s)) (.ok total (intake', sink', d))
  | error {e : ObjectError} {intake : Intake MemoryStore} {intake' : Intake Disk}
      {sink : Sink MemoryStore} {sink' : Sink Disk} {s : MemoryStore} {d : Disk} :
      Filling g names w n s d →
      Pouring g p names w n (.error e (intake, sink, s)) (.error e (intake', sink', d))

theorem pouring (hseat : g.Seat names) (hp : g.Spells p names) (threshold : Nat) (compressed : Bool)
    (fuel remaining total : Nat) (hintakes : Intakes (· ≠ n) d intake intake') (hsinks : Sinks p w sink sink')
    (h : Filling g names w n s d) : Pouring g p names w n
      (pour threshold compressed fuel remaining total (intake, sink, s))
      (pour threshold compressed fuel remaining total (intake', sink', d)) := by
  induction fuel generalizing remaining total intake intake' sink sink' s d with
  | zero => exact .ok hsinks h
  | succ fuel ih =>
    unfold pour
    dsimp only
    generalize ChunkSize.next remaining threshold compressed = size
    by_cases hsize : size = 0
    · rw [if_pos hsize, if_pos hsize]
      exact .ok hsinks h
    rw [if_neg hsize, if_neg hsize]
    rcases hintakes.take s size with
      ⟨⟨chunk, count⟩, next, next', hmemory, hdisk, hnext, -⟩ | ⟨e, next, next', hmemory, hdisk⟩
    · rw [hmemory, hdisk]
      dsimp only
      by_cases hcount : count = 0
      · rw [if_pos hcount, if_pos hcount]
        exact .ok hsinks h
      · rw [if_neg hcount, if_neg hcount]
        rcases (hsinks.write h hseat hp chunk).ok_or_error with
          ⟨_, _, t, t', hwrite, hwrite', rfl, hsinks₁, h₁, hpours⟩ | ⟨e, t, t', hwrite, hwrite', -, h₁, -⟩
        · rw [hwrite, hwrite']
          exact ih _ _ (hnext.pours hpours) hsinks₁ h₁
        · rw [hwrite, hwrite']
          exact .error h₁
    · rw [hmemory, hdisk]
      exact .error h

/-- The first chunk and the rest of a source go into both files alike. -/
theorem fillFile_agree (hseat : g.Seat names) (hp : g.Spells p names) (settings : Settings)
    (first : Bytes) (remaining : Nat) (hintakes : Intakes (· ≠ n) d intake intake')
    (h : Filling g names w n s d) : Agree (Filling g names w n) Eq
      (fillFile (σ := MemoryStore) settings p first remaining intake s)
      (fillFile (σ := Disk) settings w first remaining intake' d) := by
  obtain ⟨kind, source, pending, capacity⟩ := intake
  obtain ⟨kind', source', pending', capacity'⟩ := intake'
  obtain rfl : kind = kind' := hintakes.kind_eq
  unfold fillFile
  dsimp only
  generalize settings.compressionFor kind = compression
  rcases (Sinks.start h hseat hp compression).ok_or_error with
    ⟨sink₀, sink₀', s₀, d₀, hstart, hstart', hsinks₀, h₀, hpours₀⟩ | ⟨e, s₀, d₀, hstart, hstart', h₀, -⟩
  swap
  · rw [hstart, hstart']
    exact .error h₀
  rw [hstart, hstart']
  dsimp only
  rcases (hsinks₀.write h₀ hseat hp first).ok_or_error with
    ⟨_, _, t, t', hwrite, hwrite', rfl, hsinks₁, h₁, hpours₁⟩ | ⟨e, t, t', hwrite, hwrite', -, h₁, -⟩
  swap
  · rw [hwrite, hwrite']
    exact .error h₁
  rw [hwrite, hwrite']
  dsimp only
  have hintakes₁ := ((hintakes.pours hpours₀).pours hpours₁).withCapacity 0
  have hpouring := pouring hseat hp settings.inlineThreshold compression.isSome remaining remaining 0
    hintakes₁ hsinks₁ h₁
  dsimp only at hpouring
  generalize pour settings.inlineThreshold compression.isSome remaining remaining 0
    (⟨kind, source, pending, 0⟩, t.1, t.2) = poured at hpouring ⊢
  generalize pour settings.inlineThreshold compression.isSome remaining remaining 0
    (⟨kind, source', pending', 0⟩, t'.1, t'.2) = poured' at hpouring ⊢
  cases hpouring with
  | ok hsinks₂ h₂ =>
    dsimp only
    rcases (hsinks₂.finish h₂ hseat hp).ok_or_error with
      ⟨_, _, t, t', hfinish, hfinish', -, h₃⟩ | ⟨e, t, t', hfinish, hfinish', h₃⟩
    · rw [hfinish, hfinish']
      exact .ok rfl h₃
    · rw [hfinish, hfinish']
      exact .error h₃
  | error h₂ => exact .error h₂

end Value

end LargeObjects

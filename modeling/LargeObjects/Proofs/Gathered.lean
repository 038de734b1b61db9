import Mathlib
import LargeObjects.Proofs.Steps

/-! What is gathered from a stream is what the stream gives, up to the limit or to the end, whatever
the sizes of the requests and of the pieces that answer them. -/
namespace LargeObjects

/-- Each reading takes a piece off the front of the text that is left. There is no empty piece
before the end, which comes after the text unless there is a failure in its place. A failure leaves
the state as `Broken` says. -/
structure Serves {ε τ : Type} (read : Nat → Step ε τ Bytes)
    (Left : τ → Bytes → Option ε → Prop) (Broken : τ → Prop) : Prop where
  read_eq {t : τ} {text : Bytes} {ending : Option ε} {limit : Nat} :
    Left t text ending → 0 < limit →
      (∃ piece more t', read limit t = .ok piece t' ∧ text = piece ++ more ∧
        piece.length ≤ limit ∧ (piece = [] → text = [] ∧ ending = none) ∧ Left t' more ending) ∨
      ∃ e t', read limit t = .error e t' ∧ text = [] ∧ ending = some e ∧ Broken t'

namespace Gathering

structure Sound (g : Gathering) : Prop where
  size_eq : g.size = g.bytes.length
  stride_pos : 0 < g.stride

theorem sound_ofCapacity (capacity : Nat) : (ofCapacity capacity).Sound := ⟨rfl, Nat.succ_pos _⟩

theorem bytes_ofCapacity (capacity : Nat) : (ofCapacity capacity).bytes = [] := rfl

/-- Making room changes nothing of what was gathered. -/
theorem bytes_prepared (g : Gathering) : g.prepared.bytes = g.bytes := by
  unfold prepared
  split <;> rfl

theorem Sound.prepared {g : Gathering} (h : g.Sound) : g.prepared.Sound := by
  unfold Gathering.prepared
  split
  · exact h
  · exact ⟨h.size_eq, h.stride_pos⟩

/-- What was asked for comes behind what is there. -/
theorem bytes_add (g : Gathering) (piece : Bytes) : (g.add piece).bytes = g.bytes ++ piece := by
  simp only [add, bytes, List.reverse_cons, List.flatten_append, List.flatten_cons,
    List.flatten_nil, List.append_nil]

theorem Sound.add {g : Gathering} (h : g.Sound) (piece : Bytes) : (g.add piece).Sound := by
  refine ⟨?_, ?_⟩
  · rw [bytes_add, List.length_append, ← h.size_eq]
    rfl
  · have := h.stride_pos
    simp only [Gathering.add]
    split <;> omega

/-- There is always room for something. -/
theorem Sound.request_pos {g : Gathering} (h : g.Sound) : 0 < g.request := by
  unfold request
  split
  · decide
  · have hroom : g.size + probeSize ≤ g.extended.capacity := by
      simp only [extended, capacityFor]
      split <;> omega
    have hprobe : 0 < probeSize := by decide
    have := h.stride_pos
    omega

def share (limit : Option Nat) (text : Bytes) : Nat :=
  match limit with
  | none => text.length
  | some n => min n text.length

def Stops (limit : Option Nat) (text : Bytes) : Prop := ∃ n, limit = some n ∧ n ≤ text.length

variable {ε τ : Type} {read : Nat → Step ε τ Bytes} {Left : τ → Bytes → Option ε → Prop}
  {Broken : τ → Prop}

/-- One request, after which the limit is lower by what it has brought. -/
theorem fill_succ (fuel : Nat) (limit : Option Nat) (g : Gathering) :
    fill read (fuel + 1) limit g =
      if limit.elim g.request (min g.request) = 0 then pure g.prepared
      else read (limit.elim g.request (min g.request)) >>= fun piece =>
        if piece = [] then pure g.prepared
        else fill read fuel (limit.map (· - piece.length)) (g.add piece) := by
  cases limit <;> rfl

/-- Filling takes as much of the text as the limit allows. It fails only where a failure takes the
place of the end, and only if the limit is not reached before that. -/
theorem fill_eq (law : Serves read Left Broken) {fuel : Nat} {limit : Option Nat} {g : Gathering}
    {t : τ} {text : Bytes} {ending : Option ε} (hg : g.Sound) (ht : Left t text ending)
    (hfuel : share limit text < fuel) :
    ((Stops limit text ∨ ending = none) ∧ ∃ g' t', fill read fuel limit g t = .ok g' t' ∧
      g'.Sound ∧ g'.bytes = g.bytes ++ text.take (share limit text) ∧
      Left t' (text.drop (share limit text)) ending) ∨
    ¬Stops limit text ∧ ∃ e t', ending = some e ∧ fill read fuel limit g t = .error e t' ∧
      Broken t' := by
  induction fuel generalizing limit g t text with
  | zero => exact absurd hfuel (Nat.not_lt_zero _)
  | succ fuel ih =>
    have hreq := hg.request_pos
    rw [fill_succ]
    generalize hwanted : limit.elim g.request (min g.request) = wanted
    -- Nothing is asked for only at the limit, since every request is for something.
    by_cases hzero : wanted = 0
    · obtain rfl : limit = some 0 := by
        cases limit with
        | none => rw [Option.elim_none] at hwanted; omega
        | some n => rw [Option.elim_some] at hwanted; congr; omega
      have hshare : share (some 0) text = 0 := Nat.zero_min _
      rw [if_pos hzero, hshare, List.take_zero, List.drop_zero, List.append_nil]
      exact Or.inl ⟨Or.inl ⟨0, rfl, Nat.zero_le _⟩, _, _, rfl, hg.prepared, bytes_prepared g, ht⟩
    rw [if_neg hzero]
    rcases law.read_eq ht (Nat.pos_of_ne_zero hzero) with
      ⟨piece, more, t', hread, rfl, hpiece, hend, hleft⟩ | ⟨e, t', hread, rfl, rfl, hbroken⟩
    · rw [Step.bind_ok hread]
      by_cases hnil : piece = []
      · obtain ⟨htext, rfl⟩ := hend hnil
        obtain ⟨-, rfl⟩ := List.append_eq_nil_iff.1 htext
        rw [if_pos hnil, htext, List.take_nil, List.drop_nil, List.append_nil]
        exact Or.inl ⟨Or.inr rfl, _, _, rfl, hg.prepared, bytes_prepared g, hleft⟩
      · have hpos := List.length_pos_iff.2 hnil
        -- What the piece brings is taken off the limit and off the text alike.
        have hshare : share limit (piece ++ more) =
            piece.length + share (limit.map (· - piece.length)) more := by
          cases limit with
          | none => exact List.length_append
          | some n =>
            rw [Option.elim_some] at hwanted
            simp only [share, Option.map_some, List.length_append]
            omega
        have hstops : Stops limit (piece ++ more) ↔
            Stops (limit.map (· - piece.length)) more := by
          cases limit with
          | none => exact ⟨fun ⟨_, h, _⟩ => (nomatch h), fun ⟨_, h, _⟩ => (nomatch h)⟩
          | some n =>
            rw [Option.elim_some] at hwanted
            simp only [Stops, Option.map_some, Option.some.injEq, exists_eq_left',
              List.length_append]
            omega
        have htake : (piece ++ more).take (share limit (piece ++ more)) =
            piece ++ more.take (share (limit.map (· - piece.length)) more) := by
          rw [hshare, List.take_length_add_append]
        have hdrop : (piece ++ more).drop (share limit (piece ++ more)) =
            more.drop (share (limit.map (· - piece.length)) more) := by
          rw [hshare, List.drop_length_add_append]
        rw [if_neg hnil, hstops, htake, hdrop, ← List.append_assoc, ← bytes_add]
        exact ih (hg.add piece) hleft (by omega)
    · rw [Step.bind_error hread]
      refine Or.inr ⟨?_, e, t', rfl, rfl, hbroken⟩
      rintro ⟨n, rfl, hn⟩
      rw [Option.elim_some] at hwanted
      rw [List.length_nil] at hn
      omega

end Gathering

end LargeObjects

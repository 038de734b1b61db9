import Mathlib
import LargeObjects.Proofs.Streams
import LargeObjects.Proofs.Units

/-! Taking in units of a source. What is taken depends on the text that the source has and on how
it ends, and on nothing else: not on how the text is cut into deliveries. -/
namespace LargeObjects

open ReliableStore

def Delivery.outcome : List Delivery → Bytes × Option StreamError
  | [] => ([], none)
  | .interrupted :: rest => outcome rest
  | .failed e :: _ => ([], some e)
  | .bytes content :: rest => (content ++ (outcome rest).1, (outcome rest).2)

variable [Codec] {σ : Type} [FileStore σ] [ReliableStore σ] {p : List Component} {s : σ} {text : Bytes}
  {ending : Option StreamError}

namespace Source

omit [Codec] in
theorem fetchPlanned_eq {limit : Nat} (hlimit : 0 < limit) {deliveries : List Delivery}
    (hplan : .bytes [] ∉ deliveries) :
    ∃ rest, .bytes [] ∉ rest ∧
      ((∃ piece, fetchPlanned limit deliveries = (.ok piece, rest) ∧
        Delivery.outcome deliveries =
          (piece ++ (Delivery.outcome rest).1, (Delivery.outcome rest).2) ∧
        piece.length ≤ limit ∧ (piece = [] → Delivery.outcome deliveries = ([], none))) ∨
      ∃ e, fetchPlanned limit deliveries = (.error e, rest) ∧
        Delivery.outcome deliveries = ([], some e)) := by
  induction deliveries with
  | nil => exact ⟨[], hplan, Or.inl ⟨[], rfl, rfl, Nat.zero_le _, fun _ => rfl⟩⟩
  | cons d deliveries ih =>
    have hrest : .bytes [] ∉ deliveries := fun h => hplan (List.mem_cons_of_mem _ h)
    cases d with
    | interrupted => exact ih hrest
    | failed e => exact ⟨deliveries, hrest, Or.inr ⟨e, rfl, rfl⟩⟩
    | bytes content =>
      have hne : content ≠ [] := by
        rintro rfl
        exact hplan List.mem_cons_self
      have htake : content.take limit ≠ [] := by
        intro h
        rcases List.take_eq_nil_iff.1 h with h | h
        · omega
        · exact hne h
      have hlen : (content.take limit).length ≤ limit := by
        rw [List.length_take]
        exact Nat.min_le_left _ _
      cases hdrop : content.drop limit with
      | nil =>
        have hall : content.take limit = content := by
          have := List.take_append_drop limit content
          rwa [hdrop, List.append_nil] at this
        refine ⟨deliveries, hrest, Or.inl ⟨content.take limit, ?_, ?_, hlen,
          fun h => absurd h htake⟩⟩
        · simp only [fetchPlanned, hdrop]
        · rw [hall]
          rfl
      | cons b more =>
        refine ⟨.bytes (b :: more) :: deliveries, ?_, Or.inl ⟨content.take limit, ?_, ?_, hlen,
          fun h => absurd h htake⟩⟩
        · rw [List.mem_cons, not_or]
          exact ⟨by simp, hrest⟩
        · simp only [fetchPlanned, hdrop]
        · simp only [Delivery.outcome]
          rw [← hdrop, ← List.append_assoc, List.take_append_drop]

/-- What a source has: some text, and an end or a failure after it. A source that reads a file reads
the one at a place. -/
inductive Supplies (p : List Component) (s : σ) :
    Source σ → Bytes → Option StreamError → Prop
  | stored {c : ContentReader σ} {text : Bytes} :
      c.Holds p s text → Supplies p s (.stored c) text none
  | planned {deliveries : List Delivery} : .bytes [] ∉ deliveries →
      Supplies p s (.planned deliveries) (Delivery.outcome deliveries).1
        (Delivery.outcome deliveries).2

omit [ReliableStore σ] in
/-- What is planned is supplied, piece by piece, up to the first failure. -/
theorem fetch_planned {Has : Source σ → Bytes → Option StreamError → Prop}
    (hhas : ∀ {plan}, .bytes [] ∉ plan →
      Has (.planned plan) (Delivery.outcome plan).1 (Delivery.outcome plan).2)
    {plan : List Delivery} (hplan : .bytes [] ∉ plan) {limit : Nat} (hlimit : 0 < limit) (s : σ) :
    (∃ piece more t, fetch limit (.planned plan, s) = .ok piece t ∧
      (Delivery.outcome plan).1 = piece ++ more ∧ piece.length ≤ limit ∧
      (piece = [] → (Delivery.outcome plan).1 = [] ∧ (Delivery.outcome plan).2 = none) ∧
      t.2 = s ∧ Has t.1 more (Delivery.outcome plan).2) ∨
    ∃ e t, fetch limit (.planned plan, s) = .error e t ∧ (Delivery.outcome plan).1 = [] ∧
      (Delivery.outcome plan).2 = some e ∧ t.2 = s := by
  obtain ⟨rest, hrest, ⟨piece, hfetch, hout, hlen, hnil⟩ | ⟨e, hfetch, hout⟩⟩ :=
    fetchPlanned_eq hlimit hplan
  · refine Or.inl ⟨piece, (Delivery.outcome rest).1, (.planned rest, s), ?_, ?_, hlen, ?_, rfl, ?_⟩
    · simp only [fetch, hfetch]
    · rw [hout]
    · intro h
      rw [hnil h]
      exact ⟨rfl, rfl⟩
    · rw [hout]
      exact hhas hrest
  · refine Or.inr ⟨e, (.planned rest, s), ?_, ?_, ?_, rfl⟩
    · simp only [fetch, hfetch]
    · rw [hout]
    · rw [hout]

theorem Supplies.elsewhere {q : List Component} {s' : σ} {source : Source σ}
    (h : Supplies p s source text ending) (honly : OnlyAt q s s') (hpq : p ≠ q) :
    Supplies p s' source text ending := by
  cases h with
  | stored hc => exact .stored (hc.elsewhere honly hpq)
  | planned hplan => exact .planned hplan

theorem serves (p : List Component) (s : σ) : Serves (fetch (σ := σ))
    (fun t text ending => t.2 = s ∧ Supplies p s t.1 text ending) fun t => t.2 = s := by
  refine ⟨?_⟩
  rintro ⟨source, s'⟩ text ending limit ⟨hs, hsource⟩ hlimit
  obtain rfl : s' = s := hs
  cases hsource with
  | @stored c text hc =>
    rcases (ContentReader.serves p s').read_eq (t := (c, s')) ⟨rfl, rfl, hc⟩ hlimit with
      ⟨piece, more, ⟨c', _⟩, hread, htext, hlen, hnil, rfl, -, hc'⟩ | ⟨e, t', -, -, hend, -⟩
    · refine Or.inl ⟨piece, more, (.stored c', _), ?_, htext, hlen, hnil, rfl, .stored hc'⟩
      simp only [fetch, hread]
    · cases hend
  | planned hplan => exact fetch_planned .planned hplan hlimit s'

end Source

inductive Kind.Refuses : Kind → Bytes → Option StreamError → ObjectError → Prop
  | stream {kind : Kind} {rest : Bytes} {cause : StreamError} :
      (kind = .character → ¬Utf8.Malformed rest) → Refuses kind rest (some cause) (.stream cause)
  | malformed {rest : Bytes} {ending : Option StreamError} : Utf8.Malformed rest →
      Refuses .character rest ending (.corruption .malformedSource)
  | truncated {rest : Bytes} : ¬Utf8.Malformed rest →
      Refuses .character rest none (.corruption .truncatedSource)

omit [Codec] in
theorem Kind.Refuses.unique {kind : Kind} {rest : Bytes} {e e' : ObjectError}
    (h : kind.Refuses rest ending e) (h' : kind.Refuses rest ending e') : e = e' := by
  cases h with
  | stream hsound =>
    cases h' with
    | stream => rfl
    | malformed hbad => exact absurd hbad (hsound rfl)
  | malformed hbad =>
    cases h' with
    | stream hsound => exact absurd hbad (hsound rfl)
    | malformed => rfl
    | truncated hsound => exact absurd hbad hsound
  | truncated hsound =>
    cases h' with
    | malformed hbad => exact absurd hbad hsound
    | truncated => rfl

omit [Codec] in
theorem Kind.Refuses.corruption {kind : Kind} {rest : Bytes} {e : ObjectError}
    (h : kind.Refuses rest none e) : ∃ cause, e = .corruption cause := by
  cases h with
  | malformed => exact ⟨_, rfl⟩
  | truncated => exact ⟨_, rfl⟩

namespace Intake

section Offers

omit [ReliableStore σ]

variable {Has : Source σ → Bytes → Option StreamError → Prop}

structure Offers (Has : Source σ → Bytes → Option StreamError → Prop) (intake : Intake σ)
    (text : Bytes) (ending : Option StreamError) : Prop where
  pending_eq : intake.kind = .binary → intake.pending = []
  supply : ∃ supply, text = intake.pending ++ supply ∧ Has intake.source supply ending

theorem Offers.mono {Has' : Source σ → Bytes → Option StreamError → Prop} {intake : Intake σ}
    (h : intake.Offers Has text ending)
    (hsub : ∀ {source text ending}, Has source text ending → Has' source text ending) :
    intake.Offers Has' text ending := by
  obtain ⟨supply, htext, hsource⟩ := h.supply
  exact ⟨h.pending_eq, supply, htext, hsub hsource⟩

/-- The buffer that is kept between chunks does not count. -/
theorem Offers.withCapacity {intake : Intake σ} (h : intake.Offers Has text ending) (capacity : Nat) :
    ({ intake with capacity } : Intake σ).Offers Has text ending := ⟨h.pending_eq, h.supply⟩

abbrev Sourced (s : σ) (Has : Source σ → Bytes → Option StreamError → Prop) : Prop :=
  Serves (Source.fetch (σ := σ)) (fun t text ending => t.2 = s ∧ Has t.1 text ending) fun t => t.2 = s

/-- Fetching serves what the source has and leaves the rest of the intake as it is. -/
theorem serves (law : Sourced s Has) (kind : Kind) (pending : Bytes) (capacity : Nat) :
    Serves (fetch (σ := σ)) (fun t text failure => ∃ ending source,
      failure = ending.map ObjectError.stream ∧
      t = ({ kind, source, pending, capacity }, s) ∧ Has source text ending)
      fun t => t.2 = s := by
  refine ⟨?_⟩
  rintro _ text _ limit ⟨ending, source, rfl, rfl, hsource⟩ hlimit
  rcases law.read_eq (t := (source, s)) ⟨rfl, hsource⟩ hlimit with
    ⟨piece, more, ⟨source', _⟩, hread, htext, hlen, hnil, rfl, hsource'⟩ |
    ⟨e, ⟨source', _⟩, hread, htext, rfl, rfl⟩
  · refine Or.inl ⟨piece, more, ({ kind, source := source', pending, capacity }, _), ?_, htext,
      hlen, ?_, ending, source', rfl, rfl, hsource'⟩
    · simp only [fetch, hread]
    · intro h
      obtain ⟨rfl, rfl⟩ := hnil h
      exact ⟨rfl, rfl⟩
  · refine Or.inr ⟨.stream e, ({ kind, source := source', pending, capacity }, _), ?_, htext, rfl,
      rfl⟩
    simp only [fetch, hread]

def Taking (s : σ) (Has : Source σ → Bytes → Option StreamError → Prop) (kind : Kind) (wanted : Nat)
    (text : Bytes) (ending : Option StreamError)
    (result : EStateM.Result ObjectError (Intake σ × σ) (Bytes × Nat)) : Prop :=
  let units := kind.units wanted text
  let rest := text.drop units.flatten.length
  (kind.Complete wanted text ending ∧ ∃ intake',
    result = .ok (units.flatten, units.length) (intake', s) ∧ intake'.kind = kind ∧
      intake'.Offers Has rest ending) ∨
  ¬kind.Complete wanted text ending ∧ ∃ e intake', result = .error e (intake', s) ∧
    kind.Refuses rest ending e

theorem takingOctets (law : Sourced s Has) {intake : Intake σ} (hkind : intake.kind = .binary)
    (h : intake.Offers Has text ending) (wanted : Nat) :
    Taking s Has .binary wanted text ending (takeOctets wanted (intake, s)) := by
  obtain ⟨kind, source, pending, capacity⟩ := intake
  obtain ⟨hpending, supply, rfl, hsource⟩ := h
  dsimp only at hkind
  subst hkind
  obtain rfl : pending = [] := hpending rfl
  simp only [Taking, List.nil_append, Kind.flatten_units_binary, Kind.length_units_binary,
    List.length_take, Kind.Complete]
  have hrun : takeOctets wanted (⟨.binary, source, [], capacity⟩, s) =
      (Gathering.fill fetch (wanted + 1) (some wanted) (.ofCapacity capacity) >>= fun gathered =>
        (do
          modify fun t => ({ t.1 with capacity := gathered.capacity }, t.2)
          return (gathered.bytes, gathered.size) :
          Step ObjectError (Intake σ × σ) (Bytes × Nat)))
        (⟨.binary, source, [], capacity⟩, s) := rfl
  rw [hrun]
  have hfuel : Gathering.share (some wanted) supply < wanted + 1 :=
    Nat.lt_succ_of_le (Nat.min_le_left _ _)
  have hstops : Gathering.Stops (some wanted) supply ↔ min wanted supply.length = wanted := by
    simp only [Gathering.Stops, Option.some.injEq, exists_eq_left']
    omega
  rcases Gathering.fill_eq (serves law .binary [] capacity) (Gathering.sound_ofCapacity capacity)
      ⟨ending, source, rfl, rfl, hsource⟩ hfuel with
    ⟨hdone, g, _, hfill, hg, hbytes, ending', source', hending, rfl, hsource'⟩ |
    ⟨hstop, e, ⟨intake', _⟩, hending, hfill, rfl⟩
  · obtain rfl : ending = ending' := by
      cases ending <;> cases ending' <;> simp_all
    rw [Gathering.bytes_ofCapacity, List.nil_append] at hbytes
    have htake : supply.take (Gathering.share (some wanted) supply) = supply.take wanted := by
      rw [Gathering.share, List.take_eq_take_iff]
      omega
    rw [htake] at hbytes
    refine Or.inl ⟨?_, ⟨.binary, source', [], g.capacity⟩, ?_, rfl, fun _ => rfl,
      supply.drop (min wanted supply.length), rfl, hsource'⟩
    · rw [hstops] at hdone
      rcases hdone with hdone | hdone
      · exact Or.inl hdone
      · rcases Nat.le_total wanted supply.length with hle | hle
        · exact Or.inl (Nat.min_eq_left hle)
        · refine Or.inr ⟨?_, List.take_of_length_le hle⟩
          cases ending <;> simp_all
    · rw [Step.bind_ok hfill, ← hbytes, ← List.length_take, ← hbytes, ← hg.size_eq]
      rfl
  · rw [hstops] at hstop
    obtain ⟨cause, rfl, rfl⟩ := Option.map_eq_some_iff.1 hending
    refine Or.inr ⟨?_, _, intake', ?_, .stream (by rintro ⟨⟩)⟩
    · rintro (hall | ⟨hnone, -⟩)
      · exact hstop hall
      · cases hnone
    · rw [Step.bind_error hfill]

theorem takeText_succ (wanted : Nat) (taken : Bytes) (count fuel : Nat) (intake : Intake σ) (s : σ) :
    takeText wanted taken count (fuel + 1) (intake, s) =
      match Utf8.takeCharacters wanted intake.pending taken 0 with
      | none => .error (.corruption .malformedSource) (intake, s)
      | some (taken, more, pending) =>
        if wanted ≤ more then .ok (taken.reverse, count + more) ({ intake with pending }, s)
        else match fetch fetchSize ({ intake with pending }, s) with
          | .error e t => .error e t
          | .ok fetched (intake, s) =>
            if fetched = [] then
              if pending = [] then .ok (taken.reverse, count + more) (intake, s)
              else .error (.corruption .truncatedSource) (intake, s)
            else takeText (wanted - more) taken (count + more) fuel
              ({ intake with pending := intake.pending ++ fetched }, s) := by
  rw [takeText]
  simp only [bind, EStateM.bind, get, getThe, MonadStateOf.get, EStateM.get]
  cases Utf8.takeCharacters wanted intake.pending taken 0 with
  | none => rfl
  | some result =>
    obtain ⟨taken, more, pending⟩ := result
    by_cases hall : wanted ≤ more
    · simp only [if_pos hall]
      rfl
    · simp only [if_neg hall]
      cases hfetch : fetch fetchSize ({ intake with pending }, s) with
      | error e t => simp only [set, MonadStateOf.set, EStateM.set, EStateM.bind, hfetch]
      | ok fetched t =>
        simp only [set, MonadStateOf.set, EStateM.set, EStateM.bind, hfetch]
        by_cases hend : fetched = []
        · simp only [if_pos hend]
          split <;> rfl
        · simp only [if_neg hend]
          rfl

/-- What taking in characters leads to when `count` of them have been taken already. They make up
`taken`, its last octet first. -/
def TakingText (s : σ) (Has : Source σ → Bytes → Option StreamError → Prop) (taken : Bytes)
    (count wanted : Nat) (text : Bytes) (ending : Option StreamError)
    (result : EStateM.Result ObjectError (Intake σ × σ) (Bytes × Nat)) : Prop :=
  let units := Utf8.leading wanted text
  let rest := text.drop units.flatten.length
  (Kind.character.Complete wanted text ending ∧ ∃ intake',
    result = .ok (taken.reverse ++ units.flatten, count + units.length) (intake', s) ∧
      intake'.kind = .character ∧ intake'.Offers Has rest ending) ∨
  ¬Kind.character.Complete wanted text ending ∧ ∃ e intake', result = .error e (intake', s) ∧
    Kind.character.Refuses rest ending e

section

variable {taken : Bytes} {count wanted : Nat} {intake : Intake σ}
  {result : EStateM.Result ObjectError (Intake σ × σ) (Bytes × Nat)}

/-- After some of the characters that are wanted, the others remain to be taken. -/
theorem TakingText.append {cs : List Bytes} {more : Bytes} (hle : cs.length ≤ wanted)
    (hunits : Utf8.leading wanted (cs.flatten ++ more) =
      cs ++ Utf8.leading (wanted - cs.length) more)
    (h : TakingText s Has (cs.flatten.reverse ++ taken) (count + cs.length) (wanted - cs.length) more
      ending result) :
    TakingText s Has taken count wanted (cs.flatten ++ more) ending result := by
  have hcomplete := Kind.complete_append .character ending hle hunits
  have hrest : (cs.flatten ++ more).drop (Utf8.leading wanted (cs.flatten ++ more)).flatten.length =
      more.drop (Utf8.leading (wanted - cs.length) more).flatten.length := by
    rw [hunits, List.flatten_append, List.length_append, List.drop_length_add_append]
  rcases h with ⟨hdone, intake', hrun, hkind, hoffers⟩ | ⟨hfail, e, intake', hrun, hrefuses⟩
  · refine Or.inl ⟨hcomplete.2 hdone, intake', ?_, hkind, ?_⟩
    · rw [hrun, hunits]
      simp only [List.reverse_append, List.reverse_reverse, List.flatten_append, List.length_append,
        List.append_assoc, Nat.add_assoc]
    · rw [hrest]
      exact hoffers
  · refine Or.inr ⟨fun h => hfail (hcomplete.1 h), e, intake', hrun, ?_⟩
    rw [hrest]
    exact hrefuses

theorem takingText_stop (hstop : wanted = 0 ∨ ending = none ∧ text = [])
    (hkind : intake.kind = .character) (h : intake.Offers Has text ending) :
    TakingText s Has taken count wanted text ending (.ok (taken.reverse, count) (intake, s)) := by
  have hnil : Utf8.leading wanted text = [] := by
    rcases hstop with rfl | ⟨-, rfl⟩
    · rfl
    · exact Utf8.leading_nil wanted
  have hcomplete : Kind.character.Complete wanted text ending := by
    simp only [Kind.Complete, Kind.units, hnil, List.length_nil, List.flatten_nil]
    exact hstop.imp Eq.symm fun h => ⟨h.1, h.2.symm⟩
  refine Or.inl ⟨hcomplete, intake, ?_, hkind, ?_⟩
  · rw [hnil, List.flatten_nil, List.append_nil]
    rfl
  · rw [hnil]
    exact h

theorem takingText_fail {e : ObjectError} (hnone : Utf8.character? text = none) (hpos : 0 < wanted)
    (hmore : ending = none → text ≠ []) (hrefuses : Kind.character.Refuses text ending e) :
    TakingText s Has taken count wanted text ending (.error e (intake, s)) := by
  have hnil : Utf8.leading wanted text = [] := Utf8.leading_of_none hnone wanted
  refine Or.inr ⟨Kind.not_complete ?_ fun h => ?_, e, intake, rfl, ?_⟩
  · rw [Kind.units, hnil]
    exact hpos
  · rw [Kind.units, hnil]
    exact (hmore h).symm
  · rw [hnil]
    exact hrefuses

end

theorem takingText (law : Sourced s Has) {intake : Intake σ} (hkind : intake.kind = .character)
    (h : intake.Offers Has text ending) {wanted fuel : Nat}
    (hfuel : 4 * wanted + 1 ≤ fuel + intake.pending.length) (hpos : 0 < fuel) (taken : Bytes)
    (count : Nat) :
    TakingText s Has taken count wanted text ending (takeText wanted taken count fuel (intake, s)) := by
  induction fuel generalizing intake text wanted taken count with
  | zero => exact absurd hpos (Nat.lt_irrefl 0)
  | succ fuel ih =>
    obtain ⟨kind, source, pending, capacity⟩ := intake
    obtain ⟨-, supply, htext, hsource⟩ := h
    dsimp only at hkind hfuel hsource htext
    subst hkind
    have htaken := Utf8.takeCharacters_eq wanted pending taken 0
    have hsplit := Kind.units_append_drop .character wanted pending
    have hunits := Utf8.leading_append wanted pending supply
    have hle := Utf8.length_leading_le wanted pending
    have hoctets := Utf8.length_flatten_leading_le wanted pending
    dsimp only [Kind.units] at hsplit htaken
    -- The text is what has been taken now, what has arrived beyond it, and what the source has.
    generalize Utf8.leading wanted pending = cs at htaken hsplit hunits hle hoctets
    generalize pending.drop cs.flatten.length = rest at htaken hsplit hunits
    have hwhole : pending ++ supply = cs.flatten ++ (rest ++ supply) := by
      rw [← hsplit, List.append_assoc]
    rw [hwhole] at hunits htext
    rw [takeText_succ, htext]
    refine .append hle hunits ?_
    rcases htaken with ⟨htake, hstop⟩ | ⟨htake, hlt, hbad⟩
    · simp only [htake, Nat.zero_add]
      by_cases hall : wanted ≤ cs.length
      · rw [if_pos hall]
        exact takingText_stop (Or.inl (by omega)) rfl ⟨nofun, supply, rfl, hsource⟩
      have hinc : Utf8.Incomplete rest := hstop.resolve_left (by omega)
      rw [if_neg hall]
      rcases (serves law .character rest capacity).read_eq
          ⟨ending, source, rfl, rfl, hsource⟩ (show 0 < fetchSize by decide) with
        ⟨piece, more, _, hfetch, rfl, -, hend, ending', source', hending, rfl, hsource'⟩ |
        ⟨e, ⟨intake', _⟩, hfetch, rfl, hending, rfl⟩
      · obtain rfl : ending = ending' := by
          cases ending <;> cases ending' <;> simp_all
        simp only [hfetch]
        by_cases hnil : piece = []
        · obtain ⟨hmore, hnone⟩ := hend hnil
          obtain rfl : ending = none := by cases ending <;> simp_all
          obtain ⟨-, rfl⟩ := List.append_eq_nil_iff.1 hmore
          rw [if_pos hnil, hnil, List.append_nil, List.append_nil]
          -- At the end, octets that are left over are a character cut short.
          by_cases hrest : rest = []
          · rw [if_pos hrest]
            exact takingText_stop (Or.inr ⟨rfl, hrest⟩) rfl
              ⟨nofun, [], (List.append_nil rest).symm, hsource'⟩
          · rw [if_neg hrest]
            exact takingText_fail hinc.character? (by omega) (fun _ => hrest)
              (.truncated hinc.not_malformed)
        · have hpiece := List.length_pos_iff.2 hnil
          have hshort := hinc.length_le
          have hpending := congrArg List.length hsplit
          rw [List.length_append] at hpending
          rw [if_neg hnil]
          have hoffers : Offers Has ⟨.character, source', rest ++ piece, capacity⟩
              (rest ++ (piece ++ more)) ending := by
            refine ⟨nofun, more, ?_, hsource'⟩
            rw [List.append_assoc]
          have hfuel' : 4 * (wanted - cs.length) + 1 ≤ fuel + (rest ++ piece).length := by
            rw [List.length_append]
            omega
          exact ih rfl hoffers hfuel' (by omega) (cs.flatten.reverse ++ taken) (count + cs.length)
      · simp only [hfetch]
        obtain ⟨cause, rfl, rfl⟩ := Option.map_eq_some_iff.1 hending
        rw [List.append_nil]
        exact takingText_fail hinc.character? (by omega) nofun (.stream fun _ => hinc.not_malformed)
    · simp only [htake]
      have hbad' := hbad.append supply
      obtain ⟨lead, others, hcons, -⟩ := id hbad'
      exact takingText_fail hbad'.character? (by omega) (fun _ => hcons ▸ List.cons_ne_nil _ _)
        (.malformed hbad')

/-- Taking in gives the units that come next. It fails exactly when fewer come than are wanted and
what is left is not the end. -/
theorem taking (law : Sourced s Has) {intake : Intake σ} (h : intake.Offers Has text ending)
    (wanted : Nat) : Taking s Has intake.kind wanted text ending (take wanted (intake, s)) := by
  cases hkind : intake.kind with
  | binary =>
    have hrun : take wanted (intake, s) = takeOctets wanted (intake, s) := by
      simp only [take, hkind]
    rw [hrun]
    exact takingOctets law hkind h wanted
  | character =>
    have hrun : take wanted (intake, s) = takeText wanted [] 0 (4 * wanted + 1) (intake, s) := by
      simp only [take, hkind]
    rw [hrun]
    have hfuel : 4 * wanted + 1 ≤ 4 * wanted + 1 + intake.pending.length := Nat.le_add_right _ _
    have htext := takingText law hkind h hfuel (Nat.succ_pos _) [] 0
    simpa only [Taking, TakingText, Kind.units, List.reverse_nil, List.nil_append, Nat.zero_add]
      using htext

end Offers

structure Holds (p : List Component) (s : σ) (intake : Intake σ) (text : Bytes)
    (ending : Option StreamError) : Prop where
  pending_eq : intake.kind = .binary → intake.pending = []
  supply : ∃ supply, text = intake.pending ++ supply ∧
    Source.Supplies p s intake.source supply ending

theorem Holds.elsewhere {q : List Component} {s' : σ} {intake : Intake σ}
    (h : intake.Holds p s text ending) (honly : OnlyAt q s s') (hpq : p ≠ q) :
    intake.Holds p s' text ending := by
  obtain ⟨supply, htext, hsource⟩ := h.supply
  exact ⟨h.pending_eq, supply, htext, hsource.elsewhere honly hpq⟩

def Taken (p : List Component) (s : σ) (intake : Intake σ) (wanted : Nat) (text : Bytes)
    (ending : Option StreamError) (result : EStateM.Result ObjectError (Intake σ × σ) (Bytes × Nat)) :
    Prop :=
  let units := intake.kind.units wanted text
  (intake.kind.Complete wanted text ending ∧ ∃ intake',
    result = .ok (units.flatten, units.length) (intake', s) ∧ intake'.kind = intake.kind ∧
      intake'.Holds p s (text.drop units.flatten.length) ending) ∨
  ¬intake.kind.Complete wanted text ending ∧ ∃ e intake', result = .error e (intake', s) ∧
    (ending = none → ∃ cause, e = .corruption cause)

/-- Taking in gives the units that come next. It fails exactly when fewer come than are wanted and
what is left is not the end. -/
theorem take_eq {intake : Intake σ} (h : intake.Holds p s text ending) (wanted : Nat) :
    intake.Taken p s wanted text ending (take wanted (intake, s)) := by
  have hoffers : intake.Offers (Source.Supplies p s) text ending := ⟨h.pending_eq, h.supply⟩
  rcases taking (Source.serves p s) hoffers wanted with
    ⟨hdone, intake', hrun, hkind, hrest⟩ | ⟨hfail, e, intake', hrun, hrefuses⟩
  · exact Or.inl ⟨hdone, intake', hrun, hkind, hrest.pending_eq, hrest.supply⟩
  · refine Or.inr ⟨hfail, e, intake', hrun, ?_⟩
    rintro rfl
    exact hrefuses.corruption

end Intake

end LargeObjects

import Mathlib
import LargeObjects.Compression.Frame
import LargeObjects.Proofs.Codecs
import LargeObjects.Proofs.Pieces

/-! Frames as a codec: reading frames takes back what writing them has put in, in whatever chunks the
content was handed over and wherever it was flushed. -/
namespace LargeObjects.Frame

theorem length_littleEndian (width n : Nat) : (littleEndian width n).length = width := by
  induction width generalizing n with
  | zero => rfl
  | succ width ih => rw [littleEndian, List.length_cons, ih]

theorem value_littleEndian {width n : Nat} (h : n < 256 ^ width) :
    value (littleEndian width n) = n := by
  induction width generalizing n with
  | zero =>
    rw [pow_zero] at h
    simp only [littleEndian, value]
    omega
  | succ width ih =>
    have hdiv : n / 256 < 256 ^ width := by
      rw [pow_succ] at h
      exact Nat.div_lt_of_lt_mul (by omega)
    rw [littleEndian, value, ih hdiv, UInt8.toNat_ofNat']
    omega

/-- The part of a repetition's bits that tells the distance, and the part that tells the count. -/
theorem bits_split (far : Nat) {long : Nat} (hlong : long ≠ 0) :
    let n := far * (1 <<< long.log2) + (long - (1 <<< long.log2))
    n >>> long.log2 = far ∧ n % (1 <<< long.log2) = long - (1 <<< long.log2) ∧
      (1 <<< long.log2) ≤ long := by
  have hlow : 2 ^ long.log2 ≤ long := Nat.log2_self_le hlong
  have hhigh : long < 2 ^ (long.log2 + 1) := Nat.lt_log2_self
  have hrest : long - 2 ^ long.log2 < 2 ^ long.log2 := by
    rw [pow_succ] at hhigh
    omega
  simp only [Nat.one_shiftLeft, Nat.shiftRight_eq_div_pow]
  refine ⟨?_, ?_, hlow⟩
  · rw [Nat.mul_comm, Nat.mul_add_div (by positivity), Nat.div_eq_of_lt hrest, Nat.add_zero]
  · rw [Nat.mul_add_mod_self_right, Nat.mod_eq_of_lt hrest]

/-- The bits of a repetition go into the octets that are set aside for them. -/
theorem bits_lt (far : Nat) {long : Nat} (hlong : long ≠ 0) :
    far * (1 <<< long.log2) + (long - (1 <<< long.log2)) <
      256 ^ ((far.log2 + long.log2) / 8 + 1) := by
  have hfar : far < 2 ^ (far.log2 + 1) := Nat.lt_log2_self
  have hhigh : long < 2 ^ (long.log2 + 1) := Nat.lt_log2_self
  rw [Nat.one_shiftLeft]
  calc far * 2 ^ long.log2 + (long - 2 ^ long.log2)
      < (far + 1) * 2 ^ long.log2 := by
        rw [pow_succ] at hhigh
        rw [Nat.add_mul]
        have := Nat.log2_self_le hlong
        omega
    _ ≤ 2 ^ (far.log2 + 1) * 2 ^ long.log2 := Nat.mul_le_mul_right _ hfar
    _ = 2 ^ (far.log2 + long.log2 + 1) := by
        rw [← pow_add]
        congr 1
        omega
    _ ≤ 2 ^ (8 * ((far.log2 + long.log2) / 8 + 1)) := by
        apply Nat.pow_le_pow_right (by omega)
        omega
    _ = 256 ^ ((far.log2 + long.log2) / 8 + 1) := by
        rw [pow_mul]
        norm_num

/-- A repetition that is no longer and no farther back than a block is told apart exactly. -/
theorem repetition?_repetition {distance count : Nat} (hd : 0 < distance)
    (hdl : distance ≤ blockLimit) (hc : countShift < count) (hcl : count ≤ blockLimit) :
    repetition? (repetition distance count) = some (distance, count) := by
  unfold countShift at hc
  unfold blockLimit at hdl hcl
  have hlong : count - 3 ≠ 0 := by omega
  have hF : (distance + 3).log2 < 18 := (Nat.log2_lt (by omega)).2 (by omega)
  have hL : (count - 3).log2 < 18 := (Nat.log2_lt hlong).2 (by omega)
  obtain ⟨hfar, hrest, hle⟩ := bits_split (distance + 3) hlong
  have hbits := value_littleEndian (bits_lt (distance + 3) hlong)
  have hcodeF : (UInt8.ofNat (distance + 3).log2).toNat = (distance + 3).log2 := by
    rw [UInt8.toNat_ofNat']
    omega
  have hcodeL : (UInt8.ofNat (36 + (count - 3).log2)).toNat = 36 + (count - 3).log2 := by
    rw [UInt8.toNat_ofNat']
    omega
  simp only [repetition, repetition?, repetitionLead, distanceShift, countShift, countCodes,
    List.cons_append, List.nil_append, hbits, hcodeF, hcodeL, Nat.add_sub_cancel_left, hfar, hrest]
  rw [if_pos ⟨trivial, by omega, by omega, trivial⟩]
  congr 2
  omega

namespace Decoder

def Reads (d : Decoder) (octets : Bytes) (further : Decoder) : Prop :=
  ∃ content, (Decoding.live (d : Codec.Decoder)).feed octets = (content, .live further) ∧
    further.past = content.reverse ++ d.past

variable {d d₁ further : Decoder} {a b octets past content : Bytes} {octet : UInt8}

theorem Reads.nil (d : Decoder) : d.Reads [] d := ⟨[], rfl, rfl⟩

theorem Reads.append (h : d.Reads a d₁) (h' : d₁.Reads b further) : d.Reads (a ++ b) further := by
  obtain ⟨content, hfeed, hpast⟩ := h
  obtain ⟨content', hfeed', hpast'⟩ := h'
  refine ⟨content ++ content', ?_, ?_⟩
  · rw [Decoding.feed_append, hfeed, hfeed']
  · rw [hpast', hpast, List.reverse_append, List.append_assoc]

theorem Reads.cons (hstep : d.step octet = .ok (d₁, content))
    (hpast : d₁.past = content.reverse ++ d.past) (h : d₁.Reads octets further) :
    d.Reads (octet :: octets) further := by
  obtain ⟨more, hfeed, hfurther⟩ := h
  refine ⟨content ++ more, ?_, ?_⟩
  · rw [Decoding.feed_cons hstep, hfeed]
  · rw [hfurther, hpast, List.reverse_append, List.append_assoc]

/-- An octet that only leads on. -/
theorem Reads.go (phase : Phase) (hstep : d.step octet = .ok (go d.past phase))
    (h : Reads { phase, past := d.past } octets further) : d.Reads (octet :: octets) further :=
  .cons hstep rfl h

/-- A piece that reaches no farther than what is there is added to it. -/
theorem extend_eq (past : Bytes) (p : Piece) (hreach : p.reaches past = true)
    (hsize : p.size ≤ expansionLimit) (phase : Phase) : ∃ content, extend past p phase = .ok ({ phase, past := p.append past }, content) ∧
      p.append past = content.reverse ++ past := by
  refine ⟨((p.append past).take p.size).reverse, ?_, ?_⟩
  · unfold extend
    rw [if_pos ⟨hreach, hsize⟩]
  · rw [List.reverse_reverse, Piece.take_size_append hreach]

def between (past : Bytes) : Decoder := { phase := .blockHeader [] false, past }

theorem reads_header : Reads {} header (between []) := ⟨[], rfl, rfl⟩

theorem reads_blockHeader (past : Bytes) (last : Bool) (sort : BlockSort) {size : Nat}
    (hsize : size ≤ blockLimit) {phase : Phase}
    (hphase : Phase.afterBlockHeader (8 * size + 2 * sort.code + last.toNat) false = .ok phase) :
    (between past).Reads (blockHeader last sort size) { phase, past } := by
  unfold blockLimit at hsize
  have hcode : sort.code ≤ 3 := by cases sort <;> decide
  have hlast : last.toNat ≤ 1 := Bool.toNat_le last
  have hvalue : value (littleEndian 3 (8 * size + 2 * sort.code + last.toNat)) =
      8 * size + 2 * sort.code + last.toNat := by
    apply value_littleEndian
    norm_num
    omega
  unfold blockHeader
  simp only [littleEndian] at hvalue ⊢
  -- The first two octets are put by, and the third one completes the number.
  apply Reads.go (.blockHeader [_] false) rfl
  apply Reads.go (.blockHeader [_, _] false) rfl
  apply Reads.go phase ?_ (.nil _)
  simp only [step, List.length_cons, List.length_nil, List.cons_append, List.nil_append, hvalue,
    hphase]
  rfl

/-- What the number in a block header tells. -/
theorem header_parts (last : Bool) (sort : BlockSort) (size : Nat) :
    let n := 8 * size + 2 * sort.code + last.toNat
    decide (n % 2 = 1) = last ∧ n / 8 = size ∧ BlockSort.ofCode (n / 2 % 4) = sort := by
  intro n
  have hcode : sort.code ≤ 3 := by cases sort <;> decide
  have hbit : last.toNat ≤ 1 := Bool.toNat_le last
  have hsort : n / 2 % 4 = sort.code := by omega
  refine ⟨?_, by omega, ?_⟩
  · have hmod : n % 2 = last.toNat := by omega
    rw [hmod]
    cases last <;> rfl
  · rw [hsort]
    cases sort <;> rfl

theorem reads_stored (h : octets ≠ []) (last : Bool) (past : Bytes) :
    Reads { phase := .stored octets.length last false, past } octets
      { phase := .afterBlock last false, past := octets.reverse ++ past } := by
  induction octets generalizing past with
  | nil => exact absurd rfl h
  | cons b rest ih =>
    have hsize : (Piece.plain [b]).size ≤ expansionLimit := Nat.le_of_ble_eq_true rfl
    obtain ⟨content, hextend, hpast⟩ := extend_eq past (.plain [b]) rfl hsize
      (if (b :: rest).length ≤ 1 then .afterBlock last false
        else .stored ((b :: rest).length - 1) last false)
    cases rest with
    | nil => exact .cons hextend hpast (.nil _)
    | cons c rest =>
      have hleft : ¬((b :: c :: rest).length ≤ 1) := by simp
      rw [if_neg hleft] at hextend
      rw [List.reverse_cons (a := b), List.append_assoc, List.singleton_append]
      apply Reads.cons ?_ hpast (ih (List.cons_ne_nil c rest) (b :: past))
      unfold step
      dsimp only
      rw [if_neg hleft]
      exact hextend

theorem reads_packed (h : octets ≠ []) (seen : Bytes) (last : Bool)
    (hunpack : unpack past (seen.reverse ++ octets) last false = .ok (further, content))
    (hpast : further.past = content.reverse ++ past) :
    Reads { phase := .packed octets.length seen last false, past } octets further := by
  induction octets generalizing seen with
  | nil => exact absurd rfl h
  | cons b rest ih =>
    cases rest with
    | nil =>
      refine .cons ?_ hpast (.nil _)
      simp only [step, List.length_cons, List.length_nil, Nat.zero_add, le_refl, if_true,
        List.reverse_cons]
      exact hunpack
    | cons c rest =>
      have hleft : ¬(rest.length + 1 + 1 ≤ 1) := by omega
      apply Reads.go (.packed (c :: rest).length (b :: seen) last false)
      · simp only [step, List.length_cons, if_neg hleft, Nat.add_sub_cancel]
      · apply ih (List.cons_ne_nil c rest)
        rw [List.reverse_cons, List.append_assoc, List.singleton_append]
        exact hunpack

theorem reads_storedBlock (octets : Bytes) (hsize : octets.length ≤ blockLimit) (last : Bool)
    (past : Bytes) :
    (between past).Reads (storedBlock last octets)
      { phase := .afterBlock last false, past := octets.reverse ++ past } := by
  obtain ⟨hlast, hlen, hsort⟩ := header_parts last .stored octets.length
  by_cases hnil : octets = []
  · subst hnil
    rw [storedBlock, List.append_nil]
    apply reads_blockHeader past last .stored hsize
    simp only [Phase.afterBlockHeader, hlast, hlen, hsort]
    rfl
  · have hpos := List.length_pos_iff.2 hnil
    apply Reads.append (reads_blockHeader past last .stored hsize ?_) (reads_stored hnil last past)
    simp only [Phase.afterBlockHeader, hlast, hlen, hsort]
    rw [if_neg (by omega)]

/-- The bits of distance and count are few, so that the block is small enough for its header. -/
theorem length_repetition_le {distance count : Nat} (hd : distance ≤ blockLimit)
    (hc : countShift < count) (hcl : count ≤ blockLimit) :
    (repetition distance count).length ≤ blockLimit ∧ 0 < (repetition distance count).length := by
  unfold countShift at hc
  unfold blockLimit at hd hcl ⊢
  have hfar : (distance + distanceShift).log2 < 18 := by
    unfold distanceShift
    exact (Nat.log2_lt (by omega)).2 (by omega)
  have hlong : (count - countShift).log2 < 18 := by
    unfold countShift
    exact (Nat.log2_lt (by omega)).2 (by omega)
  simp only [repetition, repetitionLead, List.length_append, List.length_cons, List.length_nil,
    length_littleEndian]
  omega

theorem reads_block {p : Piece} (hfit : p.Fits past) (hsize : p.size ≤ blockLimit)
    (hnear : past.length ≤ blockLimit) (more : Bytes) :
    (between (past ++ more)).Reads (block p) (between (p.append past ++ more)) := by
  cases p with
  | plain octets =>
    rw [Piece.append, List.reverseAux_eq, List.append_assoc]
    exact reads_storedBlock octets hsize false (past ++ more)
  | again distance count =>
    have hcount : countShift < count := lt_of_lt_of_le (by decide) hfit.2.2
    have hrep := repetition?_repetition hfit.1 (hfit.2.1.trans hnear) hcount hsize
    obtain ⟨hshort, hpos⟩ := length_repetition_le (hfit.2.1.trans hnear) hcount hsize
    obtain ⟨hlast, hlen, hsort⟩ := header_parts false .packed (repetition distance count).length
    have hreach : (Piece.again distance count).reaches (past ++ more) = true := by
      apply decide_eq_true
      rw [List.length_append]
      exact ⟨hfit.1, hfit.2.1.trans (Nat.le_add_right _ _)⟩
    obtain ⟨content, hextend, hpast⟩ := extend_eq (past ++ more) _ hreach (hsize.trans (by decide))
      (.afterBlock false false)
    rw [← Piece.append_append hfit]
    apply Reads.append (reads_blockHeader (past ++ more) false .packed hshort ?_)
      (reads_packed (List.ne_nil_of_length_pos hpos) [] false ?_ hpast)
    · simp only [Phase.afterBlockHeader, hlast, hlen, hsort]
      rw [if_neg (by omega)]
    · simp only [unpack, List.reverse_nil, List.nil_append, hrep]
      exact hextend

theorem reads_pieces {pieces : List Piece} {near : Bytes} (hfit : Piece.AllFit near pieces)
    (hsize : near.length + (pieces.map Piece.size).sum ≤ blockLimit) (far : Bytes) :
    (between (near ++ far)).Reads (pieces.flatMap block)
      (between (pieces.foldl Piece.append near ++ far)) := by
  -- `near` is what the pieces before have made of the content, and repetitions reach into it only.
  induction pieces generalizing near with
  | nil => exact .nil _
  | cons p rest ih =>
    rw [List.map_cons, List.sum_cons] at hsize
    apply Reads.append (reads_block hfit.1 (by omega) (by omega) far)
    apply ih hfit.2
    rw [Piece.length_append hfit.1.reaches]
    omega

theorem reads_blocks {content : Bytes} (hsize : content.length ≤ blockLimit) (past : Bytes) :
    (between past).Reads (blocks content) (between (content.reverse ++ past)) := by
  have hfit := Piece.allFit_ofContent content
  have hlen := Piece.length_foldl_append hfit
  rw [Piece.foldl_append_ofContent, List.append_nil, List.length_reverse] at hlen
  have hreads := reads_pieces hfit (hlen ▸ hsize) past
  rwa [Piece.foldl_append_ofContent, List.append_nil, List.nil_append] at hreads

theorem reads_fullBlocks {count : Nat} {content : Bytes}
    (hlen : count * blockLimit ≤ content.length) (past : Bytes) :
    (between past).Reads (fullBlocks count content)
      (between ((content.take (count * blockLimit)).reverse ++ past)) := by
  induction count generalizing content past with
  | zero =>
    rw [Nat.zero_mul, List.take_zero]
    exact .nil _
  | succ count ih =>
    rw [Nat.succ_mul] at hlen
    have htake : (content.take blockLimit).length ≤ blockLimit := by
      rw [List.length_take]
      exact Nat.min_le_left _ _
    have hdrop : count * blockLimit ≤ (content.drop blockLimit).length := by
      rw [List.length_drop]
      omega
    have hrest := ih hdrop ((content.take blockLimit).reverse ++ past)
    rw [← List.append_assoc, ← List.reverse_append, ← List.take_add, Nat.add_comm,
      ← Nat.succ_mul] at hrest
    exact (reads_blocks htake past).append hrest

end Decoder

namespace Encoder

/-- What an encoder has taken, when `written` has gone out for it: a reader of what has gone out
stands between two blocks, and lacks only what is pending. -/
def Holds (e : Encoder) (written content : Bytes) : Prop :=
  ∃ past, Decoder.Reads {} (written ++ e.lead) (.between past) ∧
    past.reverse ++ e.pending = content ∧ e.pending.length < blockLimit

variable {e : Encoder} {written content : Bytes}

theorem lead_started (pending : Bytes) : lead { started := true, pending } = [] := rfl

theorem holds_nil : Holds {} [] [] := ⟨[], Decoder.reads_header, rfl, by decide⟩

theorem Holds.absorb (h : e.Holds written content) (more : Bytes) :
    (e.absorb more).1.Holds (written ++ (e.absorb more).2) (content ++ more) := by
  obtain ⟨past, hreads, hcontent, hpending⟩ := h
  have hpos : 0 < blockLimit := by decide
  unfold Encoder.absorb
  by_cases hcount : (e.pending ++ more).length / blockLimit = 0
  · simp only [hcount, if_true, List.append_nil]
    refine ⟨past, hreads, ?_, ?_⟩
    · rw [← List.append_assoc, hcontent]
    · exact (Nat.div_eq_zero_iff_lt hpos).1 hcount
  · have hfull := Nat.div_mul_le_self (e.pending ++ more).length blockLimit
    have hrest := Nat.lt_div_mul_add hpos (a := (e.pending ++ more).length)
    simp only [hcount, if_false]
    generalize (e.pending ++ more).length / blockLimit = count at hcount hfull hrest ⊢
    -- As many full blocks go out as there are, and less than one stays pending.
    refine ⟨((e.pending ++ more).take (count * blockLimit)).reverse ++ past, ?_, ?_, ?_⟩
    · rw [lead_started, List.append_nil, ← List.append_assoc]
      exact hreads.append (Decoder.reads_fullBlocks hfull past)
    · rw [List.reverse_append, List.reverse_reverse, List.append_assoc, List.take_append_drop,
        ← List.append_assoc, hcontent]
    · rw [List.length_drop]
      omega

theorem Holds.flush (h : e.Holds written content) :
    e.flush.1.Holds (written ++ e.flush.2) content := by
  obtain ⟨past, hreads, hcontent, hpending⟩ := id h
  unfold Encoder.flush
  by_cases hnil : e.pending = []
  · rw [if_pos hnil, List.append_nil]
    exact h
  · -- What was pending goes out in blocks that need not be full.
    rw [if_neg hnil]
    dsimp only
    refine ⟨e.pending.reverse ++ past, ?_, ?_, by decide⟩
    · rw [lead_started, List.append_nil, ← List.append_assoc]
      exact hreads.append (Decoder.reads_blocks (Nat.le_of_lt hpending) past)
    · rw [List.append_nil, List.reverse_append, List.reverse_reverse, hcontent]

theorem Holds.perform (h : e.Holds written content) (call : Codec.Call) :
    ∃ further octets, call.perform (e : Codec.Encoder) = .ok (further, octets) ∧
      Holds further (written ++ octets) (content ++ call.chunk) := by
  cases call with
  | write chunk => exact ⟨_, _, rfl, h.absorb chunk⟩
  | flush =>
    refine ⟨_, _, rfl, ?_⟩
    rw [Codec.Call.chunk, List.append_nil]
    exact h.flush

/-- The last block takes a reader to the end of the frame. -/
theorem Holds.final (h : e.Holds written content) :
    Decoder.Reads {} (written ++ e.final) { phase := .finished, past := content.reverse } := by
  obtain ⟨past, hreads, rfl, hpending⟩ := h
  have hlast := Decoder.reads_storedBlock [] (Nat.zero_le _) true
    (e.pending.reverse ++ past)
  rw [List.reverse_append, List.reverse_reverse, Encoder.final, List.append_assoc,
    ← List.append_assoc]
  exact hreads.append ((Decoder.reads_blocks (Nat.le_of_lt hpending) past).append hlast)

/-- Whatever calls follow, there is a frame, and a reader comes to its end with all the content. -/
theorem Holds.encodeFrom (h : e.Holds written content) (calls : List Codec.Call) :
    ∃ rest, Codec.encodeFrom (e : Codec.Encoder) calls = .ok rest ∧
      Decoder.Reads {} (written ++ rest)
        { phase := .finished, past := (content ++ calls.flatMap Codec.Call.chunk).reverse } := by
  induction calls generalizing e written content with
  | nil =>
    refine ⟨e.final, rfl, ?_⟩
    rw [List.flatMap_nil, List.append_nil]
    exact h.final
  | cons call calls ih =>
    obtain ⟨further, octets, hcall, hfurther⟩ := h.perform call
    obtain ⟨rest, hrest, hreads⟩ := ih hfurther
    refine ⟨octets ++ rest, ?_, ?_⟩
    · unfold Codec.encodeFrom
      rw [hcall]
      dsimp only
      rw [hrest]
      rfl
    · rw [List.flatMap_cons, ← List.append_assoc, ← List.append_assoc]
      exact hreads

end Encoder

theorem decode_eq {stream content : Bytes}
    (h : Decoder.Reads {} stream { phase := .finished, past := content.reverse }) :
    Codec.decode stream = .ok content := by
  obtain ⟨text, hfeed, hpast⟩ := h
  rw [List.append_nil, List.reverse_inj] at hpast
  subst hpast
  refine Codec.decode_eq_ok.2 ⟨({} : Decoder), rfl, ?_⟩
  unfold Decoding.outcome
  rw [hfeed]
  rfl

/-- Frames are decoded to what they were made of, so the law can be met. -/
instance inverts : Codec.Inverts where
  exists_encode level calls := by
    obtain ⟨stream, hstream, -⟩ := Encoder.holds_nil.encodeFrom calls
    exact ⟨stream, hstream⟩
  decode_encode {level calls stream} hstream := by
    obtain ⟨stream', hstream', hreads⟩ := Encoder.holds_nil.encodeFrom calls
    obtain rfl : stream' = stream := Except.ok.inj (hstream'.symm.trans hstream)
    exact decode_eq hreads

end LargeObjects.Frame

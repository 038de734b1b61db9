import Mathlib
import LargeObjects.Compression.Repetition

/-! Content in pieces is planned so that every repetition lies within what is there before it. Then
the pieces mean the same behind whatever else comes before. -/
namespace LargeObjects.Piece

def Fits (past : Bytes) : Piece → Prop
  | plain _ => True
  | again distance count => 0 < distance ∧ distance ≤ past.length ∧ leastCount ≤ count

def AllFit : Bytes → List Piece → Prop
  | _, [] => True
  | past, p :: rest => Fits past p ∧ AllFit (append past p) rest

theorem Fits.reaches {past : Bytes} {p : Piece} (h : Fits past p) : p.reaches past = true := by
  cases p with
  | plain octets => rfl
  | again distance count => exact decide_eq_true ⟨h.1, h.2.1⟩

/-- A repetition adds as many octets as it counts. -/
theorem goRound_length {period : Bytes} (hp : period ≠ []) (count : Nat) (rest past : Bytes) :
    (goRound period count rest past).length = past.length + count := by
  obtain ⟨first, others, rfl⟩ := List.exists_cons_of_ne_nil hp
  induction count generalizing rest past with
  | zero => rfl
  | succ count ih =>
    cases rest with
    | nil =>
      simp only [goRound, ih, List.length_cons]
      omega
    | cons b rest =>
      simp only [goRound, ih, List.length_cons]
      omega

theorem goRound_append (period : Bytes) (count : Nat) (rest past more : Bytes) :
    goRound period count rest (past ++ more) = goRound period count rest past ++ more := by
  induction count generalizing rest past with
  | zero => rfl
  | succ count ih =>
    cases rest with
    | nil =>
      cases period with
      | nil => rfl
      | cons first others => exact ih others (first :: past)
    | cons b rest => exact ih rest (b :: past)

/-- What was there before a repetition is there after it. -/
theorem suffix_goRound (period : Bytes) (count : Nat) (rest past : Bytes) :
    past <:+ goRound period count rest past := by
  induction count generalizing rest past with
  | zero => exact List.suffix_rfl
  | succ count ih =>
    cases rest with
    | nil =>
      cases period with
      | nil => exact List.suffix_rfl
      | cons first others => exact (List.suffix_cons first past).trans (ih others _)
    | cons b rest => exact (List.suffix_cons b past).trans (ih rest _)

/-- What was there before a piece stays. -/
theorem suffix_append (past : Bytes) (p : Piece) : past <:+ append past p := by
  cases p with
  | plain octets =>
    rw [append, List.reverseAux_eq]
    exact List.suffix_append _ _
  | again distance count => exact suffix_goRound _ _ _ _

theorem length_append {past : Bytes} {p : Piece} (h : p.reaches past = true) :
    (append past p).length = past.length + p.size := by
  cases p with
  | plain octets =>
    simp only [append, size, List.reverseAux_eq, List.length_append, List.length_reverse]
    omega
  | again distance count =>
    obtain ⟨h1, h2⟩ := of_decide_eq_true h
    refine goRound_length ?_ count [] past
    intro hnil
    have := congrArg List.length hnil
    simp only [List.length_reverse, List.length_take, List.length_nil] at this
    omega

/-- A piece puts as many octets before what was there as it makes. -/
theorem take_size_append {past : Bytes} {p : Piece} (h : p.reaches past = true) :
    (append past p).take p.size ++ past = append past p := by
  obtain ⟨fresh, hfresh⟩ := suffix_append past p
  have hlen := length_append h
  rw [← hfresh, List.length_append] at hlen
  rw [← hfresh, List.take_left' (by omega)]

/-- A piece that starts within what is there does not depend on what was before that. -/
theorem append_append {past : Bytes} {p : Piece} (h : Fits past p) (more : Bytes) :
    append (past ++ more) p = append past p ++ more := by
  cases p with
  | plain octets => simp [append, List.reverseAux_eq]
  | again distance count =>
    simp only [append, List.take_append_of_le_length h.2.1]
    exact goRound_append _ _ _ _ _

theorem allFit_append {past : Bytes} {a b : List Piece} :
    AllFit past (a ++ b) ↔ AllFit past a ∧ AllFit (a.foldl append past) b := by
  induction a generalizing past with
  | nil => simp [AllFit]
  | cons p a ih => simp [AllFit, ih, and_assoc]

structure Covers (pieces : List Piece) (octets : Bytes) (place : Nat) : Prop where
  fit : AllFit [] pieces.reverse
  reach : (pieces.reverse.foldl append []).length + octets.length = place

theorem Covers.cons {pieces : List Piece} {place : Nat} {p : Piece} (h : Covers pieces [] place)
    (hp : Fits (pieces.reverse.foldl append []) p) : Covers (p :: pieces) [] (place + p.size) := by
  refine ⟨?_, ?_⟩
  · rw [List.reverse_cons]
    exact allFit_append.2 ⟨h.fit, hp, trivial⟩
  · have hreach := h.reach
    simp only [List.reverse_cons, List.foldl_append, List.foldl_cons, List.foldl_nil,
      List.length_nil] at hreach ⊢
    rw [length_append hp.reaches]
    omega

theorem Covers.consPlain {pieces : List Piece} {octets : Bytes} {place : Nat}
    (h : Covers pieces octets place) : Covers (consPlain octets.reverse pieces) [] place := by
  unfold Piece.consPlain
  split
  next hnil =>
    obtain rfl := List.reverse_eq_nil_iff.1 hnil
    exact h
  next =>
    have hreach := h.reach
    have hbare : Covers pieces [] (place - octets.length) := by
      refine ⟨h.fit, ?_⟩
      rw [List.length_nil]
      omega
    have hplain := hbare.cons (p := plain octets.reverse) trivial
    have hle : octets.length ≤ place := by omega
    simpa [size, Nat.sub_add_cancel hle] using hplain

/-- Whatever was looked up, each piece of a plan fits after the ones before it. -/
theorem allFit_planFrom {content : Array UInt8} {place : Nat} {seen : Std.HashMap UInt64 Nat}
    {octets : Bytes} {pieces : List Piece} (h : Covers pieces octets place) :
    AllFit [] (planFrom content place seen octets pieces) := by
  fun_induction planFrom content place seen octets pieces with
  | case1 place seen octets pieces hlt k found distance count hfound ih =>
    obtain ⟨earlier, hseen, hfound⟩ := Option.bind_eq_some_iff.1 hfound
    dsimp only at hfound
    split at hfound
    next hworth =>
      obtain ⟨rfl, rfl⟩ := Prod.mk.inj (Option.some.inj hfound)
      have hplain := h.consPlain
      have hreach := hplain.reach
      have hmax : max 1 (agreement content earlier place 0) = agreement content earlier place 0 := by
        have := hworth.1
        unfold leastCount at this
        omega
      simp only [List.unattach_reverse, List.unattach_attach, hmax] at ih ⊢
      apply ih
      refine hplain.cons (p := again _ _) ⟨by omega, ?_, hworth.1⟩
      rw [List.length_nil] at hreach
      omega
    next => cases hfound
  | case2 place seen octets pieces hlt k found hfound ih =>
    apply ih
    refine ⟨h.fit, ?_⟩
    have := h.reach
    simp only [List.length_cons]
    omega
  | case3 => exact h.consPlain.fit

/-- The pieces of content all fit, from the first one on. -/
theorem allFit_ofContent (octets : Bytes) : AllFit [] (ofContent octets) := by
  unfold ofContent
  simp only
  split
  next => exact allFit_planFrom ⟨trivial, rfl⟩
  next =>
    unfold consPlain
    split
    · trivial
    · exact ⟨trivial, trivial⟩

/-- Pieces that fit make the same content behind whatever comes before. -/
theorem foldl_append_append {pieces : List Piece} {past : Bytes} (h : AllFit past pieces)
    (more : Bytes) : pieces.foldl append (past ++ more) = pieces.foldl append past ++ more := by
  induction pieces generalizing past with
  | nil => rfl
  | cons p rest ih =>
    rw [List.foldl_cons, List.foldl_cons, append_append h.1]
    exact ih h.2

/-- So the pieces of a content make that content again. -/
theorem foldl_append_ofContent (octets past : Bytes) :
    (ofContent octets).foldl append past = octets.reverse ++ past := by
  have hcontent : ((ofContent octets).foldl append []).reverse = octets := content_ofContent octets
  have hfold := foldl_append_append (allFit_ofContent octets) past
  rw [List.nil_append] at hfold
  rw [hfold, ← hcontent, List.reverse_reverse]
  rw [hcontent]

theorem length_foldl_append {pieces : List Piece} {past : Bytes} (h : AllFit past pieces) :
    (pieces.foldl append past).length = past.length + (pieces.map size).sum := by
  induction pieces generalizing past with
  | nil => rfl
  | cons p rest ih =>
    rw [List.foldl_cons, ih h.2, length_append h.1.reaches, List.map_cons, List.sum_cons]
    omega

end LargeObjects.Piece

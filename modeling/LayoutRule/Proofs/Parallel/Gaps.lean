import LayoutRule.Proofs.Parallel.Lexical

/-!
# Gaps of parallel documents

Skipping a gap from counterparts leads to counterparts again. Forward the walk may pass the ends of
what is compared (`Parallel.Lands`); backward it stays among the counterparts, and unless it was
stopped by its limit, code stands right before the place it found (`Parallel.Place.skipGapBack`).
-/

namespace LayoutRule

namespace Parallel

open Text Document

variable {s : Settings} {d e : Document} {C : Parallel s d e} {n : Nat} {x y a b l m : Int}

/-- Counterparts, or positions past the ends. -/
def Lands (C : Parallel s d e) (a b : Int) : Prop := C.Place a b ∨ C.Beyond a b

/-- Computations that both give a value, and related ones. -/
def Both {α β : Type} (R : α → β → Prop) (x : Except Fault α) (y : Except Fault β) : Prop :=
  ∃ i j, x = .ok i ∧ y = .ok j ∧ R i j

/-- Computations that give related values go on to related values when what follows does. -/
theorem Both.bind {α β γ δ : Type} {R : α → β → Prop} {S : γ → δ → Prop} {x : Except Fault α}
    {y : Except Fault β} {f : α → Except Fault γ} {g : β → Except Fault δ} (h : Both R x y)
    (hf : ∀ i j, R i j → Both S (f i) (g j)) : Both S (x >>= f) (y >>= g) := by
  obtain ⟨i, j, rfl, rfl, hr⟩ := h
  exact hf i j hr

/-! ## Forward -/

/-- Counterparts both lie before corresponding limits or both do not. -/
theorem Limit.lt_iff (h : C.Limit l m) (hp : C.Place a b) : b < m ↔ a < l := by
  rcases h with h | ⟨rfl, rfl⟩
  · exact hp.lt_iff h
  · exact hp.charAt?_isSome

/-- Limits lie inside the texts. -/
theorem Limit.le_length (h : C.Limit l m) : l ≤ d.text.length ∧ m ≤ e.text.length := by
  rcases h with h | ⟨rfl, rfl⟩
  · exact ⟨h.bounds.2.1, h.bounds.2.2.2.1⟩
  · exact ⟨Int.le_refl _, Int.le_refl _⟩

/-- A line that starts before a limit has its code before it. -/
theorem Line.point_le_limit (h : C.Line n x y) (hl : C.Limit l m) (hle : x ≤ l) :
    d.indentationPoint x ≤ l ∧ e.indentationPoint y ≤ m := by
  rcases hl with hl | ⟨rfl, rfl⟩
  · exact h.point_le_place hl hle
  · exact ⟨d.indentationPoint_le_length x, e.indentationPoint_le_length y⟩

/-- Blanks are skipped alike. -/
theorem Place.skipBlanks {a b : Int} (h : C.Place a b) (hl : C.Limit l m) :
    Both C.Lands (d.skipBlanks a l) (e.skipBlanks b m) := by
  have hend := h.le_end
  have hiff := hl.lt_iff h
  have hlen := hl.le_length
  unfold Document.skipBlanks
  rw [advance.eq_def d.isGapAt, advance.eq_def e.isGapAt]
  rcases Int.lt_or_le a l with hlt | hge
  · obtain ⟨h₀, -, h₀', -, -, hcode⟩ := h.bounds
    obtain ⟨c, -, hget⟩ := read_yields (t := d.text) h₀ (by omega)
    have hc : d.text.charAt? a = some c := (charAt?_eq h₀).trans hget
    rw [if_pos hlt, if_pos (hiff.mpr hlt), isGapAt_code h.point_le hc,
      isGapAt_code hcode (h.char.trans hc)]
    cases hgap : isBlank c || c == '\n' with
    | false => exact ⟨a, b, rfl, rfl, .inl h⟩
    | true =>
      rcases h.past_succ hc with (hnext | ⟨n, hline⟩) | hbeyond
      · have := hnext.le_end
        exact hnext.skipBlanks hl
      · have hpoint := hline.point_le_limit hl (by omega)
        have hle := hline.point_le
        have := hline.point.le_end
        have hskip := hline.point.skipBlanks hl
        rw [← skipBlanks_lead hline.starts.1 hpoint.1, ← skipBlanks_lead hline.starts.2 hpoint.2]
          at hskip
        exact hskip
      · obtain ⟨i, hi, hle, -⟩ := skipBlanks_yields (d := d) (by omega : 0 ≤ a + 1) hlen.1
        obtain ⟨j, hj, hle', -⟩ := skipBlanks_yields (d := e) (by omega : 0 ≤ b + 1) hlen.2
        unfold Beyond at hbeyond
        exact ⟨i, j, hi, hj, .inr ⟨by omega, by omega⟩⟩
  · rw [if_neg (by omega), if_neg (by omega)]
    exact ⟨a, b, rfl, rfl, .inl h⟩
termination_by (C.end₁ - a).toNat

/-- One step of skipping a gap. -/
theorem skipGap_step {pos limit i : Int} {comment : Bool} (hi : d.skipBlanks pos limit = .ok i)
    (hc : d.text.commentAt i d.text.length = .ok comment) :
    d.skipGap pos limit =
      if i < limit then
        if comment then d.skipGap (min (d.text.commentStop i) limit) limit else .ok i
      else .ok i := by
  rw [Document.skipGap]
  split
  · next he =>
    rw [hi] at he
    cases he
  next i' hi' =>
  rw [hi] at hi'
  cases hi'
  split
  · split
    · next he =>
      rw [hc] at he
      cases he
    · next he =>
      rw [hc] at he
      cases he
      rfl
    · next he =>
      rw [hc] at he
      cases he
      rfl
  · rfl

/-- A gap reaches as far as its first blanks. -/
theorem le_skipGap_of_skipBlanks {pos limit i k : Int} (h₀ : 0 ≤ pos)
    (hi : d.skipBlanks pos limit = .ok i) (hk : d.skipGap pos limit = .ok k) : i ≤ k := by
  have hle := le_of_skipBlanks hi
  obtain ⟨comment, hcomment, -⟩ :=
    Text.commentAt_yields (t := d.text) (i := i) d.text.length (by omega)
  rw [skipGap_step hi hcomment] at hk
  split at hk
  · split at hk
    · next hc =>
      have := lt_commentStop (lt_length_of_commentAt (hc ▸ hcomment))
      have := le_of_skipGap hk
      omega
    · exact Int.le_of_eq (Except.ok.inj hk)
  · exact Int.le_of_eq (Except.ok.inj hk)

/-- The nearer one of a position that was reached and a limit. -/
theorem Past.min (h : C.Past a b) (hl : C.Limit l m) : C.Past (min a l) (min b m) := by
  have hlen := hl.le_length
  rcases hl with hl | ⟨rfl, rfl⟩
  · have hend := hl.le_end
    rcases h with hnear | hbeyond
    · have hiff := hnear.lt_iff hl
      rcases Int.lt_or_le l a with hlt | hle
      · rw [Int.min_eq_right (by omega), Int.min_eq_right (by omega)]
        exact .inl (.inl hl)
      · rw [Int.min_eq_left hle, Int.min_eq_left (by omega)]
        exact .inl hnear
    · unfold Beyond at hbeyond
      rw [Int.min_eq_right (by omega), Int.min_eq_right (by omega)]
      exact .inl (.inl hl)
  · rcases h with hnear | hbeyond
    · rw [Int.min_eq_left hnear.le_length.1, Int.min_eq_left hnear.le_length.2]
      exact .inl hnear
    · unfold Beyond at hbeyond
      rcases C.ends with ⟨h₁, h₂⟩ | ⟨h₁, h₂⟩
      · rw [Int.min_eq_right (by omega), Int.min_eq_right (by omega), ← h₁, ← h₂]
        exact .inl (.inl C.place_end)
      · have h₃ := lt_length_of_charAt? C.place_end.bounds.1 h₁
        have h₄ := lt_length_of_charAt? C.place_end.bounds.2.2.1 h₂
        exact .inr ⟨by omega, by omega⟩

/-- Gaps are skipped alike. -/
theorem Place.skipGap {a b : Int} (h : C.Place a b) (hl : C.Limit l m) :
    Both C.Lands (d.skipGap a l) (e.skipGap b m) := by
  have hlen := hl.le_length
  have h₀ := h.bounds
  obtain ⟨i, j, hi, hj, hlands⟩ := h.skipBlanks hl
  have hai := le_of_skipBlanks hi
  have hbj := le_of_skipBlanks hj
  rcases hlands with hplace | hbeyond
  · have hiff := hl.lt_iff hplace
    obtain ⟨comment, hcomment, -⟩ :=
      Text.commentAt_yields (t := d.text) (i := i) d.text.length (by omega)
    rw [skipGap_step hi hcomment, skipGap_step hj
      ((hplace.commentAt C.limit_length).trans hcomment)]
    rcases Int.lt_or_le i l with hlt | hge
    · rw [if_pos hlt, if_pos (hiff.mpr hlt)]
      cases comment with
      | false => exact ⟨i, j, rfl, rfl, .inl hplace⟩
      | true =>
        have hend := hplace.le_end
        have hstop := lt_commentStop (t := d.text) (i := i) (by omega)
        have hstop' := lt_commentStop (t := e.text) (i := j) (by omega)
        simp only [if_true]
        rcases hplace.commentStop.min hl with (hnext | ⟨n, hline⟩) | hbeyond
        · have := hnext.le_end
          exact hnext.skipGap hl
        · have hcode := hline.point_le_limit hl (Int.min_le_right _ _)
          have hle := hline.point_le
          have := hline.point.le_end
          rw [skipGap_lead hline.starts.1 hcode.1, skipGap_lead hline.starts.2 hcode.2]
          exact hline.point.skipGap hl
        · obtain ⟨i', hi', hle, -⟩ :=
            skipGap_yields (d := d) (by omega : 0 ≤ min (d.text.commentStop i) l) hlen.1
          obtain ⟨j', hj', hle', -⟩ :=
            skipGap_yields (d := e) (by omega : 0 ≤ min (e.text.commentStop j) m) hlen.2
          unfold Beyond at hbeyond
          exact ⟨i', j', hi', hj', .inr ⟨by omega, by omega⟩⟩
    · rw [if_neg (by omega), if_neg (by omega)]
      exact ⟨i, j, rfl, rfl, .inl hplace⟩
  · obtain ⟨i', hi', -⟩ := skipGap_yields (d := d) (by omega : 0 ≤ a) hlen.1
    obtain ⟨j', hj', -⟩ := skipGap_yields (d := e) (by omega : 0 ≤ b) hlen.2
    have h₁ := le_skipGap_of_skipBlanks (by omega) hi hi'
    have h₂ := le_skipGap_of_skipBlanks (by omega) hj hj'
    unfold Beyond at hbeyond
    exact ⟨i', j', hi', hj', .inr ⟨by omega, by omega⟩⟩
termination_by (C.end₁ - a).toNat

/-- Gaps are skipped alike up to counterparts. -/
theorem Place.skipGap_to (h : C.Place a b) (hl : C.Place l m) (hle : a ≤ l) :
    Both C.Place (d.skipGap a l) (e.skipGap b m) := by
  have hend := hl.le_end
  obtain ⟨i, j, hi, hj, hlands⟩ := h.skipGap (.inl hl)
  obtain ⟨-, hmax, -⟩ := (skipGap_yields h.bounds.1 hl.bounds.2.1).of_eq hi
  rcases hlands with hplace | hbeyond
  · exact ⟨i, j, hi, hj, hplace⟩
  · unfold Beyond at hbeyond
    omega

/-- Gaps are skipped alike to the ends of the texts, from wherever a move led. -/
theorem Past.skipGap (h : C.Past a b) (h₀ : 0 ≤ a) (h₀' : 0 ≤ b) :
    Both C.Lands (d.skipGap a d.text.length) (e.skipGap b e.text.length) := by
  rcases h with (h | ⟨n, hline⟩) | hbeyond
  · exact h.skipGap C.limit_length
  · rw [skipGap_lead hline.starts.1 (d.indentationPoint_le_length a),
      skipGap_lead hline.starts.2 (e.indentationPoint_le_length b)]
    exact hline.point.skipGap C.limit_length
  · obtain ⟨i, hi, hle, -⟩ := skipGap_yields (d := d) h₀ (Int.le_refl _)
    obtain ⟨j, hj, hle', -⟩ := skipGap_yields (d := e) h₀' (Int.le_refl _)
    unfold Beyond at hbeyond
    exact ⟨i, j, hi, hj, .inr ⟨by omega, by omega⟩⟩

/-- Moves over a gap and one expression lead to counterparts. -/
theorem Place.expressionAfter (h : C.Place a b) :
    C.Moves (d.expressionAfter a d.text.length) (e.expressionAfter b e.text.length) := by
  obtain ⟨i, j, hi, hj, hlands⟩ := h.skipGap C.limit_length
  have h₀ := h.bounds
  have hai := le_of_skipGap hi
  have hbj := le_of_skipGap hj
  unfold Document.expressionAfter
  rw [hi, hj, ok_bind, ok_bind]
  rcases hlands with hplace | hbeyond
  · have hiff := hplace.charAt?_isSome
    rcases Int.lt_or_le i d.text.length with hlt | hge
    · rw [if_neg (by omega), if_neg (by omega)]
      exact hplace.expressionStop
    · rw [if_pos hge, if_pos (by omega)]
      exact moves_scan
  · have hpasses : ∀ (u : Document) (bound k : Int), 0 ≤ k → bound < k → Passes bound
        (if u.text.length ≤ k then .error (.scan .endOfText)
          else u.text.expressionStop u.bird k) := by
      intro u bound k h₀ hlt
      split
      · exact .inl ⟨_, rfl⟩
      · exact .of_movesOn (expressionStop_cases u.bird h₀) (by omega)
    exact .inr ⟨hpasses d _ _ (by omega) hbeyond.1, hpasses e _ _ (by omega) hbeyond.2⟩

/-! ## Backward -/

/-- The line above a line with a place before it. -/
theorem Line.above (h : C.Line n x y) (hl : C.Place l m) (hlt : l < x) : C.Place (x - 1) (y - 1) ∧
    d.text.charAt? (x - 1) = some '\n' ∧ e.text.charAt? (y - 1) = some '\n' := by
  have hstart := h.starts
  have hlen := C.end_le
  cases h with
  | first =>
    have := hl.bounds
    omega
  | next h hx hy =>
    have hpoint := Line.point (C := C) h
    have hplace := hpoint.stop
    rw [lineStop_eq_of_lineStart_eq (d.lineStart_indentationPoint _),
      lineStop_eq_of_lineStart_eq (e.lineStart_indentationPoint _)] at hplace
    have h₀ := hplace.bounds
    rw [Int.add_sub_cancel, Int.add_sub_cancel, charAt?_eq h₀.1, charAt?_eq h₀.2.2.1]
    exact ⟨hplace, newline_at_lineStop _ (by omega), newline_at_lineStop _ (by omega)⟩

/-- Unless it is the limit, a place that stands on its line behind code. -/
def Behind (C : Parallel s d e) (l a b : Int) : Prop :=
  C.Place a b ∧ l ≤ a ∧ (l < a → a ≠ d.indentationPoint a)

/-- One step backward over the code of a line. -/
theorem skipBlanksBack_step {pos limit : Int} {c : Char} (hlt : limit < pos)
    (hcode : d.indentationPoint (pos - 1) ≤ pos - 1) (hc : d.text.charAt? (pos - 1) = some c) :
    d.skipBlanksBack pos limit =
      if isBlank c || c == '\n' then d.skipBlanksBack (pos - 1) limit else .ok pos := by
  unfold Document.skipBlanksBack
  rw [retreat, if_pos hlt, isGapAt_code hcode hc]
  cases isBlank c || c == '\n' <;> rfl

/-- Blanks are skipped backward alike. -/
theorem Place.skipBlanksBack {a b : Int} (h : C.Place a b) (hl : C.Place l m) (hle : l ≤ a) :
    Both (C.Behind l) (d.skipBlanksBack a l) (e.skipBlanksBack b m) := by
  rcases Int.lt_or_eq_of_le hle with hlt | rfl
  · have hlt' := (hl.lt_iff h).mpr hlt
    by_cases hpoint : a = d.indentationPoint a
    · -- over the lead to the end of the line above
      obtain ⟨n, hline⟩ := h.line
      have hstart := hline.starts
      have hx := indentationPoint_eq_of_lineStart_eq hstart.1
      have hy := indentationPoint_eq_of_lineStart_eq hstart.2
      have hlx : l < d.text.lineStart a := by
        rcases Int.lt_or_le l (d.text.lineStart a) with hlx | hxl
        · exact hlx
        · have := (hline.point_le_place hl hxl).1
          omega
      have hmy : m < e.text.lineStart b := (hl.lt_line_iff hline).mpr hlx
      have hpoint' := (h.eq_iff h.point).mpr hpoint
      have hle₁ := d.lineStart_le_indentationPoint a
      have hle₂ := e.lineStart_le_indentationPoint b
      obtain ⟨habove, hnl, hnl'⟩ := hline.above hl hlx
      rw [skipBlanksBack_lead hstart.1 (by omega) (by omega) (by omega : a ≤ _),
        skipBlanksBack_lead hstart.2 (by omega) (by omega) (by omega : b ≤ _),
        skipBlanksBack_step hlx habove.point_le hnl,
        skipBlanksBack_step hmy habove.bounds.2.2.2.2.2 hnl']
      exact habove.skipBlanksBack hl (by omega)
    · have hpred := h.pred hpoint
      have hle' := h.le_stop
      obtain ⟨c, -, hget⟩ := read_yields (t := d.text) hpred.bounds.1 (by have := h.bounds; omega)
      have hc : d.text.charAt? (a - 1) = some c := (charAt?_eq hpred.bounds.1).trans hget
      rw [skipBlanksBack_step hlt hpred.point_le hc,
        skipBlanksBack_step hlt' hpred.bounds.2.2.2.2.2 (hpred.char.trans hc)]
      split
      · exact hpred.skipBlanksBack hl (by omega)
      · exact ⟨a, b, rfl, rfl, h, hle, fun _ => hpoint⟩
  · obtain rfl : b = m := (h.eq_iff hl).mpr rfl
    unfold Document.skipBlanksBack
    rw [retreat.eq_def d.isGapAt, retreat.eq_def e.isGapAt, if_neg (Int.lt_irrefl _),
      if_neg (Int.lt_irrefl _)]
    exact ⟨l, b, rfl, rfl, h, hle, fun hlt => absurd hlt (Int.lt_irrefl _)⟩
termination_by (a - l).toNat

/-- Places behind code lie in the same comments. -/
theorem Behind.covered_iff {p q : Span} (h : C.Behind l a b) (hspan : C.SameSpan p q)
    (hle : l ≤ p.start) : (q.start < b ∧ b ≤ q.stop) ↔ (p.start < a ∧ a ≤ p.stop) := by
  obtain ⟨hplace, hla, hbefore⟩ := h
  have h₁ := hspan.1.lt_iff hplace
  rcases Int.lt_or_eq_of_le hla with hlt | rfl
  · have h₂ := hspan.2.lt_iff (hplace.pred (hbefore hlt))
    omega
  · omega

/-- Comments are skipped backward alike. -/
theorem Place.skipBackOver {spans spans' : List Span} (hs : List.Forall₂ C.SameSpan spans spans')
    (h : C.Place a b) (hl : C.Place l m) (hle : l ≤ a) (hin : ∀ p ∈ spans, l ≤ p.start) :
    Both (C.Behind l) (d.skipBackOver l spans a) (e.skipBackOver m spans' b) := by
  induction hs generalizing a b with
  | nil => exact h.skipBlanksBack hl hle
  | @cons p q ps qs hpq _ ih =>
    obtain ⟨hstart, hstop⟩ := hpq
    obtain ⟨i, j, hi, hj, hplace, hli, hbefore⟩ := h.skipBlanksBack hl hle
    have hlp := hin p List.mem_cons_self
    have hrest : ∀ r ∈ ps, l ≤ r.start := fun r hr => hin r (List.mem_cons_of_mem p hr)
    have hiff := Behind.covered_iff ⟨hplace, hli, hbefore⟩ ⟨hstart, hstop⟩ hlp
    unfold Document.skipBackOver
    rw [hi, hj, ok_bind, ok_bind]
    by_cases hcovers : p.start < i ∧ i ≤ p.stop
    · rw [if_pos hcovers, if_pos (hiff.mpr hcovers)]
      exact ih hstart hlp hrest
    · rw [if_neg hcovers, if_neg fun h => hcovers (hiff.mp h)]
      exact ih hplace hli hrest

/-- The comments behind a place, an open one included. -/
theorem SameNesting.commentsBefore {p q : Nesting} (hs : C.SameNesting p q) (h : C.Place a b) :
    List.Forall₂ C.SameSpan (p.commentsBefore a) (q.commentsBefore b) := by
  have hcomment := hs.comment
  unfold Nesting.commentsBefore
  generalize p.comment? = x, q.comment? = y at hcomment
  cases hcomment with
  | none => exact hs.comments
  | some hstart => exact List.rel_append hs.comments (.cons ⟨hstart, .inl h⟩ .nil)

/-- The comments of a stretch start in it. -/
theorem start_le_of_mem_commentsBefore {p : Nesting} {start stop : Int} {span : Span}
    (hs : p.Inside start stop) (hspan : span ∈ p.commentsBefore stop) : start ≤ span.start := by
  unfold Nesting.commentsBefore at hspan
  split at hspan
  · next i hi =>
    rcases List.mem_append.mp hspan with hspan | hspan
    · exact (hs.comments span hspan).1
    · rw [List.mem_singleton] at hspan
      subst hspan
      exact (hs.comment i hi).1
  · exact (hs.comments span hspan).1

/-- Gaps are skipped backward alike. -/
theorem Place.skipGapBack (h : C.Place a b) (hl : C.Place l m) (hle : l ≤ a) :
    Both (C.Behind l) (d.skipGapBack a l) (e.skipGapBack b m) := by
  obtain ⟨p, q, hp, hq, hs⟩ := hl.nesting h
  have hinside := (Document.nesting_yields hl.bounds.1 h.bounds.2.1).of_eq hp
  unfold Document.skipGapBack
  rw [hp, hq, ok_bind, ok_bind]
  refine h.skipBackOver (List.rel_reverse (hs.commentsBefore h)) hl hle fun span hspan => ?_
  exact start_le_of_mem_commentsBefore hinside (List.mem_reverse.mp hspan)

/-! ## Where a place lies -/

/-- At counterparts the same bracket is open, or none. -/
theorem Place.openBracket? (h : C.Place a b) (hl : C.Place l m) :
    Both (Option.Rel C.Place) (d.openBracket? a l) (e.openBracket? b m) := by
  obtain ⟨p, q, hp, hq, hs⟩ := h.nesting hl
  have hopeners := hs.openers
  unfold Document.openBracket?
  rw [hp, hq, ok_bind, ok_bind]
  refine ⟨_, _, rfl, rfl, ?_⟩
  unfold Nesting.innermost?
  generalize p.openers = xs, q.openers = ys at hopeners
  cases hopeners with
  | nil => exact .none
  | cons hplace _ => exact .some hplace

/-- At counterparts the same string is open, or none. -/
theorem Place.openString? (h : C.Place a b) (hl : C.Place l m) :
    Both (Option.Rel C.Place) (d.openString? a l) (e.openString? b m) := by
  obtain ⟨p, q, hp, hq, hs⟩ := h.nesting hl
  unfold Document.openString?
  rw [hp, hq, ok_bind, ok_bind]
  exact ⟨_, _, rfl, rfl, hs.string⟩

/-- At counterparts the same comment is open, or none. -/
theorem Place.openComment? (h : C.Place a b) (hl : C.Place l m) :
    Both (Option.Rel C.Place) (d.openComment? a l) (e.openComment? b m) := by
  have hcomment : e.commentAt m = d.commentAt l := hl.commentAt C.limit_length
  obtain ⟨comment, hhere, -⟩ := commentAt_yields (d := d) hl.bounds.1
  rw [hhere] at hcomment
  have hat : Both (Option.Rel C.Place) (if comment = true then .ok (some l) else .ok none)
      (if comment = true then .ok (some m) else .ok none : Except Fault (Option Int)) := by
    cases comment with
    | true => exact ⟨_, _, rfl, rfl, .some hl⟩
    | false => exact ⟨_, _, rfl, rfl, .none⟩
  have hiff := hl.le_iff h
  unfold Document.openComment?
  rw [hhere, hcomment]
  rcases Int.lt_or_le a l with hlt | hge
  · obtain ⟨p, q, hp, hq, hs⟩ := h.nesting hl
    rw [if_neg (by omega), if_neg (by omega), hp, hq]
    simp only [ok_bind]
    have hstring := hs.string
    have hopen := hs.comment
    generalize p.comment? = x, q.comment? = y at hopen
    generalize p.string? = x', q.string? = y' at hstring
    cases hopen with
    | some hplace => exact ⟨_, _, rfl, rfl, .some hplace⟩
    | none =>
      cases hstring with
      | some _ => exact ⟨_, _, rfl, rfl, .none⟩
      | none => exact hat
  · rw [if_pos hge, if_pos (by omega)]
    exact hat

end Parallel

end LayoutRule

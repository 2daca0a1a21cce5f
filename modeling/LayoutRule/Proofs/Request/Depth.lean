import LayoutRule.Proofs.Parallel.Keywords
import LayoutRule.Proofs.Request.Candidates
import LayoutRule.Proofs.Request.Measured

/-!
# How deep requests nest

The bound on how many lines are measured inside one another turns answers into faults and does
nothing else: what a request answers under one bound it answers under every larger one. And a bound
that exceeds the length of the text is never met. A request that is made inside another one is for a
place further up, since the places where other lines are measured are clear of comments
(`Document.Clear`); only the request for a line that starts with a comment looks ahead, to the code
behind the comment, and that is clear of comments as well (`Document.clear_code`).

Both are carried through the whole recursion by one relation, `Noted.Upheld`. Main statement:
`Document.candidates_depth`.
-/

namespace LayoutRule

/-! ## Computations that uphold others -/

/-- What the first computation gives, the second one gives as well; and the first gives a result if
it is safe. -/
structure Noted.Upheld {α : Type} (x y : Noted α) (safe : Prop) : Prop where
  /-- A result of the first is the result of the second, with the same notes. -/
  same : ∀ a, x.result = .ok a → y = x
  /-- When it is safe there is a result. -/
  exists_result : safe → ∃ a, x.result = .ok a

namespace Noted.Upheld

variable {α β : Type} {safe safe' : Prop} {x y : Noted α} {f g : α → Noted β}

/-- A value is upheld by itself, and safe under all conditions. -/
theorem pure (a : α) : (Pure.pure a : Noted α).Upheld (Pure.pure a) safe :=
  ⟨fun _ _ => rfl, fun _ => ⟨a, rfl⟩⟩

/-- A note is upheld by itself, and safe under all conditions. -/
theorem note (n : Note) : (Noted.note n).Upheld (Noted.note n) safe :=
  ⟨fun _ _ => rfl, fun _ => ⟨(), rfl⟩⟩

/-- A computation that takes no notes. -/
theorem lift {r : Except Fault α} {P : α → Prop} (h : Yields r P) :
    (liftM r : Noted α).Upheld (liftM r) safe := by
  obtain ⟨a, ha, -⟩ := h
  exact ⟨fun _ _ => rfl, fun _ => ⟨a, ha⟩⟩

/-- A computation that is safe under a condition is so under every stronger one. -/
theorem mono (h : x.Upheld y safe) (himp : safe' → safe) : x.Upheld y safe' :=
  ⟨h.same, fun hs => h.exists_result (himp hs)⟩

/-- One computation after another. -/
theorem bind (h : x.Upheld y safe) (hf : ∀ a, x.result = .ok a → (f a).Upheld (g a) safe) :
    (x >>= f).Upheld (y >>= g) safe where
  same b hb := by
    rw [Noted.bind_result] at hb
    obtain ⟨a, ha, hfa⟩ := bind_eq_ok.1 hb
    rw [h.same a ha]
    show Noted.bind x g = Noted.bind x f
    unfold Noted.bind
    simp only [ha, (hf a ha).same b hfa]
  exists_result hs := by
    obtain ⟨a, ha⟩ := h.exists_result hs
    obtain ⟨b, hb⟩ := (hf a ha).exists_result hs
    exact ⟨b, by rw [Noted.bind_result]; exact bind_eq_ok.2 ⟨a, ha, hb⟩⟩

/-- What follows a computation whose result is known. -/
theorem bind_ok {r : Except Fault α} {a : α} (h : r = .ok a) (hf : (f a).Upheld (g a) safe) :
    (liftM r >>= f).Upheld (liftM r >>= g) safe := by
  rw [h]
  exact hf

/-- A computation that is one of two, before the rest. -/
theorem ite_bind {c : Prop} [Decidable c] {x' y' : Noted α}
    (h : (if c then x else x').Upheld (if c then y else y') safe)
    (hf : ∀ a, (f a).Upheld (g a) safe) :
    (if c then x >>= f else x' >>= f).Upheld (if c then y >>= g else y' >>= g) safe := by
  split
  · next hc =>
    rw [if_pos hc, if_pos hc] at h
    exact h.bind fun a _ => hf a
  · next hc =>
    rw [if_neg hc, if_neg hc] at h
    exact h.bind fun a _ => hf a

end Noted.Upheld

/-! ## What does not depend on the bound -/

/-- The settings with another bound on nesting. -/
def Settings.withDepth (s : Settings) (m : Int) : Settings := { s with maxNestingDepth := m }

namespace Document

open Text

variable {d : Document} {s : Settings} {m pos start stop : Int}

/-- Going up to the start of a definition does not depend on the bound. -/
theorem climb_withDepth (codeStart bol : Int) :
    d.climb (s.withDepth m) codeStart bol = d.climb s codeStart bol := by
  have hcontinues : ∀ bol, d.continuesAbove (s.withDepth m) bol = d.continuesAbove s bol :=
    fun _ => rfl
  fun_induction d.climb s codeStart bol with
  | case1 bol hup above ha ih =>
    rw [climb_above ha, hcontinues, if_pos hup]
    exact ih
  | case2 bol hup ha =>
    rw [climb, hcontinues, if_pos hup]
    split
    · next ha' =>
      rw [ha] at ha'
      cases ha'
    · rfl
  | case3 bol hup => rw [climb, hcontinues, if_neg hup]

/-- The start of a definition does not depend on the bound. -/
theorem definitionStart_withDepth (pos : Int) :
    d.definitionStart (s.withDepth m) pos = d.definitionStart s pos := by
  unfold definitionStart definitionLine
  simp only [climb_withDepth]

/-- The walk up along the contour does not depend on the bound. -/
theorem contourFrom_withDepth (h₀ : 0 ≤ start) (bol bound : Int) (found : List Int) :
    d.contourFrom (s.withDepth m) start bol bound found =
      d.contourFrom s start bol bound found := by
  by_cases hstop : bound ≤ 0 ∨ d.isProse bol = true ∨ d.indentationPoint bol < start ∨
      (d.isBlankLine bol && !s.lookPastEmptyLines) = true
  · rw [contourFrom_stop (s := s) hstop, contourFrom_stop (s := s.withDepth m) hstop]
  · simp only [not_or, Bool.not_eq_true, Int.not_le, Int.not_lt] at hstop
    obtain ⟨hbound, hcode, hstart, hblank⟩ := hstop
    obtain ⟨passed, hpassed, -⟩ := passed_yields (d := d) h₀ hstart
    rw [contourFrom_step (s := s) hbound hcode hstart hblank hpassed,
      contourFrom_step (s := s.withDepth m) hbound hcode hstart hblank hpassed]
    cases ha : d.text.lineAbove? bol with
    | none => rfl
    | some above =>
      have hlt := lineAbove?_lt ha
      have hline := lineStart_le (t := d.text) hlt.1
      simp only
      rw [contourFrom_withDepth h₀ above, contourFrom_withDepth h₀ above]
termination_by (d.text.lineStart bol).toNat

/-- The contour does not depend on the bound. -/
theorem contour_withDepth (h₀ : 0 ≤ start) (stop : Int) :
    d.contour (s.withDepth m) start stop = d.contour s start stop := by
  unfold contour
  simp only [contourFrom_withDepth h₀]

end Document

namespace Request

variable {d : Document} {s : Settings} {m start stop : Int} {inhibit : Bool}
  (nested nested' : Bool → Int → Int → Noted (List Candidate))

/-- What the lines of a contour propose does not depend on the bound, nor on how other lines are
measured. -/
theorem offerContour_withDepth (kind : LineKind) (first : String) (contour : List Int)
    (found : List Candidate) :
    offerContour ⟨d, s.withDepth m, inhibit, nested'⟩ start stop kind first contour found =
      offerContour ⟨d, s, inhibit, nested⟩ start stop kind first contour found := by
  induction contour generalizing found with
  | nil => rfl
  | cons p rest ih =>
    unfold offerContour
    simp only [ih]
    rfl

/-- What is found below a contour does not depend on the bound, nor on how other lines are
measured. -/
theorem belowContour_withDepth (contour : List Int) :
    belowContour ⟨d, s.withDepth m, inhibit, nested'⟩ start contour stop =
      belowContour ⟨d, s, inhibit, nested⟩ start contour stop := by
  unfold belowContour
  simp only [offerContour_withDepth nested nested']

end Request

/-! ## The code behind a comment -/

namespace Document

open Text

variable {d : Document} {s : Settings} {pos start stop i k code : Int}

/-- Every character of a gap is a piece of its own. -/
theorem pieceAt_gap (h₀ : 0 ≤ k) (h₁ : k < d.text.length) (hgap : d.isGapAt k = .ok true) :
    ∃ p, d.text.pieceAt d.bird k d.text.length = .ok p ∧ p.stop = k + 1 := by
  obtain ⟨p, hp, -⟩ := pieceAt_yields (t := d.text) d.bird d.text.length h₀ h₁
  obtain ⟨c, hc, hpiece⟩ := exists_char_of_pieceAt h₀ hp
  have hchar := char_of_gap h₀ hgap hc
  refine ⟨p, hp, ?_⟩
  cases hpiece with
  | marker => rfl
  | single => exact singlePiece_stop c k
  | comment hcomment =>
    have hno : c ≠ '-' ∧ c ≠ '\x7b' := by rcases hchar with rfl | rfl | rfl | rfl <;> decide
    rw [commentAt_eq_false h₀ hc hno.1 hno.2] at hcomment
    cases hcomment
  | string _ hquote => exact absurd (hquote ▸ hchar) (by decide)
  | character _ hquote => exact absurd (hquote ▸ hchar) (by decide)

/-- A comment is the piece that starts with it. -/
theorem pieceAt_comment {limit : Int} (h₀ : 0 ≤ i) (h : d.text.commentAt i limit = .ok true) :
    d.text.pieceAt d.bird i limit = .ok ⟨.comment, d.text.commentStop i⟩ := by
  obtain ⟨p, hp, -⟩ := pieceAt_yields (t := d.text) d.bird limit h₀ (lt_length_of_commentAt h)
  obtain ⟨c, hc, hpiece⟩ := exists_char_of_pieceAt h₀ hp
  have hnot : d.text.commentAt i limit ≠ .ok false := by
    intro hfalse
    rw [h] at hfalse
    cases hfalse
  rw [hp]
  cases hpiece with
  | comment => rfl
  | marker hsign =>
    subst hsign
    exact absurd (commentAt_eq_false h₀ hc (by decide) (by decide) _) hnot
  | string hfalse => exact absurd hfalse hnot
  | character hfalse => exact absurd hfalse hnot
  | single hfalse => exact absurd hfalse hnot

/-- A walk goes on over blanks. -/
theorem walk_skipBlanks {limit : Int} (hw : d.text.Walk d.bird d.text.length start pos)
    (h₀ : 0 ≤ pos) (hlimit : limit ≤ d.text.length) (h : d.skipBlanks pos limit = .ok i) :
    d.text.Walk d.bird d.text.length start i := by
  obtain ⟨hle, hmax, hgaps, -⟩ := (skipBlanks_yields h₀ hlimit).of_eq h
  have hover : ∀ n : Nat, pos + n ≤ i → d.text.Walk d.bird d.text.length start (pos + n) := by
    intro n
    induction n with
    | zero =>
      intro _
      rw [Int.natCast_zero, Int.add_zero]
      exact hw
    | succ n ih =>
      intro hn
      obtain ⟨p, hp, hstop⟩ :=
        pieceAt_gap (by omega) (by omega) (hgaps (pos + n) (by omega) (by omega))
      have hnext := (ih (by omega)).snoc (by omega) hp
      rw [hstop] at hnext
      rw [Int.natCast_succ, ← Int.add_assoc]
      exact hnext
  have hlast := hover (i - pos).toNat (by omega)
  rwa [show pos + ((i - pos).toNat : Int) = i by omega] at hlast

/-- A walk goes on over a gap: code behind it starts a piece. -/
theorem walk_skipGap {limit : Int} (hw : d.text.Walk d.bird d.text.length start pos) (h₀ : 0 ≤ pos)
    (hlimit : limit ≤ d.text.length) (h : d.skipGap pos limit = .ok code) (hlt : code < limit) :
    d.text.Walk d.bird d.text.length start code := by
  fun_induction skipGap d pos limit with
  | case1 => cases h
  | case2 => cases h
  | case3 pos i hi hi' hcomment ih =>
    have hle := le_of_skipBlanks hi
    have hend := le_of_skipGap h
    have hstop := lt_commentStop (lt_length_of_commentAt hcomment)
    have hnext := (walk_skipBlanks hw h₀ hlimit hi).snoc (by omega)
      (pieceAt_comment (by omega) hcomment)
    rw [Int.min_eq_left (by omega)] at h ih
    exact ih hnext (by omega) h
  | case4 pos i hi =>
    cases h
    exact walk_skipBlanks hw h₀ hlimit hi
  | case5 pos i hi hge =>
    cases h
    omega

/-- A comment does not start right before the code of a line. -/
theorem add_two_le_indentationPoint (h₀ : 0 ≤ i) (h : d.commentAt i = .ok true)
    (hlt : i < d.indentationPoint pos) : i + 2 ≤ d.indentationPoint pos := by
  rcases Int.lt_or_eq_of_le (by omega : i + 1 ≤ d.indentationPoint pos) with hle | heq
  · omega
  · exfalso
    obtain ⟨c, hread, hget⟩ := read_yields (t := d.text) h₀ (lt_length_of_commentAt h)
    have hc : d.text.charAt? i = some c := (charAt?_eq h₀).trans hget
    have hrow : isDashOrOpening c = false :=
      char_before_indentationPoint (by rw [← heq, Int.add_sub_cancel]; exact hc)
    have hne : ∀ x, isDashOrOpening x = true → c ≠ x :=
      fun x hx hcx => ne_of_isDashOrOpening hx hrow hcx.symm
    have hfalse := commentAt_eq_false h₀ hc (hne '-' (by decide))
      (hne '\x7b' (by decide)) d.text.length
    rw [show d.text.commentAt i d.text.length = .ok true from h] at hfalse
    cases hfalse

/-- The code of a line starts a piece when no string or comment from above reaches it. -/
theorem walk_indentationPoint (h₀ : 0 ≤ start) (hle : start ≤ d.indentationPoint pos)
    (hlt : d.indentationPoint pos < d.text.length)
    (hclosed : d.Closed start (d.indentationPoint pos)) :
    d.text.Walk d.bird d.text.length start (d.indentationPoint pos) := by
  obtain ⟨a, p, hv, ha, hstop⟩ := exists_visits (t := d.text) d.bird h₀ hle hlt (Int.le_refl _)
  obtain ⟨s, hs, hstring, hcomment⟩ := hclosed
  rcases Int.lt_or_eq_of_le ha with hbefore | rfl
  · -- a piece that starts before the code and ends behind its start would be open there
    exfalso
    have hstart := hv.start_le
    obtain ⟨c, hc, hpiece⟩ := exists_char_of_pieceAt (by omega) hv.piece
    cases hpiece with
    | comment hstarts =>
      have hfits := add_two_le_indentationPoint (by omega) hstarts hbefore
      have hshort := commentAt_shorten (by omega) (by omega) hstarts (by omega) (Int.le_of_lt hlt)
        fun _ => hfits
      have hvisits : d.text.Visits d.bird start (d.indentationPoint pos) a _ :=
        ⟨hv.walk.shorten h₀ ha (Int.le_of_lt hlt), hbefore, pieceAt_comment (by omega) hshort⟩
      rw [hvisits.comment?_eq hs rfl hstop] at hcomment
      cases hcomment
    | string =>
      have hshort := hv.shorten h₀ hbefore (Int.le_of_lt hlt) nofun
      rw [hshort.string?_eq hs rfl hstop] at hstring
      cases hstring
    | character =>
      have := stop_le_indentationPoint h₀ hv rfl hbefore
      omega
    | marker => exact absurd hstop (by simp only; omega)
    | single => exact absurd hstop (by rw [singlePiece_stop]; omega)
  · exact hv.walk

/-- Only what a line starts with is looked for in the comment's place. -/
theorem openComment?_of_closed (hclosed : d.Closed start stop)
    (hcomment : d.commentAt stop = .ok true) : d.openComment? start stop = .ok (some stop) := by
  obtain ⟨s, hs, hstring, hnone⟩ := hclosed
  unfold openComment?
  split
  · rw [hcomment]
    rfl
  · rw [hs, ok_bind, hnone, hstring]
    simp only
    rw [hcomment]
    rfl

/-- Going up to the start of a definition leads up. -/
theorem climb_bounds (codeStart : Int) {bol : Int} (h₀ : 0 ≤ bol) :
    0 ≤ d.climb s codeStart bol ∧ d.climb s codeStart bol ≤ bol := by
  fun_induction d.climb s codeStart bol with
  | case1 bol hup above ha ih =>
    have hlt := lineAbove?_lt ha
    have hle := lineStart_le (t := d.text) h₀
    have hrest := ih hlt.1
    omega
  | case2 => omega
  | case3 => omega

/-- The definition that encloses a place starts on its line or above. -/
theorem definitionLine_bounds (d : Document) (s : Settings) (pos : Int) :
    0 ≤ d.definitionLine s pos ∧ d.definitionLine s pos ≤ d.text.lineStart pos := by
  have hnonneg := d.text.lineStart_nonneg pos
  have habove : 0 ≤ (d.text.lineAbove? (d.text.lineStart pos)).getD (d.text.lineStart pos) ∧
      (d.text.lineAbove? (d.text.lineStart pos)).getD (d.text.lineStart pos) ≤
        d.text.lineStart pos := by
    cases ha : d.text.lineAbove? (d.text.lineStart pos) with
    | none => exact ⟨hnonneg, Int.le_refl _⟩
    | some above =>
      have hlt := lineAbove?_lt ha
      rw [d.text.lineStart_lineStart] at hlt
      exact ⟨hlt.1, Int.le_of_lt hlt.2⟩
  have hclimb := climb_bounds (d := d) (s := s) (d.codeStart pos) habove.1
  unfold definitionLine
  simp only
  generalize d.climb s (d.codeStart pos) _ = top at hclimb ⊢
  split
  · next hblank =>
    have hstop := lineStop_lt_lineStart hclimb.1 hblank.2
    have hstart := lineStart_le (t := d.text) hclimb.1
    have hnonneg' := d.text.lineStart_nonneg top
    have hle := d.text.lineStart_le_lineStop top
    rw [moveLines_one, newlineFrom?_eq, d.text.lineStop_lineStart]
    split
    · simp only
      omega
    · next k hk =>
      split at hk
      · cases hk
        simp only
        omega
      · cases hk
  · omega

/-- The definition that encloses a place in the code of a line starts before that place, or
there. -/
theorem definitionStart_le_of_code (hcode : d.indentationPoint pos ≤ pos)
    (h : d.definitionStart s pos = .ok start) : start ≤ pos := by
  have hline := d.definitionLine_bounds s pos
  have hbol := d.lineStart_le_indentationPoint pos
  have horigin : d.indentationPoint (d.definitionLine s pos) ≤ pos := by
    rcases Int.lt_or_eq_of_le hline.2 with hlt | heq
    · have hstop := lineStop_lt_lineStart hline.1 hlt
      have hpoint := (d.indentationPoint_bounds (d.definitionLine s pos)).2
      omega
    · rw [heq, indentationPoint_eq_of_lineStart_eq (d.text.lineStart_lineStart pos)]
      exact hcode
  unfold definitionStart at h
  obtain ⟨first, -, h⟩ := bind_eq_ok.1 h
  have hstart := Except.ok.inj h
  split at hstart
  · omega
  · omega

/-- The definition of a line starts no later than the indentation point of the line. -/
theorem definitionStart_le (h : d.definitionStart s (d.indentationPoint pos) = .ok start) :
    start ≤ d.indentationPoint pos :=
  definitionStart_le_of_code (Int.le_of_eq (d.indentationPoint_indentationPoint pos)) h

/-- Behind the comment that a line starts with, the next code is a clear place. -/
theorem clear_code (h₀ : 0 ≤ start) (hle : start ≤ d.indentationPoint pos)
    (hcomment : d.commentAt (d.indentationPoint pos) = .ok true)
    (hclosed : d.Closed start (d.indentationPoint pos))
    (hbefore : start < d.text.length → ∀ c, d.text.charAt? (start - 1) = some c →
      isDashOrOpening c = false)
    (hskip : d.skipGap (d.indentationPoint pos) d.text.length = .ok code) : d.Clear start code := by
  have hpoint := d.indentationPoint_nonneg pos
  have hlen := lt_length_of_commentAt hcomment
  obtain ⟨hge, hmax, hstops⟩ := (skipGap_yields hpoint (Int.le_refl _)).of_eq hskip
  -- the comment itself is skipped
  have hlt : d.indentationPoint pos < code := by
    rcases Int.lt_or_eq_of_le hge with hlt | heq
    · exact hlt
    · exfalso
      have hnone := (hstops (by omega)).2
      rw [← heq, hcomment] at hnone
      cases hnone
  refine ⟨fun _ => ?_, fun j h₂ h₃ hj hreach => ?_, fun a r hr hkind hstop => ?_, hbefore⟩
  · rcases Int.lt_or_le code d.text.length with hin | hout
    · exact (hstops hin).2
    · obtain ⟨value, hvalue, -⟩ := commentAt_yields (d := d) (by omega : 0 ≤ code)
      cases value with
      | false => exact hvalue
      | true =>
        have := lt_length_of_commentAt hvalue
        omega
  · exfalso
    obtain ⟨c, hc, hrow⟩ :=
      char_of_lt_dashReach (d := d) (j := j) (k := code - 1) (by omega) (by omega) (by omega)
    obtain ⟨c', hc', -⟩ :=
      char_of_lt_dashReach (d := d) (j := j) (k := code) (by omega) (by omega) hreach
    rw [char_before_skipGap rfl hpoint hskip hlt (lt_length_of_charAt? (by omega) hc') hc] at hrow
    cases hrow
  · -- the code starts a piece, so no literal reaches over its start
    exfalso
    have hstart := hr.start_le
    have hlit := hr.lt
    obtain ⟨p, hp, -, hends⟩ :=
      pieceAt_yields (t := d.text) d.bird code (by omega : 0 ≤ a) (by omega)
    rw [hr.piece] at hp
    cases hp
    have hin := hends (by rw [hkind]; nofun) (by rw [hkind]; nofun)
    have hwalk := walk_skipGap (walk_indentationPoint h₀ hle hlen hclosed) hpoint
      (Int.le_refl _) hskip (by omega)
    rcases hr.walk.le_or_stop_le hr.piece (hwalk.shorten h₀ (Int.le_refl _) (by omega)) with
      hca | hrc
    · omega
    · omega

end Document

/-! ## Requests inside a request -/

/-- Requests one level further in are upheld; they give a result at clear places before `levels`. -/
def Document.Upholds (d : Document) (levels : Int)
    (nested nested' : Bool → Int → Int → Noted (List Candidate)) : Prop :=
  ∀ inhibit {start stop : Int}, 0 ≤ start → start ≤ d.text.length → 0 ≤ stop →
    stop ≤ d.text.length →
    (nested inhibit start stop).Upheld (nested' inhibit start stop)
      (d.Clear start stop ∧ stop < levels)

/-- The start of the definition in which a place is measured: known, or looked for. -/
inductive Document.StartsAt (d : Document) (s : Settings) (pos : Int) :
    Option Int → Int → Prop where
  | known (i : Int) : StartsAt d s pos (some i) i
  | sought {i : Int} (h : d.definitionStart s pos = .ok i) : StartsAt d s pos none i

namespace Request

open Document Text

variable {d : Document} {s : Settings} {m levels pos start stop bracket : Int} {inhibit : Bool}
  {safe : Prop} {nested nested' : Bool → Int → Int → Noted (List Candidate)} {from? : Option Int}

/-- The virtual column of a place is upheld when the place may be measured. -/
theorem virtualColumn_upheld (hn : d.Upholds levels nested nested') (h₀ : 0 ≤ pos)
    (h₁ : pos ≤ d.text.length) (hfrom : ∀ i ∈ from?, 0 ≤ i ∧ i ≤ d.text.length)
    (hclear : safe → ∀ i, d.StartsAt s pos from? i → d.Clear i pos ∧ pos < levels) :
    (virtualColumn ⟨d, s, inhibit, nested⟩ pos from?).Upheld
      (virtualColumn ⟨d, s.withDepth m, inhibit, nested'⟩ pos from?) safe := by
  obtain ⟨hanging, hhangs, -⟩ := hangs_yields (r := ⟨d, s, inhibit, nested⟩) h₀ h₁
  have hrest : ∀ i, d.StartsAt s pos from? i → 0 ≤ i ∧ i ≤ d.text.length →
      (do let cs ← nested (← hangs ⟨d, s, inhibit, nested⟩ pos) i pos
          return nearestLeft cs (d.column pos) : Noted Int).Upheld
        (do let cs ← nested' (← hangs ⟨d, s.withDepth m, inhibit, nested'⟩ pos) i pos
            return nearestLeft cs (d.column pos) : Noted Int) safe := by
    intro i hi hrange
    refine .bind_ok hhangs ?_
    exact ((hn hanging hrange.1 hrange.2 h₀ h₁).mono fun hs => hclear hs i hi).bind
      fun cs _ => .pure _
  unfold virtualColumn
  dsimp only
  split
  · exact .pure _
  cases from? with
  | some i => exact hrest i (.known i) (hfrom i rfl)
  | none =>
    obtain ⟨i, hi, hrange⟩ := definitionStart_yields d s pos
    rw [definitionStart_withDepth]
    exact .bind_ok hi (hrest i (.sought hi) hrange)

/-- What goes by the column of a word or bracket that may hang. -/
theorem openerColumn_upheld {α : Type} {f : Int → Noted α} (inhibit : Bool)
    (hn : d.Upholds levels nested nested') (h₀ : 0 ≤ pos) (h₁ : pos ≤ d.text.length)
    (hfrom : ∀ i ∈ from?, 0 ≤ i ∧ i ≤ d.text.length)
    (hclear : safe → ∀ i, d.StartsAt s pos from? i → d.Clear i pos ∧ pos < levels)
    (hf : ∀ col, (f col).Upheld (f col) safe) :
    (do
      if ← hangs ⟨d, s, inhibit, nested⟩ pos then
        let col ← virtualColumn ⟨d, s, inhibit, nested⟩ pos from?
        f col
      else
        let col ← pure (d.column pos)
        f col : Noted α).Upheld
      (do
        if ← hangs ⟨d, s.withDepth m, inhibit, nested'⟩ pos then
          let col ← virtualColumn ⟨d, s.withDepth m, inhibit, nested'⟩ pos from?
          f col
        else
          let col ← pure (d.column pos)
          f col) safe := by
  obtain ⟨hanging, hhangs, -⟩ := hangs_yields (r := ⟨d, s, inhibit, nested⟩) h₀ h₁
  refine .bind_ok hhangs ?_
  split
  · exact (virtualColumn_upheld hn h₀ h₁ hfrom hclear).bind fun col _ => hf col
  · exact (Noted.Upheld.pure _).bind fun col _ => hf col

/-- The column of a block is upheld when a keyword that hangs may be measured. -/
theorem blockColumn_upheld (hn : d.Upholds levels nested nested') (h₀ : 0 ≤ pos)
    (h₁ : pos ≤ d.text.length) (hfrom : ∀ i ∈ from?, 0 ≤ i ∧ i ≤ d.text.length)
    (hclear : hangs ⟨d, s, inhibit, nested⟩ pos = .ok true → safe → ∀ i, d.StartsAt s pos from? i →
      d.Clear i pos ∧ pos < levels)
    (default : Option Int) :
    (blockColumn ⟨d, s, inhibit, nested⟩ pos from? none default).Upheld
      (blockColumn ⟨d, s.withDepth m, inhibit, nested'⟩ pos from? none default) safe := by
  obtain ⟨hanging, hhangs, -⟩ := hangs_yields (r := ⟨d, s, inhibit, nested⟩) h₀ h₁
  obtain ⟨offsets, hoffsets, -⟩ := offsetAt?_yields (r := ⟨d, s, inhibit, nested⟩) h₀ h₁
  unfold blockColumn
  dsimp only
  rw [if_neg (by decide), if_neg (by decide)]
  refine .bind_ok hoffsets ?_
  refine .bind_ok hhangs ?_
  split
  · next htrue =>
    rw [htrue] at hhangs
    exact (virtualColumn_upheld hn h₀ h₁ hfrom (hclear hhangs)).bind fun base _ => .pure _
  · exact .pure _

/-- The column of an opener is upheld: openers are clear places. -/
theorem closingKeyword?_upheld (hn : d.Upholds levels nested nested') (hs : 0 ≤ start)
    (hs' : start ≤ d.text.length) (h₀ : 0 ≤ stop) (h₁ : stop ≤ d.text.length) :
    (closingKeyword? ⟨d, s, inhibit, nested⟩ stop start).Upheld
      (closingKeyword? ⟨d, s.withDepth m, inhibit, nested'⟩ stop start)
      (d.Clear start stop ∧ stop ≤ levels) := by
  unfold closingKeyword?
  dsimp only
  refine .bind_ok (checkStart_of_mem h₀ h₁) ?_
  split
  · exact .pure _
  next pair _ =>
  rw [if_neg (by omega), if_neg (by omega)]
  obtain ⟨opener, hopener, -⟩ := matchingOpener?_yields pair.words (pair == .letIn) hs hs' h₀ h₁
  refine .bind_ok hopener ?_
  cases opener with
  | none => exact .pure _
  | some o =>
    obtain ⟨hle, hlt, ⟨c, hc, hname⟩, -⟩ := opener_cases hs hs' h₀ h₁ hopener
    have hfrom : ∀ i ∈ some start, 0 ≤ i ∧ i ≤ d.text.length := by
      intro i hi
      cases hi
      exact ⟨hs, hs'⟩
    have hoffset : pair.closerOffset (s.withDepth m) = pair.closerOffset s := by cases pair <;> rfl
    rw [hoffset]
    refine openerColumn_upheld inhibit hn (by omega) (by omega) hfrom ?_ fun col => .pure _
    rintro ⟨hclear, hlevels⟩ i hi
    cases hi
    obtain ⟨hrow, hblank, hclose⟩ := class_of_isNameChar hname
    exact ⟨.of_char hs hle hc hrow hblank hclose hclear.before, by omega⟩

/-- A bracket that is open at a clear place may be measured. -/
theorem clear_of_startsAt (hs : 0 ≤ start) (h₁ : stop ≤ d.text.length)
    (hb : d.openBracket? start stop = .ok (some bracket)) (hdash : d.text.charAt? stop ≠ some '-')
    (h : d.Clear start stop ∧ stop ≤ levels) :
    ∀ i, d.StartsAt s bracket none i → d.Clear i bracket ∧ bracket < levels := by
  intro i hi
  have hrange := (openBracket?_yields hs h₁).of_eq hb bracket rfl
  cases hi with
  | sought hstart =>
    obtain ⟨h₂, h₃⟩ := (definitionStart_yields d s bracket).of_eq hstart
    refine ⟨h.1.bracket hs h₁ hb hdash h₂
      fun hlen c hc => char_before_definitionStart hstart hlen hc, ?_⟩
    have := h.2
    omega

/-- The column inside a bracket is upheld when requests for places before the line are: it is
measured by such a request. It is safe when the place is clear of comments and there are more levels
than characters before it. -/
theorem insideColumn_upheld (hn : d.Upholds levels nested nested') (hs : 0 ≤ start)
    (h₁ : stop ≤ d.text.length) (hb : d.openBracket? start stop = .ok (some bracket))
    (hdash : d.text.charAt? stop ≠ some '-') :
    (insideColumn ⟨d, s, inhibit, nested⟩ bracket stop).Upheld
      (insideColumn ⟨d, s.withDepth m, inhibit, nested'⟩ bracket stop)
      (d.Clear start stop ∧ stop ≤ levels) := by
  have hrange := (openBracket?_yields hs h₁).of_eq hb bracket rfl
  obtain ⟨follow, hfollow, -⟩ := skipGap_yields (d := d) (by omega : 0 ≤ bracket + 1) h₁
  unfold insideColumn
  refine .bind_ok hfollow ?_
  split
  · exact blockColumn_upheld hn (by omega) (by omega) (by simp)
      (fun _ => clear_of_startsAt hs h₁ hb hdash) _
  · exact .pure _

/-- The candidates inside a bracket are upheld. -/
theorem insideBracket_upheld (hn : d.Upholds levels nested nested') (hs : 0 ≤ start)
    (h₁ : stop ≤ d.text.length) (hb : d.openBracket? start stop = .ok (some bracket)) :
    (insideBracket ⟨d, s, inhibit, nested⟩ bracket stop).Upheld
      (insideBracket ⟨d, s.withDepth m, inhibit, nested'⟩ bracket stop)
      (d.Clear start stop ∧ stop ≤ levels) := by
  have hrange := (openBracket?_yields hs h₁).of_eq hb bracket rfl
  unfold insideBracket
  dsimp only
  split
  · next hcloser =>
    have hnodash : d.text.charAt? stop ≠ some '-' := by
      intro hc
      rw [hc] at hcloser
      revert hcloser
      decide
    have hcol := openerColumn_upheld (f := fun col => (pure [⟨col, none⟩] : Noted (List Candidate)))
      (s := s) (m := m) inhibit hn (by omega : 0 ≤ bracket) (by omega) (by simp)
      (clear_of_startsAt hs h₁ hb hnodash) fun col => .pure _
    split
    · split
      · exact (Noted.Upheld.note _).bind fun _ _ => hcol
      · exact hcol
    · exact hcol
  · refine Noted.Upheld.ite_bind ?_ fun basic => ?_
    · split
      · exact .pure _
      · next hop =>
        rw [Bool.not_eq_true] at hop
        exact insideColumn_upheld hn hs h₁ hb fun hc =>
          absurd ((Option.any_eq_false _ _).mp hop _ hc) (by decide)
    · obtain ⟨contour, hcontour, hlines, hwide⟩ :=
        contour_yields (d := d) s (by omega : 0 ≤ bracket + 1) h₁
      rw [contour_withDepth (by omega)]
      refine .bind_ok hcontour ?_
      split
      · exact .pure _
      · obtain ⟨inner, hinner, -⟩ :=
          belowContour_yields (r := ⟨d, s, inhibit, nested⟩) (by omega) (by omega) h₁ hlines hwide
        rw [belowContour_withDepth nested nested']
        exact .bind_ok hinner (.pure _)

/-- The candidates for code are upheld. -/
theorem codeLine_upheld (hn : d.Upholds levels nested nested') (hs : 0 ≤ start)
    (hs' : start ≤ d.text.length) (h₀ : 0 ≤ stop) (h₁ : stop ≤ d.text.length)
    (hclosed : d.Closed start stop) :
    (codeLine ⟨d, s, inhibit, nested⟩ start stop).Upheld
      (codeLine ⟨d, s.withDepth m, inhibit, nested'⟩ start stop)
      (d.Clear start stop ∧ stop ≤ levels) := by
  unfold codeLine
  refine (closingKeyword?_upheld hn hs hs' h₀ h₁).bind fun closing _ => ?_
  cases closing with
  | some cs => exact .pure _
  | none =>
    obtain ⟨keyword, hkeyword, -⟩ := keywordBefore?_yields (r := ⟨d, s, inhibit, nested⟩) hs h₁
    refine .bind_ok hkeyword ?_
    cases keyword with
    | some q =>
      obtain ⟨p, -, hle, hlt, hp, -⟩ := keywordBefore?_cases hs h₁ hkeyword
      have hfrom : ∀ i ∈ some start, 0 ≤ i ∧ i ≤ d.text.length := by
        intro i hi
        cases hi
        exact ⟨hs, hs'⟩
      refine (blockColumn_upheld hn (by omega) (by omega) hfrom ?_ none).bind fun col _ => .pure _
      rintro hhangs ⟨hclear, hlevels⟩ i hi
      cases hi
      exact ⟨Clear.keyword (r := ⟨d, s, inhibit, nested⟩) hclear hs
        (by omega) h₁ hclosed hkeyword hhangs, by omega⟩
    | none =>
      obtain ⟨bracket, hbracket, -⟩ := openBracket?_yields (d := d) hs h₁
      refine .bind_ok hbracket ?_
      cases bracket with
      | some b => exact insideBracket_upheld hn hs h₁ hbracket
      | none =>
        obtain ⟨contour, hcontour, hlines, hwide⟩ := contour_yields (d := d) s hs h₁
        dsimp only
        rw [contour_withDepth hs]
        refine .bind_ok hcontour ?_
        split
        · exact .pure _
        · rw [belowContour_withDepth nested nested']
          exact .lift (belowContour_yields (r := ⟨d, s, inhibit, nested⟩) hs h₀ h₁ hlines hwide)

/-- The candidates for a line that starts with a comment are upheld when those for the code behind
it may be asked for. -/
theorem commentLine_upheld (hn : d.Upholds levels nested nested') (hs : 0 ≤ start)
    (hs' : start ≤ d.text.length) (h₀ : 0 ≤ stop) (h₁ : stop ≤ d.text.length)
    (hcode : ∀ code, d.skipGap stop d.text.length = .ok code → safe → d.Clear start code ∧
      code < levels) :
    (commentLine ⟨d, s, inhibit, nested⟩ stop start).Upheld
      (commentLine ⟨d, s.withDepth m, inhibit, nested'⟩ stop start) safe := by
  obtain ⟨code, hskip, hle, hmax, -⟩ := skipGap_yields (d := d) h₀ (Int.le_refl _)
  unfold commentLine
  refine Noted.Upheld.ite_bind ?_ fun previous => ?_
  · split
    · exact .pure _
    · exact .lift (commentBefore?_yields (r := ⟨d, s, inhibit, nested⟩) hs h₁)
  refine .bind_ok hskip ?_
  exact ((hn false hs hs' (by omega) (by omega)).mono (hcode code hskip)).bind fun cs _ => .pure _

/-- Answers are upheld. There is a result at clear places, and at a comment when the code behind it
is clear. -/
theorem answer_upheld (hn : d.Upholds levels nested nested') (hs : 0 ≤ start)
    (hs' : start ≤ d.text.length) (h₀ : 0 ≤ stop) (h₁ : stop ≤ d.text.length)
    (hsafe : safe → (d.Clear start stop ∧ stop ≤ levels) ∨
      (d.commentAt stop = .ok true ∧
        (d.Closed start stop → ∀ code, d.skipGap stop d.text.length = .ok code →
          d.Clear start code ∧ code < levels))) :
    (answer ⟨d, s, inhibit, nested⟩ start stop).Upheld
      (answer ⟨d, s.withDepth m, inhibit, nested'⟩ start stop) safe := by
  obtain ⟨string, hstring, -⟩ := openString?_yields (d := d) hs h₁
  obtain ⟨comment, hcomment, hcases⟩ := openComment?_yields (d := d) hs h₀ h₁
  unfold answer
  refine .bind_ok hstring ?_
  cases string with
  | some q => exact .pure _
  | none =>
    refine .bind_ok hcomment ?_
    cases comment with
    | none =>
      have hclosed := closed_of_open hs h₁ hstring hcomment (by simp)
      refine (codeLine_upheld hn hs hs' h₀ h₁ hclosed).mono fun hsafe' => ?_
      rcases hsafe hsafe' with hclear | ⟨hstarts, -⟩
      · exact hclear
      · rw [openComment?_of_closed hclosed hstarts] at hcomment
        cases hcomment
    | some opened =>
      show (commentText _ opened stop start).Upheld (commentText _ opened stop start) safe
      unfold commentText
      by_cases heq : opened = stop
      · rw [if_pos heq, if_pos heq]
        have hclosed := closed_of_open hs h₁ hstring hcomment (by simp [heq])
        have hstarts : d.commentAt stop = .ok true := by
          rcases hcases opened rfl with ⟨-, hstarts⟩ | ⟨-, hlt⟩
          · exact hstarts
          · omega
        refine commentLine_upheld hn hs hs' h₀ h₁ fun code hskip hsafe' => ?_
        rcases hsafe hsafe' with ⟨hclear, -⟩ | ⟨-, hcode⟩
        · -- no comment starts at a clear place
          rw [hclear.comment hclosed] at hstarts
          cases hstarts
        · exact hcode hclosed code hskip
      · rw [if_neg heq, if_neg heq]
        exact .lift (insideComment_yields (r := ⟨d, s, inhibit, nested⟩) hs hs' h₀ h₁ opened)

end Request

/-- Requests are upheld with more levels and under any bound; at clear places as many levels are
enough as there are places before. -/
theorem candidatesWithin_upheld (d : Document) (s : Settings) (m : Int) {levels levels' : Nat}
    (hle : levels ≤ levels') :
    d.Upholds levels (candidatesWithin d s levels)
      (candidatesWithin d (s.withDepth m) levels') := by
  induction levels generalizing levels' with
  | zero =>
    intro inhibit start stop hs hs' h₀ h₁
    refine ⟨fun a ha => ?_, fun ⟨_, hlt⟩ => by omega⟩
    cases ha
  | succ levels ih =>
    obtain ⟨levels', rfl⟩ : ∃ k, levels' = k + 1 := ⟨levels' - 1, by omega⟩
    intro inhibit start stop hs hs' h₀ h₁
    refine Request.answer_upheld (ih (by omega)) hs hs' h₀ h₁ fun ⟨hclear, hlt⟩ =>
      .inl ⟨hclear, by omega⟩

namespace Document

open Request Text

variable {d : Document} {s : Settings} {start : Int}

/-- The answer for a line is upheld under a larger bound, and there is one when the bound exceeds
the length of the text. -/
theorem lineAnswer_upheld (d : Document) (s : Settings) (pos : Int) {m : Int}
    (hle : s.maxNestingDepth ≤ m)
    (hstart : d.definitionStart s (d.indentationPoint pos) = .ok start) :
    (candidatesWithin d s (s.levelsAt 0) false start (d.indentationPoint pos)).Upheld
      (candidatesWithin d (s.withDepth m) ((s.withDepth m).levelsAt 0) false start
        (d.indentationPoint pos))
      (d.text.length + 1 ≤ s.maxNestingDepth) := by
  obtain ⟨hs, hs'⟩ := (definitionStart_yields d s _).of_eq hstart
  have h₀ := d.indentationPoint_nonneg pos
  have h₁ := d.indentationPoint_le_length pos
  have hbefore := fun hlen c hc => char_before_definitionStart (c := c) hstart hlen hc
  have hmore : s.levelsAt 0 ≤ (s.withDepth m).levelsAt 0 := by
    unfold Settings.levelsAt Settings.withDepth
    simp only
    omega
  generalize hlevels : s.levelsAt 0 = levels at hmore ⊢
  cases levels with
  | zero =>
    refine ⟨fun a ha => (by cases ha), fun hsafe => ?_⟩
    have := d.text.length_nonneg
    unfold Settings.levelsAt at hlevels
    omega
  | succ levels =>
    obtain ⟨levels', hlevels'⟩ : ∃ k, (s.withDepth m).levelsAt 0 = k + 1 :=
      ⟨(s.withDepth m).levelsAt 0 - 1, by omega⟩
    rw [hlevels'] at hmore ⊢
    have hn := candidatesWithin_upheld d s m (by omega : levels ≤ levels')
    refine answer_upheld hn hs hs' h₀ h₁ fun hsafe => ?_
    have henough : d.text.length < levels := by
      unfold Settings.levelsAt at hlevels
      omega
    obtain ⟨comment, hcomment, -⟩ := commentAt_yields (d := d) h₀
    cases comment with
    | false => exact .inl ⟨clear_indentationPoint hs hcomment hbefore, by omega⟩
    | true =>
      refine .inr ⟨hcomment, fun hclosed code hskip => ?_⟩
      obtain ⟨-, hmax, -⟩ := (skipGap_yields h₀ (Int.le_refl _)).of_eq hskip
      exact ⟨clear_code hs (definitionStart_le hstart) hcomment hclosed hbefore hskip, by omega⟩

/-- The bound on nesting only ever turns an answer into a fault: candidates that are found under one
bound are found under every larger one, with the same notes. And the bound is not what ends the
recursion: when it exceeds the length of the text, there are candidates for every position. -/
theorem candidates_depth (d : Document) (s : Settings) (pos m : Int) :
    (∀ m', m ≤ m' → ∀ cs, (d.candidates (s.withDepth m) pos).result = .ok cs →
      (d.candidates (s.withDepth m') pos).result = .ok cs ∧
        (d.candidates (s.withDepth m') pos).diagnostics =
          (d.candidates (s.withDepth m) pos).diagnostics) ∧
    (d.text.length + 1 ≤ m → ∃ cs, (d.candidates (s.withDepth m) pos).result = .ok cs) := by
  cases hprose : d.isProse pos with
  | true =>
    obtain ⟨hresult, hdiagnostics⟩ := candidates_of_prose (s := s.withDepth m) hprose
    refine ⟨fun m' _ cs hcs => ?_, fun _ => ⟨_, hresult⟩⟩
    obtain ⟨hresult', hdiagnostics'⟩ := candidates_of_prose (s := s.withDepth m') hprose
    exact ⟨hresult'.trans (hresult.symm.trans hcs), hdiagnostics'.trans hdiagnostics.symm⟩
  | false =>
    obtain ⟨start, hstart, -⟩ := definitionStart_yields d (s.withDepth m) (d.indentationPoint pos)
    rw [candidates_result hprose hstart, candidates_diagnostics hprose hstart]
    refine ⟨fun m' hle cs hcs => ?_,
      (lineAnswer_upheld d (s.withDepth m) pos (Int.le_refl _) hstart).exists_result⟩
    have hstart' : d.definitionStart (s.withDepth m') (d.indentationPoint pos) = .ok start := by
      rw [definitionStart_withDepth] at hstart ⊢
      exact hstart
    have hsame := (lineAnswer_upheld d (s.withDepth m) pos (m := m') hle hstart).same cs hcs
    rw [show (s.withDepth m).withDepth m' = s.withDepth m' from rfl] at hsame
    rw [candidates_result hprose hstart', candidates_diagnostics hprose hstart', hsame]
    exact ⟨hcs, rfl⟩

/-- Blocks that are opened inside one another. -/
def nestedBlocks : Document := .new (ofString "f = do (do (do\n  a") .plain 8

/-- Too deep for no nesting, found with one level, and the same at every bound above. -/
theorem candidates_depth_nestedBlocks :
    (nestedBlocks.candidates (Settings.withDepth {} 0) 17).result = .error (.tooDeep 0) ∧
    ((nestedBlocks.candidates (Settings.withDepth {} 64) 17).result = .ok [⟨13, none⟩] ∧
      (nestedBlocks.candidates (Settings.withDepth {} 64) 17).diagnostics =
        (nestedBlocks.candidates (Settings.withDepth {} 1) 17).diagnostics) ∧
    nestedBlocks.text.length + 1 = 19 ∧
    ∃ cs, (nestedBlocks.candidates (Settings.withDepth {} 19) 17).result = .ok cs :=
  ⟨by decide +kernel,
    (candidates_depth nestedBlocks {} 17 1).1 64 (by decide) _ (by decide +kernel),
    by decide +kernel, (candidates_depth nestedBlocks {} 17 19).2 (by decide +kernel)⟩

end Document

end LayoutRule

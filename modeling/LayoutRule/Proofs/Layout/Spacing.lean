import LayoutRule.Proofs.Layout.Trails
import LayoutRule.Proofs.Lexical.Spacing

/-!
# Signs after blanks were put in

When blanks are put in before the sign of a clause (`Widened`), the clause is taken apart by the
same steps as before: each symbol before the sign is at its old place on the line, and the sign
comes after the blanks (`spot`). So the sign that is found in the new line is the old one
(`Widened.finds`).
-/

namespace LayoutRule

/-- Moving forward over a stretch where the test holds, up to a place where it fails. -/
theorem advance_eq {test : Int → Except Fault Bool} {limit i j : Int} (hle : i ≤ j)
    (htrue : ∀ k, i ≤ k → k < j → test k = .ok true) (hlt : j < limit)
    (hfalse : test j = .ok false) :
    advance test limit i = .ok j := by
  rcases Int.lt_or_eq_of_le hle with hij | rfl
  · rw [advance, if_pos (by omega), htrue i (Int.le_refl i) hij]
    exact advance_eq (by omega) (fun k h₁ h₂ => htrue k (by omega) h₂) hlt hfalse
  · rw [advance, if_pos hlt, hfalse]
termination_by (j - i).toNat

namespace Document

open Text

variable {d e : Document} {a i j k m o stop stop' : Int} {pad : Nat}

/-- Blanks were put in before the sign at `m`, on the line of `a`. -/
structure Widened (d e : Document) (a m o : Int) (pad : Nat) (stop stop' : Int) : Prop where
  approach : d.Approach a m stop
  text : d.text.Spaced e.text a m o pad
  bird : e.bird = d.bird
  lt' : m + o + pad < stop'
  stop_le' : stop' ≤ e.text.length
  code : ∀ i, a ≤ i → i ≤ m → d.isBlankLine i = false
  code' : ∀ i, a + o ≤ i → i ≤ m + o + pad → e.isBlankLine i = false
  marker : ∃ mk, d.markerAt m a stop = .ok mk ∧ (mk.kind = .guard ∨ mk.kind = .rhs)

/-- Where a place before the sign, or the sign itself, is in the new line. -/
def spot (m o : Int) (pad : Nat) (i : Int) : Int := if i < m then i + o else i + o + pad

/-- Before the sign every place is moved with its line only. -/
theorem spot_of_lt (h : i < m) : spot m o pad i = i + o := if_pos h

/-- The sign is moved with its line and by the blanks before it. -/
theorem spot_self : spot m o pad m = m + o + pad := if_neg (Int.lt_irrefl m)

/-- No place up to the sign is moved behind the new place of the sign. -/
theorem spot_le (h : i ≤ m) : spot m o pad i ≤ m + o + pad := by
  unfold spot
  split <;> omega

namespace Widened

/-! ## Gaps -/

/-- Before the sign a place is a gap exactly when it was one. -/
theorem isGapAt (h : d.Widened e a m o pad stop stop') (h₁ : a ≤ i) (h₂ : i < m) :
    e.isGapAt (i + o) = d.isGapAt i := by
  have h₀ := h.approach.nonneg
  unfold Document.isGapAt
  rw [h.text.read (by omega) h₂ (by omega), h.bird]
  congr 1
  funext c
  rw [h.text.isMarker d.bird c h₁ (by omega)]

/-- The sign is no blank. -/
theorem isGapAt_sign (h : d.Widened e a m o pad stop stop') :
    e.isGapAt (m + o + pad) = .ok false := by
  have h₀ := h.text.nonneg
  have h₀' := h.text.nonneg'
  have hle := h.text.le
  obtain ⟨x, hx, hhead⟩ := h.text.sign
  have hx' := SignHead.of_isSignHead hhead
  unfold Document.isGapAt Text.isMarker
  rw [read_eq (by omega) (h.text.charAt?_sign.trans hx), ok_bind, hx'.blank,
    beq_eq_false_iff_ne.mpr hx'.newline, beq_eq_false_iff_ne.mpr hx'.marker, Bool.and_false]
  rfl

/-- The blanks that were put in are a gap. -/
theorem isGapAt_blank (h : d.Widened e a m o pad stop stop') (h₁ : m + o ≤ k)
    (h₂ : k < m + o + pad) : e.isGapAt k = .ok true := by
  have h₀' := h.text.nonneg'
  have hle := h.text.le
  unfold Document.isGapAt
  rw [read_eq (by omega) (h.text.blanks k h₁ h₂)]
  rfl

/-- Skipping blanks leads to the place of what comes after them. -/
theorem skipBlanks {limit limit' : Int} (h : d.Widened e a m o pad stop stop') (h₁ : a ≤ i)
    (hskip : d.skipBlanks i limit = .ok j) (hj : j ≤ m) (hlimit : limit ≤ d.text.length)
    (hlt : m < limit) (hlt' : m + o + pad < limit') :
    e.skipBlanks (i + o) limit' = .ok (spot m o pad j) := by
  have h₀ := h.approach.nonneg
  obtain ⟨hle, -, hgaps, hstops⟩ := (skipBlanks_yields (by omega) hlimit).of_eq hskip
  have hbefore : ∀ k, i + o ≤ k → k < j + o → e.isGapAt k = .ok true := by
    intro k h₂ h₃
    rw [← hgaps (k - o) (by omega) (by omega), ← h.isGapAt (i := k - o) (by omega) (by omega),
      Int.sub_add_cancel]
  unfold Document.skipBlanks
  rcases Int.lt_or_eq_of_le hj with hjm | rfl
  · rw [spot_of_lt hjm]
    refine advance_eq (by omega) hbefore (by omega) ?_
    rw [h.isGapAt (by omega) hjm]
    exact hstops (by omega)
  · rw [spot_self]
    refine advance_eq (by omega) (fun k h₂ h₃ => ?_) hlt' h.isGapAt_sign
    rcases Int.lt_or_le k (j + o) with hk | hk
    · exact hbefore k h₂ hk
    · exact h.isGapAt_blank hk h₃

end Widened

/-- Comments are skipped as a whole. -/
theorem skipGap_comment {limit : Int} (hskip : d.skipBlanks i limit = .ok j) (hlt : j < limit)
    (hcomment : d.text.commentAt j d.text.length = .ok true) :
    d.skipGap i limit = d.skipGap (min (d.text.commentStop j) limit) limit := by
  rw [skipGap]
  split
  · next he => cases hskip.symm.trans he
  next j' hj' =>
  cases hskip.symm.trans hj'
  rw [if_pos hlt]
  split
  · next he => cases hcomment.symm.trans he
  · rfl
  · next he => cases hcomment.symm.trans he

/-- Where skipping blanks ends before the limit at something that is no comment, skipping blanks and
comments ends too. -/
theorem skipGap_code {limit : Int} (hskip : d.skipBlanks i limit = .ok j) (hlt : j < limit)
    (hcomment : d.text.commentAt j d.text.length = .ok false) : d.skipGap i limit = .ok j := by
  rw [skipGap]
  split
  · next he => cases hskip.symm.trans he
  next j' hj' =>
  cases hskip.symm.trans hj'
  rw [if_pos hlt]
  split
  · next he => cases hcomment.symm.trans he
  · next he => cases hcomment.symm.trans he
  · rfl

namespace Widened

/-- Skipping blanks and comments to code before the sign. -/
theorem skipGap (h : d.Widened e a m o pad stop stop') (h₁ : a ≤ i)
    (hskip : d.skipGap i d.text.length = .ok j) (hj : j < m) :
    e.skipGap (i + o) e.text.length = .ok (j + o) := by
  have hlen := h.text.lt_length
  have hlen' := h.text.lt_length'
  generalize hlimit : d.text.length = limit at hskip
  fun_induction Document.skipGap d i limit with
  | case1 => cases hskip
  | case2 => cases hskip
  | case3 i n hn hlt hcomment ih =>
    have hin := le_of_skipBlanks hn
    have hnext := le_of_skipGap hskip
    have hstop := lt_commentStop (lt_length_of_commentAt hcomment)
    rw [Int.min_eq_left (by omega)] at hskip ih hnext
    have hblanks := h.skipBlanks h₁ hn (by omega) (by omega) (by omega) hlen'
    rw [spot_of_lt (by omega)] at hblanks
    rw [skipGap_comment hblanks (by omega)
      (by rw [h.text.commentAt (by omega) (by omega)]; exact hcomment),
      h.text.commentStop (by omega) (by omega) (by omega), Int.min_eq_left (by omega)]
    exact ih (by omega) hskip
  | case4 i n hn hlt hcomment =>
    cases hskip
    have hin := le_of_skipBlanks hn
    have hblanks := h.skipBlanks h₁ hn (by omega) (by omega) (by omega) hlen'
    rw [spot_of_lt hj] at hblanks
    exact skipGap_code hblanks (by omega) (by rw [h.text.commentAt (by omega) hj]; exact hcomment)
  | case5 i n hn hge =>
    cases hskip
    omega

/-! ## Steps -/

/-- The closing brackets before a symbol. -/
theorem passOver (h : d.Widened e a m o pad stop stop') (h₁ : a ≤ i)
    (h₂ : d.passOver isClosing stop i < m) :
    e.passOver isClosing stop' (i + o) = d.passOver isClosing stop i + o := by
  have hlt' := h.lt'
  have hm := h.approach.lt
  have h₀ := h.approach.nonneg
  fun_induction Document.passOver d isClosing stop i with
  | case1 i hlt c hc hclosing ih =>
    have hle := d.le_passOver isClosing stop (i + 1)
    rw [Document.passOver, if_pos (by omega), h.text.same i (by omega) (by omega), hc]
    simp only [hclosing, if_true, show i + o + 1 = i + 1 + o by omega]
    exact ih (by omega) h₂
  | case2 i hlt c hc hclosing =>
    rw [Document.passOver, if_pos (by omega), h.text.same i (by omega) h₂, hc]
    simp only [hclosing, Bool.false_eq_true, if_false]
  | case3 i hlt hc =>
    have hlen := h.approach.stop_le
    obtain ⟨c, -, hget⟩ := read_yields (t := d.text) (i := i) (by omega) (by omega)
    rw [charAt?_eq (by omega), hget] at hc
    cases hc
  | case4 i hge => omega

/-- A step over a symbol before the sign. -/
theorem stepOver (h : d.Widened e a m o pad stop stop') (h₁ : a ≤ i)
    (hstep : d.stepOver i stop = .ok j) (hj : j ≤ m) :
    e.stepOver (i + o) stop' = .ok (spot m o pad j) := by
  have h₀ := h.approach.nonneg
  have hm := h.approach.lt
  have hlen := h.approach.stop_le
  have hlt' := h.lt'
  have hlen' := h.text.lt_length'
  suffices hnext : e.nextSymbol (i + o) stop' = .ok (spot m o pad j) by
    unfold Document.stepOver
    rw [hnext]
  unfold Document.stepOver at hstep
  split at hstep
  · cases hstep
    omega
  unfold nextSymbol at hstep ⊢
  have hle := d.le_passOver isClosing stop i
  simp only at hstep ⊢
  split at hstep
  · obtain ⟨l, hl, hstep⟩ := bind_eq_ok.1 hstep
    obtain ⟨n, hn, hstep⟩ := bind_eq_ok.1 hstep
    cases hstep
    have hmin : min n stop = n := Int.min_eq_left (by omega)
    rw [hmin] at hj ⊢
    unfold expressionAfter at hl ⊢
    obtain ⟨g, hg, hl⟩ := bind_eq_ok.1 hl
    split at hl
    · cases hl
    obtain ⟨hig, -, hcode⟩ := (skipGap_yields (by omega) (Int.le_refl _)).of_eq hg
    have hgl := lt_of_expressionStop hl
    have hln := le_of_skipBlanks hn
    rw [h.passOver h₁ (by omega), if_pos (by omega), h.skipGap (by omega) hg (by omega), ok_bind,
      if_neg (by omega), h.bird, h.text.expressionStop (by omega) (hcode (by omega)).2 hl
      (by omega), ok_bind, h.skipBlanks (by omega) hn hj hlen hm hlt', ok_bind]
    have hspot : spot m o pad n ≤ m + o + pad := spot_le hj
    exact congrArg Except.ok (Int.min_eq_left (by omega))
  · cases hstep
    omega

end Widened

/-! ## Markers -/

/-- At the end of a piece nothing is open but a comment that starts there. -/
theorem openComment?_of_walk (hw : d.text.Walk d.bird d.text.length a i) (h₀ : 0 ≤ a)
    (h₁ : i ≤ d.text.length) :
    d.openComment? a i = (d.commentAt i).map fun comment => if comment then some i else none := by
  have hle := hw.le
  obtain ⟨comment, hcomment, -⟩ := commentAt_yields (d := d) (by omega : 0 ≤ i)
  unfold openComment?
  rw [hcomment, ok_bind]
  split
  · cases comment <;> rfl
  · obtain ⟨s, hs, -⟩ := nesting_yields (d := d) h₀ h₁
    obtain ⟨s', hs', hstring, hnone⟩ :=
      (hw.shorten h₀ (Int.le_refl i) h₁).nestingFrom (Int.le_refl i) hs
    rw [nestingFrom, if_neg (Int.lt_irrefl i)] at hs'
    cases hs'
    rw [hs, ok_bind, hnone, hstring]
    cases comment <;> rfl

end Document

namespace Text.Spaced

variable {t u : Text} {a m o i : Int} {pad : Nat}

/-- Markers before the sign. -/
theorem markerStop? (h : t.Spaced u a m o pad) (h₁ : a ≤ i) (h₂ : i < m) :
    u.markerStop? (i + o).toNat = (t.markerStop? i.toNat).map fun r => (r.1, shifted o r.2) := by
  have h₀ := h.nonneg
  have h₀' := h.nonneg'
  obtain ⟨x, hx, hx', -⟩ := h.exists_char h₁ h₂
  rw [charAt?_eq (by omega)] at hx hx'
  cases hop : isOperatorChar x with
  | false =>
    have hword := h.runStop (i := i + 1) (p := isNameChar) (by omega)
      (h.wordStop_le (by omega) (by omega)) fun _ => by decide +kernel
    rw [markerStop?_eq_nameStop? hx hop, markerStop?_eq_nameStop? hx' hop, nameStop?, nameStop?,
      hx, hx']
    simp only
    split
    · have hshift : u.runStop isNameChar ((i + o).toNat + 1) =
          shifted o (t.runStop isNameChar (i.toNat + 1)) := by
        rw [show (i + o).toNat + 1 = (i + 1 + o).toNat by omega,
          show i.toNat + 1 = (i + 1).toNat by omega, shifted]
        omega
      rw [hshift]
      rfl
    · rfl
  | true =>
    have hnext : ∃ y y', t.charAt? (i + 1) = some y ∧ u.charAt? (i + 1 + o) = some y' ∧
        signMarker? x y = signMarker? x y' := by
      rcases Int.lt_or_eq_of_le (show i + 1 ≤ m by omega) with hlt | rfl
      · obtain ⟨y, hy, hy', -⟩ := h.exists_char (i := i + 1) (by omega) hlt
        exact ⟨y, y, hy, hy', rfl⟩
      · obtain ⟨y, hy, -⟩ := h.sign
        obtain ⟨-, hbar⟩ :=
          h.edge (by omega) y x hy (by rw [Int.add_sub_cancel, charAt?_eq (by omega)]; exact hx)
        obtain ⟨rfl, hne⟩ := hbar hop
        rcases h.charAt?_edge with hspace | hsign
        · exact ⟨y, ' ', hy, hspace, by simp [signMarker?, hne]⟩
        · exact ⟨y, y, hy, hsign.trans hy, rfl⟩
    obtain ⟨y, y', hy, hy', hsame⟩ := hnext
    rw [charAt?_eq (by omega), show (i + 1).toNat = i.toNat + 1 by omega] at hy
    rw [charAt?_eq (by omega), show (i + 1 + o).toNat = (i + o).toNat + 1 by omega] at hy'
    rw [markerStop?_sign hx hy hop, markerStop?_sign hx' hy' hop, hsame, Option.map_map]
    congr 1
    funext r
    have hshift : (i + o).toNat + r.2 = shifted o (i.toNat + r.2) := by
      rw [shifted]
      omega
    rw [hshift]
    rfl

end Text.Spaced

namespace Document

open Text

variable {d e : Document} {a i j k m o stop stop' : Int} {pad : Nat}

namespace Widened

/-- The pieces up to the sign, and the blanks before it. -/
theorem walk (h : d.Widened e a m o pad stop stop') (hi : d.Met a i) (h₂ : i ≤ m) :
    e.text.Walk e.bird e.text.length (spot m o pad a) (spot m o pad i) := by
  have h₀' := h.text.nonneg'
  have hle := hi.walk.le
  have hlen' := h.text.lt_length'
  rcases Int.lt_or_eq_of_le h.text.le with ham | rfl
  · have hwalk := h.text.walk hi.walk (Int.le_refl a) h₂
    rw [← h.bird] at hwalk
    rw [spot_of_lt ham]
    rcases Int.lt_or_eq_of_le h₂ with him | rfl
    · rw [spot_of_lt him]
      exact hwalk
    · rw [spot_self]
      refine hwalk.trans (walk_singles (fun k h₃ h₄ => ⟨by omega, ?_⟩) (by omega))
      have hspace := h.text.blanks k h₃ h₄
      exact pieceAt_of_char e.bird (by omega) hspace
        (commentAt_eq_false (by omega) hspace (by decide) (by decide) _) (by decide) fun h =>
        absurd h (by decide)
  · obtain rfl : i = a := by omega
    exact .refl _

/-- No comment starts with the sign in the new line. -/
theorem commentAt_sign (h : d.Widened e a m o pad stop stop') :
    e.commentAt (m + o + pad) = .ok false := by
  have h₀ := h.text.nonneg
  have h₀' := h.text.nonneg'
  have hle := h.text.le
  have hlen := h.text.lt_length
  have hlen' := h.text.lt_length'
  obtain ⟨x, hx, hhead⟩ := h.text.sign
  have hx' := h.text.charAt?_sign.trans hx
  obtain ⟨comment, hcomment, -⟩ := commentAt_yields (d := e) (by omega : 0 ≤ m + o + pad)
  cases comment with
  | false => exact hcomment
  | true =>
    exfalso
    have hdash : x = '-' := by
      by_contra hne
      have hbrace : x ≠ '\x7b' := by rintro rfl; revert hhead; decide
      have hfalse : e.commentAt (m + o + pad) = .ok false :=
        commentAt_eq_false (by omega) hx' hne hbrace _
      cases hcomment.symm.trans hfalse
    subst hdash
    -- the second dash would be there before, and two dashes are no sign
    have hnext := (dash_of_commentAt (by omega) hcomment).1
    rw [charAt?_eq (by omega)] at hx
    have hagree := h.text.rest.succ (by rw [hx]; decide)
    rw [charAt?_eq (by omega), show (m + o + pad + 1).toNat =
      (m + o + pad).toNat + 1 by omega, ← hagree] at hnext
    obtain ⟨mk, hmk, hkind⟩ := h.marker
    obtain ⟨-, -, -, s, hs, -⟩ := markerAt_cases (by omega) (by omega) hmk (.inr hkind)
    rw [markerStop?_sign hx hnext (by decide)] at hs
    cases hs

/-- Comments start at the same places of the way. -/
theorem commentAt (h : d.Widened e a m o pad stop stop') (hi : d.Met a i) (h₂ : i ≤ m) :
    e.commentAt (spot m o pad i) = d.commentAt i := by
  have h₀ := h.approach.nonneg
  have hle := hi.walk.le
  rcases Int.lt_or_eq_of_le h₂ with him | rfl
  · rw [spot_of_lt him]
    exact h.text.commentAt hle him
  · have hlen := h.text.lt_length
    have hshown := h.approach.shown
    rw [openComment?_of_walk hi.walk h₀ (by omega)] at hshown
    obtain ⟨comment, hcomment, -⟩ := commentAt_yields (d := d) (by omega : 0 ≤ i)
    rw [hcomment] at hshown
    cases comment with
    | true => cases hshown
    | false => rw [spot_self, h.commentAt_sign, hcomment]

/-- What the markers of the way are read off. -/
theorem markerStop? (h : d.Widened e a m o pad stop stop') (h₁ : a ≤ i) (h₂ : i ≤ m) :
    (d.text.markerStop? i.toNat = none ∧ e.text.markerStop? (spot m o pad i).toNat = none) ∨
      ∃ kind s s', d.text.markerStop? i.toNat = some (kind, s) ∧
        e.text.markerStop? (spot m o pad i).toNat = some (kind, s') ∧
        (i < m → (s' : Int) = s + o) := by
  have h₀ := h.text.nonneg
  have h₀' := h.text.nonneg'
  rcases Int.lt_or_eq_of_le h₂ with him | rfl
  · rw [spot_of_lt him, h.text.markerStop? h₁ him]
    cases hs : d.text.markerStop? i.toNat with
    | none => exact .inl ⟨rfl, rfl⟩
    | some r =>
      obtain ⟨kind, s⟩ := r
      have hbounds := markerStop?_bounds hs
      refine .inr ⟨kind, s, Spaced.shifted o s, rfl, rfl, fun _ => ?_⟩
      unfold Spaced.shifted
      omega
  · rw [spot_self]
    rcases h.text.rest.markerStop? with hnone | ⟨kind, s, -, -, hs, hs'⟩
    · exact .inl hnone
    · exact .inr ⟨kind, s, _, hs, hs', fun h => absurd h (Int.lt_irrefl _)⟩

end Widened

/-- The marker of a line of code where no comment starts. -/
theorem markerAt_of_shown {origin limit : Int} (h₀ : 0 ≤ i) (h₁ : i ≤ d.text.length)
    (hblank : d.isBlankLine i = false) (hshown : d.openComment? (min origin i) i = .ok none) :
    d.markerAt i origin limit = match d.text.markerStop? i.toNat with
      | some (kind, s) => (d.skipBlanks s limit).map fun n =>
          ⟨kind, i, n, String.ofList (d.text.chars.extract i.toNat s).toList⟩
      | none => .ok ⟨.other, i, i, ""⟩ := by
  have hclamp : d.text.clamp i = i.toNat := by
    have := clamp_of_mem h₀ h₁
    omega
  unfold markerAt
  rw [hblank, hshown, ok_bind, checkStart_of_mem h₀ h₁, hclamp]
  simp only [Bool.false_eq_true, if_false, Option.isSome_none, ok_bind]
  cases d.text.markerStop? i.toNat with
  | none => rfl
  | some r =>
    obtain ⟨kind, s⟩ := r
    simp only [Int.toNat_of_nonneg h₀]
    cases d.skipBlanks s limit <;> rfl

namespace Widened

/-- Every marker on the way is still there. -/
theorem markerAt {mk : Marker} (h : d.Widened e a m o pad stop stop') (hi : d.Met a i) (h₂ : i ≤ m)
    (hmk : d.markerAt i a stop = .ok mk) :
    ∃ mk', e.markerAt (spot m o pad i) (spot m o pad a) stop' = .ok mk' ∧ mk'.kind = mk.kind ∧
      (mk.kind = .name ∨ mk.kind = .guard → mk.stop ≤ m → mk'.stop = spot m o pad mk.stop) := by
  have h₀ := h.approach.nonneg
  have h₀' := h.text.nonneg'
  have hle := hi.walk.le
  have ham := h.approach.le
  have hlen := h.approach.stop_le
  have hm := h.approach.lt
  have hlt' := h.lt'
  have hlen' := h.stop_le'
  have hwalk := h.walk hi h₂
  have hwalk' := hwalk.le
  have hspot : spot m o pad i ≤ m + o + pad := spot_le h₂
  have hspot' : a + o ≤ spot m o pad a := by
    unfold spot
    split <;> omega
  have hopen := openComment?_of_walk hi.walk h₀ (by omega)
  have hopen' := openComment?_of_walk hwalk (by omega) (by omega)
  rw [h.commentAt hi h₂] at hopen'
  obtain ⟨comment, hcomment, -⟩ := commentAt_yields (d := d) (by omega : 0 ≤ i)
  rw [hcomment] at hopen hopen'
  have hblank := h.code i hle h₂
  have hblank' := h.code' (spot m o pad i) (by omega) hspot
  rw [← Int.min_eq_left hle] at hopen
  rw [← Int.min_eq_left hwalk'] at hopen'
  cases comment with
  | true =>
    unfold Document.markerAt at hmk ⊢
    rw [hblank, hopen] at hmk
    cases hmk
    rw [hblank', hopen']
    exact ⟨_, rfl, rfl, fun h => by rcases h with h | h <;> cases h⟩
  | false =>
    rw [markerAt_of_shown (by omega) (by omega) hblank hopen] at hmk
    rw [markerAt_of_shown (by omega) (by omega) hblank' hopen']
    rcases h.markerStop? hle h₂ with ⟨hs, hs'⟩ | ⟨kind, s, s', hs, hs', hshift⟩
    · rw [hs] at hmk
      cases hmk
      rw [hs']
      exact ⟨_, rfl, rfl, fun h => by rcases h with h | h <;> cases h⟩
    · have hbounds := markerStop?_bounds hs
      obtain ⟨n, hn, hsn, -⟩ := skipBlanks_yields (d := d) (by omega : 0 ≤ (s : Int)) hlen
      obtain ⟨n', hn', -⟩ := skipBlanks_yields (d := e) (by omega : 0 ≤ (s' : Int)) hlen'
      rw [hs] at hmk
      simp only [hn] at hmk
      cases hmk
      rw [hs']
      simp only [hn']
      refine ⟨_, rfl, rfl, fun _ hstop => ?_⟩
      simp only at hstop ⊢
      have hblanks := h.skipBlanks (by omega) hn hstop hlen hm hlt'
      rw [← hshift (by omega), hn'] at hblanks
      exact Except.ok.inj hblanks

/-- Steps on the way to the sign. -/
theorem steps {test : LineKind → Bool} (h : d.Widened e a m o pad stop stop')
    (hs : d.Steps a stop test i k) (hi : d.Met a i) (h₂ : k ≤ m) :
    e.Steps (spot m o pad a) stop' test (spot m o pad i) (spot m o pad k) := by
  induction hs with
  | refl => exact .refl _
  | @step i j k mk hlt hmk ht hstep hs ih =>
    have hij := lt_of_stepOver hlt hstep
    have hjk := hs.le
    have hle := hi.walk.le
    obtain ⟨mk', hmk', hkind, -⟩ := h.markerAt hi (by omega) hmk
    have hstep' := h.stepOver hle hstep (by omega)
    rw [← spot_of_lt (by omega : i < m)] at hstep'
    have hspot : spot m o pad i ≤ m + o + pad := spot_le (by omega)
    have hlt' := h.lt'
    exact .step (by omega) hmk' (hkind ▸ ht) hstep'
      (ih (hi.stepOver h.approach hstep (by omega)) h₂)

/-- The head of the clause. -/
theorem head (h : d.Widened e a m o pad stop stop') (hh : d.Head a stop i) (h₂ : i ≤ m) :
    e.Head (spot m o pad a) stop' (spot m o pad i) := by
  have h₀ := h.approach.nonneg
  have hm := h.approach.lt
  have ham := h.approach.le
  have hlen := h.approach.stop_le
  have hlt' := h.lt'
  cases hh with
  | @name mk _ hmk hkind hsteps =>
    have hle := hsteps.le
    obtain ⟨mk', hmk', hkind', hstop⟩ := h.markerAt (.start d a) ham hmk
    have hmet := (Met.start d a).marker h.approach (by omega) hmk (.inl hkind) (by omega)
    rw [Int.min_eq_left (by omega)] at hsteps
    have hstop' := hstop (.inl hkind) (by omega)
    have hspot : spot m o pad mk.stop ≤ m + o + pad := spot_le (by omega)
    refine .name hmk' (hkind'.trans hkind) ?_
    rw [hstop', Int.min_eq_left (by omega)]
    exact h.steps hsteps hmet h₂
  | @other mk _ j hmk hkind hstep hsteps =>
    have hle := hsteps.le
    have haj := lt_of_stepOver (by omega) hstep
    obtain ⟨mk', hmk', hkind', -⟩ := h.markerAt (.start d a) ham hmk
    have hmet := (Met.start d a).stepOver h.approach hstep (by omega)
    have hstep' := h.stepOver (Int.le_refl a) hstep (by omega)
    rw [← spot_of_lt (by omega : a < m)] at hstep'
    exact .other hmk' (hkind'.trans hkind) hstep' (h.steps hsteps hmet h₂)
  | sign hmk hkind =>
    obtain ⟨mk', hmk', hkind', -⟩ := h.markerAt (.start d a) ham hmk
    exact .sign hmk' (hkind' ▸ hkind)

/-- The sign that is found in the new line is the old one. -/
theorem finds {sign : AlignSign} (h : d.Widened e a m o pad stop stop')
    (hf : d.Finds a stop sign m) : e.Finds (spot m o pad a) stop' sign (m + o + pad) := by
  have h₀ := h.approach.nonneg
  have hlen := h.approach.stop_le
  have hlt' := h.lt'
  have hmet := hf.met h.approach
  rw [← spot_self (m := m)]
  cases hf with
  | guard hhead hlt hmk hkind =>
    obtain ⟨mk', hmk', hkind', -⟩ := h.markerAt hmet (Int.le_refl m) hmk
    exact .guard (h.head hhead (Int.le_refl m)) (by rw [spot_self]; omega) hmk' (hkind'.trans hkind)
  | rhs hhead hlt hmk hkind =>
    obtain ⟨mk', hmk', hkind', -⟩ := h.markerAt hmet (Int.le_refl m) hmk
    exact .rhs (h.head hhead (Int.le_refl m)) (by rw [spot_self]; omega) hmk' (hkind'.trans hkind)
  | @guarded bar mk g _ hhead hg hbar hguard hsteps hlt hmk hkind =>
    have hle := hsteps.le
    have hag := hhead.le h₀ (by have := h.approach.le; omega) hlen
    have hafter := ((markerAt_yields (by omega) (by omega) h₀ hlen).of_eq hbar).stop
      (.inr (.inl hguard))
    have hmet' := hhead.met h.approach (by omega : g ≤ m)
    obtain ⟨bar', hbar', hguard', hstop⟩ := h.markerAt hmet' (by omega) hbar
    have hstop' := hstop (.inr hguard) (by omega)
    have hspot : spot m o pad bar.stop ≤ m + o + pad := spot_le (by omega)
    have hspot' : spot m o pad g ≤ m + o + pad := spot_le (by omega)
    rw [Int.min_eq_left (by omega)] at hsteps
    have hsteps' := h.steps hsteps (hmet'.marker h.approach hg hbar (.inr hguard) (by omega))
      (Int.le_refl m)
    obtain ⟨mk', hmk', hkind', -⟩ := h.markerAt hmet (Int.le_refl m) hmk
    refine .guarded (h.head hhead (by omega)) (by omega) hbar' (hguard'.trans hguard) ?_
      (by rw [spot_self]; omega) hmk' (hkind'.trans hkind)
    rw [hstop', Int.min_eq_left (by omega)]
    exact hsteps'

end Widened

end Document

end LayoutRule

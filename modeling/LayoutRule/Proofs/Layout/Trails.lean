import LayoutRule.Editing.Alignment
import LayoutRule.Proofs.Layout.Segmentation
import LayoutRule.Proofs.Lexical.Strides
import LayoutRule.Proofs.Request.Depth
import LayoutRule.Proofs.Request.Parts

/-!
# The way to a sign

A clause is taken apart by steps over symbols and over the bar of a guard. On the way to a sign that
no comment holds, every place that is met ends a piece of the text, and a symbol that is met does
not go on with what stands right before it (`Met`). Each step keeps this (`Met.stepOver`,
`Met.marker`).
-/

namespace LayoutRule

namespace Document

open Text

variable {d : Document} {a i j k m stop : Int}

/-- The sign at `m` is looked for from `a` on, on one line and before `stop`; no comment holds
it. -/
structure Approach (d : Document) (a m stop : Int) : Prop where
  nonneg : 0 ≤ a
  le : a ≤ m
  lt : m < stop
  stop_le : stop ≤ d.text.length
  line : ∀ i, a ≤ i → i < m → d.text.charAt? i ≠ some '\n'
  shown : d.openComment? a m = .ok none

/-- A place on the way from `a`. -/
structure Met (d : Document) (a i : Int) : Prop where
  /-- It ends a piece. -/
  walk : d.text.Walk d.bird d.text.length a i
  /-- An operator there stands right behind a bar, or behind what is no operator and no brace. -/
  edge : a < i → ∀ x y, d.text.charAt? i = some x → isOperatorChar x = true →
    d.text.charAt? (i - 1) = some y → y ≠ '\x7b' ∧ (isOperatorChar y = true → y = '|' ∧ x ≠ '|')

/-- The place from which the way starts is on it. -/
theorem Met.start (d : Document) (a : Int) : d.Met a a :=
  ⟨.refl a, fun h => absurd h (Int.lt_irrefl a)⟩

/-- A line comment that starts before the sign holds the sign. -/
theorem Approach.not_commented (h : d.Approach a m stop) (hw : d.text.Walk d.bird d.text.length a i)
    (hj : j ≤ m) : ¬ d.text.Commented d.bird i j := by
  rintro ⟨k, hk, hcomment, hlt, hblock⟩
  have h₀ := h.nonneg
  have hm := h.lt
  have hstop := h.stop_le
  have hwalk := hw.trans hk
  have hle := hwalk.le
  have hbehind : m < d.text.commentStop k := by
    unfold commentStop
    rw [hblock, if_neg Bool.false_ne_true, newlineFrom?_eq]
    by_cases hend : d.text.lineStop k < d.text.length
    · rw [if_pos hend]
      simp only
      have hnl := newline_at_lineStop (t := d.text) k hend
      have hge : k ≤ d.text.lineStop k := le_lineStop (by omega) (by omega)
      rw [← charAt?_eq (by omega)] at hnl
      rcases Int.lt_or_le (d.text.lineStop k) m with hbefore | hafter
      · exact absurd hnl (h.line _ (by omega) hbefore)
      · omega
    · rw [if_neg hend]
      simp only
      omega
  have hpiece := pieceAt_comment (d := d) (by omega)
    (commentAt_shorten (by omega) (by omega) hcomment (by omega) (by omega)
      fun _ => (by omega : k + 2 ≤ m))
  have hvisit : d.text.Visits d.bird a m k _ :=
    ⟨hwalk.shorten h₀ (by omega) (by omega), by omega, hpiece⟩
  have hshown := h.shown
  unfold openComment? at hshown
  rw [if_neg (by omega)] at hshown
  obtain ⟨s, hs, hshown⟩ := bind_eq_ok.1 hshown
  rw [hvisit.comment?_eq hs rfl hbehind] at hshown
  cases hshown

/-- Blanks after a place on the way. -/
theorem Approach.skipBlanks (h : d.Approach a m stop) (hw : d.text.Walk d.bird d.text.length a i)
    (hlt : a < i) (hskip : d.skipBlanks i stop = .ok j) (hj : j ≤ m)
    (hedge : ∀ x y, d.text.charAt? i = some x → isOperatorChar x = true →
      d.text.charAt? (i - 1) = some y →
      y ≠ '\x7b' ∧ (isOperatorChar y = true → y = '|' ∧ x ≠ '|')) :
    d.Met a j := by
  have h₀ := h.nonneg
  refine ⟨walk_skipBlanks hw (by omega) h.stop_le hskip, fun _ x y hx hop hy => ?_⟩
  obtain ⟨hle, -, hgaps, -⟩ := (skipBlanks_yields (by omega) h.stop_le).of_eq hskip
  rcases Int.lt_or_eq_of_le hle with hgap | rfl
  · have hyes := hgaps (j - 1) (by omega) (by omega)
    have hchar := char_of_gap (by omega) hyes hy
    rcases hchar with rfl | rfl | rfl | rfl
    · exact ⟨by decide, fun h => absurd h (by decide)⟩
    · exact ⟨by decide, fun h => absurd h (by decide)⟩
    · exact ⟨by decide, fun h => absurd h (by decide)⟩
    · -- the marker of a literate line stands at the start of the line
      exfalso
      have hline := h.line (j - 1 - 1) (by omega) (by omega)
      unfold isGapAt at hyes
      rw [read_eq (by omega) hy, ok_bind, if_neg (by decide)] at hyes
      unfold Text.isMarker Text.startsLine at hyes
      split at hyes
      · rw [if_neg (by omega)] at hyes
        cases hread : d.text.read (j - 1 - 1) with
        | error e =>
          rw [hread] at hyes
          cases hyes
        | ok c =>
          rw [hread] at hyes
          have hnl : (c == '\n') = true := Except.ok.inj hyes
          rw [beq_iff_eq] at hnl
          subst hnl
          obtain ⟨c', hc', hget⟩ :=
            read_yields (t := d.text) (i := j - 1 - 1) (by omega) (lt_length_of_read hread)
          cases hread.symm.trans hc'
          exact hline (by rw [charAt?_eq (by omega)]; exact hget)
      · cases hyes
  · exact hedge x y hx hop hy

/-- The closing brackets before a symbol. -/
theorem walk_passOver (h₀ : 0 ≤ i) (hle : stop ≤ d.text.length) :
    d.text.Walk d.bird d.text.length i (d.passOver isClosing stop i) := by
  fun_induction passOver d isClosing stop i with
  | case1 i hlt c hc hclosing ih =>
    have hother : c ≠ '-' ∧ c ≠ '\x7b' ∧ c ≠ '"' ∧ c ≠ '\'' := by
      refine ⟨?_, ?_, ?_, ?_⟩ <;> rintro rfl <;> revert hclosing <;> decide
    obtain ⟨p, hp, hstop⟩ := pieceAt_of_char d.bird h₀ hc
      (commentAt_eq_false h₀ hc hother.1 hother.2.1 _) hother.2.2.1 fun h => absurd h hother.2.2.2
    exact .step (by omega) hp (hstop ▸ ih (by omega))
  | case2 => exact .refl _
  | case3 i hlt hc =>
    obtain ⟨c, -, hget⟩ := read_yields (t := d.text) h₀ (by omega)
    rw [charAt?_eq h₀, hget] at hc
    cases hc
  | case4 => exact .refl _

/-- A step over a symbol leads on. -/
theorem Met.stepOver (hi : d.Met a i) (h : d.Approach a m stop) (hstep : d.stepOver i stop = .ok j)
    (hj : j ≤ m) : d.Met a j := by
  have h₀ := h.nonneg
  have hm := h.lt
  have hlen := h.stop_le
  have hai := hi.walk.le
  unfold Document.stepOver at hstep
  split at hstep
  · cases hstep
    omega
  unfold nextSymbol at hstep
  have hle := d.le_passOver isClosing stop i
  have hbrackets := hi.walk.trans (walk_passOver (by omega) hlen)
  simp only at hstep
  split at hstep
  · obtain ⟨l, hl, hstep⟩ := bind_eq_ok.1 hstep
    obtain ⟨n, hn, hstep⟩ := bind_eq_ok.1 hstep
    cases hstep
    rw [Int.min_eq_left (by omega)] at hj ⊢
    unfold expressionAfter at hl
    obtain ⟨g, hg, hl⟩ := bind_eq_ok.1 hl
    split at hl
    · cases hl
    next hgl =>
    obtain ⟨hig, -, hcode⟩ := (skipGap_yields (by omega) (Int.le_refl _)).of_eq hg
    have hgn := lt_of_expressionStop hl
    have hln := le_of_skipBlanks hn
    have hgap := walk_skipGap hbrackets (by omega) (Int.le_refl _) hg (by omega)
    rcases walk_expressionStop (by omega) (hcode (by omega)).2 hl with hwalk | hcommented
    · refine h.skipBlanks (hgap.trans hwalk) (by omega) hn hj fun x y hx hop hy => ?_
      obtain ⟨hbrace, hno⟩ := edge_expressionStop (by omega) hl hx hop hy
      exact ⟨hbrace, fun hyes => by rw [hno] at hyes; cases hyes⟩
    · exact absurd hcommented (h.not_commented hgap (by omega))
  · cases hstep
    omega

/-- What a marker with a text is read off. -/
theorem markerAt_cases {origin limit : Int} {mk : Marker} (h₀ : 0 ≤ i) (h₁ : i ≤ d.text.length)
    (h : d.markerAt i origin limit = .ok mk)
    (hkind : mk.kind = .name ∨ mk.kind = .guard ∨ mk.kind = .rhs) :
    d.isBlankLine i = false ∧ d.openComment? (min origin i) i = .ok none ∧ mk.start = i ∧
      ∃ s : Nat, d.text.markerStop? i.toNat = some (mk.kind, s) ∧
        d.skipBlanks s limit = .ok mk.stop := by
  have hclamp := clamp_of_mem h₀ h₁
  have hnat : d.text.clamp i = i.toNat := by omega
  unfold markerAt at h
  split at h
  · cases h
    simp at hkind
  next hblank =>
  obtain ⟨opened, hopened, h⟩ := bind_eq_ok.1 h
  split at h
  · cases h
    simp at hkind
  next hnone =>
  obtain ⟨_, -, h⟩ := bind_eq_ok.1 h
  dsimp only at h
  split at h
  · next kind s hs =>
    obtain ⟨n, hn, h⟩ := bind_eq_ok.1 h
    cases h
    rw [Option.not_isSome_iff_eq_none] at hnone
    rw [hnone] at hopened
    rw [hnat] at hs
    exact ⟨by simpa using hblank, hopened, hclamp, s, hs, hn⟩
  · cases h
    simp at hkind

end Document

namespace Text

variable {t : Text} {k s : Nat}

/-- A marker of the kind of names is a whole word that starts like a name. -/
theorem word_of_markerStop? (h : t.markerStop? k = some (.name, s)) :
    s = t.runStop isNameChar k ∧ ∃ c, t.chars[k]? = some c ∧ isNameStart c = true := by
  rcases markerStop?_kind h with ⟨-, hname⟩ | hkind | hkind
  · unfold nameStop? at hname
    split at hname
    · next c hc =>
      split at hname
      · next hstart =>
        cases hname
        refine ⟨?_, c, hc, hstart⟩
        obtain ⟨hk, rfl⟩ := Array.getElem?_eq_some_iff.mp hc
        have hword : isNameChar t.chars[k] = true := by
          unfold isNameStart at hstart
          unfold isNameChar
          rw [Bool.and_eq_true] at hstart
          rw [hstart.1, Bool.true_or]
        rw [runStop.eq_def t isNameChar k, dif_pos hk, if_pos hword]
      · cases hname
    · cases hname
  · cases hkind
  · cases hkind

/-- A marker of the kind of guards is a bar that is not doubled. -/
theorem bar_of_markerStop? (h : t.markerStop? k = some (.guard, s)) :
    s = k + 1 ∧ t.chars[k]? = some '|' ∧ t.chars[k + 1]? ≠ some '|' := by
  unfold markerStop? at h
  split at h
  · cases h
  split at h
  · next hguard =>
    cases h
    unfold guardStop? at hguard
    split at hguard
    · next c hbar hc =>
      split at hguard
      · cases hguard
      · next hne =>
        cases hguard
        refine ⟨rfl, hbar, ?_⟩
        rw [hc]
        exact fun heq => hne (Option.some.inj heq)
    · cases hguard
  · obtain ⟨_, -, he⟩ := Option.map_eq_some_iff.mp h
    cases he

end Text

namespace Document

open Text

variable {d : Document} {a i j k m stop : Int}

/-- A name or the bar of a guard leads on. -/
theorem Met.marker {mk : Marker} (hi : d.Met a i) (h : d.Approach a m stop) (hlt : i < stop)
    (hmk : d.markerAt i a stop = .ok mk) (hkind : mk.kind = .name ∨ mk.kind = .guard)
    (hj : mk.stop ≤ m) : d.Met a mk.stop := by
  have h₀ := h.nonneg
  have hlen := h.stop_le
  have hai := hi.walk.le
  have hkind' : mk.kind = .name ∨ mk.kind = .guard ∨ mk.kind = .rhs := by
    rcases hkind with h | h
    · exact .inl h
    · exact .inr (.inl h)
  obtain ⟨-, -, -, s, hs, hskip⟩ := markerAt_cases (by omega) (by omega) hmk hkind'
  have hbounds := markerStop?_bounds hs
  have hsingle : ∀ {c : Char}, d.text.charAt? i = some c → c ≠ '-' → c ≠ '\x7b' → c ≠ '"' →
      c ≠ '\'' → ∃ p, d.text.pieceAt d.bird i d.text.length = .ok p ∧ p.stop = i + 1 := by
    intro c hc h₁ h₂ h₃ h₄
    exact pieceAt_of_char d.bird (by omega) hc (commentAt_eq_false (by omega) hc h₁ h₂ _) h₃
      fun h => absurd h h₄
  rcases hkind with hname | hguard
  · rw [hname] at hs
    obtain ⟨rfl, c, hc, hstart⟩ := word_of_markerStop? hs
    rw [← charAt?_eq (by omega)] at hc
    have hother : c ≠ '-' ∧ c ≠ '\x7b' ∧ c ≠ '"' ∧ c ≠ '\'' := by
      refine ⟨?_, ?_, ?_, ?_⟩ <;> rintro rfl <;> revert hstart <;> decide +kernel
    obtain ⟨p, hp, hstop⟩ := hsingle hc hother.1 hother.2.1 hother.2.2.1 hother.2.2.2
    refine h.skipBlanks (hi.walk.trans (walk_word (by omega) hp hstop)) (by omega) hskip hj
      fun x y hx hop hy => ?_
    obtain ⟨c', hc', hname'⟩ := char_of_run (t := d.text) (p := isNameChar) (i := i)
      (k := d.text.runStop isNameChar i.toNat - 1) (by omega) (by omega) (by omega)
    cases hc'.symm.trans hy
    refine ⟨by rintro rfl; revert hname'; decide +kernel, fun hyes => ?_⟩
    rw [not_isNameChar_of_isOperatorChar hyes] at hname'
    cases hname'
  · rw [hguard] at hs
    obtain ⟨rfl, hbar, hnext⟩ := bar_of_markerStop? hs
    rw [← charAt?_eq (by omega)] at hbar
    obtain ⟨p, hp, hstop⟩ := hsingle hbar (by decide) (by decide) (by decide) (by decide)
    rw [show ((i.toNat + 1 : Nat) : Int) = i + 1 by omega] at hskip
    refine h.skipBlanks (hi.walk.trans (.step (by omega) hp (hstop ▸ .refl _))) (by omega) hskip hj
      fun x y hx _ hy => ?_
    rw [Int.add_sub_cancel, hbar] at hy
    cases hy
    refine ⟨by decide, fun _ => ⟨rfl, ?_⟩⟩
    rintro rfl
    rw [charAt?_eq (by omega), show (i + 1).toNat = i.toNat + 1 by omega] at hx
    exact hnext hx

/-! ## Steps -/

/-- Steps over symbols whose kinds pass the test. -/
inductive Steps (d : Document) (origin stop : Int) (test : LineKind → Bool) : Int → Int → Prop where
  | refl (i : Int) : Steps d origin stop test i i
  | step {i j k : Int} {mk : Marker} (hlt : i < stop) (hmk : d.markerAt i origin stop = .ok mk)
      (ht : test mk.kind = true) (hstep : d.stepOver i stop = .ok j)
      (h : Steps d origin stop test j k) : Steps d origin stop test i k

section Steps

variable {origin : Int} {test : LineKind → Bool}

/-- Steps lead forward. -/
theorem Steps.le (h : d.Steps origin stop test i k) : i ≤ k := by
  induction h with
  | refl => exact Int.le_refl _
  | step hlt _ _ hstep _ ih =>
    have := lt_of_stepOver hlt hstep
    omega

/-- Stepping stops before the end at the first marker that fails the test. -/
theorem steps_of_stepWhile {c r : Cursor} (h : d.stepWhile origin stop test c = .ok r) :
    d.Steps origin stop test c.pos r.pos ∧
      (r.pos < stop → d.markerAt r.pos origin stop = .ok r.marker ∧
        test r.marker.kind = false) := by
  fun_induction stepWhile d origin stop test c with
  | case1 => cases h
  | case2 => cases h
  | case3 c hlt mk hmk ht j hj ih =>
    obtain ⟨hsteps, hend⟩ := ih h
    exact ⟨.step hlt hmk ht hj hsteps, hend⟩
  | case4 c hlt mk hmk ht =>
    cases h
    exact ⟨.refl _, fun _ => ⟨hmk, by simpa using ht⟩⟩
  | case5 c hlt =>
    cases h
    exact ⟨.refl _, fun h => absurd h hlt⟩

/-- Steps up to a marker that fails the test are those that are made. -/
theorem Steps.stepWhile {mk mk' : Marker} {first : Option Int} (h : d.Steps origin stop test i k)
    (hlt : k < stop) (hmk : d.markerAt k origin stop = .ok mk) (ht : test mk.kind = false) :
    ∃ first', d.stepWhile origin stop test ⟨i, mk', first⟩ = .ok ⟨k, mk, first'⟩ := by
  induction h generalizing mk' first with
  | refl =>
    refine ⟨first, ?_⟩
    rw [Document.stepWhile, if_pos hlt, hmk]
    simp only [ht, Bool.false_eq_true, if_false]
  | step hlt' hmk' ht' hstep _ ih =>
    rw [stepWhile_step (c := ⟨_, mk', first⟩) hlt' hmk' ht' hstep]
    exact ih hlt hmk

/-- Steps keep to the way. -/
theorem Steps.met (h : d.Approach a m stop) (hs : d.Steps origin stop test i k) (hi : d.Met a i)
    (hk : k ≤ m) : d.Met a k := by
  induction hs with
  | refl => exact hi
  | step _ _ _ hstep hs ih =>
    have := hs.le
    exact ih (hi.stepOver h hstep (by omega)) hk

end Steps

/-- The end of the head of the clause at `a`. -/
inductive Head (d : Document) (a stop : Int) : Int → Prop where
  | name {mk : Marker} {i : Int} (hmk : d.markerAt a a stop = .ok mk) (hkind : mk.kind = .name)
      (h : d.Steps a stop inHead (min mk.stop stop) i) : Head d a stop i
  | other {mk : Marker} {i j : Int} (hmk : d.markerAt a a stop = .ok mk) (hkind : mk.kind = .other)
      (hstep : d.stepOver a stop = .ok j) (h : d.Steps a stop inHead j i) : Head d a stop i
  | sign {mk : Marker} (hmk : d.markerAt a a stop = .ok mk) (hkind : inHead mk.kind = false) :
      Head d a stop a

/-- The sign of the clause at `a` is at `m`. -/
inductive Finds (d : Document) (a stop : Int) : AlignSign → Int → Prop where
  | guard {mk : Marker} {m : Int} (hhead : d.Head a stop m) (hlt : m < stop)
      (hmk : d.markerAt m a stop = .ok mk) (hkind : mk.kind = .guard) : Finds d a stop .guard m
  | rhs {mk : Marker} {m : Int} (hhead : d.Head a stop m) (hlt : m < stop)
      (hmk : d.markerAt m a stop = .ok mk) (hkind : mk.kind = .rhs) : Finds d a stop .rhs m
  | guarded {bar mk : Marker} {g m : Int} (hhead : d.Head a stop g) (hg : g < stop)
      (hbar : d.markerAt g a stop = .ok bar) (hguard : bar.kind = .guard)
      (hsteps : d.Steps a stop (· != .rhs) (min bar.stop stop) m) (hlt : m < stop)
      (hmk : d.markerAt m a stop = .ok mk) (hkind : mk.kind = .rhs) : Finds d a stop .rhs m

/-- The head of a clause ends where its bar or sign is looked for. -/
theorem head_of_headPart {mk : Marker} {c : Cursor} {clause : Clause} {x : Char}
    (hmk : d.markerAt a a stop = .ok mk) (hx : d.text.charAt? a = some x) (hb : isBlank x = false)
    (h : d.headPart a stop a mk = .ok (clause, c)) :
    d.Head a stop c.pos ∧ (c.pos < stop → d.markerAt c.pos a stop = .ok c.marker) ∧
      clause.guard = none ∧
      clause.rhs = none := by
  unfold headPart at h
  split at h
  · next hkind =>
    obtain ⟨r, hr, h⟩ := bind_eq_ok.1 h
    cases h
    obtain ⟨hsteps, hend⟩ := steps_of_stepWhile hr
    exact ⟨.name hmk hkind hsteps, fun hlt => (hend hlt).1, rfl, rfl⟩
  · next hkind =>
    rw [passOver_eq hx hb] at h
    obtain ⟨j, hj, h⟩ := bind_eq_ok.1 h
    obtain ⟨r, hr, h⟩ := bind_eq_ok.1 h
    cases h
    obtain ⟨hsteps, hend⟩ := steps_of_stepWhile hr
    exact ⟨.other hmk hkind hj hsteps, fun hlt => (hend hlt).1, rfl, rfl⟩
  · next hname hother =>
    cases h
    refine ⟨.sign hmk ?_, fun _ => hmk, rfl, rfl⟩
    rw [inHead, Bool.or_eq_false_iff, beq_eq_false_iff_ne, beq_eq_false_iff_ne]
    exact ⟨hname, hother⟩

/-- The head of a clause, when a bar or a sign ends it. -/
theorem Head.headPart {mk : Marker} {x : Char} (hhead : d.Head a stop i) (hlt : i < stop)
    (hmk : d.markerAt i a stop = .ok mk) (hkind : inHead mk.kind = false)
    (hx : d.text.charAt? a = some x) (hb : isBlank x = false) :
    ∃ first clause seen, d.markerAt a a stop = .ok first ∧
      d.headPart a stop a first = .ok (clause, ⟨i, mk, seen⟩) := by
  cases hhead with
  | @name first _ hfirst hname hsteps =>
    obtain ⟨seen, hseen⟩ : ∃ seen, d.stepWhile a stop inHead ⟨min first.stop stop, first, none⟩ =
        .ok ⟨i, mk, seen⟩ := hsteps.stepWhile hlt hmk hkind
    refine ⟨first, ⟨some first.start, some first.text, seen, none, none, none, none⟩, seen,
      hfirst, ?_⟩
    unfold Document.headPart
    rw [hname]
    simp only
    rw [hseen]
    rfl
  | @other first _ j hfirst hother hstep hsteps =>
    obtain ⟨seen, hseen⟩ : ∃ seen, d.stepWhile a stop inHead ⟨j, first, none⟩ = .ok ⟨i, mk, seen⟩ :=
      hsteps.stepWhile hlt hmk hkind
    refine ⟨first, ⟨some a, none, seen, none, none, none, none⟩, seen, hfirst, ?_⟩
    unfold Document.headPart
    rw [hother]
    simp only
    rw [passOver_eq hx hb, hstep, ok_bind, hseen]
    rfl
  | sign hfirst hno =>
    cases hfirst.symm.trans hmk
    refine ⟨mk, {}, none, hmk, ?_⟩
    unfold Document.headPart
    split
    · next h =>
      rw [h] at hno
      cases hno
    · next h =>
      rw [h] at hno
      cases hno
    · rfl

/-- The head of a clause ends at its start or behind it. -/
theorem Head.le (h : d.Head a stop i) (h₀ : 0 ≤ a) (hlt : a < stop) (h₁ : stop ≤ d.text.length) :
    a ≤ i := by
  cases h with
  | name hmk hkind hsteps =>
    have hfacts := (markerAt_yields h₀ (by omega) h₀ h₁).of_eq hmk
    have := hfacts.stop (.inl hkind)
    have := hsteps.le
    omega
  | other _ _ hstep hsteps =>
    have := lt_of_stepOver hlt hstep
    have := hsteps.le
    omega
  | sign => exact Int.le_refl a

/-- Looking for the right-hand side of a clause leaves its guard. -/
theorem rhsPart_guard (stop : Int) (clause : Clause) (c : Cursor) :
    (rhsPart stop clause c).guard = clause.guard := by
  unfold rhsPart
  split <;> rfl

/-- Where the sign of a clause is found. -/
theorem finds_of_clauseAt {sign : AlignSign} {clause : Clause} {x : Char} (h₀ : 0 ≤ a)
    (ha : a < stop) (h₁ : stop ≤ d.text.length) (hx : d.text.charAt? a = some x)
    (hb : isBlank x = false) (h : d.clauseAt a stop a = .ok clause)
    (hm : sign.place? clause = some m) : d.Finds a stop sign m := by
  unfold clauseAt at h
  obtain ⟨first, hfirst, h⟩ := bind_eq_ok.1 h
  obtain ⟨⟨head, c⟩, hhead, h⟩ := bind_eq_ok.1 h
  obtain ⟨⟨guarded, r⟩, hguarded, h⟩ := bind_eq_ok.1 h
  cases h
  obtain ⟨hend, hmarked, hnoguard, hnorhs⟩ := head_of_headPart hfirst hx hb hhead
  have hle := hend.le h₀ ha h₁
  have hstart : ∀ {i : Int} {mk : Marker}, a ≤ i → i < stop → d.markerAt i a stop = .ok mk →
      mk.start = i := fun hai hlt hmk =>
      ((markerAt_yields (by omega) (by omega) h₀ h₁).of_eq hmk).start
  -- the place of a right-hand side, whatever stands before it
  have hrhs : ∀ {clause : Clause} {c : Cursor}, (rhsPart stop clause c).rhs = some m →
      clause.rhs = none → c.pos < stop ∧ c.marker.kind = .rhs ∧ c.marker.start = m := by
    intro clause c hsome hnone
    unfold rhsPart at hsome
    split at hsome
    · next hc => exact ⟨hc.1, hc.2, Option.some.inj hsome⟩
    · rw [hnone] at hsome
      cases hsome
  unfold guardPart at hguarded
  split at hguarded
  · next hbar =>
    obtain ⟨g, hg, hguarded⟩ := bind_eq_ok.1 hguarded
    cases hguarded
    have hbarred := hmarked hbar.1
    have hfacts := (markerAt_yields (by omega) (by omega) h₀ h₁).of_eq hbarred
    cases sign with
    | guard =>
      have hplace : some c.marker.start = some m := (rhsPart_guard stop _ r).symm.trans hm
      rw [hfacts.start] at hplace
      cases hplace
      exact .guard hend hbar.1 hbarred hbar.2
    | rhs =>
      obtain ⟨hlt, hkind, rfl⟩ := hrhs (c := r) hm hnorhs
      obtain ⟨hsteps, hstop⟩ := steps_of_stepWhile hg
      have hafter := hfacts.stop (.inr (.inl hbar.2))
      have hreach : min c.marker.stop stop ≤ r.pos := hsteps.le
      rw [hstart (by omega) hlt (hstop hlt).1]
      exact .guarded hend hbar.1 hbarred hbar.2 hsteps hlt (hstop hlt).1 hkind
  · cases hguarded
    cases sign with
    | guard =>
      have hplace : head.guard = some m := (rhsPart_guard stop head c).symm.trans hm
      rw [hnoguard] at hplace
      cases hplace
    | rhs =>
      obtain ⟨hlt, hkind, rfl⟩ := hrhs (c := c) hm hnorhs
      rw [hstart hle hlt (hmarked hlt)]
      exact .rhs hend hlt (hmarked hlt) hkind

/-- A sign that is found is that of the clause. -/
theorem Finds.clauseAt {sign : AlignSign} {x : Char} (h : d.Finds a stop sign m) (h₀ : 0 ≤ a)
    (ha : a < stop) (h₁ : stop ≤ d.text.length) (hx : d.text.charAt? a = some x)
    (hb : isBlank x = false) :
    ∃ clause, d.clauseAt a stop a = .ok clause ∧ sign.place? clause = some m := by
  have hstart : ∀ {i : Int} {mk : Marker}, a ≤ i → i < stop → d.markerAt i a stop = .ok mk →
      mk.start = i := fun hai hlt hmk =>
      ((markerAt_yields (by omega) (by omega) h₀ h₁).of_eq hmk).start
  unfold Document.clauseAt
  cases h with
  | @guard mk _ hhead hlt hmk hkind =>
    have hle := hhead.le h₀ ha h₁
    obtain ⟨first, head, seen, hfirst, hpart⟩ := hhead.headPart hlt hmk (by rw [hkind]; rfl) hx hb
    have hfacts := (markerAt_yields (by omega) (by omega) h₀ h₁).of_eq hmk
    have hafter := hfacts.stop (.inr (.inl hkind))
    obtain ⟨g, hg, -⟩ : Yields (d.stepWhile a stop (· != .rhs) ⟨min mk.stop stop, mk, none⟩) _ :=
      stepFrom_yields mk h₀ h₁ (by omega) (by omega)
    rw [hfirst, ok_bind, hpart, ok_bind]
    simp only [guardPart]
    rw [if_pos ⟨hlt, hkind⟩, hg]
    refine ⟨_, rfl, ?_⟩
    show (rhsPart stop _ g).guard = some m
    rw [rhsPart_guard, hstart hle hlt hmk]
  | @rhs mk _ hhead hlt hmk hkind =>
    have hle := hhead.le h₀ ha h₁
    obtain ⟨first, head, seen, hfirst, hpart⟩ := hhead.headPart hlt hmk (by rw [hkind]; rfl) hx hb
    rw [hfirst, ok_bind, hpart, ok_bind]
    simp only [guardPart]
    rw [if_neg (by rw [hkind]; simp)]
    refine ⟨_, rfl, ?_⟩
    show (rhsPart stop head ⟨m, mk, seen⟩).rhs = some m
    unfold rhsPart
    rw [if_pos ⟨hlt, hkind⟩, hstart hle hlt hmk]
  | @guarded bar mk g _ hhead hg hbar hguard hsteps hlt hmk hkind =>
    have hle := hhead.le h₀ ha h₁
    have hfacts := (markerAt_yields (by omega) (by omega) h₀ h₁).of_eq hbar
    have hafter := hfacts.stop (.inr (.inl hguard))
    have := hsteps.le
    obtain ⟨first, head, seen, hfirst, hpart⟩ := hhead.headPart hg hbar (by rw [hguard]; rfl) hx hb
    obtain ⟨seen', hstop⟩ : ∃ seen', d.stepWhile a stop (· != .rhs) ⟨min bar.stop stop, bar, none⟩ =
        .ok ⟨m, mk, seen'⟩ := hsteps.stepWhile hlt hmk (by rw [hkind]; rfl)
    rw [hfirst, ok_bind, hpart, ok_bind]
    simp only [guardPart]
    rw [if_pos ⟨hg, hguard⟩, hstop]
    refine ⟨_, rfl, ?_⟩
    show (rhsPart stop _ ⟨m, mk, seen'⟩).rhs = some m
    unfold rhsPart
    rw [if_pos ⟨hlt, hkind⟩, hstart (by omega) hlt hmk]

/-- The end of the head of a clause is on the way to every sign that does not come before it. -/
theorem Head.met (hh : d.Head a stop i) (h : d.Approach a m stop) (hi : i ≤ m) : d.Met a i := by
  have h₀ := h.nonneg
  have ham := h.le
  have hm := h.lt
  cases hh with
  | name hmk hkind hsteps =>
    have hle := hsteps.le
    have hmet := (Met.start d a).marker h (by omega) hmk (.inl hkind) (by omega)
    rw [Int.min_eq_left (by omega)] at hsteps
    exact hsteps.met h hmet hi
  | other _ _ hstep hsteps =>
    have hle := hsteps.le
    exact hsteps.met h ((Met.start d a).stepOver h hstep (by omega)) hi
  | sign => exact .start d a

namespace Finds

variable {sign : AlignSign}

/-- The sign has a marker. -/
theorem marker (h : d.Finds a stop sign m) :
    m < stop ∧ ∃ mk, d.markerAt m a stop = .ok mk ∧ (mk.kind = .guard ∨ mk.kind = .rhs) := by
  cases h with
  | guard _ hlt hmk hkind => exact ⟨hlt, _, hmk, .inl hkind⟩
  | rhs _ hlt hmk hkind => exact ⟨hlt, _, hmk, .inr hkind⟩
  | guarded _ _ _ _ _ hlt hmk hkind => exact ⟨hlt, _, hmk, .inr hkind⟩

/-- The sign itself is met. -/
theorem met (hf : d.Finds a stop sign m) (h : d.Approach a m stop) : d.Met a m := by
  have h₀ := h.nonneg
  have ham := h.le
  have hm := h.lt
  have hlen := h.stop_le
  cases hf with
  | guard hhead => exact hhead.met h (Int.le_refl m)
  | rhs hhead => exact hhead.met h (Int.le_refl m)
  | guarded hhead hg hbar hguard hsteps =>
    have hle := hsteps.le
    have hag := hhead.le h₀ (by omega) hlen
    have hafter := ((markerAt_yields (by omega) (by omega) h₀ hlen).of_eq hbar).stop
      (.inr (.inl hguard))
    have hmet := (hhead.met h (by omega)).marker h hg hbar (.inr hguard) (by omega)
    rw [Int.min_eq_left (by omega)] at hsteps
    exact hsteps.met h hmet (Int.le_refl m)

end Finds

end Document

end LayoutRule

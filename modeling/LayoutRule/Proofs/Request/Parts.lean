import LayoutRule.Proofs.Request.Offers

/-!
# Where the parts of a clause stand

A clause is taken apart by stepping from symbol to symbol. A symbol never ends inside the two
characters that start a comment (`Text.commentAt_before_expressionStop`), and what is found behind
one is no blank. So every part of a clause but the first stands where a symbol may start
(`Document.Fresh`), and the name, the guard and the sign lie in no comment. The condition of a
guard, and what follows a sign, may be anything, but only blanks stand before them.
-/

namespace LayoutRule

namespace Text

variable {t : Text} {bird : Bool} {i j depth limit : Int} {k stop : Nat}

/-! ## How symbols end -/

/-- No comment starts with such a character. -/
theorem commentAt_ne_of_char {c : Char} (h₀ : 0 ≤ i) (hc : t.charAt? i = some c) (hdash : c ≠ '-')
    (hbrace : c ≠ '\x7b') : t.commentAt i limit ≠ .ok true := by
  rw [commentAt_eq_false h₀ hc hdash hbrace]
  nofun

/-- No comment starts right before anything but a dash. -/
theorem commentAt_ne_of_next (h₀ : 0 ≤ i) (hc : t.charAt? (i + 1) ≠ some '-') :
    t.commentAt i limit ≠ .ok true :=
  fun hcomment => hc (dash_of_commentAt h₀ hcomment).1

/-- A group ends with a closing bracket. -/
theorem char_before_groupRest (h₀ : 0 ≤ i) (h : t.groupRest bird depth i = .ok j) :
    0 < j ∧ ∃ c, t.charAt? (j - 1) = some c ∧ isClosing c = true := by
  fun_induction groupRest t bird depth i with
  | case1 => cases h
  | case2 => cases h
  | case3 _ i _ p hp _ _ ih =>
    have := lt_stop_of_pieceAt hp
    exact ih (by omega) h
  | case4 i _ p hp _ hkind =>
    cases h
    obtain ⟨c, hc, hpiece⟩ := exists_char_of_pieceAt h₀ hp
    cases hpiece with
    | single =>
      rw [singlePiece_stop, Int.add_sub_cancel]
      refine ⟨by omega, c, hc, ?_⟩
      unfold singlePiece at hkind
      split at hkind
      · cases hkind
      · split at hkind
        · assumption
        · cases hkind
    | marker => cases hkind
    | comment => cases hkind
    | string => cases hkind
    | character => cases hkind
  | case5 _ i _ p hp _ _ _ ih =>
    have := lt_stop_of_pieceAt hp
    exact ih (by omega) h
  | case6 _ i _ p hp _ _ _ ih =>
    have := lt_stop_of_pieceAt hp
    exact ih (by omega) h
  | case7 => cases h

/-- A run of characters that no comment starts with. -/
theorem commentAt_before_runStop {p : Char → Bool} (hdash : p '-' = false)
    (hbrace : p '\x7b' = false) (hlt : k < t.runStop p k) :
    t.commentAt ((t.runStop p k : Int) - 1) limit ≠ .ok true := by
  obtain ⟨c, hc, hpc⟩ :=
    char_of_lt_runStop (t := t) (p := p) (k := k) (i := t.runStop p k - 1) (by omega) (by omega)
  have hchar : t.charAt? ((t.runStop p k : Int) - 1) = some c := by
    rw [charAt?_eq (by omega), show ((t.runStop p k : Int) - 1).toNat = t.runStop p k - 1 by omega]
    exact hc
  refine commentAt_ne_of_char (by omega) hchar ?_ ?_
  · rintro rfl
    rw [hdash] at hpc
    cases hpc
  · rintro rfl
    rw [hbrace] at hpc
    cases hpc

/-- A word, an operator or a single sign does not end inside the start of a comment. -/
theorem commentAt_before_plainStop {c : Char} (h₀ : 0 ≤ i) (hc : t.charAt? i = some c)
    (hopen : isOpening c = false) : t.commentAt (t.plainStop i - 1) limit ≠ .ok true := by
  have hlen := Document.lt_length_of_charAt? h₀ hc
  have hclamp := clamp_of_mem h₀ (Int.le_of_lt hlen)
  have hget : t.chars[t.clamp i]? = some c := by
    rw [← hc, charAt?_eq h₀]
    congr 1
    omega
  unfold plainStop wordStop? operatorStop?
  dsimp only
  split
  · next k hk =>
    split at hk
    · next hlt =>
      cases hk
      exact commentAt_before_runStop (by decide) (by decide) hlt
    · cases hk
  next hword =>
  split
  · next k hk =>
    split at hk
    · next hlt =>
      cases hk
      -- the operator ends where no dash follows
      refine commentAt_ne_of_next (by omega) fun hdash => ?_
      rw [Int.sub_add_cancel, charAt?_eq (by omega), Int.toNat_natCast] at hdash
      exact absurd (not_of_runStop hdash) (by decide)
    · cases hk
  · next hop =>
    rw [Int.add_sub_cancel]
    refine commentAt_ne_of_char h₀ hc ?_ ?_
    · rintro rfl
      have hlt := lt_runStop hget (by decide : isOperatorChar '-' = true)
      rw [if_pos hlt] at hop
      cases hop
    · rintro rfl
      revert hopen
      decide

/-- An expression does not end inside the two characters that start a comment. -/
theorem commentAt_before_expressionStop (h₀ : 0 ≤ i) (h : t.expressionStop bird i = .ok j) :
    t.commentAt (j - 1) limit ≠ .ok true := by
  unfold expressionStop at h
  split at h
  · cases h
  next hlt =>
  obtain ⟨c, hread, h⟩ := bind_eq_ok.1 h
  obtain ⟨c', hc', hget⟩ := read_yields (t := t) h₀ (by omega)
  rw [hread] at hc'
  cases hc'
  have hc : t.charAt? i = some c := (charAt?_eq h₀).trans hget
  split at h
  · cases h
  split at h
  · obtain ⟨hpos, x, hx, hclose⟩ := char_before_groupRest h₀ h
    refine commentAt_ne_of_char (by omega) hx ?_ ?_ <;> rintro rfl <;> revert hclose <;> decide
  next hopen =>
  rw [Bool.not_eq_true] at hopen
  obtain ⟨p, hp, h⟩ := bind_eq_ok.1 h
  have hstop := lt_stop_of_pieceAt hp
  split at h
  · next hkind =>
    split at h
    · cases h
    next hend =>
    cases h
    have hlast : ∀ x, x ≠ '-' → x ≠ '\x7b' → t.charAt? (p.stop - 1) = some x →
        t.commentAt (p.stop - 1) limit ≠ .ok true :=
      fun x h₁ h₂ hx => commentAt_ne_of_char (by omega) hx h₁ h₂
    rcases char_before_stop h₀ hp (by omega) with
      hone | ⟨hcomment, -⟩ | ⟨-, hquote | hnl⟩ | ⟨-, hquote⟩
    · rw [hone, Int.add_sub_cancel]
      rcases hkind with hkind | hkind
      · exact commentAt_ne_of_char h₀ (quote_of_string h₀ hp hkind) (by decide) (by decide)
      · exact commentAt_ne_of_char h₀ (literal_of_character h₀ hp hkind).1 (by decide) (by decide)
    · rw [hcomment] at hkind
      rcases hkind with hkind | hkind <;> cases hkind
    · exact hlast _ (by decide) (by decide) hquote
    · refine commentAt_ne_of_next (by omega) ?_
      rw [Int.sub_add_cancel, hnl]
      decide
    · exact hlast _ (by decide) (by decide) hquote
  · cases h
    exact commentAt_before_plainStop h₀ hc hopen

/-- A position that is an index reads the character with this index. -/
theorem charAt?_natCast (t : Text) (k : Nat) : t.charAt? (k : Int) = t.chars[k]? := by
  rw [charAt?_eq (by omega), Int.toNat_natCast]

/-- No comment starts with the last character of a sign of a right-hand side. -/
theorem commentAt_before_rhsStop (h : t.rhsStop? k = some stop) :
    t.commentAt ((stop : Int) - 1) limit ≠ .ok true := by
  have hsign : ∀ {k : Nat} {c : Char}, t.chars[k]? = some c → c ≠ '-' → c ≠ '\x7b' →
      t.commentAt (((k + 1 : Nat) : Int) - 1) limit ≠ .ok true := by
    intro k c hc h₁ h₂
    rw [show (((k + 1 : Nat) : Int) - 1) = k by omega]
    exact commentAt_ne_of_char (by omega) ((t.charAt?_natCast k).trans hc) h₁ h₂
  unfold rhsStop? at h
  split at h
  · cases h
  next c hc =>
  split at h
  · next hmem =>
    cases h
    refine hsign hc ?_ ?_ <;> rintro rfl <;> revert hmem <;> decide
  split at h
  · cases h
  next c' hc' =>
  split at h
  · next heq =>
    split at h
    · cases h
    · cases h
      subst heq
      exact hsign hc (by decide) (by decide)
  split at h
  · next hpair =>
    cases h
    have hpairs : c = '<' ∧ c' = '-' ∨ (c' ≠ '-' ∧ c' ≠ '\x7b') := by
      simp only [rhsPairs, List.mem_cons, Prod.mk.injEq, List.not_mem_nil, or_false] at hpair
      rcases hpair with ⟨rfl, rfl⟩ | ⟨rfl, rfl⟩ | ⟨rfl, rfl⟩ <;> decide
    rcases hpairs with ⟨rfl, rfl⟩ | ⟨hdash, hbrace⟩
    · -- dashes after another sign belong to one operator
      intro hcomment
      rw [show (((k + 2 : Nat) : Int) - 1) = ((k + 1 : Nat) : Int) by omega] at hcomment
      rcases commentAt_cases (by omega) hcomment with hblock | ⟨-, hafter, -⟩
      · have hbrace := (chars_of_hasWord (by omega) hblock).1
        rw [charAt?_natCast, hc'] at hbrace
        cases hbrace
      · unfold afterOperator at hafter
        rw [show (((k + 1 : Nat) : Int) - 1) = k by omega, charAt?_natCast, hc] at hafter
        revert hafter
        decide
    · exact hsign hc' hdash hbrace
  · cases h

/-- A marker does not end there either. -/
theorem commentAt_before_markerStop {kind : LineKind} (h : t.markerStop? k = some (kind, stop)) :
    t.commentAt ((stop : Int) - 1) limit ≠ .ok true := by
  unfold markerStop? at h
  split at h
  · next hname =>
    cases h
    unfold nameStop? at hname
    split at hname
    · next c hc =>
      split at hname
      · next hstart =>
        cases hname
        rcases Nat.lt_or_eq_of_le (t.le_runStop isNameChar (k + 1)) with hlt | heq
        · exact commentAt_before_runStop (by decide) (by decide) hlt
        · rw [← heq, show (((k + 1 : Nat) : Int) - 1) = k by omega]
          refine commentAt_ne_of_char (by omega) ((t.charAt?_natCast k).trans hc) ?_ ?_ <;>
            rintro rfl <;> revert hstart <;> decide
      · cases hname
    · cases hname
  split at h
  · next hguard =>
    cases h
    unfold guardStop? at hguard
    split at hguard
    · next hc _ =>
      split at hguard
      · cases hguard
      · cases hguard
        rw [show (((k + 1 : Nat) : Int) - 1) = k by omega]
        exact commentAt_ne_of_char (by omega) ((t.charAt?_natCast k).trans hc) (by decide)
          (by decide)
    · cases hguard
  · obtain ⟨stop', hrhs, heq⟩ := Option.map_eq_some_iff.mp h
    cases heq
    exact commentAt_before_rhsStop hrhs

/-- The signs of guards and right-hand sides are short. -/
theorem markerStop?_le {kind : LineKind} (h : t.markerStop? k = some (kind, stop))
    (hname : kind ≠ .name) : stop ≤ k + 2 := by
  unfold markerStop? guardStop? rhsStop? at h
  grind

end Text

namespace Document

open Text

variable {d : Document} {origin start stop pos limit a i j : Int} {m : Marker}

/-! ## Places of symbols -/

/-- A place where a symbol may start: no blank stands there, and not the second character of a
comment. -/
structure Fresh (d : Document) (a : Int) : Prop where
  code : d.isGapAt a = .ok false
  whole : 0 < a → d.commentAt (a - 1) ≠ .ok true

/-- Behind a symbol and the blanks after it another symbol may start. -/
theorem fresh_of_skipBlanks (h₀ : 0 ≤ pos) (hlimit : limit ≤ d.text.length)
    (hend : d.commentAt (pos - 1) ≠ .ok true) (h : d.skipBlanks pos limit = .ok i)
    (hlt : i < limit) : d.Fresh i := by
  obtain ⟨hle, -, hgaps, hstops⟩ := (skipBlanks_yields h₀ hlimit).of_eq h
  refine ⟨hstops hlt, fun hpos => ?_⟩
  rcases Int.lt_or_eq_of_le hle with hlt' | rfl
  · exact commentAt_of_gap (by omega) (hgaps (i - 1) (by omega) (by omega))
  · exact hend

/-- Where a step over a symbol leads to, another symbol may start. -/
theorem fresh_of_stepOver (h₀ : 0 ≤ pos) (h₁ : stop ≤ d.text.length)
    (h : d.stepOver pos stop = .ok j) (hlt : j < stop) : d.Fresh j := by
  unfold stepOver at h
  split at h
  · cases h
    omega
  unfold nextSymbol at h
  have hpass := d.le_passOver isClosing stop pos
  dsimp only at h
  split at h
  · obtain ⟨k, hk, h⟩ := bind_eq_ok.1 h
    obtain ⟨l, hl, h⟩ := bind_eq_ok.1 h
    cases h
    have hnext := lt_of_expressionAfter hk
    have hend : d.commentAt (k - 1) ≠ .ok true := by
      unfold expressionAfter at hk
      obtain ⟨i, hi, hk⟩ := bind_eq_ok.1 hk
      have hle := le_of_skipGap hi
      split at hk
      · cases hk
      · exact commentAt_before_expressionStop (by omega) hk
    rw [Int.min_eq_left (by omega)]
    exact fresh_of_skipBlanks (by omega) h₁ hend hl (by omega)
  · cases h
    omega

/-- Only blanks stand between a sign and what follows it, and a symbol may start there. -/
theorem markerAt_ends (h₀ : 0 ≤ pos) (h₁ : pos ≤ d.text.length) (hl : limit ≤ d.text.length)
    (h : d.markerAt pos origin limit = .ok m)
    (hkind : m.kind = .name ∨ m.kind = .guard ∨ m.kind = .rhs) :
    (m.stop < limit → d.Fresh m.stop) ∧
      (m.kind ≠ .name → ∀ k, pos + 2 ≤ k → k < m.stop → d.isGapAt k = .ok true) := by
  have hclamp := clamp_of_mem h₀ h₁
  unfold markerAt at h
  split at h
  · cases h
    simp at hkind
  obtain ⟨opened, -, h⟩ := bind_eq_ok.1 h
  split at h
  · cases h
    simp at hkind
  obtain ⟨-, -, h⟩ := bind_eq_ok.1 h
  dsimp only at h
  split at h
  · next kind stop hm =>
    obtain ⟨j, hj, h⟩ := bind_eq_ok.1 h
    cases h
    have hbounds := markerStop?_bounds hm
    have hgaps := ((skipBlanks_yields (by omega) hl).of_eq hj).2.2.1
    refine ⟨fun hlt => fresh_of_skipBlanks (by omega) hl (commentAt_before_markerStop hm) hj hlt,
      fun hname k hk hlt => ?_⟩
    have hle := markerStop?_le hm hname
    exact hgaps k (by omega) hlt
  · cases h
    simp at hkind

/-- A place where a symbol starts that no comment holds. -/
structure Shown (d : Document) (origin a : Int) : Prop extends d.Fresh a where
  outside : d.openComment? (min origin a) a = .ok none

/-- Where a symbol may start, one that is no comment does so outside of all comments. -/
theorem Fresh.shown (hfresh : d.Fresh a) (h₀ : 0 ≤ a) (h : d.markerAt a origin limit = .ok m)
    (hkind : m.kind ≠ .comment) : d.Shown origin a := by
  refine ⟨hfresh, ?_⟩
  rcases kind_of_markerAt h with ⟨hblank, -⟩ | ⟨-, opened, hopened, hm⟩
  · exfalso
    have hlt : a < d.text.length := by
      have hcode := hfresh.code
      unfold isGapAt at hcode
      obtain ⟨c, hc, -⟩ := bind_eq_ok.1 hcode
      exact lt_length_of_read hc
    cases hfresh.code.symm.trans (isGapAt_of_isBlankLine h₀ hlt hblank)
  · cases opened with
    | none => exact hopened
    | some c =>
      rw [Option.isSome_some, if_pos rfl] at hm
      exact absurd hm hkind

/-- Stepping over symbols leads to a place where a symbol may start. -/
theorem stepWhile_fresh {test : LineKind → Bool} {c r : Cursor} (h₁ : stop ≤ d.text.length)
    (h₀ : 0 ≤ c.pos) (h : d.stepWhile origin stop test c = .ok r) :
    (r.pos = c.pos ∧ r.first = c.first) ∨
      ((r.pos < stop → d.Fresh r.pos) ∧ c.pos < stop ∧ ∃ m, d.markerAt c.pos origin stop = .ok m ∧
        test m.kind = true) := by
  fun_induction stepWhile d origin stop test c with
  | case1 => cases h
  | case2 => cases h
  | case3 c hlt m hm ht j hj ih =>
    have hnext := lt_of_stepOver hlt hj
    refine .inr ⟨fun hr => ?_, hlt, m, hm, ht⟩
    rcases ih (by simp only; omega) h with ⟨hpos, -⟩ | ⟨hfresh, -⟩
    · rw [hpos] at hr ⊢
      exact fresh_of_stepOver h₀ h₁ hj hr
    · exact hfresh hr
  | case4 => cases h; exact .inl ⟨rfl, rfl⟩
  | case5 => cases h; exact .inl ⟨rfl, rfl⟩

/-- Stepping from a fresh cursor: a first symbol is where the cursor stood, and passes the test. -/
theorem stepFrom_fresh {test : LineKind → Bool} {r : Cursor} (ho : 0 ≤ origin)
    (h₁ : stop ≤ d.text.length) (h₀ : 0 ≤ pos) (hp : pos ≤ stop) (hpos : pos < stop → d.Fresh pos)
    (h : d.stepWhile origin stop test ⟨pos, m, none⟩ = .ok r) :
    (r.pos < stop → d.Fresh r.pos) ∧
      ∀ x ∈ r.first, x = pos ∧ x < stop ∧ ∃ m', d.markerAt x origin stop = .ok m' ∧
        test m'.kind = true := by
  obtain ⟨-, hle, -, hfirst⟩ := (stepFrom_yields m ho h₁ h₀ hp).of_eq h
  rcases stepWhile_fresh h₁ h₀ h with ⟨hsame, hnone⟩ | ⟨hfresh, hlt, m', hm', ht⟩
  · simp only at hsame hnone
    rw [hsame, hnone]
    exact ⟨hpos, by simp⟩
  · refine ⟨hfresh, fun x hx => ?_⟩
    obtain ⟨rfl, -⟩ := hfirst x hx
    exact ⟨rfl, hlt, m', hm', ht⟩

end Document

/-! ## Parts -/

/-- Every part of a clause but the first stands where a symbol may start, the name, the guard and
the sign outside comments; only blanks stand between a sign and what follows it. -/
structure Clause.Coded (c : Clause) (d : Document) (origin start : Int) : Prop where
  name : ∀ a ∈ c.name, a = start
  afterName : ∀ a ∈ c.afterName, d.Shown origin a
  guard : ∀ a ∈ c.guard, a = start ∨ d.Shown origin a
  afterGuard : ∀ a ∈ c.afterGuard, ∃ g ∈ c.guard, ∀ k, g + 2 ≤ k → k < a → d.isGapAt k = .ok true
  rhs : ∀ a ∈ c.rhs, a = start ∨ d.Shown origin a
  afterRhs : ∀ a ∈ c.afterRhs, ∃ g ∈ c.rhs, ∀ k, g + 2 ≤ k → k < a → d.isGapAt k = .ok true

namespace Document

open Text

variable {d : Document} {origin start stop : Int} {m : Marker} {clause head : Clause}
  {c cur : Cursor}

/-- The cursor stands where a symbol may start, or has not moved. -/
def Cursor.Ready (d : Document) (start stop : Int) (c : Cursor) : Prop :=
  c.pos < stop → c.pos = start ∨ d.Fresh c.pos

/-- The parts in the head of a clause stand where symbols may start, and the cursor is left at such
a place. -/
theorem headPart_coded {x : Char} (ho : 0 ≤ origin) (h₀ : 0 ≤ start) (hlt : start < stop)
    (h₁ : stop ≤ d.text.length) (hm : d.markerAt start origin stop = .ok m)
    (hx : d.text.charAt? start = some x) (hb : isBlank x = false)
    (h : d.headPart start stop origin m = .ok (head, cur)) :
    head.Coded d origin start ∧ cur.Ready d start stop := by
  have hfacts := (markerAt_yields h₀ (by omega) ho h₁).of_eq hm
  have hhead : ∀ {r : Cursor} {pos : Int} (text : Option String), 0 ≤ pos → pos ≤ stop →
      (pos < stop → d.Fresh pos) → d.stepWhile origin stop inHead ⟨pos, m, none⟩ = .ok r →
      (⟨some start, text, r.first, none, none, none, none⟩ : Clause).Coded d origin start ∧
      r.Ready d start stop := by
    intro r pos text hpos hle hfresh hr
    obtain ⟨hend, hfirst⟩ := stepFrom_fresh ho h₁ hpos hle hfresh hr
    refine ⟨⟨?_, ?_, nofun, nofun, nofun, nofun⟩, fun hr => .inr (hend hr)⟩
    · intro a ha
      exact (Option.some.inj ha).symm
    · intro a ha
      obtain ⟨rfl, hlt', m', hm', ht⟩ := hfirst a ha
      refine (hfresh hlt').shown hpos hm' ?_
      intro hcomment
      rw [hcomment] at ht
      cases ht
  unfold headPart at h
  split at h
  · next hkind =>
    obtain ⟨r, hr, h⟩ := bind_eq_ok.1 h
    cases h
    have hends := (markerAt_ends h₀ (by omega) h₁ hm (.inl hkind)).1
    have hstop := hfacts.stop (.inl hkind)
    rw [hfacts.start]
    refine hhead _ (by omega) (Int.min_le_right _ _) (fun hmin => ?_) hr
    rw [Int.min_eq_left (by omega)]
    exact hends (by omega)
  · rw [passOver_eq hx hb] at h
    obtain ⟨j, hj, h⟩ := bind_eq_ok.1 h
    obtain ⟨r, hr, h⟩ := bind_eq_ok.1 h
    cases h
    obtain ⟨hnext, hle⟩ := (stepOver_yields h₀ hlt h₁).of_eq hj
    exact hhead none (by omega) hle (fresh_of_stepOver h₀ h₁ hj) hr
  · cases h
    exact ⟨⟨nofun, nofun, nofun, nofun, nofun, nofun⟩, fun _ => .inl rfl⟩

/-- A sign at the cursor. -/
theorem Cursor.Ready.sign (ho : 0 ≤ origin) (h₀ : 0 ≤ c.pos) (h₁ : stop ≤ d.text.length)
    (hready : c.Ready d start stop) (hmarked : c.Marked d origin stop) (hlt : c.pos < stop)
    (hkind : c.marker.kind = .guard ∨ c.marker.kind = .rhs) :
    (c.marker.start = start ∨ d.Shown origin c.marker.start) ∧ c.pos < c.marker.stop ∧
      (min c.marker.stop stop < stop → d.Fresh (min c.marker.stop stop)) ∧
      ∀ k, c.marker.start + 2 ≤ k → k < min c.marker.stop stop → d.isGapAt k = .ok true := by
  have hm := hmarked hlt
  have hfacts := (markerAt_yields h₀ (by omega) ho h₁).of_eq hm
  obtain ⟨hfresh, hgaps⟩ := markerAt_ends h₀ (by omega) h₁ hm (.inr hkind)
  have hname : c.marker.kind ≠ .name := by rcases hkind with hkind | hkind <;> rw [hkind] <;> nofun
  have hcomment : c.marker.kind ≠ .comment := by
    rcases hkind with hkind | hkind <;> rw [hkind] <;> nofun
  rw [hfacts.start]
  refine ⟨?_, hfacts.stop (.inr hkind), fun hmin => ?_,
    fun k hk hlt' => hgaps hname k hk (by omega)⟩
  · exact (hready hlt).imp_right fun hfresh => hfresh.shown h₀ hm hcomment
  · rw [Int.min_eq_left (by omega)]
    exact hfresh (by omega)

/-- Looking for the guard of a clause keeps this up, for the parts and for the cursor. -/
theorem guardPart_coded (ho : 0 ≤ origin) (h₀ : 0 ≤ c.pos) (h₁ : stop ≤ d.text.length)
    (hmarked : c.Marked d origin stop) (hcoded : head.Coded d origin start)
    (hready : c.Ready d start stop) (h : d.guardPart stop origin head c = .ok (clause, cur)) :
    clause.Coded d origin start ∧ cur.Ready d start stop := by
  unfold guardPart at h
  split at h
  · next hguard =>
    obtain ⟨hlt, hkind⟩ := hguard
    obtain ⟨g, hstep, h⟩ := bind_eq_ok.1 h
    cases h
    obtain ⟨hsign, hstop, hfresh, hgaps⟩ := hready.sign ho h₀ h₁ hmarked hlt (.inl hkind)
    obtain ⟨hend, hfirst⟩ := stepFrom_fresh ho h₁ (by omega) (Int.min_le_right _ _) hfresh hstep
    refine ⟨⟨hcoded.name, hcoded.afterName, ?_, ?_, hcoded.rhs, hcoded.afterRhs⟩,
      fun hr => .inr (hend hr)⟩
    · intro a ha
      rw [← Option.some.inj ha]
      exact hsign
    · intro a ha
      obtain ⟨rfl, -⟩ := hfirst a ha
      exact ⟨_, rfl, hgaps⟩
  · cases h
    exact ⟨hcoded, hready⟩

/-- Looking for the right-hand side of a clause keeps this up for the parts. -/
theorem rhsPart_coded (ho : 0 ≤ origin) (h₀ : 0 ≤ c.pos) (h₁ : stop ≤ d.text.length)
    (hmarked : c.Marked d origin stop) (hcoded : clause.Coded d origin start)
    (hready : c.Ready d start stop) : (rhsPart stop clause c).Coded d origin start := by
  unfold rhsPart
  split
  · next hrhs =>
    obtain ⟨hlt, hkind⟩ := hrhs
    obtain ⟨hsign, -, -, hgaps⟩ := hready.sign ho h₀ h₁ hmarked hlt (.inr hkind)
    refine ⟨hcoded.name, hcoded.afterName, hcoded.guard, hcoded.afterGuard, ?_, ?_⟩
    · intro a ha
      rw [← Option.some.inj ha]
      exact hsign
    · intro a ha
      split at ha
      · cases ha
        exact ⟨_, rfl, hgaps⟩
      · cases ha
  · exact hcoded

/-- The parts of a clause in a stretch that starts with code. -/
theorem clauseAt_coded {x : Char} (ho : 0 ≤ origin) (h₀ : 0 ≤ start) (hlt : start < stop)
    (h₁ : stop ≤ d.text.length) (hx : d.text.charAt? start = some x) (hb : isBlank x = false)
    (h : d.clauseAt start stop origin = .ok clause) : clause.Coded d origin start := by
  unfold clauseAt at h
  obtain ⟨m, hm, h⟩ := bind_eq_ok.1 h
  obtain ⟨⟨head, c⟩, hhead, h⟩ := bind_eq_ok.1 h
  obtain ⟨⟨guarded, cur⟩, hguard, h⟩ := bind_eq_ok.1 h
  cases h
  obtain ⟨hnone, hreached, -⟩ := (headPart_yields ho h₀ hlt h₁ hm hx hb).of_eq hhead
  obtain ⟨-, hreached', -⟩ := (guardPart_yields ho h₀ hlt h₁ hnone hreached).of_eq hguard
  obtain ⟨hcoded, hready⟩ := headPart_coded ho h₀ hlt h₁ hm hx hb hhead
  have hpos : 0 ≤ c.pos := Int.le_trans h₀ hreached.bounds.1
  have hpos' : 0 ≤ cur.pos := Int.le_trans h₀ hreached'.bounds.1
  obtain ⟨hcoded', hready'⟩ := guardPart_coded ho hpos h₁ hreached.marked hcoded hready hguard
  exact rhsPart_coded ho hpos' h₁ hreached'.marked hcoded' hready'

end Document

end LayoutRule

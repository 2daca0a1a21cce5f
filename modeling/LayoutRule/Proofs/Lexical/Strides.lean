import LayoutRule.Proofs.Lexical.Terms
import LayoutRule.Proofs.Request.Parts

/-!
# Expressions and pieces

The end of an expression is found by its own rules, but as a rule it is also the end of a piece: the
scanner that goes from piece to piece comes there too (`walk_expressionStop`). The exception is an
operator with two dashes in it right after a `>`: for the scanner a comment starts there, and it
reaches to the end of the line. An operator that follows an expression at once does not go on with
it (`edge_expressionStop`).
-/

namespace LayoutRule

namespace Text

variable {t : Text} {bird : Bool} {i j k : Int}

/-- A comment that starts after `i` and before `j` holds the rest of its line. -/
def Commented (t : Text) (bird : Bool) (i j : Int) : Prop :=
  ∃ k, t.Walk bird t.length i k ∧ t.commentAt k t.length = .ok true ∧ k + 2 ≤ j ∧
    t.hasWord blockOpen k t.length = false

/-- Characters that are pieces of their own make a walk. -/
theorem walk_singles
    (h : ∀ k, i ≤ k → k < j → k < t.length ∧ ∃ p, t.pieceAt bird k t.length = .ok p ∧
      p.stop = k + 1)
    (hle : i ≤ j) : t.Walk bird t.length i j := by
  have hover : ∀ n : Nat, i + n ≤ j → t.Walk bird t.length i (i + n) := by
    intro n
    induction n with
    | zero =>
      intro _
      rw [Int.natCast_zero, Int.add_zero]
      exact .refl i
    | succ n ih =>
      intro hn
      obtain ⟨hlt, p, hp, hstop⟩ := h (i + n) (by omega) (by omega)
      have hnext := (ih (by omega)).snoc hlt hp
      rw [hstop] at hnext
      rw [Int.natCast_succ, ← Int.add_assoc]
      exact hnext
  have hlast := hover (j - i).toNat (by omega)
  rwa [show i + ((j - i).toNat : Int) = j by omega] at hlast

/-- Where no comment starts, the piece is none. -/
theorem kind_ne_comment {bird : Bool} {limit : Int} {p : Piece} (h₀ : 0 ≤ i)
    (h : t.commentAt i limit = .ok false) (hp : t.pieceAt bird i limit = .ok p) :
    p.kind ≠ .comment := by
  obtain ⟨c, -, hpiece⟩ := exists_char_of_pieceAt h₀ hp
  intro hkind
  cases hpiece with
  | comment htrue => cases h.symm.trans htrue
  | marker => cases hkind
  | string => cases hkind
  | character => cases hkind
  | single => exact (singlePiece_kind c i).1 hkind

/-- A character that starts no comment and no literal is a piece of its own. -/
theorem pieceAt_of_char (bird : Bool) {c : Char} (h₀ : 0 ≤ k) (hc : t.charAt? k = some c)
    (hcomment : t.commentAt k t.length = .ok false) (hquote : c ≠ '"')
    (hname : c = '\'' → t.afterName k = .ok true) :
    ∃ p, t.pieceAt bird k t.length = .ok p ∧ p.stop = k + 1 := by
  have hlt := Document.lt_length_of_charAt? h₀ hc
  obtain ⟨marker, hmarker, -⟩ : Yields (t.isMarker bird c k) fun _ => True :=
    isMarker_yields c h₀ (Int.le_of_lt hlt)
  have hliteral : t.characterAt? c k = .ok none := by
    unfold characterAt?
    split
    · next hprime =>
      rw [hname hprime]
      rfl
    · rfl
  unfold pieceAt
  rw [Document.read_eq h₀ hc, Document.ok_bind, hmarker, Document.ok_bind]
  cases marker with
  | true => exact ⟨_, rfl, rfl⟩
  | false =>
    rw [if_neg Bool.false_ne_true, hcomment, Document.ok_bind, if_neg Bool.false_ne_true,
      if_neg hquote, hliteral]
    exact ⟨_, rfl, singlePiece_stop c k⟩

/-- Right behind a character of a name a place follows on a name. -/
theorem afterName_of_char {c : Char} (h₀ : 0 ≤ k) (hc : t.charAt? k = some c)
    (hname : isNameChar c = true) : t.afterName (k + 1) = .ok true := by
  unfold afterName
  rw [if_neg (by omega), Int.add_sub_cancel, Document.read_eq h₀ hc]
  exact congrArg Except.ok hname

/-- The characters of a run. -/
theorem char_of_run {p : Char → Bool} (h₀ : 0 ≤ i) (h₁ : i ≤ k) (h₂ : k < t.runStop p i.toNat) :
    ∃ c, t.charAt? k = some c ∧ p c = true := by
  obtain ⟨c, hc, hpc⟩ :=
    char_of_lt_runStop (t := t) (p := p) (k := i.toNat) (i := k.toNat) (by omega) (by omega)
  exact ⟨c, by rw [charAt?_eq (by omega)]; exact hc, hpc⟩

/-- What no longer belongs to a run. -/
theorem char_at_runStop {p : Char → Bool} {c : Char} {k : Nat}
    (hc : t.charAt? (t.runStop p k) = some c) : p c = false := by
  rw [charAt?_natCast] at hc
  exact not_of_runStop hc

/-- The rest of a word is made of single characters. -/
theorem walk_word {p : Piece} (h₀ : 0 ≤ i) (hp : t.pieceAt bird i t.length = .ok p)
    (hstop : p.stop = i + 1) : t.Walk bird t.length i (t.runStop isNameChar i.toNat) := by
  have hle := t.le_runStop isNameChar i.toNat
  refine walk_singles (fun k h₁ h₂ => ?_) (by omega)
  obtain ⟨c, hc, hname⟩ := char_of_run h₀ h₁ h₂
  refine ⟨Document.lt_length_of_charAt? (by omega) hc, ?_⟩
  rcases Int.lt_or_eq_of_le h₁ with hlt | rfl
  · have hother : c ≠ '-' ∧ c ≠ '\x7b' ∧ c ≠ '"' := by
      refine ⟨?_, ?_, ?_⟩ <;> rintro rfl <;> revert hname <;> decide +kernel
    refine pieceAt_of_char bird (by omega) hc
      (commentAt_eq_false (by omega) hc hother.1 hother.2.1 _) hother.2.2 fun _ => ?_
    obtain ⟨c', hc', hname'⟩ :=
      char_of_run (t := t) (p := isNameChar) (k := k - 1) h₀ (by omega) (by omega)
    have := afterName_of_char (by omega) hc' hname'
    rwa [Int.sub_add_cancel] at this
  · exact ⟨p, hp, hstop⟩

/-- An operator is made of single characters, up to a comment in it. -/
theorem walk_operator (h₀ : 0 ≤ i) :
    t.Walk bird t.length i (t.runStop isOperatorChar i.toNat) ∨
      t.Commented bird i (t.runStop isOperatorChar i.toNat) := by
  have hle := t.le_runStop isOperatorChar i.toNat
  have hover : ∀ n : Nat, i + n ≤ t.runStop isOperatorChar i.toNat →
      t.Walk bird t.length i (i + n) ∨ t.Commented bird i (t.runStop isOperatorChar i.toNat) := by
    intro n
    induction n with
    | zero =>
      intro _
      rw [Int.natCast_zero, Int.add_zero]
      exact .inl (.refl i)
    | succ n ih =>
      intro hn
      rcases ih (by omega) with hwalk | hcommented
      · obtain ⟨c, hc, hop⟩ :=
          char_of_run (t := t) (p := isOperatorChar) (k := i + n) h₀ (by omega) (by omega)
        have hother : c ≠ '"' ∧ c ≠ '\'' ∧ c ≠ '\x7b' := by
          refine ⟨?_, ?_, ?_⟩ <;> rintro rfl <;> revert hop <;> decide
        obtain ⟨comment, hcomment, -⟩ := commentAt_yields (t := t) (i := i + n) t.length (by omega)
        cases comment with
        | true =>
          refine .inr ⟨i + n, hwalk, hcomment, ?_,
            Document.hasWord_eq_false (by omega) hc hother.2.2⟩
          -- the second dash belongs to the operator
          have hdash := (dash_of_commentAt (by omega) hcomment).1
          rcases Int.lt_or_le (i + n + 1) (t.runStop isOperatorChar i.toNat) with hlt | hge
          · omega
          · exfalso
            have hend : (t.runStop isOperatorChar i.toNat : Int) = i + n + 1 := by omega
            rw [← hend] at hdash
            exact absurd (char_at_runStop hdash) (by decide)
        | false =>
          obtain ⟨p, hp, hstop⟩ := pieceAt_of_char bird (by omega) hc hcomment hother.1 fun h =>
            absurd h hother.2.1
          have hnext := hwalk.snoc (Document.lt_length_of_charAt? (by omega) hc) hp
          rw [hstop] at hnext
          rw [Int.natCast_succ, ← Int.add_assoc]
          exact .inl hnext
      · exact .inr hcommented
  have hlast := hover (t.runStop isOperatorChar i.toNat - i).toNat (by omega)
  rwa [show i + ((t.runStop isOperatorChar i.toNat - i).toNat : Int) =
    t.runStop isOperatorChar i.toNat by omega] at hlast

/-- A group is closed by a piece of its own. -/
theorem walk_groupRest {depth : Int} (h : t.groupRest bird depth i = .ok j) :
    t.Walk bird t.length i j := by
  fun_induction groupRest t bird depth i with
  | case1 => cases h
  | case2 => cases h
  | case3 _ i hlt p hp _ _ ih => exact .step hlt hp (ih h)
  | case4 i hlt p hp =>
    cases h
    exact .step hlt hp (.refl _)
  | case5 _ i hlt p hp _ _ _ ih => exact .step hlt hp (ih h)
  | case6 _ i hlt p hp _ _ _ ih => exact .step hlt hp (ih h)
  | case7 => cases h

/-- The end of an expression is the end of a piece, unless a comment starts in an operator. -/
theorem walk_expressionStop (h₀ : 0 ≤ i) (hcode : t.commentAt i t.length = .ok false)
    (h : t.expressionStop bird i = .ok j) : t.Walk bird t.length i j ∨ t.Commented bird i j := by
  unfold expressionStop at h
  split at h
  · cases h
  next hlt =>
  obtain ⟨c, hread, h⟩ := bind_eq_ok.1 h
  split at h
  · cases h
  split at h
  · exact .inl (walk_groupRest h)
  obtain ⟨p, hp, h⟩ := bind_eq_ok.1 h
  split at h
  · split at h
    · cases h
    · cases h
      exact .inl (.step (by omega) hp (.refl _))
  · next hplain =>
    cases h
    rw [not_or] at hplain
    have hstop := (single_of_pieceAt h₀ hp (kind_ne_comment h₀ hcode hp) hplain.1 hplain.2).1
    have hclamp : t.clamp i = i.toNat := by
      have := clamp_of_mem h₀ (by omega : i ≤ t.length)
      omega
    unfold plainStop wordStop? operatorStop?
    simp only [hclamp]
    split
    · next k hk =>
      split at hk
      · cases hk
        exact .inl (walk_word h₀ hp hstop)
      · cases hk
    · split
      · next k hk =>
        split at hk
        · cases hk
          exact walk_operator h₀
        · cases hk
      · rw [← hstop]
        exact .inl (.step (by omega) hp (.refl _))

/-- An operator that follows a word or a run of operator characters at once does not go on with it:
the character before it is neither one of an operator nor an opening brace. -/
theorem edge_plainStop {c x y : Char} (h₀ : 0 ≤ i) (hc : t.charAt? i = some c)
    (hopen : isOpening c = false) (hx : t.charAt? (t.plainStop i) = some x)
    (hop : isOperatorChar x = true) (hy : t.charAt? (t.plainStop i - 1) = some y) :
    y ≠ '\x7b' ∧ isOperatorChar y = false := by
  have hclamp : t.clamp i = i.toNat := by
    have := clamp_of_mem h₀ (Int.le_of_lt (Document.lt_length_of_charAt? h₀ hc))
    omega
  unfold plainStop wordStop? operatorStop? at hx hy
  simp only [hclamp] at hx hy
  by_cases hword : i.toNat < t.runStop isNameChar i.toNat
  · rw [if_pos hword] at hy
    obtain ⟨c', hc', hname⟩ :=
      char_of_run (t := t) (p := isNameChar) (k := t.runStop isNameChar i.toNat - 1) h₀ (by omega)
        (by omega)
    cases hc'.symm.trans hy
    refine ⟨by rintro rfl; revert hname; decide +kernel, ?_⟩
    rw [← Bool.not_eq_true]
    intro hop'
    rw [not_isNameChar_of_isOperatorChar hop'] at hname
    cases hname
  rw [if_neg hword] at hx hy
  by_cases hrun : i.toNat < t.runStop isOperatorChar i.toNat
  · rw [if_pos hrun] at hx
    rw [char_at_runStop hx] at hop
    cases hop
  · rw [if_neg hrun] at hy
    simp only [Int.add_sub_cancel] at hy
    cases hc.symm.trans hy
    refine ⟨by rintro rfl; revert hopen; decide, ?_⟩
    rw [← Bool.not_eq_true]
    intro hop'
    exact hrun (lt_runStop (by rw [← charAt?_eq h₀]; exact hc) hop')

/-- An operator right behind an expression does not go on with it, and no brace stands before it. -/
theorem edge_expressionStop {x y : Char} (h₀ : 0 ≤ i) (h : t.expressionStop bird i = .ok j)
    (hx : t.charAt? j = some x) (hop : isOperatorChar x = true) (hy : t.charAt? (j - 1) = some y) :
    y ≠ '\x7b' ∧ isOperatorChar y = false := by
  unfold expressionStop at h
  split at h
  · cases h
  next hlt =>
  obtain ⟨c, hread, h⟩ := bind_eq_ok.1 h
  have hc : t.charAt? i = some c := by
    obtain ⟨c', hc', hget⟩ := read_yields h₀ (lt_length_of_read hread)
    cases hread.symm.trans hc'
    rw [charAt?_eq h₀, hget]
  split at h
  · cases h
  next hclosing =>
  split at h
  · obtain ⟨-, c', hc', hclose⟩ := char_before_groupRest h₀ h
    cases hc'.symm.trans hy
    have hcases : y = ')' ∨ y = ']' ∨ y = '\x7d' := by simpa [isClosing, or_assoc] using hclose
    rcases hcases with rfl | rfl | rfl <;> decide
  next hopening =>
  obtain ⟨p, hp, h⟩ := bind_eq_ok.1 h
  split at h
  · next hliteral =>
    split at h
    · cases h
    · next hle =>
      cases h
      have hquote : y = '"' ∨ y = '\'' := by
        rcases char_before_stop h₀ hp (by omega) with
          hone | ⟨hkind, -⟩ | ⟨-, hlast | hnl⟩ | ⟨-, hlast⟩
        · rw [hone, Int.add_sub_cancel] at hy
          rcases hliteral with hkind | hkind
          · exact .inl (Option.some.inj (hy.symm.trans (quote_of_string h₀ hp hkind)))
          · exact .inr (Option.some.inj (hy.symm.trans (literal_of_character h₀ hp hkind).1))
        · rw [hkind] at hliteral
          rcases hliteral with h | h <;> cases h
        · exact .inl (Option.some.inj (hy.symm.trans hlast))
        · cases hnl.symm.trans hx
          exact absurd hop (by decide)
        · exact .inr (Option.some.inj (hy.symm.trans hlast))
      rcases hquote with rfl | rfl <;> decide
  · cases h
    exact edge_plainStop h₀ hc (by simpa using hopening) hx hop hy

end Text

end LayoutRule

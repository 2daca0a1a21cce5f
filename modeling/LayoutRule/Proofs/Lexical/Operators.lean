import LayoutRule.Proofs.Lexical.Rendering

/-!
# Operators of dashes

An operator is a longest run of operator characters (`Text.LongestRun`). An operator character
belongs to one such run, and the run is found by going back and forth from the character
(`longestRun_around`, `LongestRun.runStart_eq`, `LongestRun.runStop_eq`).

Two dashes or more that are an operator of their own start a line comment. Where `>` does not stand
right before them, no other dashes do. Behind a `>` the dashes at the end of a longer operator start
a comment too, in every style of document (`lineCommentAt_of_operator`), so that `>--` hides the
rest of its line (`comment_inside_operator`).
-/

namespace LayoutRule

namespace Text

variable {t : Text} {p : Char → Bool} {start stop i k : Nat} {c : Char}

/-! ## Longest runs -/

/-- A longest run of characters of a class, from `start` to the place before `stop`. -/
structure LongestRun (t : Text) (p : Char → Bool) (start stop : Nat) : Prop where
  /-- There is a character in it. -/
  nonempty : start < stop
  /-- All of its characters belong to the class. -/
  inside : ∀ k, start ≤ k → k < stop → ∃ c, t.chars[k]? = some c ∧ p c = true
  /-- It starts the text, or the character before it does not belong to the class. -/
  before : 0 < start → ∃ c, t.chars[start - 1]? = some c ∧ p c = false
  /-- It ends the text, or the character after it does not belong to the class. -/
  after : ∀ c, t.chars[stop]? = some c → p c = false

/-- Every character of a class lies in a longest run of the class. -/
theorem longestRun_around (hc : t.chars[k]? = some c) (hp : p c = true) :
    t.LongestRun p (t.runStart p k) (t.runStop p k) := by
  have hk := Nat.le_of_lt (Array.getElem?_eq_some_iff.mp hc).1
  refine ⟨Nat.lt_of_le_of_lt (t.runStart_le p k) (lt_runStop hc hp), ?_, runStart_stops hk,
    fun _ => not_of_runStop⟩
  intro j h₁ h₂
  rcases Nat.lt_or_ge j k with hlt | hge
  · exact char_of_runStart_le hk h₁ hlt
  · exact char_of_lt_runStop hge h₂

namespace LongestRun

/-- Going back from a character of a longest run leads to its start. -/
theorem runStart_eq (h : t.LongestRun p start stop) (h₁ : start ≤ k) (h₂ : k < stop) :
    t.runStart p k = start := by
  obtain ⟨c, hc, -⟩ := h.inside k h₁ h₂
  apply runStart_eq_of (Nat.le_of_lt (Array.getElem?_eq_some_iff.mp hc).1) h₁
  · intro j hj hlt
    exact h.inside j hj (Nat.lt_trans hlt h₂)
  · exact h.before

/-- Going on from a character of a longest run leads to its end. -/
theorem runStop_eq (h : t.LongestRun p start stop) (h₁ : start ≤ k) (h₂ : k < stop) :
    t.runStop p k = stop := by
  apply runStop_eq_of (Nat.le_of_lt h₂)
  · intro j hj hlt
    exact h.inside j (Nat.le_trans h₁ hj) hlt
  · exact h.after

end LongestRun

/-- A place follows a run when the character before it belongs to the class. -/
theorem runStart_lt_iff (hk : k ≤ t.chars.size) :
    t.runStart p k < k ↔ ∃ c, t.charAt? (k - 1) = some c ∧ p c = true := by
  constructor
  · intro hlt
    rw [charAt?_eq (by omega), show ((k : Int) - 1).toNat = k - 1 by omega]
    exact char_of_runStart_le hk (Nat.le_sub_one_of_lt hlt) (by omega)
  · rintro ⟨c, hc, hp⟩
    have hpos : 0 < k := by
      rcases Nat.eq_zero_or_pos k with rfl | hpos
      · cases hc
      · exact hpos
    rw [charAt?_eq (by omega), show ((k : Int) - 1).toNat = k - 1 by omega] at hc
    rcases Nat.lt_or_eq_of_le (t.runStart_le p k) with hlt | heq
    · exact hlt
    · -- a run that ends here and is empty follows a character of another class
      obtain ⟨c', hc', hnot⟩ := runStart_stops (p := p) hk (by omega)
      rw [heq, hc] at hc'
      cases hc'
      cases hp.symm.trans hnot

/-! ## Dashes in an operator -/

/-- From `start` to the place before `stop` there are dashes only. -/
def DashesOnly (t : Text) (start stop : Nat) : Prop :=
  ∀ k, start ≤ k → k < stop → t.chars[k]? = some '-'

/-- The operator at a place goes on with dashes only when no operator character follows the run of
dashes there. -/
theorem dashesOnly_iff (t : Text) (i : Nat) :
    t.DashesOnly i (t.runStop isOperatorChar i) ↔ t.endsDashes (t.runStop (· == '-') i) = true := by
  have hdash : ∀ k, i ≤ k → k < t.runStop (· == '-') i → t.chars[k]? = some '-' := by
    intro k h₁ h₂
    obtain ⟨c, hc, heq⟩ := char_of_lt_runStop h₁ h₂
    rw [hc, beq_iff_eq.mp heq]
  unfold endsDashes
  constructor
  · intro honly
    have hrun : t.runStop (· == '-') i = t.runStop isOperatorChar i := by
      apply runStop_eq_of (t.le_runStop isOperatorChar i)
      · intro k h₁ h₂
        exact ⟨'-', honly k h₁ h₂, rfl⟩
      · intro c hc
        -- the operator has an end there, and a dash would not be one
        apply beq_eq_false_iff_ne.mpr
        rintro rfl
        exact absurd (not_of_runStop hc) (by decide)
    rw [hrun]
    split
    · next c hc =>
      rw [not_of_runStop hc]
      rfl
    · rfl
  · intro hends
    have hrun : t.runStop isOperatorChar i = t.runStop (· == '-') i := by
      apply runStop_eq_of (t.le_runStop _ i)
      · intro k h₁ h₂
        exact ⟨'-', hdash k h₁ h₂, by decide⟩
      · intro c hc
        rw [hc] at hends
        simpa using hends
    rw [hrun]
    exact hdash

/-- Whether an operator before a place keeps the dashes there from starting a comment. -/
theorem afterOperator_eq_false_iff (hi : i ≤ t.chars.size) :
    t.afterOperator i = false ↔
      (t.runStart isOperatorChar i < i → t.charAt? (i - 1) = some '>') := by
  rw [runStart_lt_iff hi]
  unfold afterOperator
  cases hc : t.charAt? (i - 1) with
  | none => simp
  | some c => cases hop : isOperatorChar c <;> simp [hop]

/-- The operator that starts at `start` ends with the dashes from `i` on, two or more of them. -/
structure DashTail (t : Text) (start i : Nat) : Prop where
  /-- The text from `i` on starts with two dashes. -/
  dashes : Text.dashes <+: t.chars.toList.drop i
  /-- The operator holds the place and goes on with dashes only. -/
  operator : ∃ stop, t.LongestRun isOperatorChar start stop ∧ start ≤ i ∧ i < stop ∧
    t.DashesOnly i stop

/-- What starts with two dashes starts with one. -/
theorem dash_of_dashes (h : Text.dashes <+: t.chars.toList.drop i) : t.chars[i]? = some '-' := by
  obtain ⟨rest, hrest⟩ := h
  rw [← Array.getElem?_toList, ← List.head?_drop, ← hrest]
  rfl

/-- The operator at a place is found by going back and forth from the place. -/
theorem dashTail_iff :
    t.DashTail start i ↔ Text.dashes <+: t.chars.toList.drop i ∧
      t.runStart isOperatorChar i = start ∧
      t.DashesOnly i (t.runStop isOperatorChar i) := by
  constructor
  · intro h
    obtain ⟨stop, hrun, h₁, h₂, honly⟩ := h.operator
    rw [hrun.runStart_eq h₁ h₂, hrun.runStop_eq h₁ h₂]
    exact ⟨h.dashes, rfl, honly⟩
  · rintro ⟨hdashes, rfl, honly⟩
    have hdash := dash_of_dashes hdashes
    exact ⟨hdashes, _, longestRun_around hdash (by decide), t.runStart_le _ i,
      lt_runStop hdash (by decide), honly⟩

/-- A `>` right before the dashes belongs to their operator. -/
theorem DashTail.start_lt (h : t.DashTail start i) (hmarker : t.charAt? (i - 1) = some '>') :
    start < i := by
  obtain ⟨hdashes, rfl, -⟩ := dashTail_iff.mp h
  have hsize := (Array.getElem?_eq_some_iff.mp (dash_of_dashes hdashes)).1
  exact (runStart_lt_iff (Nat.le_of_lt hsize)).mpr ⟨'>', hmarker, by decide⟩

/-- A line comment starts with the dashes that end an operator, if they are all of it or stand
behind a `>`. -/
theorem lineCommentAt_dashTail (t : Text) (i : Nat) :
    ∃ found, t.lineCommentAt i t.length = .ok found ∧
      (found = true ↔ ∃ start, t.DashTail start i ∧
        (start < i → t.charAt? (i - 1) = some '>')) := by
  rcases Nat.lt_or_ge t.chars.size i with hlt | hi
  · -- past the end there are no dashes
    have hword : t.hasWord dashes i t.length = false := by
      apply Bool.eq_false_iff.mpr
      intro hword
      have := lt_length_of_hasWord hword
      unfold length at this
      omega
    refine ⟨false,
      by unfold lineCommentAt; rw [hword]; rfl, ⟨fun h => absurd h Bool.false_ne_true, ?_⟩⟩
    rintro ⟨start, ⟨⟨rest, hrest⟩, -⟩, -⟩
    rw [List.drop_eq_nil_of_le (by simpa using Nat.le_of_lt hlt)] at hrest
    cases hrest
  · have hreads : t.Reads (t.chars.toList.take i) (t.chars.toList.drop i) :=
      (List.take_append_drop i _).symm
    have hword := hreads.hasWord dashes
    rw [List.length_take_of_le (by simpa using hi)] at hword
    refine ⟨_, lineCommentAt_eq (Int.natCast_nonneg i) (Int.ofNat_le.mpr hi), ?_⟩
    rw [Int.toNat_natCast, hword, Bool.and_eq_true, Bool.and_eq_true, Bool.not_eq_true',
      List.isPrefixOf_iff_prefix, afterOperator_eq_false_iff hi, ← dashesOnly_iff]
    constructor
    · rintro ⟨⟨hdashes, hfront⟩, honly⟩
      exact ⟨_, dashTail_iff.mpr ⟨hdashes, rfl, honly⟩, hfront⟩
    · rintro ⟨start, htail, hfront⟩
      obtain ⟨hdashes, rfl, honly⟩ := dashTail_iff.mp htail
      exact ⟨⟨hdashes, hfront⟩, honly⟩

/-- Where no `>` stands right before a place, a line comment starts there exactly with dashes that
are an operator of their own. Behind a `>`, dashes never are, and a comment starts with those that
end a longer operator. -/
theorem lineCommentAt_of_operator (t : Text) (i : Nat) :
    ∃ found, t.lineCommentAt i t.length = .ok found ∧
      (t.charAt? (i - 1) ≠ some '>' → (found = true ↔ t.DashTail i i)) ∧
      (t.charAt? (i - 1) = some '>' → ¬ t.DashTail i i ∧
        (found = true ↔ ∃ start < i, t.DashTail start i)) := by
  obtain ⟨found, hfound, hiff⟩ := t.lineCommentAt_dashTail i
  refine ⟨found, hfound, fun hother => ?_, fun hmarker => ?_⟩
  · rw [hiff]
    constructor
    · rintro ⟨start, htail, hfront⟩
      obtain ⟨stop, -, hle, -⟩ := htail.operator
      rcases Nat.lt_or_eq_of_le hle with hlt | rfl
      · exact absurd (hfront hlt) hother
      · exact htail
    · intro htail
      exact ⟨i, htail, fun hlt => absurd hlt (Nat.lt_irrefl i)⟩
  · refine ⟨fun htail => Nat.lt_irrefl i (htail.start_lt hmarker), ?_⟩
    rw [hiff]
    constructor
    · rintro ⟨start, htail, -⟩
      exact ⟨start, htail.start_lt hmarker, htail⟩
    · rintro ⟨start, -, htail⟩
      exact ⟨start, htail, fun _ => hmarker⟩

/-- In a document without markers, the dashes of the operator `>--` are taken for a comment. -/
theorem comment_inside_operator :
    let d := Document.new (ofString "x >-- y") .plain 8
    d.bird = false ∧ d.text.lineCommentAt 3 d.text.length = .ok true ∧
    d.text.LongestRun isOperatorChar 2 5 ∧
      ¬ (d.text.lineCommentAt 3 d.text.length = .ok true ↔ d.text.DashTail 3 3) := by
  have hfound : (ofString "x >-- y").lineCommentAt 3 (ofString "x >-- y").length = .ok true := by
    decide +kernel
  have hstart : (ofString "x >-- y").runStart isOperatorChar 3 = 2 := by decide +kernel
  have hstop : (ofString "x >-- y").runStop isOperatorChar 3 = 5 := by decide +kernel
  have hrun : (ofString "x >-- y").LongestRun isOperatorChar 2 5 := by
    rw [← hstart, ← hstop]
    exact longestRun_around (c := '-') (by decide) (by decide)
  refine ⟨by decide, hfound, hrun, fun hiff => ?_⟩
  obtain ⟨-, hself, -⟩ := dashTail_iff.mp (hiff.mp hfound)
  cases hstart.symm.trans hself

end Text

end LayoutRule

import LayoutRule.Layout.Settings
import LayoutRule.Proofs.Document.Gaps
import LayoutRule.Proofs.Text.Lookahead
import LayoutRule.Request.Answer

/-!
# Parallel documents

Two documents are *parallel* when their lines, one by one from the top, hold the same code. The
indentation of a line may differ, markers of literate lines included, and so may everything below
the last line that is compared. Columns correspond up to a common shift, at least on the lines above
a line that may have been moved.

`Parallel` holds what a request can observe of two such documents. A position of the code of a line
in one document has its counterpart in the other (`Parallel.Place`); positions inside the
indentation have none, apart from the starts of lines. Counterparts hold the same character, come in
the same order, and what is read forward from them on the line is the same.
-/

namespace LayoutRule

/-- The lines at `x` and `y` have the same number `n`; every line above them ends before the two
ends. -/
inductive SameLine (t u : Text) (end₁ end₂ : Int) : Nat → Int → Int → Prop where
  | first : SameLine t u end₁ end₂ 0 0 0
  | next {n : Nat} {x y : Int} (h : SameLine t u end₁ end₂ n x y) (hx : t.lineStop x < end₁)
      (hy : u.lineStop y < end₂) :
      SameLine t u end₁ end₂ (n + 1) (t.lineStop x + 1) (u.lineStop y + 1)

namespace SameLine

variable {t u : Text} {end₁ end₂ x y x' y' : Int} {n n' : Nat}

/-- Lines are determined by their numbers. -/
theorem unique (h : SameLine t u end₁ end₂ n x y) (h' : SameLine t u end₁ end₂ n x' y') :
    x = x' ∧ y = y' := by
  induction h generalizing x' y' with
  | first =>
    cases h'
    exact ⟨rfl, rfl⟩
  | next _ _ _ ih =>
    cases h' with
    | next h' _ _ =>
      obtain ⟨rfl, rfl⟩ := ih h'
      exact ⟨rfl, rfl⟩

/-- Lines come in the order of their numbers. -/
theorem le (hend : end₁ ≤ t.length) (h : SameLine t u end₁ end₂ n x y)
    (h' : SameLine t u end₁ end₂ n' x' y') (hn : n' ≤ n) : x' ≤ x := by
  have hmem : ∀ {n x y}, SameLine t u end₁ end₂ n x y → 0 ≤ x ∧ x ≤ t.length := by
    intro n x y h
    cases h with
    | first => exact ⟨Int.le_refl _, t.length_nonneg⟩
    | @next _ x _ h hx _ =>
      have h₁ := t.lineStart_nonneg x
      have h₂ := t.lineStart_le_lineStop x
      omega
  induction h with
  | first =>
    obtain rfl : n' = 0 := by omega
    cases h'
    exact Int.le_refl _
  | @next n x y h hx hy ih =>
    rcases Nat.eq_or_lt_of_le hn with rfl | hlt
    · cases h' with
      | next h' _ _ =>
        obtain ⟨rfl, rfl⟩ := h.unique h'
        exact Int.le_refl _
    · have h₁ := ih (by omega)
      have h₂ := Text.le_lineStop (hmem h).1 (hmem h).2
      omega

end SameLine

/-- Every line of the first text that does not start behind its end has a counterpart, when a line
can only be the last one of both texts. -/
theorem exists_sameLine {t u : Text} {end₁ end₂ bol : Int}
    (hnext : ∀ {n x y}, SameLine t u end₁ end₂ n x y → t.lineStop x < end₁ → u.lineStop y < end₂)
    (hbol : t.lineStart bol = bol) (hle : bol ≤ end₁) : ∃ n y, SameLine t u end₁ end₂ n bol y := by
  by_cases hz : bol = 0
  · subst hz
    exact ⟨0, 0, .first⟩
  · have habove : t.lineAbove? bol = some (t.lineStart (bol - 1)) := by
      unfold Text.lineAbove?
      rw [Text.moveLines_neg_one, hbol, if_neg hz]
      rfl
    have hlt := Text.lineAbove?_lt habove
    have hstop := Text.lineStop_of_lineAbove? habove
    obtain ⟨n, y, hline⟩ := exists_sameLine hnext (Text.lineStart_of_lineAbove? habove) (by omega)
    have hline' := SameLine.next hline (by omega) (hnext hline (by omega))
    rw [hstop, hbol, Int.sub_add_cancel] at hline'
    exact ⟨n + 1, _, hline'⟩
termination_by bol.toNat
decreasing_by omega

/-- No offset of the settings leads to the left. -/
structure Settings.Rightward (s : Settings) : Prop where
  /-- The general step. -/
  indentStep : 0 ≤ s.indentStep
  /-- The offset of `then` and `else`. -/
  thenElseOffset : 0 ≤ s.thenElseOffset
  /-- The offsets of keywords, hanging ones included. -/
  keywordOffsets : ∀ entry ∈ s.keywordOffsets, ∀ offset : Int,
    entry.2.offset = some offset ∨ entry.2.hanging = some offset → 0 ≤ offset

namespace Settings.Rightward

variable {s : Settings}

/-- When no offset of the settings leads to the left, neither does the one of a closing keyword. -/
theorem closerOffset_nonneg (h : s.Rightward) (pair : KeywordPair) : 0 ≤ pair.closerOffset s := by
  have hthen := h.thenElseOffset
  cases pair
  · exact Int.le_refl 0
  · exact Int.le_refl 0
  · exact hthen
  · exact hthen

/-- The offsets of a keyword lead to the right, whichever of them counts. -/
theorem keywordOffset_nonneg (h : s.Rightward) {word : String} {offsets : KeywordOffset}
    (hword : s.keywordOffset? word = some offsets) {offset : Int}
    (ho : offsets.offset = some offset ∨ offsets.hanging = some offset) : 0 ≤ offset := by
  obtain ⟨l₁, l₂, hl, -⟩ := List.lookup_eq_some_iff.mp hword
  exact h.keywordOffsets (word, offsets) (by rw [hl]; simp) offset ho

end Settings.Rightward

/-- The offsets that are used when nothing is chosen lead to the right. -/
theorem rightward_default : ({} : Settings).Rightward where
  indentStep := by decide
  thenElseOffset := by decide
  keywordOffsets entry hentry offset hoffset := by
    have hall : ∀ entry ∈ ({} : Settings).keywordOffsets,
        (∀ o ∈ entry.2.offset, 0 ≤ o) ∧ ∀ o ∈ entry.2.hanging, 0 ≤ o := by decide
    obtain ⟨hplain, hhanging⟩ := hall entry hentry
    rcases hoffset with h | h
    · exact hplain offset h
    · exact hhanging offset h

/-- The lines of two documents hold the same code up to the line that ends at `end₁` and `end₂`. -/
structure Parallel (s : Settings) (d e : Document) where
  /-- The end of the last line that is compared. -/
  end₁ : Int
  /-- Its counterpart. -/
  end₂ : Int
  /-- How far the columns of the second document lie to the right. -/
  shift : Int
  /-- Columns correspond on the lines that start before this position. -/
  free : Int
  /-- The two ends are those of lines with the same number. -/
  last : ∃ n x y, SameLine d.text e.text end₁ end₂ n x y ∧ d.text.lineStop x = end₁ ∧
    e.text.lineStop y = end₂
  /-- Both ends are those of the texts, or a line follows in both. -/
  ends : (end₁ = d.text.length ∧ end₂ = e.text.length) ∨
    (d.text.charAt? end₁ = some '\n' ∧ e.text.charAt? end₂ = some '\n')
  /-- The code of a line is equally long. -/
  width : ∀ {n x y}, SameLine d.text e.text end₁ end₂ n x y →
    e.text.lineStop y - e.indentationPoint y = d.text.lineStop x - d.indentationPoint x
  /-- It consists of the same characters. -/
  char : ∀ {n x y}, SameLine d.text e.text end₁ end₂ n x y →
    ∀ o : Nat, d.indentationPoint x + o < d.text.lineStop x →
    d.text.charAt? (d.indentationPoint x + o) = e.text.charAt? (e.indentationPoint y + o)
  /-- Its columns correspond. -/
  column : ∀ {n x y}, SameLine d.text e.text end₁ end₂ n x y → x < free → ∀ o : Nat,
    d.indentationPoint x + o ≤ d.text.lineStop x →
    e.column (e.indentationPoint y + o) = d.column (d.indentationPoint x + o) + shift
  /-- Down to the line that may have been moved, the same lines are prose. -/
  prose : ∀ {n x y}, SameLine d.text e.text end₁ end₂ n x y → x ≤ free → e.isProse y = d.isProse x
  /-- The same lines lie in the block of code of such a line. -/
  codeStart : ∀ {n x y n' x' y'}, SameLine d.text e.text end₁ end₂ n x y → x ≤ free →
    SameLine d.text e.text end₁ end₂ n' x' y' → n' ≤ n → (e.codeStart y < y' ↔ d.codeStart x < x')
  /-- The columns of top-level definitions correspond. -/
  top : s.topColumn e = s.topColumn d + shift
  /-- Only a document without markers has a counterpart with shifted columns. -/
  style : (shift = 0 ∧ e.bird = d.bird) ∨ (2 ≤ shift ∧ d.bird = false)
  /-- Columns are shifted only when no offset leads to the left. -/
  rightward : shift = 0 ∨ s.Rightward

namespace Parallel

open Text Document

variable {s : Settings} {d e : Document} {C : Parallel s d e} {n n' : Nat}
  {x y x' y' a b a' b' : Int}

/-! ## Lines -/

/-- The lines at `x` and `y` correspond. -/
def Line (C : Parallel s d e) (n : Nat) (x y : Int) : Prop :=
  SameLine d.text e.text C.end₁ C.end₂ n x y

/-- The last lines that are compared end inside the texts. -/
theorem end_le (C : Parallel s d e) : C.end₁ ≤ d.text.length ∧ C.end₂ ≤ e.text.length := by
  obtain ⟨n, x, y, -, hx, hy⟩ := C.last
  rw [← hx, ← hy]
  exact ⟨d.text.lineStop_le_length x, e.text.lineStop_le_length y⟩

/-- A position right after the end of a line starts a line. -/
theorem lineStart_succ_lineStop {t : Text} (h : t.lineStop x < t.length) :
    t.lineStart (t.lineStop x + 1) = t.lineStop x + 1 := by
  have hnl := newline_at_lineStop x h
  have hle := t.lineStart_le_lineStop x
  have hnonneg := t.lineStart_nonneg x
  have hb : t.bound (t.lineStop x + 1) = (t.lineStop x).toNat + 1 := by
    rw [bound_toNat (by omega) (by omega)]
    omega
  unfold lineStart
  rw [hb, runStart_of_newline hnl]
  omega

namespace Line

/-- Corresponding lines are given by their starts. -/
theorem starts (h : C.Line n x y) : d.text.lineStart x = x ∧ e.text.lineStart y = y := by
  obtain ⟨hend₁, hend₂⟩ := C.end_le
  cases h with
  | first =>
    have h₁ := lineStart_le (t := d.text) (Int.le_refl 0)
    have h₂ := lineStart_le (t := e.text) (Int.le_refl 0)
    have h₃ := d.text.lineStart_nonneg 0
    have h₄ := e.text.lineStart_nonneg 0
    omega
  | next _ hx hy => exact ⟨lineStart_succ_lineStop (by omega), lineStart_succ_lineStop (by omega)⟩

/-- Corresponding lines start inside the texts. -/
theorem nonneg (h : C.Line n x y) : 0 ≤ x ∧ 0 ≤ y := by
  rw [← h.starts.1, ← h.starts.2]
  exact ⟨d.text.lineStart_nonneg x, e.text.lineStart_nonneg y⟩

/-- Corresponding lines end behind their starts, or there when they are empty. -/
theorem le_lineStop (h : C.Line n x y) : x ≤ d.text.lineStop x ∧ y ≤ e.text.lineStop y := by
  have h₁ := d.text.lineStart_le_lineStop x
  have h₂ := e.text.lineStart_le_lineStop y
  rw [h.starts.1] at h₁
  rw [h.starts.2] at h₂
  exact ⟨h₁, h₂⟩

/-- Lines are determined by their numbers. -/
theorem unique (h : C.Line n x y) (h' : C.Line n x' y') : x = x' ∧ y = y' := SameLine.unique h h'

/-- A line ends before a later one starts. -/
theorem lt (h : C.Line n x y) (h' : C.Line n' x' y') (hlt : n < n') :
    d.text.lineStop x < x' ∧ e.text.lineStop y < y' := by
  induction n' generalizing x' y' with
  | zero => omega
  | succ n' ih =>
    cases h' with
    | next h' _ _ =>
      rcases Nat.eq_or_lt_of_le (Nat.le_of_lt_succ hlt) with rfl | hlt'
      · obtain ⟨rfl, rfl⟩ := h.unique h'
        omega
      · have hbefore := ih h' hlt'
        have hle := le_lineStop h'
        omega

/-- No line that is compared passes the ends, and the last one reaches both. -/
theorem lineStop_le (h : C.Line n x y) :
    d.text.lineStop x ≤ C.end₁ ∧ e.text.lineStop y ≤ C.end₂ ∧
      (d.text.lineStop x < C.end₁ ↔ e.text.lineStop y < C.end₂) := by
  obtain ⟨n', x', y', h', hx', hy'⟩ := C.last
  rcases Nat.lt_trichotomy n n' with hlt | rfl | hgt
  · have hbefore := h.lt h' hlt
    have hle := le_lineStop (C := C) h'
    omega
  · obtain ⟨rfl, rfl⟩ := h.unique h'
    omega
  · -- the last line has none below it
    exfalso
    induction n generalizing x y with
    | zero => omega
    | succ n ih =>
      cases h with
      | next h hx hy =>
        rcases Nat.eq_or_lt_of_le (Nat.le_of_lt_succ hgt) with rfl | hgt'
        · obtain ⟨rfl, rfl⟩ := unique (C := C) h h'
          omega
        · exact ih h hgt'

/-- The lines below corresponding lines correspond, as long as they are compared. -/
theorem below (h : C.Line n x y) (hlt : d.text.lineStop x < C.end₁) :
    C.Line (n + 1) (d.text.lineStop x + 1) (e.text.lineStop y + 1) :=
  .next h hlt (h.lineStop_le.2.2.mp hlt)

/-- The indentation points of corresponding lines lie on these lines. -/
theorem point_le (h : C.Line n x y) :
    x ≤ d.indentationPoint x ∧ d.indentationPoint x ≤ d.text.lineStop x ∧
      y ≤ e.indentationPoint y ∧ e.indentationPoint y ≤ e.text.lineStop y := by
  have h₁ := d.lineStart_le_indentationPoint x
  have h₂ := e.lineStart_le_indentationPoint y
  rw [h.starts.1] at h₁
  rw [h.starts.2] at h₂
  exact ⟨h₁, (d.indentationPoint_bounds x).2, h₂, (e.indentationPoint_bounds y).2⟩

end Line

/-! ## Places -/

/-- The positions `a` and `b` of the code of corresponding lines are counterparts. -/
structure Place (C : Parallel s d e) (a b : Int) : Prop where
  /-- They stand on corresponding lines. -/
  line : ∃ n, C.Line n (d.text.lineStart a) (e.text.lineStart b)
  /-- The first one is a position of the code. -/
  point_le : d.indentationPoint a ≤ a
  /-- It is not past the end of the line. -/
  le_stop : a ≤ d.text.lineStop a
  /-- They stand equally far in the code. -/
  offset : b - e.indentationPoint b = a - d.indentationPoint a

/-- Equal distances from the indentation points of corresponding lines lead to counterparts, as long
as they stay on the line. -/
theorem Line.place (h : C.Line n x y) (o : Nat)
    (hle : d.indentationPoint x + o ≤ d.text.lineStop x) :
    C.Place (d.indentationPoint x + o) (e.indentationPoint y + o) := by
  obtain ⟨hx₁, hx₂, hy₁, hy₂⟩ := h.point_le
  have hwidth := C.width h
  have hstart : d.text.lineStart (d.indentationPoint x + o) = d.text.lineStart x :=
    lineStart_eq_of_between (by rw [h.starts.1]; omega) hle
  have hstart' : e.text.lineStart (e.indentationPoint y + o) = e.text.lineStart y :=
    lineStart_eq_of_between (by rw [h.starts.2]; omega) (by omega)
  have hpoint := indentationPoint_eq_of_lineStart_eq hstart
  have hpoint' := indentationPoint_eq_of_lineStart_eq hstart'
  refine ⟨⟨n, ?_⟩, by omega, ?_, by omega⟩
  · rw [hstart, hstart', h.starts.1, h.starts.2]
    exact h
  · rw [lineStop_eq_of_lineStart_eq hstart]
    exact hle

/-- The indentation points of corresponding lines are counterparts. -/
theorem Line.point (h : C.Line n x y) : C.Place (d.indentationPoint x) (e.indentationPoint y) := by
  have := h.place 0 (by have := h.point_le; omega)
  simpa using this

namespace Place

/-- Counterparts lie inside their texts, on their lines, and in the code of these lines. -/
theorem bounds (h : C.Place a b) :
    0 ≤ a ∧ a ≤ d.text.length ∧ 0 ≤ b ∧ b ≤ e.text.length ∧ b ≤ e.text.lineStop b ∧
    e.indentationPoint b ≤ b := by
  obtain ⟨n, hline⟩ := h.line
  have h₁ := d.indentationPoint_nonneg a
  have h₂ := e.indentationPoint_nonneg b
  have h₃ := d.text.lineStop_le_length a
  have h₄ := e.text.lineStop_le_length b
  have hwidth := C.width hline
  rw [d.text.lineStop_lineStart, e.text.lineStop_lineStart,
    indentationPoint_eq_of_lineStart_eq (d.text.lineStart_lineStart a),
    indentationPoint_eq_of_lineStart_eq (e.text.lineStart_lineStart b)] at hwidth
  have h₅ := h.point_le
  have h₆ := h.le_stop
  have h₇ := h.offset
  omega

/-- Counterparts are positions of their texts, so that clamping leaves them. -/
theorem clamp_eq (h : C.Place a b) : (d.text.clamp a : Int) = a ∧ (e.text.clamp b : Int) = b := by
  obtain ⟨h₁, h₂, h₃, h₄, -⟩ := h.bounds
  exact ⟨clamp_of_mem h₁ h₂, clamp_of_mem h₃ h₄⟩

/-- Counterparts are positions of their texts, so that bounding leaves them. -/
theorem bound_eq (h : C.Place a b) : (d.text.bound a : Int) = a ∧ (e.text.bound b : Int) = b := by
  obtain ⟨h₁, h₂, h₃, h₄, -⟩ := h.bounds
  exact ⟨bound_of_mem h₁ h₂, bound_of_mem h₃ h₄⟩

/-- Further along the line there are counterparts as well. -/
theorem move (h : C.Place a b) (hle : d.indentationPoint a ≤ a') (hstop : a' ≤ d.text.lineStop a) :
    C.Place a' (b + (a' - a)) := by
  obtain ⟨n, hline⟩ := h.line
  have hpoint := indentationPoint_eq_of_lineStart_eq (d.text.lineStart_lineStart a)
  have hpoint' := indentationPoint_eq_of_lineStart_eq (e.text.lineStart_lineStart b)
  have hplace := hline.place (a' - d.indentationPoint a).toNat
    (by rw [hpoint, d.text.lineStop_lineStart]; omega)
  have hoffset := h.offset
  rw [hpoint, hpoint', show d.indentationPoint a + ((a' - d.indentationPoint a).toNat : Int) =
    a' by omega,
    show e.indentationPoint b + ((a' - d.indentationPoint a).toNat : Int) = b + (a' - a) by
      omega] at hplace
  exact hplace

/-- The indentation points of the lines of counterparts are counterparts. -/
theorem point (h : C.Place a b) : C.Place (d.indentationPoint a) (e.indentationPoint b) := by
  have := h.move (Int.le_refl _) (by have := h.point_le; have := h.le_stop; omega)
  rw [show b + (d.indentationPoint a - a) = e.indentationPoint b by have := h.offset; omega] at this
  exact this

/-- Places come in the same order in both documents. -/
theorem lt_iff (h : C.Place a b) (h' : C.Place a' b') : b < b' ↔ a < a' := by
  obtain ⟨n, hline⟩ := h.line
  obtain ⟨n', hline'⟩ := h'.line
  have h₁ := h.bounds
  have h₂ := h'.bounds
  have h₃ := h.le_stop
  have h₄ := h'.le_stop
  have h₅ := h.offset
  have h₆ := h'.offset
  have h₇ := h.point_le
  have h₈ := h'.point_le
  have h₉ := d.lineStart_le_indentationPoint a
  have h₁₀ := d.lineStart_le_indentationPoint a'
  have h₁₁ := e.lineStart_le_indentationPoint b
  have h₁₂ := e.lineStart_le_indentationPoint b'
  rcases Nat.lt_trichotomy n n' with hlt | rfl | hgt
  · have := hline.lt hline' hlt
    rw [d.text.lineStop_lineStart, e.text.lineStop_lineStart] at this
    omega
  · obtain ⟨hx, hy⟩ := hline.unique hline'
    have hp := indentationPoint_eq_of_lineStart_eq hx
    have hq := indentationPoint_eq_of_lineStart_eq hy
    omega
  · have := hline'.lt hline hgt
    rw [d.text.lineStop_lineStart, e.text.lineStop_lineStart] at this
    omega

/-- Counterparts come in the same order. -/
theorem le_iff (h : C.Place a b) (h' : C.Place a' b') : b ≤ b' ↔ a ≤ a' := by
  have := h'.lt_iff h
  omega

/-- Different places have different counterparts. -/
theorem eq_iff (h : C.Place a b) (h' : C.Place a' b') : b = b' ↔ a = a' := by
  have h₁ := h.le_iff h'
  have h₂ := h'.le_iff h
  omega

/-- Places on one line have counterparts on one line. -/
theorem lineStart_eq_iff (h : C.Place a b) (h' : C.Place a' b') :
    e.text.lineStart b = e.text.lineStart b' ↔ d.text.lineStart a = d.text.lineStart a' := by
  obtain ⟨n, hline⟩ := h.line
  obtain ⟨n', hline'⟩ := h'.line
  rcases Nat.lt_trichotomy n n' with hlt | rfl | hgt
  · have h₁ := hline.lt hline' hlt
    have h₂ := hline.le_lineStop
    omega
  · have h₁ := hline.unique hline'
    omega
  · have h₁ := hline'.lt hline hgt
    have h₂ := hline'.le_lineStop
    omega

/-- A place is not past the ends. -/
theorem le_end (h : C.Place a b) : a ≤ C.end₁ ∧ b ≤ C.end₂ := by
  obtain ⟨n, hline⟩ := h.line
  have hstop := hline.lineStop_le
  rw [d.text.lineStop_lineStart, e.text.lineStop_lineStart] at hstop
  have h₁ := h.le_stop
  have h₂ := h.bounds
  omega

/-- The ends of the lines of counterparts are counterparts. -/
theorem stop (h : C.Place a b) : C.Place (d.text.lineStop a) (e.text.lineStop b) := by
  obtain ⟨n, hline⟩ := h.line
  have hwidth := C.width hline
  rw [d.text.lineStop_lineStart, e.text.lineStop_lineStart,
    indentationPoint_eq_of_lineStart_eq (d.text.lineStart_lineStart a),
    indentationPoint_eq_of_lineStart_eq (e.text.lineStart_lineStart b)] at hwidth
  have hoffset := h.offset
  have := h.move (d.indentationPoint_bounds a).2 (Int.le_refl _)
  rw [show b + (d.text.lineStop a - a) = e.text.lineStop b by omega] at this
  exact this

/-! ## Characters -/

/-- Corresponding lines end alike. -/
theorem char_lineStop (h : C.Place a b) :
    (d.text.charAt? (d.text.lineStop a) = some '\n' ∧
      e.text.charAt? (e.text.lineStop b) = some '\n') ∨
      (d.text.lineStop a = d.text.length ∧ e.text.lineStop b = e.text.length) := by
  obtain ⟨n, hline⟩ := h.line
  have hstop := hline.lineStop_le
  rw [d.text.lineStop_lineStart, e.text.lineStop_lineStart] at hstop
  obtain ⟨hend₁, hend₂⟩ := C.end_le
  have hd := d.text.lineStart_le_lineStop a
  have he := e.text.lineStart_le_lineStop b
  have hd₀ := d.text.lineStart_nonneg a
  have he₀ := e.text.lineStart_nonneg b
  rcases Int.lt_or_eq_of_le hstop.1 with hlt | heq
  · left
    rw [charAt?_eq (by omega), charAt?_eq (by omega)]
    exact ⟨newline_at_lineStop a (by omega), newline_at_lineStop b (by omega)⟩
  · have heq₂ : e.text.lineStop b = C.end₂ := by omega
    rw [heq, heq₂]
    rcases C.ends with hends | hends
    · exact .inr hends
    · exact .inl hends

/-- Counterparts hold the same character, or both stand at the end of their text. -/
theorem char (h : C.Place a b) : e.text.charAt? b = d.text.charAt? a := by
  obtain ⟨n, hline⟩ := h.line
  have h₁ := h.point_le
  have h₂ := h.offset
  have hpoint := indentationPoint_eq_of_lineStart_eq (d.text.lineStart_lineStart a)
  have hpoint' := indentationPoint_eq_of_lineStart_eq (e.text.lineStart_lineStart b)
  rcases Int.lt_or_eq_of_le h.le_stop with hlt | heq
  · have hchar := C.char hline (a - d.indentationPoint a).toNat
      (by rw [hpoint, d.text.lineStop_lineStart]; omega)
    rw [hpoint, hpoint', show d.indentationPoint a + ((a - d.indentationPoint a).toNat : Int) =
      a by omega,
      show e.indentationPoint b + ((a - d.indentationPoint a).toNat : Int) = b by omega] at hchar
    exact hchar.symm
  · have hb : b = e.text.lineStop b := (h.eq_iff h.stop).mpr heq
    have hend : ∀ (t : Text) (i : Int), i = t.length → t.charAt? i = none := by
      intro t i hi
      rw [charAt?_eq (by rw [hi]; exact t.length_nonneg)]
      exact Array.getElem?_eq_none (by unfold length at hi; omega)
    rcases h.char_lineStop with ⟨hd, he⟩ | ⟨hd, he⟩
    · rw [heq, hb, hd, he]
    · rw [hend _ _ (heq.trans hd), hend _ _ (hb.trans he)]

/-- Counterparts have the same index after clamping as before. -/
theorem clamp_toNat (h : C.Place a b) : d.text.clamp a = a.toNat ∧ e.text.clamp b = b.toNat := by
  have := h.clamp_eq
  omega

/-- For counterparts, bounding and clamping are the same. -/
theorem bound_eq_clamp (h : C.Place a b) :
    d.text.bound a = d.text.clamp a ∧ e.text.bound b = e.text.clamp b := by
  have h₁ := h.clamp_eq
  have h₂ := h.bound_eq
  omega

/-- A character other than the newline stands before the end of its line. -/
theorem lt_lineStop (h : C.Place a b) {c : Char} (hc : d.text.charAt? a = some c) (hne : c ≠ '\n') :
    a < d.text.lineStop a := by
  rcases Int.lt_or_eq_of_le h.le_stop with hlt | heq
  · exact hlt
  · exfalso
    rcases h.char_lineStop with ⟨hd, -⟩ | ⟨hd, -⟩
    · rw [← heq, hc] at hd
      cases hd
      exact hne rfl
    · rw [← heq] at hd
      rw [charAt?_eq h.bounds.1] at hc
      have := (Array.getElem?_eq_some_iff.mp hc).1
      unfold length at hd
      omega

/-- Behind a character other than the newline there is a place again. -/
theorem succ (h : C.Place a b) {c : Char} (hc : d.text.charAt? a = some c) (hne : c ≠ '\n') :
    C.Place (a + 1) (b + 1) := by
  have hlt := h.lt_lineStop hc hne
  have := h.move (by have := h.point_le; omega : d.indentationPoint a ≤ a + 1) (by omega)
  rw [show b + (a + 1 - a) = b + 1 by omega] at this
  exact this

/-- Before a place that does not start the code of its line there is a place as well. -/
theorem pred (h : C.Place a b) (hne : a ≠ d.indentationPoint a) : C.Place (a - 1) (b - 1) := by
  have := h.move (by have := h.point_le; omega : d.indentationPoint a ≤ a - 1)
    (by have := h.le_stop; omega)
  rw [show b + (a - 1 - a) = b - 1 by omega] at this
  exact this

/-- A newline ends its line. -/
theorem eq_lineStop (h : C.Place a b) (hc : d.text.charAt? a = some '\n') :
    a = d.text.lineStop a ∧ b = e.text.lineStop b := by
  suffices ha : a = d.text.lineStop a from ⟨ha, (h.eq_iff h.stop).mpr ha⟩
  rcases Int.lt_or_eq_of_le h.le_stop with hlt | heq
  · have hstart := d.lineStart_le_indentationPoint a
    have hpoint := h.point_le
    have h₀ := h.bounds.1
    obtain ⟨c, hget, hne⟩ := char_of_between (t := d.text) a (i := a.toNat) (by omega) (by omega)
    rw [charAt?_eq h₀, hget] at hc
    cases hc
    exact absurd hne (by decide)
  · exact heq

/-- Behind a newline before the ends corresponding lines start. -/
theorem below (h : C.Place a b) (hc : d.text.charAt? a = some '\n') (hlt : a < C.end₁) :
    ∃ n, C.Line n (a + 1) (b + 1) := by
  obtain ⟨n, hline⟩ := h.line
  obtain ⟨ha, hb⟩ := h.eq_lineStop hc
  have hbelow := hline.below (by rw [d.text.lineStop_lineStart]; omega)
  rw [d.text.lineStop_lineStart, e.text.lineStop_lineStart, ← ha, ← hb] at hbelow
  exact ⟨n + 1, hbelow⟩

/-- The texts agree from counterparts to the ends of their lines. -/
theorem agree (h : C.Place a b) : d.text.Agree (d.text.clamp a) e.text (e.text.clamp b) := by
  intro i hi
  obtain ⟨h₁, h₂, h₃, h₄, h₅, h₆⟩ := h.bounds
  obtain ⟨hclamp, hclamp'⟩ := h.clamp_toNat
  rcases Int.lt_or_le (d.text.lineStop a) (a + i) with hlt | hle
  · -- past the line there is nothing in either text: its end was no newline
    have hstop := h.le_stop
    have hno := hi (d.text.lineStop a - a).toNat (by omega)
    have hno' : d.text.charAt? (d.text.lineStop a) ≠ some '\n' := by
      rw [charAt?_eq (by omega), show (d.text.lineStop a).toNat =
        d.text.clamp a + (d.text.lineStop a - a).toNat by omega]
      exact hno
    have hstopOffset := h.stop.offset
    have hwidth : e.text.lineStop b - b = d.text.lineStop a - a := by
      have hp := h.offset
      have hq := indentationPoint_eq_of_lineStart_eq
        (lineStart_eq_of_between (t := d.text) (p := a) (d.text.lineStart_le_lineStop a)
          (Int.le_refl _))
      have hr := indentationPoint_eq_of_lineStart_eq
        (lineStart_eq_of_between (t := e.text) (p := b) (e.text.lineStart_le_lineStop b)
          (Int.le_refl _))
      omega
    rcases h.char_lineStop with ⟨hd, -⟩ | ⟨hd, he⟩
    · exact absurd hd hno'
    · unfold length at hd he
      rw [Array.getElem?_eq_none (by omega), Array.getElem?_eq_none (by omega)]
  · have hplace := h.move (by have := h.point_le; omega) hle
    have hchar := hplace.char
    rw [charAt?_eq (by omega), charAt?_eq (by omega),
      show (b + (a + i - a)).toNat = e.text.clamp b + i by omega,
      show (a + i).toNat = d.text.clamp a + i by omega] at hchar
    exact hchar.symm

/-- What is read forward from a place without passing a newline stays on the line of the place. -/
theorem le_lineStop_of_reaches (h : C.Place a b) {stop : Nat}
    (hr : d.text.Reaches (d.text.clamp a) stop) : (stop : Int) ≤ d.text.lineStop a := by
  obtain ⟨hclamp, hclamp'⟩ := h.clamp_eq
  rcases Int.lt_or_le (d.text.lineStop a) stop with hlt | hge
  · have hle' := h.le_stop
    obtain ⟨c, hc, hne⟩ := hr (d.text.lineStop a).toNat (by omega) (by omega)
    have hlt' := (Array.getElem?_eq_some_iff.mp hc).1
    have hnl := newline_at_lineStop (t := d.text) a (by unfold length; omega)
    rw [hc] at hnl
    cases hnl
    exact absurd rfl hne
  · exact hge

/-- What stands on the line after a place has its counterpart. -/
theorem reach (h : C.Place a b) {stop : Nat} (hle : d.text.clamp a ≤ stop)
    (hr : d.text.Reaches (d.text.clamp a) stop) :
    C.Place stop (e.text.clamp b + (stop - d.text.clamp a) : Nat) := by
  obtain ⟨hclamp, hclamp'⟩ := h.clamp_eq
  have := h.move (by have := h.point_le; omega) (h.le_lineStop_of_reaches hr)
  rw [show b + ((stop : Int) - a) = ((e.text.clamp b + (stop - d.text.clamp a) : Nat) : Int)
    by omega] at this
  exact this

/-! ## Columns and blank lines -/

/-- Where columns correspond, those of counterparts differ by the common shift. -/
theorem column (h : C.Place a b) (hfree : d.text.lineStart a < C.free) :
    e.column b = d.column a + C.shift := by
  obtain ⟨n, hline⟩ := h.line
  have h₁ := h.point_le
  have h₂ := h.offset
  have h₃ := h.le_stop
  have hpoint := indentationPoint_eq_of_lineStart_eq (d.text.lineStart_lineStart a)
  have hpoint' := indentationPoint_eq_of_lineStart_eq (e.text.lineStart_lineStart b)
  have hcolumn := C.column hline hfree (a - d.indentationPoint a).toNat
    (by rw [hpoint, d.text.lineStop_lineStart]; omega)
  rw [hpoint, hpoint', show d.indentationPoint a + ((a - d.indentationPoint a).toNat : Int) =
    a by omega,
    show e.indentationPoint b + ((a - d.indentationPoint a).toNat : Int) = b by omega] at hcolumn
  exact hcolumn

/-- The lines of counterparts are both blank or both not. -/
theorem isBlankLine (h : C.Place a b) : e.isBlankLine b = d.isBlankLine a := by
  have hiff := h.point.eq_iff h.stop
  unfold Document.isBlankLine
  by_cases heq : d.indentationPoint a = d.text.lineStop a
  · rw [beq_iff_eq.mpr heq, beq_iff_eq.mpr (hiff.mpr heq)]
  · rw [beq_eq_false_iff_ne.mpr heq, beq_eq_false_iff_ne.mpr fun h => heq (hiff.mp h)]

/-- Counterparts are both the first code of their lines or both not. -/
theorem isFirstOnLine (h : C.Place a b) : e.isFirstOnLine b = d.isFirstOnLine a := by
  unfold Document.isFirstOnLine
  exact decide_eq_decide.mpr (h.le_iff h.point)

/-- A place and the start of a line come in the same order in both documents. -/
theorem lt_line_iff (h : C.Place a b) (hl : C.Line n x y) : b < y ↔ a < x := by
  obtain ⟨n', hline⟩ := h.line
  have h₁ := h.le_stop
  have h₂ := h.bounds
  have h₃ := h.point_le
  have h₄ := d.lineStart_le_indentationPoint a
  have h₅ := e.lineStart_le_indentationPoint b
  rcases Nat.lt_or_ge n' n with hlt | hge
  · have := hline.lt hl hlt
    rw [d.text.lineStop_lineStart, e.text.lineStop_lineStart] at this
    omega
  · rcases Nat.eq_or_lt_of_le hge with rfl | hlt
    · obtain ⟨hx, hy⟩ := hline.unique hl
      omega
    · have := hl.lt hline hlt
      have := hl.le_lineStop
      omega

end Place

/-- The ends are counterparts. -/
theorem place_end (C : Parallel s d e) : C.Place C.end₁ C.end₂ := by
  obtain ⟨n, x, y, hline, hx, hy⟩ := C.last
  rw [← hx, ← hy]
  have hpoint := Line.point (C := C) hline
  have hstop := hpoint.stop
  rw [lineStop_eq_of_lineStart_eq (d.lineStart_indentationPoint x),
    lineStop_eq_of_lineStart_eq (e.lineStart_indentationPoint y)] at hstop
  exact hstop

/-! ## Positions that a move can reach

A move forward from a place leads to a place, to the start of a line, or past the ends; past the
ends nothing is known about the two documents. -/

/-- Places, or the starts of corresponding lines. -/
def Near (C : Parallel s d e) (a b : Int) : Prop := C.Place a b ∨ ∃ n, C.Line n a b

/-- Positions past the ends. -/
def Beyond (C : Parallel s d e) (a b : Int) : Prop := C.end₁ < a ∧ C.end₂ < b

/-- A place and what a move reached come in the same order in both documents. -/
theorem Near.lt_iff (h : C.Near a' b') (hp : C.Place a b) : b < b' ↔ a < a' := by
  rcases h with h | ⟨n, h⟩
  · exact hp.lt_iff h
  · exact hp.lt_line_iff h

/-- Places, and the starts of lines, lie inside the texts. -/
theorem Near.le_length (h : C.Near a b) : a ≤ d.text.length ∧ b ≤ e.text.length := by
  rcases h with h | ⟨n, h⟩
  · exact ⟨h.bounds.2.1, h.bounds.2.2.2.1⟩
  · rw [← h.starts.1, ← h.starts.2]
    exact ⟨d.text.lineStart_le_length a, e.text.lineStart_le_length b⟩

/-- Places, and the starts of lines, are not negative. -/
theorem Near.nonneg (h : C.Near a b) : 0 ≤ a ∧ 0 ≤ b := by
  rcases h with h | ⟨n, h⟩
  · exact ⟨h.bounds.1, h.bounds.2.2.1⟩
  · exact h.nonneg

end Parallel

end LayoutRule

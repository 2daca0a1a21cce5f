import LayoutRule.Proofs.Text.Lines

/-!
# Texts cut in parts

A text is what stands before a position followed by what stands after it, and an edit puts parts
together again. A text that is cut around one line (`Text.Cut`) tells where the line starts and
stops, at every position of the line (`Cut.lineStart_eq`, `Cut.lineStop_eq`); every line of every
text gives such a cut (`cut_line`).
-/

namespace LayoutRule

namespace Text

variable {t a b c : Text}

/-! ## Parts -/

/-- Texts with the same characters are the same. -/
theorem ext_chars (h : a.chars = b.chars) : a = b := by
  cases a
  cases b
  cases h
  rfl

/-- The characters of texts one behind the other are those of both. -/
@[simp] theorem chars_append (a b : Text) : (a ++ b).chars = a.chars ++ b.chars := rfl

/-- Texts can be put one behind the other in any grouping. -/
theorem append_assoc (a b c : Text) : a ++ b ++ c = a ++ (b ++ c) :=
  ext_chars (Array.append_assoc ..)

/-- Texts one behind the other are as long as both. -/
@[simp] theorem length_append (a b : Text) : (a ++ b).length = a.length + b.length := by
  simp [length]

/-- An empty text in front changes nothing. -/
@[simp] theorem ofString_empty_append (a : Text) : ofString "" ++ a = a :=
  ext_chars (by simp [ofString])

/-- An empty text at the end changes nothing. -/
@[simp] theorem append_ofString_empty (a : Text) : a ++ ofString "" = a :=
  ext_chars (by simp [ofString])

/-- The text of a string is as long as the string. -/
theorem length_ofString (s : String) : (ofString s).length = s.length := by
  simp [length, ofString, String.length_toList]

/-- An index inside the text is bounded to itself. -/
theorem bound_natCast {k : Nat} (h : k ≤ t.chars.size) : t.bound k = k := by
  unfold bound
  rw [if_pos (Int.natCast_nonneg k)]
  omega

/-- What stands before a position of the text is as long as the position says. -/
theorem length_takeTo {i : Int} (h₀ : 0 ≤ i) (h₁ : i ≤ t.length) : (t.takeTo i).length = i := by
  have := bound_of_mem h₀ h₁
  have := t.bound_le_size i
  simp only [length, takeTo, Array.size_extract]
  omega

/-- What stands behind a position of the text is as long as is left. -/
theorem length_dropTo {i : Int} (h₀ : 0 ≤ i) (h₁ : i ≤ t.length) :
    (t.dropTo i).length = t.length - i := by
  have := bound_of_mem h₀ h₁
  have := t.bound_le_size i
  simp only [length, dropTo, Array.size_extract, Nat.min_self]
  omega

/-- A text is what stands before a position and what stands after it. -/
theorem takeTo_append_dropTo (t : Text) (i : Int) : t.takeTo i ++ t.dropTo i = t := by
  refine ext_chars ?_
  have := t.bound_le_size i
  simp only [takeTo, dropTo, chars_append, Array.extract_append_extract]
  rw [Nat.max_eq_right this, Nat.min_eq_left (Nat.zero_le _), Array.extract_size]

/-- What stands before a position can be cut earlier. -/
theorem takeTo_append_slice {i j : Int} (h : t.bound i ≤ t.bound j) :
    t.takeTo i ++ t.slice i j = t.takeTo j := by
  refine ext_chars ?_
  simp [takeTo, slice, Array.extract_append_extract, h]

/-- Windows next to each other are one window. -/
theorem slice_append_slice {i j k : Int} (h₁ : t.bound i ≤ t.bound j) (h₂ : t.bound j ≤ t.bound k) :
    t.slice i j ++ t.slice j k = t.slice i k := by
  refine ext_chars ?_
  simp only [slice, chars_append, Array.extract_append_extract]
  rw [Nat.min_eq_left h₁, Nat.max_eq_right h₂]

/-- A character of a part, by its place in the text. -/
theorem mem_slice {i j : Int} {x : Char} (h : x ∈ (t.slice i j).chars) :
    ∃ k, t.bound i ≤ k ∧ k < t.bound j ∧ t.chars[k]? = some x := by
  obtain ⟨k, hk⟩ := Array.mem_iff_getElem?.mp h
  simp only [slice, Array.getElem?_extract] at hk
  split at hk
  · exact ⟨t.bound i + k, by omega, by omega, hk⟩
  · cases hk

/-- A window with a first character is not empty, and that character stands at its start. -/
theorem slice_first {i j : Int} {x : Char} (h : (t.slice i j).chars[0]? = some x) :
    t.bound i < t.bound j ∧ t.chars[t.bound i]? = some x := by
  simp only [slice, Array.getElem?_extract, Nat.add_zero] at h
  split at h
  · exact ⟨by omega, h⟩
  · cases h

/-- Before the end of the first of two texts stands this text. -/
theorem takeTo_append (a b : Text) : (a ++ b).takeTo a.length = a := by
  refine ext_chars ?_
  have hb : (a ++ b).bound a.length = a.chars.size := bound_natCast (by simp)
  simp [takeTo, hb]

/-- What stands behind a place of the second of two texts is what stands behind it in this text
alone. -/
theorem dropTo_append (a b : Text) (r : Nat) : (a ++ b).dropTo (a.length + r) = b.dropTo r := by
  refine ext_chars ?_
  have hb : (a ++ b).bound (a.length + r) = a.chars.size + b.bound r := by
    unfold bound length
    rw [if_pos (by omega), if_pos (by omega)]
    simp only [chars_append, Array.size_append]
    omega
  simp only [dropTo, hb, chars_append, Array.extract_append, Array.size_append]
  rw [Array.extract_empty_of_size_le_start (by omega), Nat.add_sub_cancel_left,
    Nat.add_sub_cancel_left]
  simp

/-- Behind the end of the first of two texts stands the second. -/
theorem dropTo_append_self (a b : Text) : (a ++ b).dropTo a.length = b := by
  have h := dropTo_append a b 0
  rw [Int.natCast_zero, Int.add_zero] at h
  rw [h]
  exact ext_chars (by simp [dropTo, bound])

/-- What stands after a position can be cut once more. -/
theorem dropTo_dropTo {i : Int} {r : Nat} (h₀ : 0 ≤ i) (h₁ : i + r ≤ t.length) :
    (t.dropTo i).dropTo r = t.dropTo (i + r) := by
  have hsplit := dropTo_append (t.takeTo i) (t.dropTo i) r
  rw [takeTo_append_dropTo, length_takeTo h₀ (by omega)] at hsplit
  exact hsplit.symm

/-- The part between two others. -/
theorem slice_append (a b c : Text) : (a ++ b ++ c).slice a.length (a.length + b.length) = b := by
  refine ext_chars ?_
  have ha : (a ++ b ++ c).bound a.length = a.chars.size := bound_natCast (by simp)
  have hb : (a ++ b ++ c).bound (a.length + b.length) = a.chars.size + b.chars.size := by
    rw [← length_append]
    show (a ++ b ++ c).bound ((a ++ b).chars.size : Nat) = _
    rw [bound_natCast (by simp)]
    simp
  simp only [slice, ha, hb]
  simp [Array.extract_append]

/-- A run goes to the end of a part that it fills. -/
theorem runStop_append {p : Char → Bool} (a : Text) (hb : ∀ x ∈ b.chars, p x = true)
    (hc : ∀ x, c.chars[0]? = some x → p x = false) :
    (a ++ b ++ c).runStop p a.chars.size = a.chars.size + b.chars.size := by
  apply runStop_eq_of (by omega)
  · intro i h₁ h₂
    have hlt : i - a.chars.size < b.chars.size := by omega
    refine ⟨b.chars[i - a.chars.size], ?_, hb _ (Array.getElem_mem hlt)⟩
    simp only [chars_append]
    grind
  · intro x hx
    refine hc x ?_
    simp only [chars_append] at hx
    grind

/-! ## What stands before decides -/

/-- An index of the first of two texts reads the first. -/
theorem getElem?_append_left {i : Nat} (a b : Text) (h : i < a.chars.size) :
    (a ++ b).chars[i]? = a.chars[i]? := by
  simp only [chars_append]
  exact Array.getElem?_append_left h

/-- Whether a word is written inside the first part depends on that part. -/
theorem holdsAt_append (a b : Text) {w : List Char} {k : Nat} (h : k + w.length ≤ a.chars.size) :
    (a ++ b).holdsAt w k = a.holdsAt w k := by
  induction w generalizing k with
  | nil => rfl
  | cons c w ih =>
    simp only [List.length_cons] at h
    unfold holdsAt
    rw [getElem?_append_left a b (by omega), ih (by omega)]

/-- The last place of a word in the first part depends on that part. -/
theorem lastWord?_append (a b : Text) (w : List Char) :
    (a ++ b).lastWord? w a.length = a.lastWord? w a.length := by
  have hbound : (a ++ b).bound a.length = a.bound a.length := by
    unfold length
    rw [bound_natCast (by simp), bound_natCast (Nat.le_refl _)]
  have hfrom : ∀ k, k + w.length ≤ a.chars.size → (a ++ b).lastFrom? w k = a.lastFrom? w k := by
    intro k
    induction k with
    | zero =>
      intro hk
      unfold lastFrom?
      rw [holdsAt_append a b hk]
    | succ k ih =>
      intro hk
      unfold lastFrom?
      rw [holdsAt_append a b hk, ih (by omega)]
  unfold lastWord?
  rw [hbound]
  split
  · have := a.bound_le_size a.length
    rw [hfrom _ (by omega)]
  · rfl

/-- A newline in the first part is found whatever follows. -/
theorem newlineFrom?_append {i k : Int} (c : Text) (h₀ : 0 ≤ i)
    (h : (a ++ b).newlineFrom? i = some k) (hk : k < a.length) :
    i ≤ k ∧ (a ++ c).newlineFrom? i = some k := by
  unfold newlineFrom? at h
  simp only at h
  split at h
  · next hlt =>
    cases h
    unfold length at hk
    have hmin : ∀ t : Text, t.bound i = min i.toNat t.chars.size := by
      intro t
      unfold bound
      rw [if_pos h₀]
    have hsize : ∀ t : Text, a.chars.size ≤ (a ++ t).chars.size := by
      intro t
      simp
    have hle := (a ++ b).le_runStop notNewline ((a ++ b).bound i)
    have hb : (a ++ b).bound i = i.toNat := by
      have := hmin (a ++ b)
      have := hsize b
      omega
    have hc : (a ++ c).bound i = i.toNat := by
      have := hmin (a ++ c)
      have := hsize c
      omega
    obtain ⟨x, hx, hnot⟩ := runStop_stops hlt
    rw [hb] at hle hk hx
    have hrun : (a ++ c).runStop notNewline i.toNat = (a ++ b).runStop notNewline i.toNat := by
      apply runStop_eq_of hle
      · intro j h₁ h₂
        obtain ⟨y, hy, hp⟩ := char_of_lt_runStop h₁ h₂
        refine ⟨y, ?_, hp⟩
        rw [getElem?_append_left a c (by omega), ← getElem?_append_left a b (by omega), hy]
      · intro y hy
        rw [getElem?_append_left a c (by omega), ← getElem?_append_left a b (by omega), hx] at hy
        cases hy
        exact hnot
    refine ⟨by rw [hb]; omega, ?_⟩
    unfold newlineFrom?
    simp only [hb, hc, hrun]
    rw [if_pos (by have := hsize c; omega)]
  · cases h

/-- Going down by lines inside the first part depends on that part. -/
theorem linesDown_append {n : Nat} {i : Int} (c : Text) (h₀ : 0 ≤ i)
    (h : (a ++ b).linesDown n i = (a.length, 0)) :
    i ≤ a.length ∧ (a ++ c).linesDown n i = (a.length, 0) := by
  induction n generalizing i with
  | zero =>
    cases h
    exact ⟨Int.le_refl _, rfl⟩
  | succ n ih =>
    unfold linesDown at h
    split at h
    · cases h
    · next k hk =>
      obtain ⟨m, rfl, -⟩ := newlineFrom?_eq_some hk
      obtain ⟨hle, hrest⟩ := ih (by omega) h
      obtain ⟨hik, hnext⟩ := newlineFrom?_append c h₀ hk (by omega)
      refine ⟨by omega, ?_⟩
      unfold linesDown
      rw [hnext]
      exact hrest

/-- A line starts at the front of the text and after each newline. -/
theorem lineStart_eq_self {k : Nat} (hk : k ≤ t.chars.size)
    (h : 0 < k → t.chars[k - 1]? = some '\n') : t.lineStart k = k := by
  have hrun : t.runStart notNewline k = k := by
    apply runStart_eq_of hk (Nat.le_refl _)
    · intro i h₁ h₂
      omega
    · exact fun hpos => ⟨'\n', h hpos, rfl⟩
  unfold lineStart
  rw [bound_natCast hk, hrun]

/-- Going down by lines from the start of a line leads to the start of a line. -/
theorem lineStart_of_linesDown {n : Nat} {i bol : Int} (hi : t.lineStart i = i)
    (h : t.linesDown n i = (bol, 0)) : t.lineStart bol = bol := by
  induction n generalizing i with
  | zero =>
    cases h
    exact hi
  | succ n ih =>
    unfold linesDown at h
    split at h
    · cases h
    · next k hk =>
      obtain ⟨m, rfl, hm⟩ := newlineFrom?_eq_some hk
      obtain ⟨hlt, -⟩ := Array.getElem?_eq_some_iff.mp hm
      exact ih (lineStart_eq_self (k := m + 1) hlt fun _ => hm) h

/-- Behind a part that is empty or ends with a newline a line starts. -/
theorem lineStart_append (h : ∀ c, a.chars.back? = some c → c = '\n') :
    (a ++ b).lineStart a.length = a.length := by
  refine lineStart_eq_self (by simp) fun hpos => ?_
  have hlast : a.chars[a.chars.size - 1]? = some a.chars[a.chars.size - 1] :=
    Array.getElem?_eq_getElem (by omega)
  have hnl := h _ (by rw [Array.back?_eq_getElem?]; exact hlast)
  rw [getElem?_append_left a b (by omega), hlast, hnl]

/-- A text that a newline was put behind ends with a newline. -/
theorem back_newline (a : Text) : ∀ c, (a ++ ofString "\n").chars.back? = some c → c = '\n' := by
  intro c hc
  simpa [ofString, eq_comm] using hc

/-! ## Cuts around a line -/

/-- A text cut around one line: what stands before it, the line without its newline, and what stands
after it. -/
structure Cut (t before line after : Text) : Prop where
  /-- The parts make up the text. -/
  eq : t = before ++ line ++ after
  /-- What stands before is empty or ends with a newline. -/
  before : ∀ c, before.chars.back? = some c → c = '\n'
  /-- There is no newline in the line. -/
  line : ∀ c ∈ line.chars, c ≠ '\n'
  /-- What stands after is empty or starts with a newline. -/
  after : ∀ c, after.chars[0]? = some c → c = '\n'

/-- The start of a line is a position of the text. -/
theorem bound_lineStart (t : Text) (pos : Int) :
    (t.bound (t.lineStart pos) : Int) = t.lineStart pos :=
  bound_of_mem (t.lineStart_nonneg pos) (t.lineStart_le_length pos)

/-- The end of a line is a position of the text. -/
theorem bound_lineStop (t : Text) (pos : Int) :
    (t.bound (t.lineStop pos) : Int) = t.lineStop pos := by
  have := t.lineStart_le_lineStop pos
  have := t.lineStart_nonneg pos
  exact bound_of_mem (by omega) (t.lineStop_le_length pos)

/-- Every line of a text is a cut. -/
theorem cut_line (t : Text) (pos : Int) :
    t.Cut (t.takeTo (t.lineStart pos)) (t.slice (t.lineStart pos) (t.lineStop pos))
      (t.dropTo (t.lineStop pos)) := by
  have hstart := t.bound_lineStart pos
  have hstop := t.bound_lineStop pos
  have hle := t.lineStart_le_lineStop pos
  have hlen := t.bound_le_size (t.lineStart pos)
  constructor
  · rw [takeTo_append_slice (by omega), takeTo_append_dropTo]
  · intro c hc
    simp only [Array.back?_eq_getElem?, takeTo, Array.size_extract, Array.getElem?_extract] at hc
    have hpos : 0 < t.bound (t.lineStart pos) := by grind
    have hnl := newline_before_lineStart (t := t) pos (by omega)
    rw [show (t.lineStart pos).toNat - 1 = t.bound (t.lineStart pos) - 1 by omega] at hnl
    grind
  · intro c hc
    obtain ⟨i, h₁, h₂, hi⟩ := mem_slice hc
    obtain ⟨c', hc', hnot⟩ := char_of_between (t := t) pos (i := i) (by omega) (by omega)
    rw [hi] at hc'
    cases hc'
    simpa [notNewline] using hnot
  · intro c hc
    simp only [dropTo, Array.getElem?_extract, Nat.add_zero] at hc
    have hlt : t.bound (t.lineStop pos) < t.chars.size := by grind
    have hnl := newline_at_lineStop (t := t) pos (by unfold length; omega)
    rw [show (t.lineStop pos).toNat = t.bound (t.lineStop pos) by omega] at hnl
    grind

namespace Cut

variable {before line after : Text} {pos : Int}

/-- The line of a cut text ends inside the text. -/
theorem size_le (h : t.Cut before line after) :
    before.chars.size + line.chars.size ≤ t.chars.size := by
  rw [h.eq]
  simp

/-- The line starts after what stands before it. -/
theorem lineStart_eq (h : t.Cut before line after) : t.lineStart before.length = before.length := by
  rw [h.eq, append_assoc]
  exact lineStart_append h.before

/-- A place before the line is the start of it, or the line of the place ends before it. -/
theorem eq_or_lineStop_lt (h : t.Cut before line after) (h₀ : 0 ≤ pos) (hle : pos ≤ before.length) :
    pos = before.length ∨ t.lineStop pos < before.length := by
  have hstart := h.lineStart_eq
  rcases Int.lt_or_eq_of_le hle with hlt | heq
  · have hstop := lineStop_lt_lineStart (t := t) (q := before.length) h₀ (by omega)
    exact .inr (by omega)
  · exact .inl heq

/-- The line stops where what stands after it starts. -/
theorem lineStop_eq (h : t.Cut before line after) (hpos : t.lineStart pos = before.length) :
    t.lineStop pos = before.length + line.length := by
  have hsize := h.size_le
  rw [← t.lineStop_lineStart pos, hpos]
  have hrun : t.runStop notNewline before.chars.size = before.chars.size + line.chars.size := by
    rw [h.eq]
    refine runStop_append before (fun x hx => ?_) fun x hx => ?_
    · simpa [notNewline] using h.line x hx
    · rw [h.after x hx]
      rfl
  unfold lineStop length
  rw [bound_natCast (by omega), hrun]
  omega

/-- The window between the ends of the line of a cut text is the line. -/
theorem slice_eq (h : t.Cut before line after) :
    t.slice before.length (before.length + line.length) = line := by
  rw [h.eq, slice_append]

/-- The line is determined by what stands before it. -/
theorem line_eq {line' after' : Text} (h : t.Cut before line after)
    (h' : t.Cut before line' after') : line = line' := by
  rw [← h.slice_eq, ← h'.slice_eq, ← h.lineStop_eq h.lineStart_eq, ← h'.lineStop_eq h'.lineStart_eq]

/-- The lines of a text are those before and after a line, and the line. -/
theorem lineCount_eq (h : t.Cut before line after) :
    t.lineCount = before.chars.count '\n' + after.chars.count '\n' + 1 := by
  have hline : line.chars.count '\n' = 0 := Array.count_eq_zero.mpr fun hmem => h.line _ hmem rfl
  unfold lineCount
  rw [h.eq]
  simp only [chars_append, Array.count_append, hline]
  omega

/-- A place between the ends of the line lies on it. -/
theorem lineStart_of_between (h : t.Cut before line after) (h₁ : before.length ≤ pos)
    (h₂ : pos ≤ before.length + line.length) : t.lineStart pos = before.length := by
  have hstart := h.lineStart_eq
  have hstop := h.lineStop_eq hstart
  rw [lineStart_eq_of_between (p := before.length) (by omega) (by omega), hstart]

/-- The newlines before a place of a line are those before the line. -/
theorem newlinesBefore_eq (h : t.Cut before line after) (h₀ : 0 ≤ pos) (hlen : pos ≤ t.length)
    (hpos : t.lineStart pos = before.length) : t.newlinesBefore pos = before.chars.count '\n' := by
  have hbound := bound_of_mem h₀ hlen
  have hstart := t.bound_lineStart pos
  have hge := lineStart_le (t := t) h₀
  have hstop := le_lineStop h₀ hlen
  have hle : t.bound before.length ≤ t.bound pos := by
    rw [← hpos]
    omega
  have hbefore : t.takeTo before.length = before := by
    rw [h.eq, append_assoc, takeTo_append]
  -- between the start of the line and the place there is no newline
  have hrest : (t.slice before.length pos).chars.count '\n' = 0 := by
    rw [Array.count_eq_zero, ← hpos]
    intro hmem
    obtain ⟨i, h₁, h₂, hi⟩ := mem_slice hmem
    obtain ⟨c, hc, hnot⟩ := char_of_between (t := t) pos (i := i) (by omega) (by omega)
    cases hi.symm.trans hc
    exact absurd hnot (by decide)
  unfold newlinesBefore
  rw [← takeTo_append_slice hle, chars_append, Array.count_append, hbefore, hrest, Nat.add_zero]

end Cut

end Text

end LayoutRule

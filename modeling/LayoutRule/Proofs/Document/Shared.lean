import LayoutRule.Proofs.Document.Indentation
import LayoutRule.Proofs.Text.Words
import LayoutRule.Request.Answer

/-!
# Documents that share their beginning

Two texts share their beginning up to an index when they have the same characters before it. What a
document says about that part then is the same whatever follows: the lines, their indentation and
columns, which of them are prose, and where the blocks of code start.
-/

namespace LayoutRule

namespace Text

/-- The texts have the same characters before index `k`. -/
structure Shares (t u : Text) (k : Nat) : Prop where
  /-- The first text is that long. -/
  le : k ≤ t.chars.size
  /-- So is the second. -/
  le' : k ≤ u.chars.size
  /-- The characters are the same. -/
  get : ∀ i, i < k → u.chars[i]? = t.chars[i]?

/-- Texts with a common first part share it. -/
theorem shares_append (a b c : Text) : (a ++ b).Shares (a ++ c) a.chars.size where
  le := by simp
  le' := by simp
  get i hi := by rw [getElem?_append_left a b hi, getElem?_append_left a c hi]

namespace Shares

variable {t u : Text} {k : Nat} {p : Char → Bool} {pos : Int}

/-- A position of the shared part is one of both texts. -/
theorem mem (h : t.Shares u k) (hpos : pos ≤ k) : pos ≤ t.length ∧ pos ≤ u.length := by
  have h₁ := h.le
  have h₂ := h.le'
  unfold length
  omega

/-- A position of the shared part is bounded to itself in both texts. -/
theorem bound_eq (h : t.Shares u k) (h₀ : 0 ≤ pos) (hpos : pos ≤ k) :
    t.bound pos = pos.toNat ∧ u.bound pos = pos.toNat :=
  ⟨bound_toNat h₀ (h.mem hpos).1, bound_toNat h₀ (h.mem hpos).2⟩

/-- The shared part has the same characters in both texts. -/
theorem charAt? (h : t.Shares u k) (h₀ : 0 ≤ pos) (hpos : pos < k) :
    u.charAt? pos = t.charAt? pos := by
  rw [charAt?_eq h₀, charAt?_eq h₀]
  exact h.get _ (by omega)

/-- A window of the shared part is the same in both texts. -/
theorem slice (h : t.Shares u k) {start : Int} (hs : 0 ≤ start) (hs' : start ≤ k) (h₀ : 0 ≤ pos)
    (hpos : pos ≤ k) : u.slice start pos = t.slice start pos := by
  obtain ⟨hb, hb'⟩ := h.bound_eq h₀ hpos
  obtain ⟨hs, hs'⟩ := h.bound_eq hs hs'
  have h₁ := h.le
  have h₂ := h.le'
  refine ext_chars (Array.ext_getElem? fun i => ?_)
  simp only [Text.slice, hb, hb', hs, hs', Array.getElem?_extract]
  rw [Nat.min_eq_left (by omega), Nat.min_eq_left (by omega)]
  split
  · exact h.get _ (by omega)
  · rfl

/-- What stands before a position of the shared part is the same in both texts. -/
theorem takeTo (h : t.Shares u k) (h₀ : 0 ≤ pos) (hpos : pos ≤ k) : u.takeTo pos = t.takeTo pos :=
  h.slice (Int.le_refl 0) (Int.natCast_nonneg k) h₀ hpos

/-- The last place of a word is the same. -/
theorem lastWord? (h : t.Shares u k) (w : List Char) (h₀ : 0 ≤ pos) (hpos : pos ≤ k) :
    u.lastWord? w pos = t.lastWord? w pos := by
  have hin : ∀ v : Text, pos ≤ v.length → v.lastWord? w pos = (v.takeTo pos).lastWord? w pos := by
    intro v hv
    have happend := lastWord?_append (v.takeTo pos) (v.dropTo pos) w
    rw [takeTo_append_dropTo, length_takeTo h₀ hv] at happend
    exact happend
  rw [hin u (h.mem hpos).2, hin t (h.mem hpos).1, h.takeTo h₀ hpos]

/-! ## Lines -/

/-- A run that is looked for backward from the shared part starts at the same place in both
texts. -/
theorem runStart (h : t.Shares u k) {j : Nat} (hj : j ≤ k) : u.runStart p j = t.runStart p j := by
  induction j with
  | zero => rfl
  | succ j ih =>
    rw [Text.runStart, Text.runStart, h.get j (by omega), ih (by omega)]

/-- A run that ends before the index. -/
theorem runStop (h : t.Shares u k) {j : Nat} (hlt : t.runStop p j < k) :
    u.runStop p j = t.runStop p j := by
  have hle := h.le
  refine runStop_eq_of (t.le_runStop p j) (fun i h₁ h₂ => ?_) fun c hc => ?_
  · rw [h.get i (by omega)]
    exact char_of_lt_runStop h₁ h₂
  · rw [h.get _ hlt] at hc
    exact not_of_runStop hc

/-- A line that is reached by the shared part starts at the same place in both texts. Whether it
ends in the shared part does not matter. -/
theorem lineStart (h : t.Shares u k) (h₀ : 0 ≤ pos) (hpos : pos ≤ k) :
    u.lineStart pos = t.lineStart pos := by
  obtain ⟨hb, hb'⟩ := h.bound_eq h₀ hpos
  unfold Text.lineStart
  rw [hb, hb', h.runStart (by omega)]

/-- When a line ends in the shared part, all its positions lie in the shared part. -/
theorem lt_of_lineStop_lt (h : t.Shares u k) (h₀ : 0 ≤ pos) (hlt : t.lineStop pos < k) :
    pos < k := by
  have hle := h.le
  have hbound := t.bound_le_lineStop pos
  unfold bound at hbound
  rw [if_pos h₀] at hbound
  omega

/-- A line that ends in the shared part, with its newline, ends at the same place in both texts. -/
theorem lineStop (h : t.Shares u k) (h₀ : 0 ≤ pos) (hlt : t.lineStop pos < k) :
    u.lineStop pos = t.lineStop pos := by
  have hpos := h.lt_of_lineStop_lt h₀ hlt
  obtain ⟨hb, hb'⟩ := h.bound_eq h₀ (Int.le_of_lt hpos)
  unfold Text.lineStop at hlt ⊢
  rw [hb] at hlt
  rw [hb, hb', h.runStop (by omega)]

/-- The block of marked lines above a place of the shared part starts at the same place in both
texts. -/
theorem markedBlockStart (h : t.Shares u k) {bol : Nat} (hle : bol ≤ k) :
    Document.markedBlockStart u bol = Document.markedBlockStart t bol := by
  induction bol using Nat.strongRecOn with
  | _ bol ih =>
    have hstart := t.runStart_le notNewline (bol - 1)
    rw [Document.markedBlockStart.eq_def u, Document.markedBlockStart.eq_def t,
      h.runStart (by omega)]
    by_cases hpos : 0 < bol
    · rw [if_pos hpos, if_pos hpos, h.get _ (by omega), ih _ (by omega) (by omega)]
    · rw [if_neg hpos, if_neg hpos]

end Shares

end Text

namespace Document

open Text

/-- Documents of one style and tab width that have the same characters before index `k`. -/
structure Shares (d e : Document) (k : Nat) : Prop where
  /-- The style is the same. -/
  style : e.style = d.style
  /-- The tab width is the same. -/
  tabWidth : e.tabWidth = d.tabWidth
  /-- The beginning is the same. -/
  text : d.text.Shares e.text k

namespace Shares

variable {d e : Document} {k : Nat} {pos : Int}

/-- Documents that share their beginning have the same literate style. -/
theorem bird (h : d.Shares e k) : e.bird = d.bird := by
  unfold Document.bird
  rw [h.style]

/-- A position of the shared part has the same column in both documents. -/
theorem column (h : d.Shares e k) (h₀ : 0 ≤ pos) (hpos : pos ≤ k) :
    e.column pos = d.column pos := by
  have hstart := lineStart_le (t := d.text) h₀
  unfold Document.column
  rw [h.text.lineStart h₀ hpos, h.text.slice (d.text.lineStart_nonneg pos) (by omega) h₀ hpos,
    h.tabWidth]

/-- A line that ends in the shared part has the same indentation point in both documents. -/
theorem indentationPoint (h : d.Shares e k) (h₀ : 0 ≤ pos) (hlt : d.text.lineStop pos < k) :
    e.indentationPoint pos = d.indentationPoint pos := by
  have hpos := h.text.lt_of_lineStop_lt h₀ hlt
  have hbounds := d.indentationPoint_bounds pos
  have hstart := d.text.lineStart_le_lineStop pos
  have horigin : e.codeOrigin (d.text.lineStart pos) = d.codeOrigin (d.text.lineStart pos) := by
    unfold codeOrigin
    rw [h.bird, h.text.charAt? (d.text.lineStart_nonneg pos) (by omega)]
  unfold Document.indentationPoint at hbounds ⊢
  rw [h.text.lineStart h₀ (Int.le_of_lt hpos), horigin, h.text.runStop (by omega)]

/-- The same lines are prose. -/
theorem isProse (h : d.Shares e k) (h₀ : 0 ≤ pos) (hpos : pos < k) :
    e.isProse pos = d.isProse pos := by
  have hstart := lineStart_le (t := d.text) h₀
  have hnonneg := d.text.lineStart_nonneg pos
  unfold Document.isProse isCodeLine
  simp only [h.style, h.text.lineStart h₀ (by omega), h.text.charAt? hnonneg (by omega),
    h.text.lastWord? _ hnonneg (by omega : d.text.lineStart pos ≤ k)]

/-- The blocks of code start at the same places. -/
theorem codeStart (h : d.Shares e k) (h₀ : 0 ≤ pos) (hpos : pos ≤ k) :
    e.codeStart pos = d.codeStart pos := by
  have hstart := lineStart_le (t := d.text) h₀
  have hnonneg := d.text.lineStart_nonneg pos
  have hline := h.text.lineStart h₀ hpos
  have hword := h.text.lastWord? codeBegin hnonneg (by omega : d.text.lineStart pos ≤ k)
  unfold Document.codeStart
  rw [hline, hword, h.style]
  cases hs : d.style with
  | plain => rfl
  | bird =>
    simp only
    rw [h.text.markedBlockStart (by omega)]
  | latex =>
    cases hw : d.text.lastWord? codeBegin (d.text.lineStart pos) with
    | none => rfl
    | some opened =>
      -- the environment is opened on a line above
      obtain ⟨hopened, hle⟩ := mem_of_lastWord? hw
      have hbound := d.text.bound_lineStart pos
      have hlength : (codeBegin.length : Int) = 12 := rfl
      have hstop := lineStop_lt_lineStart (t := d.text) (p := opened) (q := pos) hopened (by omega)
      have hmem := h.text.mem (by omega : d.text.lineStop opened + 1 ≤ _)
      simp only
      rw [h.text.lineStop hopened (by omega), Int.min_eq_left hmem.1, Int.min_eq_left hmem.2]

end Shares

end Document

end LayoutRule

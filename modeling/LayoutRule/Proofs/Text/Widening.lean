import LayoutRule.Proofs.Text.Splitting
import Mathlib.Algebra.GroupWithZero.Nat

/-!
# Blanks put into a text

`Text.widen` puts blanks in before characters of a text and changes nothing else. A place moves to
the right by the blanks put in up to it (`moved`), and stays on its line (`newlinesBefore_widen`). A
text that is cut around a line is still so when it has been widened (`Cut.widen`), and two texts
that are cut around one line differ there in one line (`Cut.changedLines_eq`).
-/

namespace LayoutRule

/-! ## Lists of characters -/

/-- The characters from place `i` on, with `pads k` blanks before the one at place `k`. -/
def putBlanks (pads : Nat → Nat) : Nat → List Char → List Char
  | _, [] => []
  | i, c :: l => List.replicate (pads i) ' ' ++ c :: putBlanks pads (i + 1) l

section Lists

variable {pads pads' : Nat → Nat} {i : Nat} {a b l : List Char}

/-- Blanks can be put into a list part by part. -/
theorem putBlanks_append (pads : Nat → Nat) (i : Nat) (a b : List Char) :
    putBlanks pads i (a ++ b) = putBlanks pads i a ++ putBlanks pads (i + a.length) b := by
  induction a generalizing i with
  | nil => rfl
  | cons c a ih =>
    rw [List.cons_append, putBlanks, putBlanks, ih, List.length_cons, Nat.add_assoc,
      Nat.add_comm 1 a.length]
    simp

/-- Only the blanks that are put in at places of the list count. -/
theorem putBlanks_congr (h : ∀ k, i ≤ k → k < i + l.length → pads k = pads' k) :
    putBlanks pads i l = putBlanks pads' i l := by
  induction l generalizing i with
  | nil => rfl
  | cons c l ih =>
    rw [List.length_cons] at h
    rw [putBlanks, putBlanks, h i (Nat.le_refl i) (by omega),
      ih fun k h₁ h₂ => h k (by omega) (by omega)]

/-- A list with no blanks to put in stays as it is. -/
theorem putBlanks_eq_self (h : ∀ k, i ≤ k → k < i + l.length → pads k = 0) :
    putBlanks pads i l = l := by
  induction l generalizing i with
  | nil => rfl
  | cons c l ih =>
    rw [List.length_cons] at h
    rw [putBlanks, h i (Nat.le_refl i) (by omega), ih fun k h₁ h₂ => h k (by omega) (by omega)]
    rfl

/-- What is new in a list are blanks. -/
theorem mem_putBlanks {x : Char} (h : x ∈ putBlanks pads i l) : x = ' ' ∨ x ∈ l := by
  induction l generalizing i with
  | nil => cases h
  | cons c l ih =>
    rw [putBlanks, List.mem_append, List.mem_cons] at h
    rcases h with h | rfl | h
    · exact .inl (List.eq_of_mem_replicate h)
    · exact .inr List.mem_cons_self
    · exact (ih h).imp id (List.mem_cons_of_mem c)

/-- Every other character is there as often as before. -/
theorem count_putBlanks {x : Char} (hx : x ≠ ' ') : (putBlanks pads i l).count x = l.count x := by
  induction l generalizing i with
  | nil => rfl
  | cons c l ih =>
    have hblanks : (List.replicate (pads i) ' ').count x = 0 :=
      List.count_eq_zero.mpr fun h => hx (List.eq_of_mem_replicate h)
    rw [putBlanks, List.count_append, hblanks, List.count_cons, List.count_cons, ih, Nat.zero_add]

/-- The list is longer by all blanks that are put in. -/
theorem length_putBlanks (pads : Nat → Nat) (i : Nat) (l : List Char) :
    (putBlanks pads i l).length = l.length + ((List.range' i l.length).map pads).sum := by
  induction l generalizing i with
  | nil => rfl
  | cons c l ih =>
    rw [putBlanks, List.length_append, List.length_replicate, List.length_cons, ih,
      List.length_cons, List.range'_succ, List.map_cons, List.sum_cons]
    omega

/-- The last character stays the last, because blanks are put in before characters. -/
theorem getLast?_putBlanks : (putBlanks pads i l).getLast? = l.getLast? := by
  induction l generalizing i with
  | nil => rfl
  | cons c l ih =>
    rw [putBlanks, List.getLast?_append, List.getLast?_cons, List.getLast?_cons, ih]
    rfl

end Lists

namespace Text

variable {t a b before line after : Text} {pads pads' : Nat → Nat} {i k : Nat}

/-! ## Texts -/

/-- A part of a text that starts at place `i`, with `pads k` blanks before the character at place
`k`. -/
def widenFrom (t : Text) (pads : Nat → Nat) (i : Nat) : Text :=
  ⟨(putBlanks pads i t.chars.toList).toArray⟩

/-- The text with `pads k` blanks before the character at place `k`. -/
def widen (t : Text) (pads : Nat → Nat) : Text := t.widenFrom pads 0

/-- Where a place is when blanks have been put in. -/
def moved (pads : Nat → Nat) (k : Nat) : Nat := k + ((List.range (k + 1)).map pads).sum

/-- Blanks can be put into a text part by part. -/
theorem widenFrom_append (a b : Text) (pads : Nat → Nat) (i : Nat) :
    (a ++ b).widenFrom pads i = a.widenFrom pads i ++ b.widenFrom pads (i + a.chars.size) :=
  ext_chars (by simp [widenFrom, putBlanks_append])

/-- Only the blanks that are put in at places of the text count. -/
theorem widenFrom_congr (h : ∀ k, i ≤ k → k < i + t.chars.size → pads k = pads' k) :
    t.widenFrom pads i = t.widenFrom pads' i := by
  unfold widenFrom
  rw [putBlanks_congr (by simpa using h)]

/-- A text with no blanks to put in stays as it is. -/
theorem widenFrom_eq_self (h : ∀ k, i ≤ k → k < i + t.chars.size → pads k = 0) :
    t.widenFrom pads i = t := by
  unfold widenFrom
  rw [putBlanks_eq_self (by simpa using h)]

/-- What is new in a text are blanks. -/
theorem mem_widenFrom {x : Char} (h : x ∈ (t.widenFrom pads i).chars) : x = ' ' ∨ x ∈ t.chars := by
  have h : x ∈ putBlanks pads i t.chars.toList := by simpa [widenFrom] using h
  simpa using mem_putBlanks h

/-- The text is longer by all blanks that are put in. -/
theorem size_widenFrom (t : Text) (pads : Nat → Nat) (i : Nat) :
    (t.widenFrom pads i).chars.size =
      t.chars.size + ((List.range' i t.chars.size).map pads).sum := by
  simp [widenFrom, length_putBlanks]

/-- The last character of the text stays the last. -/
theorem back?_widenFrom : (t.widenFrom pads i).chars.back? = t.chars.back? := by
  rw [widenFrom, List.back?_toArray, getLast?_putBlanks, Array.getLast?_toList]

/-- Blanks make no lines. -/
theorem lineCount_widen (t : Text) (pads : Nat → Nat) : (t.widen pads).lineCount = t.lineCount := by
  unfold lineCount widen widenFrom
  rw [List.count_toArray, count_putBlanks (by decide), Array.count_toList]

/-- Blanks before the first character of a part stand at its front. -/
theorem widenFrom_put (ht : 0 < t.chars.size) (h₀ : pads i = 0)
    (h : ∀ k, k ≠ i → pads' k = pads k) :
    t.widenFrom pads' i = replicate (pads' i) ' ' ++ t.widenFrom pads i := by
  obtain ⟨c, l, hl⟩ : ∃ c l, t.chars.toList = c :: l := List.exists_cons_of_ne_nil (by
    intro hnil
    rw [← Array.length_toList, hnil] at ht
    exact absurd ht (by decide))
  refine ext_chars (Array.toList_inj.mp ?_)
  have hrest : putBlanks pads' (i + 1) l = putBlanks pads (i + 1) l :=
    putBlanks_congr fun k h₁ _ => h k (by omega)
  simp [widenFrom, hl, putBlanks, h₀, hrest, replicate]

/-- Where no blanks are put in at the front, the first character stays the first. -/
theorem first_widenFrom (h₀ : pads i = 0) : (t.widenFrom pads i).chars[0]? = t.chars[0]? := by
  cases hl : t.chars.toList with
  | nil => simp [widenFrom, hl, putBlanks, ← Array.getElem?_toList]
  | cons c l => simp [widenFrom, hl, putBlanks, h₀, ← Array.getElem?_toList]

/-! ## Places -/

/-- Before an index of the text there are as many characters. -/
theorem size_takeTo (hk : k ≤ t.chars.size) : (t.takeTo k).chars.size = k := by
  simp only [takeTo, Array.size_extract, bound_natCast hk]
  omega

/-- What stands behind an index starts with the character at this index. -/
theorem first_dropTo (hk : k ≤ t.chars.size) : (t.dropTo k).chars[0]? = t.chars[k]? := by
  simp only [dropTo, bound_natCast hk, Array.getElem?_extract, Nat.add_zero]
  grind

/-- A widened text at a place: what stands before it and what follows. -/
theorem widen_eq_append (pads : Nat → Nat) (hk : k ≤ t.chars.size) :
    t.widen pads = (t.takeTo k).widenFrom pads 0 ++ (t.dropTo k).widenFrom pads k := by
  have h := widenFrom_append (t.takeTo k) (t.dropTo k) pads 0
  rwa [takeTo_append_dropTo, size_takeTo hk, Nat.zero_add] at h

/-- When no blanks are put in before a place, the text is as it was up to there. -/
theorem widen_eq_takeTo_append (hk : k ≤ t.chars.size) (h₀ : ∀ j, j < k → pads j = 0) :
    t.widen pads = t.takeTo k ++ (t.dropTo k).widenFrom pads k := by
  rw [widen_eq_append pads hk, widenFrom_eq_self (t := t.takeTo k)]
  intro j _ hj
  rw [size_takeTo hk, Nat.zero_add] at hj
  exact h₀ j hj

/-- Before an index of the text there is a text of this length. -/
theorem length_takeTo_natCast (hk : k ≤ t.chars.size) : (t.takeTo k).length = k :=
  length_takeTo (Int.natCast_nonneg k) (by unfold length; omega)

/-- Before the first blanks the text stays as it is. -/
theorem takeTo_widen (hk : k ≤ t.chars.size) (h₀ : ∀ j, j < k → pads j = 0) :
    (t.widen pads).takeTo k = t.takeTo k := by
  have h := takeTo_append (t.takeTo k) ((t.dropTo k).widenFrom pads k)
  rwa [length_takeTo_natCast hk, ← widen_eq_takeTo_append hk h₀] at h

/-- Blanks are put in before a place when all others are put in further down. -/
theorem widen_put (hk : k < t.chars.size) (h₀ : ∀ j, j ≤ k → pads j = 0)
    (h : ∀ j, j ≠ k → pads' j = pads j) :
    (t.widen pads).takeTo k ++ replicate (pads' k) ' ' ++ (t.widen pads).dropTo k =
      t.widen pads' := by
  have hle := Nat.le_of_lt hk
  have hbefore : ∀ j, j < k → pads j = 0 := fun j hj => h₀ j (Nat.le_of_lt hj)
  have hbefore' : ∀ j, j < k → pads' j = 0 :=
    fun j hj => (h j (Nat.ne_of_lt hj)).trans (hbefore j hj)
  have hsize : 0 < (t.dropTo k).chars.size := by
    simp only [dropTo, bound_natCast hle, Array.size_extract]
    omega
  have hdrop := dropTo_append_self (t.takeTo k) ((t.dropTo k).widenFrom pads k)
  rw [length_takeTo_natCast hle, ← widen_eq_takeTo_append hle hbefore] at hdrop
  rw [takeTo_widen hle hbefore, hdrop, append_assoc, ← widenFrom_put hsize (h₀ k (Nat.le_refl k)) h,
    ← widen_eq_takeTo_append hle hbefore']

/-- What stands before a character when blanks have been put in: all that stood there, and the
blanks. -/
theorem takeTo_moved (pads : Nat → Nat) (hk : k < t.chars.size) :
    (t.widen pads).takeTo (moved pads k) = (t.takeTo k).widenFrom pads 0 ++ replicate (pads k) ' ' ∧
      (t.widen pads).chars[moved pads k]? = t.chars[k]? := by
  have htake : (t.takeTo k).chars.size = k := size_takeTo (by omega)
  have hfirst : (t.dropTo k).chars[0]? = some t.chars[k] := by
    rw [first_dropTo (by omega), Array.getElem?_eq_getElem hk]
  let cleared : Nat → Nat := fun j => if j = k then 0 else pads j
  have hrest : (t.dropTo k).widenFrom pads k =
      replicate (pads k) ' ' ++ (t.dropTo k).widenFrom cleared k :=
    widenFrom_put (Array.getElem?_eq_some_iff.mp hfirst).1 (if_pos rfl) fun j hj => (if_neg hj).symm
  have hsplit : t.widen pads = (t.takeTo k).widenFrom pads 0 ++ replicate (pads k) ' ' ++
      (t.dropTo k).widenFrom cleared k := by
    rw [append_assoc, ← hrest, widen_eq_append pads (Nat.le_of_lt hk)]
  have hsize : ((t.takeTo k).widenFrom pads 0 ++ replicate (pads k) ' ').chars.size =
      moved pads k := by
    rw [chars_append, Array.size_append, size_widenFrom, htake, moved, ← List.range_eq_range',
      List.range_succ]
    simp [replicate, Nat.add_assoc]
  constructor
  · rw [hsplit, ← hsize]
    exact takeTo_append _ _
  · have hcleared : cleared k = 0 := if_pos rfl
    rw [hsplit, ← hsize, chars_append, Array.getElem?_append_right (Nat.le_refl _), Nat.sub_self,
      first_widenFrom hcleared, hfirst, Array.getElem?_eq_getElem hk]

/-- A character keeps its line. -/
theorem newlinesBefore_widen (pads : Nat → Nat) (hk : k < t.chars.size) :
    (t.widen pads).newlinesBefore (moved pads k) = t.newlinesBefore k := by
  have hblanks : (replicate (pads k) ' ').chars.count '\n' = 0 := by
    rw [Array.count_eq_zero]
    intro hmem
    exact absurd (Array.eq_of_mem_replicate hmem) (by decide)
  unfold newlinesBefore
  rw [(takeTo_moved pads hk).1, chars_append, Array.count_append, hblanks, Nat.add_zero, widenFrom,
    List.count_toArray, count_putBlanks (by decide), Array.count_toList]

/-! ## Lines -/

namespace Cut

/-- A cut around a line gives a cut of the widened text, unless blanks are put in before the
newline. -/
theorem widen (h : t.Cut before line after)
    (hstop : pads (before.chars.size + line.chars.size) = 0) :
    (t.widen pads).Cut (before.widenFrom pads 0) (line.widenFrom pads before.chars.size)
    (after.widenFrom pads (before.chars.size + line.chars.size)) := by
  constructor
  · rw [Text.widen, h.eq, widenFrom_append, widenFrom_append, Nat.zero_add, chars_append,
      Array.size_append, Nat.zero_add]
  · intro c hc
    rw [back?_widenFrom] at hc
    exact h.before c hc
  · intro c hc
    rcases mem_widenFrom hc with rfl | hmem
    · decide
    · exact h.line c hmem
  · intro c hc
    rw [first_widenFrom hstop] at hc
    exact h.after c hc

end Cut

/-- The lines of a text, without their newlines. -/
def lines (t : Text) : List (List Char) := t.chars.toList.splitOn '\n'

/-- The number of lines that two texts do not share. -/
def changedLines (t u : Text) : Nat := (t.lines.zip u.lines).countP fun l => l.1 != l.2

/-- A list differs from itself nowhere. -/
theorem countP_zip_self {α : Type} [BEq α] [LawfulBEq α] (l : List α) :
    (l.zip l).countP (fun p => p.1 != p.2) = 0 := by
  rw [List.zip_eq_zipWith, List.zipWith_self, List.countP_map, List.countP_eq_zero]
  simp

namespace Cut

/-- The lines of a text that is cut around a line: those before it, the line, and those after it. -/
theorem lines_eq (h : t.Cut before line after) :
    t.lines = before.lines.dropLast ++ line.chars.toList :: after.lines.tail := by
  have hline : '\n' ∉ line.chars.toList := fun hmem => h.line _ (by simpa using hmem) rfl
  have hafter : (line.chars.toList ++ after.chars.toList).splitOn '\n' =
      line.chars.toList :: after.lines.tail := by
    cases hl : after.chars.toList with
    | nil => simp [lines, hl, List.splitOn_eq_singleton hline]
    | cons c l =>
      have hc : c = '\n' := h.after c (by rw [← Array.getElem?_toList, hl]; rfl)
      subst hc
      have hnl := List.splitOn_append_cons_self (a := '\n') [] l
      rw [List.nil_append] at hnl
      rw [lines, hl, List.splitOn_append_cons_self, List.splitOn_eq_singleton hline, hnl,
        List.splitOn_nil]
      rfl
  have htext : t.chars.toList = before.chars.toList ++
      (line.chars.toList ++ after.chars.toList) := by
    rw [h.eq]
    simp
  rw [lines, htext, lines]
  rcases List.eq_nil_or_concat before.chars.toList with hnil | ⟨l, c, hl⟩
  · rw [hnil, List.nil_append, hafter]
    rfl
  · have hc : c = '\n' := h.before c (by rw [← Array.getLast?_toList, hl]; simp)
    subst hc
    rw [hl, List.concat_eq_append, List.append_assoc, List.singleton_append,
      List.splitOn_append_cons_self, hafter, List.splitOn_append_cons_self, List.splitOn_nil,
      List.dropLast_concat]

/-- When only lines after it have been changed, a change of a line changes one line more. -/
theorem changedLines_eq {u u' line' after' : Text} (h : t.Cut before line after)
    (hu : u.Cut before line after') (hu' : u'.Cut before line' after') (hne : line ≠ line') :
    t.changedLines u' = t.changedLines u + 1 := by
  have hchars : (line.chars.toList != line'.chars.toList) = true :=
    bne_iff_ne.mpr fun heq => hne (ext_chars (Array.toList_inj.mp heq))
  unfold changedLines
  rw [h.lines_eq, hu.lines_eq, hu'.lines_eq, List.zip_append rfl, List.zip_append rfl,
    List.zip_cons_cons, List.zip_cons_cons, List.countP_append, List.countP_append, countP_zip_self,
    List.countP_cons, List.countP_cons, if_pos hchars, if_neg (by simp)]
  omega

end Cut

/-- A text shares all lines with itself. -/
theorem changedLines_self (t : Text) : t.changedLines t = 0 := countP_zip_self t.lines

end Text

end LayoutRule

import LayoutRule.Proofs.Document.Environments
import LayoutRule.Proofs.Editing.Aligned
import LayoutRule.Proofs.Lexical.Widening
import Mathlib.Data.List.Sort

/-!
# Lines of code after blanks were put in before signs

When blanks are put into a document before signs (`Stretched`), and not before the one character of
a literal, the lines of code are the same ones as before: a line is code, or prose, as it was
(`Stretched.isCodeLine`), it is blank as it was, and the scanner that starts at the start of the
text finds it in a comment exactly when it did before (`Stretched.openComment?`). So the indentation
points of the lines of code are moved and nothing else (`Stretched.codePoints`).
-/

namespace LayoutRule

/-- A computation that gives the same results on moved entries. -/
theorem mapM_map_eq {α α' β β' : Type} {f : α → Except Fault β} {g : α' → Except Fault β'}
    {m : α → α'} {r : β → β'} {l : List α} (h : ∀ a ∈ l, g (m a) = (f a).map r) :
    (l.map m).mapM g = (l.mapM f).map (List.map r) := by
  induction l with
  | nil => rfl
  | cons a l ih =>
    rw [List.map_cons, List.mapM_cons, List.mapM_cons, h a List.mem_cons_self,
      ih fun b hb => h b (List.mem_cons_of_mem a hb)]
    cases f a with
    | error e => rfl
    | ok b => cases l.mapM f <;> rfl

namespace Text

variable {t : Text} {pads : Nat → Nat} {bird : Bool} {k : Nat}

/-- Where a place is when blanks have been put in. -/
def relocate (pads : Nat → Nat) (q : Int) : Int := moved pads q.toNat

/-! ## Lines -/

/-- A line starts at the front of the text and behind each newline, and nowhere else. -/
theorem mem_lineStarts {b : Int} :
    b ∈ t.lineStarts ↔ b = 0 ∨ ∃ k : Nat, t.chars[k]? = some '\n' ∧ b = k + 1 := by
  unfold lineStarts
  rw [List.mem_cons, List.mem_filterMap]
  refine or_congr_right ⟨?_, ?_⟩
  · rintro ⟨k, -, hk⟩
    split at hk
    · next hnl => exact ⟨k, hnl, (Option.some.inj hk).symm⟩
    · cases hk
  · rintro ⟨k, hnl, rfl⟩
    exact ⟨k, List.mem_range.mpr (Array.getElem?_eq_some_iff.mp hnl).1, if_pos hnl⟩

/-- The lines stay lines. -/
theorem lineStarts_widen (t : Text) (pads : Nat → Nat) :
    (t.widen pads).lineStarts = t.lineStarts.map fun b => (front pads b.toNat : Int) := by
  have hsorted : (t.lineStarts.map fun b => (front pads b.toNat : Int)).Pairwise (· < ·) := by
    refine List.pairwise_map.mpr (t.pairwise_lineStarts.imp_of_mem fun {a b} ha hb hab => ?_)
    have h₀ : 0 ≤ a := lineStart_of_mem_lineStarts ha ▸ t.lineStart_nonneg a
    have := front_lt_front pads (show a.toNat < b.toNat by omega)
    omega
  refine (t.widen pads).pairwise_lineStarts.eq_of_mem_iff hsorted fun b => ?_
  rw [mem_lineStarts, List.mem_map]
  constructor
  · rintro (rfl | ⟨i, hi, rfl⟩)
    · exact ⟨0, mem_lineStarts.mpr (.inl rfl), rfl⟩
    · have hsize := (Array.getElem?_eq_some_iff.mp hi).1
      rw [size_widen_eq] at hsize
      obtain ⟨k, -, hk, h₁, h₂⟩ :=
        exists_between_fronts pads (k := 0) (by rw [front_zero]; omega) hsize
      rcases Nat.eq_or_lt_of_le h₂ with rfl | hlt
      · rw [getElem?_moved] at hi
        refine ⟨k + 1, mem_lineStarts.mpr (.inr ⟨k, hi, rfl⟩), ?_⟩
        rw [show ((k : Int) + 1).toNat = k + 1 by omega, front_succ]
        rfl
      · cases (getElem?_between hk h₁ hlt).symm.trans hi
  · rintro ⟨b, hb, rfl⟩
    rcases mem_lineStarts.mp hb with rfl | ⟨k, hk, rfl⟩
    · exact .inl rfl
    · refine .inr ⟨moved pads k, (getElem?_moved t pads k).trans hk, ?_⟩
      rw [show ((k : Int) + 1).toNat = k + 1 by omega, front_succ]
      rfl

/-- What stands above a place. -/
theorem takeTo_front (pads : Nat → Nat) (hk : k ≤ t.chars.size) :
    (t.widen pads).takeTo (front pads k) = (t.takeTo k).widen pads := by
  have hlen : ((t.takeTo k).widen pads).length = front pads k := by
    unfold length
    rw [size_widen_eq, size_takeTo hk]
  have htake := takeTo_append ((t.takeTo k).widen pads) ((t.dropTo k).widenFrom pads k)
  rw [hlen] at htake
  rw [widen_eq_append pads hk]
  exact htake

end Text

namespace Document

open Text

variable {d e : Document} {pads : Nat → Nat} {a pos : Int} {k : Nat} {p : Piece}

/-- A scan that ends inside a comment or a string tells which comment is open. -/
theorem openComment?_of_nesting {start stop : Int} {s : Nesting} {r : Option Int}
    (hlt : start < stop) (hs : d.nesting start stop = .ok s)
    (hr : (∃ i, r = some i ∧ s.comment? = some i) ∨
      r = none ∧ s.comment? = none ∧ s.string?.isSome) :
    d.openComment? start stop = .ok r := by
  unfold openComment?
  rw [if_neg (by omega), hs, ok_bind]
  rcases hr with ⟨i, rfl, hcomment⟩ | ⟨rfl, hcomment, hstring⟩
  · rw [hcomment]
    rfl
  · obtain ⟨j, hj⟩ := Option.isSome_iff_exists.mp hstring
    rw [hcomment, hj]
    rfl

/-- The piece that holds the start of the code of a line tells whether a comment is open there. -/
theorem openComment?_of_visits (pos : Int) (hv : d.text.Visits d.bird 0 d.text.length a p)
    (ha : a ≤ d.indentationPoint pos) (hstop : d.indentationPoint pos < p.stop)
    (hlt : d.indentationPoint pos < d.text.length) :
    d.openComment? 0 (d.indentationPoint pos) =
      .ok (if p.kind = .comment then some a else none) := by
  have h₀ := hv.start_le
  obtain ⟨c, hc, hpiece⟩ := exists_char_of_pieceAt h₀ hv.piece
  rcases Int.lt_or_eq_of_le ha with hbefore | rfl
  · obtain ⟨s, hs, -⟩ := nesting_yields (d := d) (Int.le_refl 0) (Int.le_of_lt hlt)
    cases hpiece with
    | comment hstarts =>
      have hfits := add_two_le_indentationPoint h₀ hstarts hbefore
      have hshort := commentAt_shorten h₀ (by omega) hstarts (by omega) (Int.le_of_lt hlt)
        fun _ => hfits
      have hvisits : d.text.Visits d.bird 0 (d.indentationPoint pos) a _ :=
        ⟨hv.walk.shorten (Int.le_refl 0) ha (Int.le_of_lt hlt), hbefore, pieceAt_comment h₀ hshort⟩
      rw [openComment?_of_nesting (by omega) hs (.inl ⟨a, rfl, hvisits.comment?_eq hs rfl hstop⟩)]
      rfl
    | string =>
      have hshort := hv.shorten (Int.le_refl 0) hbefore (Int.le_of_lt hlt) fun hkind => by
        cases hkind
      rw [openComment?_of_nesting (by omega) hs (.inr ⟨rfl, hshort.comment?_eq_none hs rfl hstop, by
        rw [hshort.string?_eq hs rfl hstop]
        rfl⟩)]
      rfl
    | character =>
      have := stop_le_indentationPoint (Int.le_refl 0) hv rfl hbefore
      omega
    | marker => exact absurd hstop (by simp only; omega)
    | single => exact absurd hstop (by rw [singlePiece_stop]; omega)
  · rw [openComment?_of_walk hv.walk (Int.le_refl 0) (Int.le_of_lt hlt)]
    have hcomment : d.commentAt (d.indentationPoint pos) = .ok (decide (p.kind = .comment)) := by
      cases hpiece with
      | comment hstarts => exact hstarts
      | marker hsign =>
        subst hsign
        exact commentAt_eq_false h₀ hc (by decide) (by decide) _
      | string hnone => exact hnone
      | character hnone => exact hnone
      | single hnone =>
        rw [decide_eq_false (singlePiece_kind c _).1]
        exact hnone
    rw [hcomment]
    by_cases hkind : p.kind = .comment
    · rw [decide_eq_true hkind, if_pos hkind]
      rfl
    · rw [decide_eq_false hkind, if_neg hkind]
      rfl

/-- One document is the other one with blanks put in before signs, and not before the one character
of a literal. -/
structure Stretched (d e : Document) (pads : Nat → Nat) : Prop where
  text : e.text = d.text.widen pads
  style : e.style = d.style
  tabWidth : e.tabWidth = d.tabWidth
  signs : d.text.PadsSigns pads
  literals : d.text.SparesLiterals d.bird 0 pads

namespace Stretched

variable (h : d.Stretched e pads)
include h

/-- Putting blanks in does not change the literate style. -/
theorem bird : e.bird = d.bird := by
  unfold Document.bird
  rw [h.style]

/-! ## Lines -/

/-- A line starts where it did, moved by the blanks above it. -/
theorem lineStart (hk : k ≤ d.text.chars.size) :
    e.text.lineStart (front pads k) = front pads (d.text.lineStart k).toNat := by
  rw [h.text, lineStart_front hk]

/-- A line ends where it did, moved by the blanks above it and on it. -/
theorem lineStop (hk : k ≤ d.text.chars.size) :
    e.text.lineStop (front pads k) = front pads (d.text.lineStop k).toNat := by
  rw [h.text, h.signs.keepsLines.lineStop_front hk]

/-- A line starts with the marker of a literate line as before. -/
theorem isMarked (k : Nat) :
    (e.text.charAt? (front pads k) == some '>') = (d.text.charAt? k == some '>') := by
  rw [charAt?_natCast, charAt?_natCast, h.text]
  by_cases hpads : pads k = 0
  · rw [getElem?_front hpads]
  · obtain ⟨x, hx, hhead⟩ := h.signs.signHead hpads
    rw [getElem?_between (h.signs.lt_size hpads) (Nat.le_refl _) (by rw [moved_eq_front]; omega),
      hx, beq_eq_false_iff_ne.mpr fun heq => hhead.marker (Option.some.inj heq)]
    rfl

/-- The place where the code of a line may start is moved like the start of the line. -/
theorem codeOrigin (k : Nat) : e.codeOrigin (front pads k) = front pads (d.codeOrigin k).toNat := by
  unfold Document.codeOrigin
  rw [h.bird, h.isMarked]
  split
  · next hsign =>
    rw [Bool.and_eq_true, beq_iff_eq, charAt?_natCast] at hsign
    have hsucc := front_succ pads k
    rw [moved_eq_of_pads (h.signs.pads_eq_zero hsign.2 (by decide))] at hsucc
    rw [show ((k : Int) + 1).toNat = k + 1 by omega, hsucc]
    rfl
  · rw [Int.toNat_natCast]

/-- The code of a line starts behind the new blanks. -/
theorem indentationPoint (hk : k ≤ d.text.chars.size) :
    e.indentationPoint (front pads k) = relocate pads (d.indentationPoint k) := by
  have h₀ := d.text.lineStart_nonneg k
  have hle := d.codeOrigin_bounds k
  have hlen := d.text.lineStop_le_length k
  unfold length at hlen
  have horigin := h.codeOrigin (d.text.lineStart k).toNat
  rw [Int.toNat_of_nonneg h₀] at horigin
  unfold Document.indentationPoint
  rw [h.lineStart hk, horigin, Int.toNat_natCast, h.text,
    runStop_front_blank (by omega) rfl fun j hj => ?_]
  · rfl
  · obtain ⟨x, hx, hhead⟩ := h.signs.signHead hj
    exact ⟨x, hx, hhead.blank⟩

/-- A line is blank as it was before. -/
theorem isBlankLine (hk : k ≤ d.text.chars.size) :
    e.isBlankLine (front pads k) = d.isBlankLine k := by
  have h₀ := d.indentationPoint_nonneg k
  have hle := (d.indentationPoint_bounds k).2
  unfold Document.isBlankLine
  rw [h.indentationPoint hk, h.lineStop hk, relocate, Bool.eq_iff_iff, beq_iff_eq, beq_iff_eq]
  constructor
  · intro heq
    rcases Int.lt_or_eq_of_le hle with hlt | hsame
    · have :=
        moved_lt_front pads (show (d.indentationPoint k).toNat < (d.text.lineStop k).toNat by omega)
      omega
    · exact hsame
  · intro heq
    rw [heq, moved_eq_of_pads (h.signs.keepsLines.pads_lineStop k)]

/-! ## Code and prose -/

/-- No blanks are put into the lines around a block of code. -/
theorem codeOpen (hk : k ≤ d.text.chars.size) :
    Document.codeOpen ((d.text.takeTo k).widen pads) = Document.codeOpen (d.text.takeTo k) := by
  have hsign : ∀ {w : List Char}, w.all (fun c => !isSignHead c) = true → ∀ j c, pads j ≠ 0 →
      (d.text.takeTo k).chars[j]? = some c → c ∉ w := by
    intro w hw j c hj hc hmem
    have hlt := (Array.getElem?_eq_some_iff.mp hc).1
    rw [size_takeTo hk] at hlt
    have hsame : d.text.chars[j]? = some c := by
      rw [← hc]
      simp only [takeTo, bound_natCast hk, Array.getElem?_extract, Nat.zero_add]
      rw [if_pos (by omega)]
    have hno := List.all_eq_true.mp hw c hmem
    rw [Bool.not_eq_true'] at hno
    exact hj (h.signs.pads_eq_zero hsame hno)
  unfold Document.codeOpen
  rw [lastWord?_widen (hsign (w := codeBegin) (by decide)) (by decide) (by decide),
    lastWord?_widen (hsign (w := codeEnd) (by decide)) (by decide) (by decide)]
  cases hbegin : (d.text.takeTo k).lastWord? codeBegin (d.text.takeTo k).length with
  | none => rfl
  | some opened =>
    cases hend : (d.text.takeTo k).lastWord? codeEnd (d.text.takeTo k).length with
    | none => rfl
    | some closed =>
      have h₁ := (mem_of_lastWord? hbegin).1
      have h₂ := (mem_of_lastWord? hend).1
      show decide ((front pads closed.toNat : Int) < front pads opened.toNat) =
        decide (closed < opened)
      refine decide_eq_decide.mpr ⟨fun hlt => ?_, fun hlt => ?_⟩
      · rcases Int.lt_or_le closed opened with hlt' | hge
        · exact hlt'
        · have := front_le_front pads (show opened.toNat ≤ closed.toNat by omega)
          omega
      · have := front_lt_front pads (show closed.toNat < opened.toNat by omega)
        omega

/-- A line is code, or prose, as it was before. -/
theorem isCodeLine (hk : k ≤ d.text.chars.size) : e.isCodeLine (front pads k) = d.isCodeLine k := by
  have h₀ := d.text.lineStart_nonneg k
  have hlen := d.text.lineStart_le_length k
  have hsize : (d.text.lineStart k).toNat ≤ d.text.chars.size := by unfold length at hlen; omega
  cases hstyle : d.style with
  | plain =>
    unfold Document.isCodeLine
    simp only [h.style.trans hstyle, hstyle]
  | bird =>
    have hmark := h.isMarked (d.text.lineStart k).toNat
    rw [Int.toNat_of_nonneg h₀] at hmark
    unfold Document.isCodeLine
    simp only [h.style.trans hstyle, hstyle, h.lineStart hk]
    exact hmark
  | latex =>
    have hcut := d.text.cut_line k
    have hcut' := e.text.cut_line (front pads k)
    have hbegin : e.text.takeTo (e.text.lineStart (front pads k)) =
        (d.text.takeTo (d.text.lineStart k)).widen pads := by
      rw [h.lineStart hk, h.text, takeTo_front pads hsize, Int.toNat_of_nonneg h₀]
    rw [isCodeLine_eq hstyle hcut (length_takeTo h₀ hlen).symm,
      isCodeLine_eq (h.style.trans hstyle) hcut'
        (length_takeTo (e.text.lineStart_nonneg _) (e.text.lineStart_le_length _)).symm, hbegin]
    have hopen := h.codeOpen hsize
    rwa [Int.toNat_of_nonneg h₀] at hopen

/-! ## Comments -/

/-- A comment starts at the place of a character exactly when it did before. -/
theorem commentAt (hk : k ≤ d.text.chars.size) : e.commentAt (moved pads k) = d.commentAt k := by
  unfold Document.commentAt
  rw [h.text, h.signs.commentAt hk]

/-- A comment is open where the code of a line starts exactly when one was open there before. -/
theorem openComment? (hk : k ≤ d.text.chars.size) (hlt : d.indentationPoint k < d.text.length) :
    (d.openComment? 0 (d.indentationPoint k)).map Option.isSome =
      (e.openComment? 0 (relocate pads (d.indentationPoint k))).map Option.isSome := by
  obtain ⟨a, p, hv, ha, hstop⟩ :=
    exists_visits (t := d.text) d.bird (Int.le_refl 0) (d.indentationPoint_nonneg k) hlt
      (Int.le_refl _)
  have h₀ := hv.start_le
  have hv' := h.signs.visits hv h.literals
  rw [← h.text, ← h.bird] at hv'
  have hpoint := h.indentationPoint hk
  have hplace : ∀ {i j : Int}, 0 ≤ i → i ≤ j → (moved pads i.toNat : Int) ≤ moved pads j.toNat := by
    intro i j hi hij
    rcases Int.lt_or_eq_of_le hij with hlt | rfl
    · have := moved_lt_front pads (show i.toNat < j.toNat by omega)
      have := front_le_moved pads j.toNat
      omega
    · exact Int.le_refl _
  have hbehind := moved_lt_front pads (show (d.indentationPoint k).toNat < p.stop.toNat by omega)
  have hlt' := h.signs.moved_lt_length (k := (d.indentationPoint k).toNat)
    (by unfold length at hlt; omega)
  rw [← h.text] at hlt'
  have hopen' := openComment?_of_visits (front pads k) hv' (by rw [hpoint]; exact hplace h₀ ha)
    (by rw [hpoint, relocate]; exact Int.ofNat_lt.mpr hbehind) (by rw [hpoint]; exact hlt')
  rw [hpoint] at hopen'
  rw [openComment?_of_visits k hv ha hstop hlt, hopen']
  by_cases hkind : p.kind = .comment
  · rw [if_pos hkind, if_pos hkind]
    rfl
  · rw [if_neg hkind, if_neg hkind]

/-! ## Lines of code -/

/-- A line of code is one afterwards, with its indentation point moved, and no other line becomes
one. -/
theorem codePoint? (hk : k ≤ d.text.chars.size) :
    e.codePoint? (front pads k) = (d.codePoint? k).map (Option.map (relocate pads)) := by
  have h₀ := d.indentationPoint_nonneg k
  have hle := d.indentationPoint_le_length k
  unfold Document.codePoint?
  rw [h.isCodeLine hk, h.isBlankLine hk, h.indentationPoint hk]
  split
  · rfl
  next hcode =>
  have hblank : d.isBlankLine k = false := by
    simp only [Bool.or_eq_true, not_or, Bool.not_eq_true] at hcode
    exact hcode.2
  have hlt := indentationPoint_lt_lineStop hblank
  have hend := d.text.lineStop_le_length k
  obtain ⟨comment, hcomment, -⟩ := commentAt_yields (d := d) h₀
  have hcomment' := h.commentAt (k := (d.indentationPoint k).toNat) (by unfold length at hle; omega)
  rw [Int.toNat_of_nonneg h₀, hcomment] at hcomment'
  have hopen' := h.openComment? hk (by omega)
  obtain ⟨r, hr, -⟩ := openComment?_yields (d := d) (Int.le_refl 0) h₀ hle
  rw [hr] at hopen'
  unfold relocate at hopen' ⊢
  dsimp only
  rw [hcomment, hcomment', ok_bind, ok_bind, hr, ok_bind]
  cases comment with
  | true => rfl
  | false =>
    cases hr' : e.openComment? 0 (moved pads (d.indentationPoint k).toNat) with
    | error err =>
      rw [hr'] at hopen'
      cases hopen'
    | ok r' =>
      rw [hr'] at hopen'
      have hsome : r.isSome = r'.isSome := Except.ok.inj hopen'
      rw [ok_bind, ← hsome]
      cases r <;> rfl

/-- The lines of code are the same ones. -/
theorem codePoints : e.codePoints = d.codePoints.map (List.map (relocate pads)) := by
  have hlines : ∀ b ∈ d.text.lineStarts,
      e.codePoint? (front pads b.toNat) = (d.codePoint? b).map (Option.map (relocate pads)) := by
    intro b hb
    have hstart := lineStart_of_mem_lineStarts hb
    have h₀ := d.text.lineStart_nonneg b
    have hlen := d.text.lineStart_le_length b
    have hpoint := h.codePoint? (k := b.toNat) (by unfold length at hlen; omega)
    rwa [Int.toNat_of_nonneg (by omega)] at hpoint
  unfold Document.codePoints
  rw [h.text, lineStarts_widen, mapM_map_eq hlines]
  cases d.text.lineStarts.mapM d.codePoint? with
  | error err => rfl
  | ok rs =>
    show Except.ok ((rs.map (Option.map (relocate pads))).filterMap id) =
      Except.ok ((rs.filterMap id).map (relocate pads))
    rw [List.filterMap_map, List.map_filterMap]
    rfl

end Stretched

end Document

end LayoutRule

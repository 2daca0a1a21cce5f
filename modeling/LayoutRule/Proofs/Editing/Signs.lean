import LayoutRule.Editing.Alignment
import LayoutRule.Proofs.Layout.Clauses
import LayoutRule.Proofs.Text.Splitting
import Mathlib.Data.List.Flatten
import Mathlib.Data.List.Forall2

/-!
# The signs of a definition

The definition around a place can always be found, and so can its signs of one kind
(`foundSigns_yields`): each is the sign of the clause on a line of code (`SignOn`), and no two of
them stand on one line (`Text.Separate`). The signs that are aligned are those among them that are
written like the first (`alignedSigns_eq`).
-/

namespace LayoutRule

/-! ## Lists of results -/

/-- A computation that succeeds on every entry of a list succeeds on the list. -/
theorem Yields.mapM {α β : Type} {f : α → Except Fault β} {P : α → β → Prop} {l : List α}
    (h : ∀ a ∈ l, Yields (f a) (P a)) : Yields (l.mapM f) (List.Forall₂ P l) := by
  induction l with
  | nil => exact .pure .nil
  | cons a l ih =>
    rw [List.mapM_cons]
    refine (h a List.mem_cons_self).bind fun b hb => ?_
    refine (ih fun x hx => h x (List.mem_cons_of_mem a hx)).bind fun bs hbs => ?_
    exact .pure (.cons hb hbs)

section Results

variable {α β : Type} {R : α → Option β → Prop} {l : List α} {rs : List (Option β)}

/-- Every result that is there belongs to an entry. -/
theorem exists_of_mem_results (h : List.Forall₂ R l rs) {b : β} (hb : b ∈ rs.filterMap id) :
    ∃ a ∈ l, R a (some b) := by
  induction h with
  | nil => cases hb
  | @cons a r l rs hr _ ih =>
    rw [List.filterMap_cons] at hb
    cases r with
    | none =>
      obtain ⟨a', ha', hr'⟩ := ih hb
      exact ⟨a', List.mem_cons_of_mem a ha', hr'⟩
    | some x =>
      rcases List.mem_cons.mp hb with rfl | hb
      · exact ⟨a, List.mem_cons_self, hr⟩
      · obtain ⟨a', ha', hr'⟩ := ih hb
        exact ⟨a', List.mem_cons_of_mem a ha', hr'⟩

/-- The results that are there come in the order of their entries. -/
theorem pairwise_results {S : α → α → Prop} {T : β → β → Prop} (h : List.Forall₂ R l rs)
    (hl : l.Pairwise S) (hT : ∀ a a' b b', S a a' → R a (some b) → R a' (some b') → T b b') :
    (rs.filterMap id).Pairwise T := by
  induction h with
  | nil => exact .nil
  | @cons a r l rs hr hrs ih =>
    obtain ⟨hhead, htail⟩ := List.pairwise_cons.mp hl
    rw [List.filterMap_cons]
    cases r with
    | none => exact ih htail
    | some b =>
      refine .cons (fun b' hb' => ?_) (ih htail)
      obtain ⟨a', ha', hr'⟩ := exists_of_mem_results hrs hb'
      exact hT a a' b b' (hhead a' ha') hr hr'

end Results

/-! ## Lines of code -/

namespace Text

variable {t : Text}

/-- Places on different lines, from the first line to the last. -/
def Separate (t : Text) (places : List Int) : Prop :=
  places.Pairwise fun p q => t.lineStop p < t.lineStart q

/-- What is listed as the start of a line is one. -/
theorem lineStart_of_mem_lineStarts {bol : Int} (h : bol ∈ t.lineStarts) :
    t.lineStart bol = bol := by
  unfold lineStarts at h
  rcases List.mem_cons.mp h with rfl | h
  · have := t.lineStart_nonneg 0
    have := lineStart_le (t := t) (Int.le_refl 0)
    omega
  · obtain ⟨k, hk, hkb⟩ := List.mem_filterMap.mp h
    split at hkb
    · next hnl =>
      cases hkb
      have hlt := List.mem_range.mp hk
      exact lineStart_eq_self (k := k + 1) hlt fun _ => hnl
    · cases hkb

/-- The starts of the lines are listed from first to last, each once. -/
theorem pairwise_lineStarts (t : Text) : t.lineStarts.Pairwise (· < ·) := by
  unfold lineStarts
  refine .cons ?_ ?_
  · intro bol hbol
    obtain ⟨k, -, hk⟩ := List.mem_filterMap.mp hbol
    split at hk
    · cases hk
      omega
    · cases hk
  · refine List.Pairwise.filterMap _ ?_ List.pairwise_lt_range
    intro k m hkm a ha b hb
    simp only [Option.ite_none_right_eq_some, Option.some.injEq] at ha hb
    omega

end Text

namespace Document

open Text

variable {d : Document} {sign : AlignSign} {p q : Int}

/-- The indentation point of a line that is not blank. -/
structure CodePoint (d : Document) (p : Int) : Prop where
  /-- It is the indentation point of its line. -/
  point : d.indentationPoint p = p
  /-- The line is not blank. -/
  notBlank : d.isBlankLine p = false

namespace CodePoint

/-- A line of code has its indentation point inside the text. -/
theorem nonneg (h : d.CodePoint p) : 0 ≤ p := by
  have := d.indentationPoint_nonneg p
  rwa [h.point] at this

/-- There is code behind the indentation point of a line of code, so the point lies before the end
of the line. -/
theorem lt_lineStop (h : d.CodePoint p) : p < d.text.lineStop p := by
  have := indentationPoint_lt_lineStop h.notBlank
  rwa [h.point] at this

/-- The clause on a line of code can be taken apart, with its parts on the line. -/
theorem clauseAt_yields (h : d.CodePoint p) :
    Yields (d.clauseAt p (d.text.lineStop p) p) fun c => c.Placed p (d.text.lineStop p) := by
  have hlt := h.lt_lineStop
  have hlen := d.text.lineStop_le_length p
  obtain ⟨x, hx, hb⟩ := exists_char_indentationPoint (d := d) p (by rw [h.point]; omega)
  rw [h.point] at hx
  exact (Document.clauseAt_yields h.nonneg h.nonneg hlt hlen hx hb).mono fun c hc => hc.1

end CodePoint

/-- Whether a line holds code can always be told, and when it does, its point lies on this line. -/
theorem codePoint?_yields (d : Document) (bol : Int) :
    Yields (d.codePoint? bol) fun r => ∀ p ∈ r, d.CodePoint p ∧
      d.text.lineStart p = d.text.lineStart bol := by
  have h₀ := d.indentationPoint_nonneg bol
  unfold codePoint?
  split
  · exact .pure (by simp)
  next hcode =>
  have hblank : d.isBlankLine bol = false := by
    simp only [Bool.or_eq_true, not_or, Bool.not_eq_true] at hcode
    exact hcode.2
  refine (commentAt_yields h₀).bind fun comment _ => ?_
  split
  · exact .pure (by simp)
  refine (openComment?_yields (Int.le_refl 0) h₀ (d.indentationPoint_le_length bol)).bind
    fun _ _ => ?_
  split
  · exact .pure (by simp)
  refine .pure fun p hp => ?_
  cases hp
  exact ⟨⟨d.indentationPoint_indentationPoint bol, by rwa [isBlankLine_indentationPoint]⟩,
    d.lineStart_indentationPoint bol⟩

/-- The lines of code can be found, from the first to the last. -/
theorem codePoints_yields (d : Document) :
    Yields d.codePoints fun points => d.text.Separate points ∧ ∀ p ∈ points, d.CodePoint p := by
  unfold codePoints
  refine (Yields.mapM fun bol _ => (d.codePoint?_yields bol)).bind fun rs hrs => .pure ⟨?_, ?_⟩
  · have hlines : d.text.lineStarts.Pairwise fun a b => d.text.lineStop a < d.text.lineStart b := by
      refine d.text.pairwise_lineStarts.imp_of_mem fun {a b} ha hb hab => ?_
      have := lineStart_of_mem_lineStarts ha
      have := lineStart_of_mem_lineStarts hb
      have := d.text.lineStart_nonneg a
      exact lineStop_lt_lineStart (by omega) (by omega)
    refine pairwise_results hrs hlines fun a b p q hab hp hq => ?_
    rw [lineStop_eq_of_lineStart_eq (hp p rfl).2, (hq q rfl).2]
    exact hab
  · intro p hp
    obtain ⟨bol, -, h⟩ := exists_of_mem_results hrs hp
    exact (h p rfl).1

/-! ## Clauses -/

end Document

/-- The lines of a clause, the first one included. -/
def ClauseLines.points (c : ClauseLines) : List Int := c.head :: c.rest

namespace Document

open Text

variable {d : Document} {sign : AlignSign} {p q : Int}

/-- Cutting lines into clauses drops none. -/
theorem flatMap_clauseLines (top : Int) (ps : List Int) :
    (d.clauseLines top ps).flatMap ClauseLines.points = ps := by
  fun_induction clauseLines d top ps with
  | case1 => rfl
  | case2 p ps ih =>
    rw [List.flatMap_cons, ih]
    simp [ClauseLines.points, List.takeWhile_append_dropWhile]

/-- The name of a clause can always be told, or that it has none. -/
theorem clauseName?_yields {c : ClauseLines} (h : d.CodePoint c.head) :
    Yields (d.clauseName? c) fun _ => True := by
  unfold clauseName?
  exact h.clauseAt_yields.bind fun _ _ => .pure trivial

/-- The definition around a place can be found: some of the clauses of the document, in order. -/
theorem definitionClauses_yields (d : Document) (s : Settings) (pos : Int) :
    Yields (d.definitionClauses s pos) fun clauses =>
      ∃ points, d.codePoints = .ok points ∧
        clauses.Sublist (d.clauseLines (s.topColumn d) points) := by
  obtain ⟨points, hpoints, -, hcode⟩ := d.codePoints_yields
  unfold definitionClauses
  rw [hpoints]
  have hheads : ∀ c ∈ d.clauseLines (s.topColumn d) points, d.CodePoint c.head := by
    intro c hc
    refine hcode _ ?_
    rw [← flatMap_clauseLines (d := d) (s.topColumn d) points]
    exact List.mem_flatMap.mpr ⟨c, hc, List.mem_cons_self⟩
  have hnamed : ∀ c ∈ d.clauseLines (s.topColumn d) points,
      Yields (do return (c, ← d.clauseName? c)) fun r => r.1 = c := by
    intro c hc
    exact (clauseName?_yields (hheads c hc)).bind fun _ _ => .pure rfl
  refine (Yields.mapM hnamed).bind fun named hfst => ?_
  have hmap : named.map (·.1) = d.clauseLines (s.topColumn d) points := by
    refine List.forall₂_eq_eq_eq ▸ List.forall₂_map_left_iff.mpr ?_
    exact hfst.flip.imp fun _ _ h => h
  dsimp only
  generalize hstarts :
    (fun c : ClauseLines × Option String => decide (d.text.lineStart c.1.head ≤ pos)) = starts
  split
  · exact .pure ⟨points, rfl, List.nil_sublist _⟩
  · next here above hsplit =>
    have hcut : named = above.reverse ++ here :: named.dropWhile starts := by
      have hfront : named.takeWhile starts = above.reverse ++ [here] := by
        rw [← List.reverse_reverse (named.takeWhile starts), hsplit, List.reverse_cons]
      calc named = named.takeWhile starts ++ named.dropWhile starts :=
        List.takeWhile_append_dropWhile.symm
        _ = _ := by rw [hfront, List.append_assoc]; rfl
    split
    · refine .pure ⟨points, rfl, ?_⟩
      rw [← hmap, hcut, List.map_append, List.map_cons]
      exact (List.singleton_sublist.mpr List.mem_cons_self).trans (List.sublist_append_right _ _)
    · refine .pure ⟨points, rfl, ?_⟩
      rw [← hmap]
      refine List.Sublist.map _ ?_
      conv_rhs => rw [hcut]
      exact (List.takeWhile_sublist _).reverse.append ((List.takeWhile_sublist _).cons_cons _)

/-! ## Signs -/

/-- `q` is the sign of the clause on the line with the indentation point `p`. -/
structure SignOn (d : Document) (sign : AlignSign) (p q : Int) : Prop where
  /-- The line holds code. -/
  point : d.CodePoint p
  /-- The clause on it has the sign. -/
  found : ∃ c, d.clauseAt p (d.text.lineStop p) p = .ok c ∧ sign.place? c = some q

namespace SignOn

/-- The sign of a line stands on the line, at its indentation point or behind it, and before its
end. -/
theorem bounds (h : d.SignOn sign p q) : p ≤ q ∧ q < d.text.lineStop p := by
  obtain ⟨c, hc, hq⟩ := h.found
  have hplaced := h.point.clauseAt_yields.of_eq hc
  refine hplaced.inOrder.2 q ?_
  cases sign with
  | guard =>
    have hq : c.guard = some q := hq
    simp [Clause.places, hq]
  | rhs =>
    have hq : c.rhs = some q := hq
    simp [Clause.places, hq]

/-- A sign stands inside the text. -/
theorem nonneg (h : d.SignOn sign p q) : 0 ≤ q := by
  have := h.point.nonneg
  have := h.bounds
  omega

/-- The sign stands on the line. -/
theorem lineStart_eq (h : d.SignOn sign p q) : d.text.lineStart q = d.text.lineStart p := by
  have hle := lineStart_le (t := d.text) h.point.nonneg
  have hb := h.bounds
  exact lineStart_eq_of_between (by omega) (by omega)

/-- The line of a sign ends where the line ends that the sign is looked for on. -/
theorem lineStop_eq (h : d.SignOn sign p q) : d.text.lineStop q = d.text.lineStop p :=
  lineStop_eq_of_lineStart_eq h.lineStart_eq

end SignOn

/-- Looking for a sign on a line of code always succeeds, and what is found is the sign of the
clause on this line. -/
theorem signOnLine?_yields (sign : AlignSign) (isHead : Bool) (h : d.CodePoint p) :
    Yields (d.signOnLine? sign isHead p) fun r => ∀ q ∈ r, d.SignOn sign p q := by
  have hlt := h.lt_lineStop
  have hlen := d.text.lineStop_le_length p
  have hrest : Yields (do return sign.place? (← d.clauseAt p (d.text.lineStop p) p)) fun r =>
      ∀ q ∈ r, d.SignOn sign p q := by
    obtain ⟨c, hc, -⟩ := h.clauseAt_yields
    rw [hc]
    exact .pure fun q hq => ⟨h, c, hc, hq⟩
  unfold signOnLine?
  refine (markerAt_yields h.nonneg (by omega) (Int.le_refl 0) (Int.le_refl _)).bind fun m _ => ?_
  split
  · exact .pure (by simp)
  · exact hrest

/-- The signs of a clause can be found, at most one on each of its lines. -/
theorem clauseSigns_yields (sign : AlignSign) {c : ClauseLines}
    (h : ∀ p ∈ c.points, d.CodePoint p) :
    Yields (d.clauseSigns sign c) fun signs =>
      ∃ rs, List.Forall₂ (fun p r => ∀ q ∈ r, d.SignOn sign p q) c.points rs ∧
        signs = rs.filterMap id := by
  unfold clauseSigns
  refine (signOnLine?_yields sign true (h _ List.mem_cons_self)).bind fun first hfirst => ?_
  refine (Yields.mapM fun p hp => signOnLine?_yields sign false
    (h p (List.mem_cons_of_mem _ hp))).bind fun others hothers => ?_
  exact .pure ⟨first :: others, .cons hfirst hothers, rfl⟩

/-- All signs of one kind in the definition around `pos`, first to last, however they are
written. -/
def foundSigns (d : Document) (s : Settings) (sign : AlignSign) (pos : Int) :
    Except Fault (List Int) := do
  let clauses ← d.definitionClauses s pos
  return (← clauses.mapM (d.clauseSigns sign)).flatten

/-- The signs that are aligned are those that are written like the first. -/
theorem alignedSigns_eq (d : Document) (s : Settings) (sign : AlignSign) (pos : Int) :
    d.alignedSigns s sign pos = (d.foundSigns s sign pos).map d.likeFirst := by
  unfold alignedSigns foundSigns
  cases d.definitionClauses s pos with
  | error e => rfl
  | ok clauses => cases hsigns : clauses.mapM (d.clauseSigns sign)
    <;> simp [bind, Except.bind, hsigns] <;> rfl

/-- The signs of the lines of several clauses, one clause after the other. -/
theorem flatten_signs {R : Int → Option Int → Prop} {clauses : List ClauseLines}
    {signs : List (List Int)}
    (h : List.Forall₂ (fun c qs => ∃ rs, List.Forall₂ R c.points rs ∧ qs = rs.filterMap id)
      clauses signs) :
    ∃ rs, List.Forall₂ R (clauses.flatMap ClauseLines.points) rs ∧
      signs.flatten = rs.filterMap id := by
  induction h with
  | nil => exact ⟨[], .nil, rfl⟩
  | cons hc _ ih =>
    obtain ⟨first, hfirst, rfl⟩ := hc
    obtain ⟨rest, hrest, hflat⟩ := ih
    exact ⟨first ++ rest, List.rel_append hfirst hrest,
      by rw [List.flatten_cons, hflat, List.filterMap_append]⟩

/-- The signs of a definition can be found, each on a line of its own. -/
theorem foundSigns_yields (d : Document) (s : Settings) (sign : AlignSign) (pos : Int) :
    Yields (d.foundSigns s sign pos) fun signs => d.text.Separate signs ∧
      ∀ q ∈ signs, ∃ p, d.SignOn sign p q := by
  unfold foundSigns
  refine (d.definitionClauses_yields s pos).bind ?_
  rintro clauses ⟨points, hpoints, hsub⟩
  obtain ⟨hseparate, hcode⟩ := d.codePoints_yields.of_eq hpoints
  have hlines : (clauses.flatMap ClauseLines.points).Sublist points := by
    have := hsub.flatMap ClauseLines.points
    rwa [flatMap_clauseLines] at this
  have hpart : ∀ c ∈ clauses, ∀ p ∈ c.points, d.CodePoint p := fun c hc p hp =>
    hcode p (hlines.subset (List.mem_flatMap.mpr ⟨c, hc, hp⟩))
  refine (Yields.mapM fun c hc => clauseSigns_yields sign (hpart c hc)).bind fun signs hsigns => ?_
  obtain ⟨rs, hrs, hflat⟩ := flatten_signs hsigns
  refine .pure ?_
  rw [hflat]
  constructor
  · refine pairwise_results hrs (hseparate.sublist hlines) fun a b p q hab hp hq => ?_
    rw [(hp p rfl).lineStop_eq, (hq q rfl).lineStart_eq]
    exact hab
  · intro q hq
    obtain ⟨p, -, hp⟩ := exists_of_mem_results hrs hq
    exact ⟨p, hp q rfl⟩

/-- The signs that are written like the first one are some of the signs, in the same order. -/
theorem likeFirst_sublist (d : Document) (signs : List Int) :
    (d.likeFirst signs).Sublist signs := by
  cases signs with
  | nil => exact List.nil_sublist _
  | cons p ps => exact List.filter_sublist.cons_cons p

/-- The signs that are aligned can be found, each on a line of its own. -/
theorem alignedSigns_yields (d : Document) (s : Settings) (sign : AlignSign) (pos : Int) :
    Yields (d.alignedSigns s sign pos) fun signs =>
      d.text.Separate signs ∧ ∀ q ∈ signs, ∃ p, d.SignOn sign p q := by
  rw [alignedSigns_eq]
  refine (d.foundSigns_yields s sign pos).map fun signs h => ?_
  exact ⟨h.1.sublist (d.likeFirst_sublist signs),
    fun q hq => h.2 q ((d.likeFirst_sublist signs).subset hq)⟩

end Document

end LayoutRule

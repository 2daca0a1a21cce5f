import LayoutRule.Proofs.Parallel.Contours
import LayoutRule.Proofs.Request.Candidates
import LayoutRule.Proofs.Request.Measured

/-!
# What is offered for a line

The candidates for a line of code are *offered*: no candidate stands twice and none lies left of the
margin, when the offsets of the settings lead to the right. Lists that are put together by `offer`
are offered whatever goes in; every other list that is an answer has one candidate only, at a column
that comes from a column of the text and such offsets.

There is always a candidate, unless the line starts with a comment, a guard or the sign of a
right-hand side. This comes down to the last line of a contour, which proposes something for every
other line (`Document.lineProposals_ne_nil`).

Main statement: `Document.candidates_offered`.
-/

namespace LayoutRule

/-! ## Results with a property -/

/-- What the computation gives, if it gives something, has the property. -/
def Noted.Ensures {α : Type} (x : Noted α) (P : α → Prop) : Prop := ∀ a, x.result = .ok a → P a

namespace Noted.Ensures

variable {α β : Type} {x : Noted α} {f : α → Noted β} {P Q : α → Prop} {R : β → Prop}

/-- A value with the property is a computation that ensures it. -/
theorem pure {a : α} (h : P a) : (Pure.pure a : Noted α).Ensures P := by
  rintro _ ⟨⟩
  exact h

/-- A computation that takes no notes. -/
theorem lift {r : Except Fault α} (h : ∀ a, r = .ok a → P a) : (liftM r : Noted α).Ensures P := h

/-- A computation that ensures a property ensures every weaker one. -/
theorem mono (h : x.Ensures P) (hPQ : ∀ a, P a → Q a) : x.Ensures Q := fun a ha => hPQ a (h a ha)

/-- One computation after another. -/
theorem bind (h : x.Ensures P) (hf : ∀ a, P a → (f a).Ensures R) : (x >>= f).Ensures R := by
  intro b hb
  rw [Noted.bind_result] at hb
  obtain ⟨a, ha, hfa⟩ := bind_eq_ok.1 hb
  exact hf a (h a ha) b hfa

/-- A computation whose result does not matter, before the rest. -/
theorem after (hf : ∀ a, (f a).Ensures R) : (x >>= f).Ensures R :=
  bind (P := fun _ => True) (fun _ _ => trivial) fun a _ => hf a

/-- A computation that is one of two, before the rest. -/
theorem ite_bind {c : Prop} [Decidable c] {y : Noted α} (h : (if c then x else y).Ensures P)
    (hf : ∀ a, P a → (f a).Ensures R) : (if c then x >>= f else y >>= f).Ensures R := by
  split
  · next hc => exact (if_pos hc ▸ h).bind hf
  · next hc => exact (if_neg hc ▸ h).bind hf

end Noted.Ensures

/-! ## Lists of candidates -/

/-- Each candidate stands once, and none lies left of the margin. -/
structure Offered (cs : List Candidate) : Prop where
  /-- No candidate is repeated. -/
  nodup : cs.Nodup
  /-- The margin is the least column. -/
  column_nonneg : ∀ c ∈ cs, 0 ≤ c.column

namespace Offered

variable {cs : List Candidate}

/-- The empty list is offered. -/
theorem nil : Offered [] := ⟨List.nodup_nil, by simp⟩

/-- A candidate on its own. -/
theorem single {column : Int} (h : 0 ≤ column) : Offered [⟨column, none⟩] :=
  ⟨List.pairwise_singleton _ _, by simpa using h⟩

/-- An offered list is still so when one more candidate is offered: one that is there already is not
put in again, and one left of the margin is moved to the margin. -/
theorem offer (h : Offered cs) (c : Candidate) : Offered (offer cs c) := by
  simp only [LayoutRule.offer]
  split
  · exact h
  · next hnew =>
    refine ⟨List.nodup_append.mpr ⟨h.nodup, List.pairwise_singleton _ _, ?_⟩, fun c' hc' => ?_⟩
    · rintro a ha b hb rfl
      rw [List.mem_singleton.mp hb] at ha
      exact hnew ha
    · rcases List.mem_append.mp hc' with hc' | hc'
      · exact h.column_nonneg c' hc'
      · rw [List.mem_singleton.mp hc']
        exact Int.le_max_left 0 c.column

/-- An offered list is still so when more candidates are offered, whatever they are. -/
theorem offerAll (h : Offered cs) (more : List Candidate) : Offered (offerAll cs more) := by
  induction more generalizing cs with
  | nil => exact h
  | cons c rest ih => exact ih (h.offer c)

/-- An offered list is still so when the candidates inside a bracket are offered and the column of
the bracket is replaced. -/
theorem replaceBracketColumn (h : Offered cs) (bracketCol basic : Int) (more : List Candidate) :
    Offered (Request.replaceBracketColumn bracketCol basic cs more) := by
  fun_induction Request.replaceBracketColumn bracketCol basic cs more with
  | case1 cs => exact h.offer _
  | case2 cs c rest hcol => exact (h.offer _).offerAll rest
  | case3 cs c rest hcol ih => exact ih (h.offer c)

end Offered

/-- Behind an offer there is a candidate. -/
theorem offer_ne_nil (cs : List Candidate) (c : Candidate) : offer cs c ≠ [] := by
  simp only [offer]
  split
  · next hmem => exact List.ne_nil_of_mem hmem
  · simp

/-- Candidates that were there, or that are offered, leave a list that is not empty. -/
theorem offerAll_ne_nil {cs more : List Candidate} (h : cs ≠ [] ∨ more ≠ []) :
    offerAll cs more ≠ [] := by
  induction more generalizing cs with
  | nil => exact h.resolve_right fun hne => hne rfl
  | cons c rest ih => exact ih (.inl (offer_ne_nil cs c))

/-- Inside a bracket there is a candidate, because the column inside the bracket is offered in any
case. -/
theorem replaceBracketColumn_ne_nil (bracketCol basic : Int) (cs more : List Candidate) :
    Request.replaceBracketColumn bracketCol basic cs more ≠ [] := by
  fun_induction Request.replaceBracketColumn bracketCol basic cs more with
  | case1 cs => exact offer_ne_nil cs _
  | case2 cs c rest hcol => exact offerAll_ne_nil (.inl (offer_ne_nil cs _))
  | case3 cs c rest hcol ih => exact ih

/-! ## What a line starts with -/

namespace Text

variable {t : Text}

/-- The kind of a line that starts with the text at index `k`, where that is no comment. -/
def kindAt (t : Text) (k : Nat) : LineKind := ((t.markerStop? k).map (·.1)).getD .other

/-- A lexeme that starts with a character of a name is no operator. -/
theorem head?_lexemeAt {c : Char} {i : Int} (hc : t.chars[t.clamp i]? = some c)
    (hname : isNameChar c = true) : (t.lexemeAt i).toList.head? = some c := by
  have hlt := lt_runStop hc hname
  have hstop : t.lexemeStop (t.clamp i) = t.runStop isNameChar (t.clamp i) := if_pos hlt
  rw [lexemeAt_eq, hstop, String.toList_ofList, Array.toList_extract, List.extract_eq_take_drop,
    List.head?_take, if_neg (by omega), List.head?_drop, Array.getElem?_toList, hc]

/-- A name does not start with the sign of a type signature. -/
theorem lexemeAt_ne_typeSign {i : Int} (h : t.kindAt (t.clamp i) = .name) :
    t.lexemeAt i ≠ "::" ∧ t.lexemeAt i ≠ "∷" := by
  have hname : ∃ c, t.chars[t.clamp i]? = some c ∧ isNameStart c = true := by
    unfold kindAt at h
    cases hm : t.markerStop? (t.clamp i) with
    | none =>
      rw [hm] at h
      cases h
    | some m =>
      obtain ⟨kind, stop⟩ := m
      rw [hm] at h
      rcases markerStop?_kind hm with ⟨-, hstop⟩ | rfl | rfl
      · unfold nameStop? at hstop
        split at hstop
        · next c hc =>
          split at hstop
          · next hstart => exact ⟨c, hc, hstart⟩
          · cases hstop
        · cases hstop
      · cases h
      · cases h
  obtain ⟨c, hc, hstart⟩ := hname
  have hword : isNameChar c = true := by
    unfold isNameStart at hstart
    unfold isNameChar
    rw [Bool.and_eq_true] at hstart
    simp [hstart.1]
  have hhead := head?_lexemeAt hc hword
  refine ⟨fun heq => ?_, fun heq => ?_⟩
  all_goals
    rw [heq] at hhead
    cases hhead
    exact absurd hstart (by decide +kernel)

end Text

namespace Document

open Text

variable {d : Document} {m : Marker} {pos origin limit : Int}

/-- The kind of a marker: that of a blank line, of a comment, or of the text. -/
theorem kind_of_markerAt (h : d.markerAt pos origin limit = .ok m) :
    (d.isBlankLine pos = true ∧ m.kind = .empty) ∨
    (d.isBlankLine pos = false ∧ ∃ opened, d.openComment? (min origin pos) pos = .ok opened ∧
      m.kind = if opened.isSome then .comment else d.text.kindAt (d.text.clamp pos)) := by
  unfold markerAt at h
  split at h
  · next hblank =>
    cases h
    exact .inl ⟨hblank, rfl⟩
  next hblank =>
  refine .inr ⟨by simpa using hblank, ?_⟩
  obtain ⟨opened, hopened, h⟩ := bind_eq_ok.1 h
  refine ⟨opened, hopened, ?_⟩
  split at h
  · next hsome =>
    cases h
    rw [if_pos hsome]
  next hnone =>
  rw [if_neg hnone]
  obtain ⟨-, -, h⟩ := bind_eq_ok.1 h
  unfold kindAt
  dsimp only at h
  split at h
  · next kind stop hm =>
    obtain ⟨j, -, h⟩ := bind_eq_ok.1 h
    cases h
    rw [hm]
    rfl
  · next hm =>
    cases h
    rw [hm]
    rfl

/-- No comment starts on a blank line. -/
theorem commentAt_of_isBlankLine (h₀ : 0 ≤ pos) (hblank : d.isBlankLine pos = true) :
    d.commentAt pos ≠ .ok true := by
  intro hcomment
  exact commentAt_of_gap h₀ (isGapAt_of_isBlankLine h₀ (lt_length_of_commentAt hcomment) hblank)
    hcomment

end Document

/-! ## The last line of a contour -/

namespace Clause

variable {d : Document} {c : Clause} {boundary : Int} {shape : Shape}

/-- The shapes without a name under which a line of another name may go. -/
def nameless : List Shape := [.guardRhsAfter, .guardAfter, .rhsAfter]

/-- A clause with one of the nameless shapes has no name, as a name is never hidden. -/
theorem name_eq_none (h : Shape.ofBits? (c.visibleBits boundary) = some shape)
    (hshape : shape ∈ nameless) : c.name = none := by
  obtain ⟨row, hrow, hfits⟩ := Shape.exists_row h
  have hbit : ∀ row ∈ Shape.table, row.1 ∈ nameless → row.2.head? = some '0' := by decide
  obtain ⟨bits, hbits⟩ := List.head?_eq_some_iff.mp (hbit _ hrow hshape)
  dsimp only at hbits
  cases hname : c.name with
  | none => rfl
  | some p => simp [hbits, visibleBits, hname, Shape.fits] at hfits

/-- The last line of a contour proposes something for an empty line. -/
theorem emptyLine_ne_nil (hne : shape ≠ .nothing) : c.emptyLine d true shape ≠ [] := by
  cases shape <;> simp [emptyLine, when] at hne ⊢

/-- Every line of a contour proposes something for a line with a `where`. -/
theorem whereLine_ne_nil (hne : shape ≠ .nothing) : c.whereLine shape ≠ [] := by
  cases shape <;> simp [whereLine] at hne ⊢

/-- Only the name of the clause itself keeps a line from going under what follows a sign. -/
theorem nameLine_ne_nil (first : String) (hne : shape ≠ .nothing)
    (hname : shape ∈ nameless → c.nameText = none) : c.nameLine true first shape ≠ [] := by
  cases shape <;> simp [nameLine, when, nameless] at hne hname ⊢
  all_goals simp [hname]

/-- The last line of a contour proposes something for any other line of code. -/
theorem otherLine_ne_nil (hne : shape ≠ .nothing) : c.otherLine true shape ≠ [] := by
  cases shape <;> simp [otherLine] at hne ⊢

/-- The last line of a contour proposes something for every kind of line that goes by its shape. -/
theorem shapedLine_ne_nil (kind : LineKind) (first : String) (hne : shape ≠ .nothing)
    (hname : shape ∈ nameless → c.nameText = none) : c.shapedLine d kind true first shape ≠ [] := by
  unfold shapedLine
  split
  · exact emptyLine_ne_nil hne
  · split
    · exact whereLine_ne_nil hne
    · exact nameLine_ne_nil first hne hname
  · exact otherLine_ne_nil hne

/-- Below a declaration something is proposed. -/
theorem declarationLine?_ne_nil {kind : LineKind} {ps : List Proposal}
    (h : c.declarationLine? kind = some ps) : ps ≠ [] := by
  unfold declarationLine? at h
  grind

end Clause

/-- The kinds of lines that have a place below every contour. -/
def LineKind.placed : List LineKind := [.empty, .name, .other]

namespace Document

open Text Request

variable {d : Document} {c : Clause} {kind : LineKind} {first : String} {boundary stop : Int}
  {ps : List Proposal}

/-- A clause whose parts are visible up to the line itself proposes something for it. -/
theorem lineProposals_ne_nil (hname : c.nameText.isSome → c.name.isSome)
    (hkind : kind ∈ LineKind.placed) (hfirst : kind = .name → first ≠ "::" ∧ first ≠ "∷")
    (hlast : stop ≤ boundary) (h : d.lineProposals kind first c boundary stop = .ok ps) :
    ps ≠ [] := by
  have hguard : kind ≠ .guard := by rintro rfl; exact absurd hkind (by decide)
  have hrhs : kind ≠ .rhs := by rintro rfl; exact absurd hkind (by decide)
  unfold lineProposals at h
  rw [if_neg (by grind), if_neg hguard, if_neg hrhs] at h
  split at h
  · next hdeclared =>
    cases h
    exact Clause.declarationLine?_ne_nil hdeclared
  split at h
  · cases h
  · cases h
  · next shape hne hshape =>
    obtain ⟨-, -, h⟩ := bind_eq_ok.1 h
    cases h
    rw [decide_eq_true hlast]
    refine Clause.shapedLine_ne_nil _ first hne fun hnameless => ?_
    have hnone := Clause.name_eq_none hshape hnameless
    rw [hnone] at hname
    cases htext : c.nameText with
    | none => rfl
    | some text => exact absurd (hname (by rw [htext]; rfl)) (by simp)

end Document

namespace Request

open Document Text

variable {r : Request} {start stop bracket pos : Int} {cs found : List Candidate}
  {contour : List Int}

/-- The candidates that the lines of a contour propose are offered. -/
theorem offerContour_offered {kind : LineKind} {first : String} (h : Offered found)
    (hcs : r.offerContour start stop kind first contour found = .ok cs) : Offered cs := by
  induction contour generalizing found with
  | nil =>
    cases hcs
    exact h
  | cons p rest ih =>
    unfold offerContour at hcs
    obtain ⟨clause, -, hcs⟩ := bind_eq_ok.1 hcs
    obtain ⟨ps, -, hcs⟩ := bind_eq_ok.1 hcs
    exact ih (h.offerAll _) hcs

/-- The last line of a contour decides that there is a candidate. -/
theorem offerContour_ne_nil {kind : LineKind} {first : String} (hs : 0 ≤ start)
    (h₁ : stop ≤ r.doc.text.length) (hlines : ∀ p ∈ contour, r.doc.CodeLine start p ∧ p < stop)
    (hkind : kind ∈ LineKind.placed) (hfirst : kind = .name → first ≠ "::" ∧ first ≠ "∷")
    (hne : contour ≠ []) (hcs : r.offerContour start stop kind first contour found = .ok cs) :
    cs ≠ [] := by
  induction contour generalizing found with
  | nil => exact absurd rfl hne
  | cons p rest ih =>
    unfold offerContour at hcs
    obtain ⟨clause, hclause, hcs⟩ := bind_eq_ok.1 hcs
    obtain ⟨ps, hps, hcs⟩ := bind_eq_ok.1 hcs
    cases rest with
    | cons next more =>
      exact ih (fun q hq => hlines q (List.mem_cons_of_mem p hq)) (List.cons_ne_nil _ _) hcs
    | nil =>
      cases hcs
      obtain ⟨hcode, hlt⟩ := hlines p List.mem_cons_self
      have hp : 0 ≤ p := by have := hcode.start_le; omega
      obtain ⟨x, hx, hblank⟩ :=
        exists_char_indentationPoint (d := r.doc) p (by rw [hcode.point]; omega)
      rw [hcode.point] at hx
      obtain ⟨hplaced, -⟩ := (clauseAt_yields hs hp hlt h₁ hx hblank).of_eq hclause
      refine offerAll_ne_nil (.inr ?_)
      rw [ne_eq, List.map_eq_nil_iff]
      exact lineProposals_ne_nil hplaced.isSome_name hkind hfirst (Int.le_refl stop) hps

/-- What is found below a contour is offered. -/
theorem belowContour_offered (h : r.belowContour start contour stop = .ok cs) : Offered cs := by
  obtain ⟨m, -, h⟩ := bind_eq_ok.1 h
  obtain ⟨first, -, h⟩ := bind_eq_ok.1 h
  exact offerContour_offered .nil h

/-- Below a contour there is a candidate for code that no guard and no sign starts. -/
theorem belowContour_ne_nil (hs : 0 ≤ start) (h₀ : 0 ≤ stop) (h₁ : stop ≤ r.doc.text.length)
    (hlines : ∀ p ∈ contour, r.doc.CodeLine start p ∧ p < stop) (hne : contour ≠ [])
    (hopen : r.doc.openComment? start stop = .ok none)
    (hkind : r.doc.isBlankLine stop = false →
      r.doc.text.kindAt (r.doc.text.clamp stop) ∈ LineKind.placed)
    (h : r.belowContour start contour stop = .ok cs) : cs ≠ [] := by
  obtain ⟨m, hm, h⟩ := bind_eq_ok.1 h
  obtain ⟨first, hfirst, h⟩ := bind_eq_ok.1 h
  obtain rfl : first = r.doc.text.lexemeAt stop := (readLexeme_yields h₀ h₁).of_eq hfirst
  have hle : start ≤ stop := by
    obtain ⟨p, hp⟩ := List.exists_mem_of_ne_nil _ hne
    obtain ⟨hcode, hlt⟩ := hlines p hp
    have := hcode.start_le
    omega
  rcases kind_of_markerAt hm with ⟨-, hempty⟩ | ⟨hblank, opened, hopened, hm⟩
  · rw [hempty] at h
    exact offerContour_ne_nil hs h₁ hlines (by decide) (by simp) hne h
  · rw [Int.min_eq_left hle, hopen] at hopened
    cases hopened
    rw [if_neg (by simp)] at hm
    rw [hm] at h
    exact offerContour_ne_nil hs h₁ hlines (hkind hblank) lexemeAt_ne_typeSign hne h

/-! ## Columns -/

/-- The nearest candidate to the left does not lie left of the margin, and neither does the column
that stands in for it when there is none. -/
theorem nearestLeft_nonneg (cs : List Candidate) {col : Int} (h : 0 ≤ col) :
    0 ≤ nearestLeft cs col := by
  unfold nearestLeft
  dsimp only
  split
  · next hbest => exact hbest
  · exact h

/-- The column that a text would get on a line of its own does not lie left of the margin. -/
theorem virtualColumn_ensures (pos : Int) (start : Option Int) :
    (r.virtualColumn pos start).Ensures (0 ≤ ·) := by
  have hcol := r.doc.column_nonneg pos
  have hnested : ∀ i : Int, (do
      let cs ← r.nested (← r.hangs pos) i pos
      return nearestLeft cs (r.doc.column pos) : Noted Int).Ensures (0 ≤ ·) :=
    fun i => .after fun hanging => .after fun cs => .pure (nearestLeft_nonneg cs hcol)
  unfold virtualColumn
  dsimp only
  split
  · exact .pure hcol
  · cases start with
    | some i => exact hnested i
    | none => exact .after hnested

/-- What goes by the column of a word or bracket that may hang. -/
theorem openerColumn_ensures {α : Type} {f : Int → Noted α} {P : α → Prop} (pos : Int)
    (start : Option Int) (hf : ∀ col, 0 ≤ col → (f col).Ensures P) :
    (do
      if ← r.hangs pos then
        let col ← r.virtualColumn pos start
        f col
      else
        let col ← pure (r.doc.column pos)
        f col : Noted α).Ensures P := by
  refine .after fun hanging => ?_
  split
  · exact (virtualColumn_ensures pos start).bind hf
  · exact hf _ (r.doc.column_nonneg pos)

/-- The column of a block does not lie left of the margin, when no offset leads to the left. -/
theorem blockColumn_ensures (hright : r.settings.Rightward) (pos : Int) (start : Option Int)
    {default : Option Int} (hdefault : ∀ k ∈ default, 0 ≤ k) :
    (r.blockColumn pos start none default).Ensures (0 ≤ ·) := by
  have hstep : 0 ≤ default.getD r.settings.indentStep := by
    cases default with
    | none => exact hright.indentStep
    | some k => exact hdefault k rfl
  unfold blockColumn
  dsimp only
  refine Noted.Ensures.bind (P := fun o => ∀ offsets ∈ o, ∀ offset : Int,
    offsets.offset = some offset ∨ offsets.hanging = some offset → 0 ≤ offset) ?_ fun o ho => ?_
  · refine .lift fun o ho => ?_
    obtain ⟨word, -, ho⟩ := bind_eq_ok.1 ho
    cases ho
    exact fun offsets hoffsets offset hoffset => hright.keywordOffset_nonneg hoffsets hoffset
  · generalize hused :
      (if r.inhibit then (⟨some 0, none⟩ : KeywordOffset) else o.getD ⟨none, none⟩) = used
    have hoffset : ∀ offset : Int, used.offset = some offset ∨ used.hanging = some offset →
        0 ≤ offset := by
      subst hused
      split
      · simp
      · cases o with
        | none => simp
        | some offsets => exact ho offsets rfl
    have hplain : 0 ≤ used.offset.getD (default.getD r.settings.indentStep) := by
      cases hk : used.offset with
      | none => exact hstep
      | some k => exact hoffset k (.inl hk)
    have hhanging : 0 ≤ (used.hanging <|> used.offset).getD
        (default.getD r.settings.indentStep) := by
      cases hk : used.hanging with
      | none => exact hplain
      | some k => exact hoffset k (.inr hk)
    have hcol := r.doc.column_nonneg pos
    refine .after fun hanging => ?_
    split
    · exact (virtualColumn_ensures pos start).bind fun base hbase =>
        .pure (Int.add_nonneg hbase hhanging)
    · exact .pure (Int.add_nonneg hcol hplain)

/-- The column of the top level does not lie left of the margin. -/
theorem topColumn_nonneg {s : Settings} (h : 0 ≤ s.birdOffset) (d : Document) :
    0 ≤ s.topColumn d := by
  unfold Settings.topColumn
  split <;> omega

/-- The column of a line that nothing above it decides does not lie left of the margin. -/
theorem definitionColumn_nonneg (h : 0 ≤ r.settings.birdOffset) (start stop : Int) :
    0 ≤ r.definitionColumn start stop := by
  have htop := topColumn_nonneg h r.doc
  unfold definitionColumn
  dsimp only
  split
  · exact htop
  · split
    · exact htop
    · exact r.doc.column_nonneg start

/-! ## Answers -/

/-- A candidate on its own, at a column that is not left of the margin. -/
theorem single_offered {col : Int} (h : 0 ≤ col) :
    Offered [⟨col, none⟩] ∧ ([⟨col, none⟩] : List Candidate) ≠ [] :=
  ⟨.single h, List.cons_ne_nil _ _⟩

/-- A keyword that closes a pair goes under its opener, if there is one. -/
theorem matchingColumn_ensures (hright : r.settings.Rightward) (pair : KeywordPair)
    (pos start : Int) :
    (do
      match ← r.doc.matchingOpener? pair.words (pair == .letIn) start pos with
      | none => return none
      | some opener =>
        let col ← if ← r.hangs opener then r.virtualColumn opener (some start)
          else pure (r.doc.column opener)
        return some [⟨col + pair.closerOffset r.settings, none⟩] :
          Noted (Option (List Candidate))).Ensures
      fun o => ∀ cs ∈ o, Offered cs ∧ cs ≠ [] := by
  refine .after fun opener => ?_
  cases opener with
  | none => exact .pure (by simp)
  | some opener =>
    refine openerColumn_ensures opener (some start) fun col hcol => .pure ?_
    rintro _ ⟨⟩
    exact single_offered (Int.add_nonneg hcol (hright.closerOffset_nonneg pair))

/-- Under the opener of a closing keyword there is a candidate, and the list is offered. -/
theorem closingKeyword?_ensures (hright : r.settings.Rightward) (pos start : Int) :
    (r.closingKeyword? pos start).Ensures fun o => ∀ cs ∈ o, Offered cs ∧ cs ≠ [] := by
  unfold closingKeyword?
  refine .after fun _ => ?_
  split
  · exact .pure (by simp)
  next pair _ =>
  split
  · exact .after fun _ => matchingColumn_ensures hright pair pos start
  · exact matchingColumn_ensures hright pair pos start

/-- The column inside a bracket does not lie left of the margin. -/
theorem insideColumn_ensures (hright : r.settings.Rightward) (bracket stop : Int) :
    (r.insideColumn bracket stop).Ensures (0 ≤ ·) := by
  unfold insideColumn
  refine .after fun follow => ?_
  split
  · exact blockColumn_ensures hright bracket none (by simp)
  · exact .pure (r.doc.column_nonneg follow)

/-- Inside a bracket there is a candidate, and the list is offered. -/
theorem insideBracket_ensures (hright : r.settings.Rightward) (bracket stop : Int) :
    (r.insideBracket bracket stop).Ensures fun cs => Offered cs ∧ cs ≠ [] := by
  unfold insideBracket
  dsimp only
  split
  · have hcol := openerColumn_ensures (r := r) (P := fun cs => Offered cs ∧ cs ≠ []) bracket none
      fun col hcol => .pure (single_offered hcol)
    split
    · split
      · exact .after fun _ => hcol
      · exact hcol
    · exact hcol
  · refine Noted.Ensures.ite_bind (P := (0 ≤ ·)) ?_ fun basic hbasic => ?_
    · split
      · exact .pure (r.doc.column_nonneg bracket)
      · exact insideColumn_ensures hright bracket stop
    · refine .after fun contour => ?_
      split
      · exact .pure (single_offered hbasic)
      · exact .after fun inner =>
          .pure ⟨Offered.nil.replaceBracketColumn _ _ _, replaceBracketColumn_ne_nil _ _ _ _⟩

/-- Inside a comment there is a candidate, and the list is offered. -/
theorem insideComment_ensures (opened stop start : Int) :
    (Noted.ofExcept (r.insideComment opened stop start)).Ensures fun cs => Offered cs ∧
      cs ≠ [] := by
  have hcol := r.doc.column_nonneg
  refine Noted.Ensures.lift fun cs (h : r.insideComment opened stop start = .ok cs) => ?_
  unfold insideComment at h
  simp only at h
  by_cases hcloses : r.doc.text.hasWord Text.blockClose stop r.doc.text.length = true
  · rw [if_pos hcloses] at h
    cases h
    exact single_offered (Int.add_nonneg (hcol opened) (by decide))
  rw [if_neg hcloses] at h
  obtain ⟨-, -, h⟩ := bind_eq_ok.1 h
  obtain ⟨-, -, h⟩ := bind_eq_ok.1 h
  split at h
  · cases h
    exact single_offered (hcol _)
  split at h
  · cases h
    exact single_offered (hcol _)
  · cases h
    refine single_offered ?_
    have hdashes : r.doc.text.dashCount stop ≤ 2 := by
      unfold dashCount
      dsimp only
      split
      · split <;> omega
      · omega
    have := hcol (max (r.doc.indentationPoint (r.doc.text.moveLines stop (-1)).1) start)
    omega

/-- A line that starts with a comment: whatever goes in, the list is offered. -/
theorem commentLine_ensures (stop start : Int) : (r.commentLine stop start).Ensures Offered := by
  unfold commentLine
  refine Noted.Ensures.ite_bind (P := fun _ => True) (fun _ _ => trivial) fun previous _ => ?_
  refine .after fun code => .after fun cs => .pure ?_
  refine Offered.offerAll ?_ _
  cases previous with
  | none => exact .nil
  | some p => exact Offered.nil.offer _

/-- The candidates for a line of code are offered. There is one when the line is blank or starts
with something that the rules have a place for. -/
theorem codeLine_ensures (hright : r.settings.Rightward) (hbird : 0 ≤ r.settings.birdOffset)
    (hs : 0 ≤ start) (h₀ : 0 ≤ stop) (h₁ : stop ≤ r.doc.text.length)
    (hopen : r.doc.openComment? start stop = .ok none) :
    (r.codeLine start stop).Ensures fun cs => Offered cs ∧
      ((r.doc.isBlankLine stop = false →
        r.doc.text.kindAt (r.doc.text.clamp stop) ∈ LineKind.placed) → cs ≠ []) := by
  unfold codeLine
  refine (closingKeyword?_ensures hright stop start).bind fun closing hclosing => ?_
  cases closing with
  | some cs => exact .pure ((hclosing cs rfl).imp_right fun hne _ => hne)
  | none =>
    refine .after fun keyword => ?_
    cases keyword with
    | some q =>
      refine (blockColumn_ensures hright q (some start) (by simp)).bind fun col hcol => .pure ?_
      exact (single_offered hcol).imp_right fun hne _ => hne
    | none =>
      refine .after fun bracket => ?_
      cases bracket with
      | some b =>
        exact (insideBracket_ensures hright b stop).mono fun cs hcs =>
          hcs.imp_right fun hne _ => hne
      | none =>
        refine Noted.Ensures.bind
          (.lift fun contour h => (contour_yields r.settings hs h₁).of_eq h) ?_
        rintro contour ⟨hlines, -⟩
        split
        · exact .pure ((single_offered (definitionColumn_nonneg hbird start stop)).imp_right
            fun hne _ => hne)
        · next hne =>
          refine .lift fun cs h => ⟨belowContour_offered h, fun hkind => ?_⟩
          refine belowContour_ne_nil hs h₀ h₁ hlines ?_ hopen hkind h
          rintro rfl
          exact hne rfl

/-- An answer is offered, and it is not empty unless a comment, a guard or a sign starts at the
place. -/
theorem answer_ensures (hright : r.settings.Rightward) (hbird : 0 ≤ r.settings.birdOffset)
    (hs : 0 ≤ start) (h₀ : 0 ≤ stop) (h₁ : stop ≤ r.doc.text.length) :
    (r.answer start stop).Ensures fun cs => Offered cs ∧
      (r.doc.openComment? start stop ≠ .ok (some stop) →
        (r.doc.isBlankLine stop = false →
          r.doc.text.kindAt (r.doc.text.clamp stop) ∈ LineKind.placed) → cs ≠ []) := by
  unfold answer
  refine .after fun quote => ?_
  cases quote with
  | some q =>
    have hcol := r.doc.column_nonneg q
    refine .pure ?_
    have hsingle : 0 ≤ r.doc.column q + (if r.doc.text.charAt? stop = some '\\' then 0 else 1) := by
      split <;> omega
    exact (single_offered hsingle).imp_right fun hne _ _ => hne
  | none =>
    refine Noted.Ensures.bind (P := fun o => r.doc.openComment? start stop = .ok o)
      (.lift fun _ h => h) fun opened hopen => ?_
    cases opened with
    | some c =>
      show (r.commentText c stop start).Ensures _
      unfold commentText
      split
      · next hc =>
        refine (commentLine_ensures stop start).mono fun cs hcs => ⟨hcs, fun hno _ => ?_⟩
        rw [hopen, hc] at hno
        exact absurd rfl hno
      · exact (insideComment_ensures c stop start).mono fun cs hcs =>
          hcs.imp_right fun hne _ _ => hne
    | none =>
      exact (codeLine_ensures hright hbird hs h₀ h₁ hopen).mono fun cs hcs =>
        hcs.imp_right fun hne _ => hne

end Request

/-! ## Lines -/

namespace Document

open Text Request

variable {d : Document} {s : Settings} {pos start stop origin : Int} {m : Marker}
  {cs : List Candidate}

/-- What is found to start a comment does start one. -/
theorem commentAt_of_openComment? (hs : 0 ≤ start) (h₀ : 0 ≤ stop) (h₁ : stop ≤ d.text.length)
    (h : d.openComment? start stop = .ok (some stop)) : d.commentAt stop = .ok true := by
  rcases (openComment?_yields hs h₀ h₁).of_eq h stop rfl with ⟨-, hcomment⟩ | ⟨-, hlt⟩
  · exact hcomment
  · exact absurd hlt (Int.lt_irrefl stop)

/-- A place at which a scan that starts there finds no comment open is not the start of one. -/
theorem commentAt_of_openComment?_self (h : d.openComment? stop stop = .ok none) :
    d.commentAt stop ≠ .ok true := by
  intro hcomment
  unfold openComment? at h
  rw [if_pos (Int.le_refl stop), hcomment] at h
  cases h

/-- A marker that is no comment, looked for from the place itself or from the start of the
stretch. -/
theorem openComment?_ne_of_markerAt (hs : 0 ≤ start) (h₀ : 0 ≤ stop) (h₁ : stop ≤ d.text.length)
    (horigin : origin = stop ∨ origin = start) (hm : d.markerAt stop origin d.text.length = .ok m)
    (hkind : m.kind ≠ .comment) : d.openComment? start stop ≠ .ok (some stop) := by
  intro hopen
  have hcomment := commentAt_of_openComment? hs h₀ h₁ hopen
  rcases kind_of_markerAt hm with ⟨hblank, -⟩ | ⟨-, opened, hopened, hk⟩
  · exact commentAt_of_isBlankLine h₀ hblank hcomment
  · cases opened with
    | some i => exact hkind hk
    | none =>
      by_cases hmin : min origin stop = stop
      · rw [hmin] at hopened
        exact commentAt_of_openComment?_self hopened hcomment
      · rw [show min origin stop = start by omega, hopen] at hopened
        cases hopened

/-- The candidates for a line of code are all different, none of them lies left of the margin, and
there is one unless the line starts with a comment, a guard or the sign of a right-hand side; what
it starts with may be looked for from the code of the line or from the start of the definition
on. -/
theorem candidates_offered (hright : s.Rightward) (hbird : 0 ≤ s.birdOffset)
    (hcode : d.isProse pos = false) (h : (d.candidates s pos).result = .ok cs) :
    cs.Nodup ∧ (∀ c ∈ cs, 0 ≤ c.column) ∧
      ∀ origin m, (origin = d.indentationPoint pos ∨
        d.definitionStart s (d.indentationPoint pos) = .ok origin) →
        d.markerAt (d.indentationPoint pos) origin d.text.length = .ok m →
        m.kind = .empty ∨ m.kind = .name ∨ m.kind = .other → cs ≠ [] := by
  have h₀ := d.indentationPoint_nonneg pos
  have h₁ := d.indentationPoint_le_length pos
  obtain ⟨start, hstart, hs, -⟩ := definitionStart_yields d s (d.indentationPoint pos)
  rw [candidates_result hcode hstart] at h
  generalize s.levelsAt 0 = levels at h
  cases levels with
  | zero => cases h
  | succ levels =>
    obtain ⟨hoffered, hne⟩ := answer_ensures hright hbird hs h₀ h₁ cs h
    refine ⟨hoffered.nodup, hoffered.column_nonneg,
      fun origin m horigin hm hkind => hne ?_ fun hblank => ?_⟩
    · rw [hstart] at horigin
      refine openComment?_ne_of_markerAt hs h₀ h₁ (horigin.imp_right fun hok => ?_) hm ?_
      · cases hok
        rfl
      · rcases hkind with hkind | hkind | hkind <;> simp [hkind]
    · rcases kind_of_markerAt hm with ⟨hblank', -⟩ | ⟨-, opened, -, hk⟩
      · rw [show d.isBlankLine (d.indentationPoint pos) = false from hblank] at hblank'
        cases hblank'
      · split at hk
        · rcases hkind with hkind | hkind | hkind <;> simp [hkind] at hk
        · show d.text.kindAt _ ∈ _
          rw [← hk]
          rcases hkind with hkind | hkind | hkind <;> simp [hkind, LineKind.placed]

/-- A block below a guard that is not finished. -/
def guardedBlock : Document := .new (ofString "f x | x = do\n  a\n  b\n") .plain 8

/-- The blank line at its end may go to four places. -/
theorem candidates_offered_guardedBlock :
    (({} : Settings).Rightward ∧ 0 ≤ ({} : Settings).birdOffset ∧ guardedBlock.isProse 21 = false ∧
      guardedBlock.markerAt (guardedBlock.indentationPoint 21) (guardedBlock.indentationPoint 21)
        guardedBlock.text.length = .ok ⟨.empty, 21, 21, ""⟩) ∧
    (guardedBlock.candidates {} 21).result = .ok [⟨0, none⟩, ⟨4, none⟩, ⟨2, none⟩, ⟨6, none⟩] ∧
    [(⟨0, none⟩ : Candidate), ⟨4, none⟩, ⟨2, none⟩, ⟨6, none⟩].Nodup ∧
    (∀ c ∈ [(⟨0, none⟩ : Candidate), ⟨4, none⟩, ⟨2, none⟩, ⟨6, none⟩], 0 ≤ c.column) ∧
    [(⟨0, none⟩ : Candidate), ⟨4, none⟩, ⟨2, none⟩, ⟨6, none⟩] ≠ [] := by
  have hcandidates : (guardedBlock.candidates {} 21).result =
      .ok [⟨0, none⟩, ⟨4, none⟩, ⟨2, none⟩, ⟨6, none⟩] := by
    decide +kernel
  have hmarker : guardedBlock.markerAt (guardedBlock.indentationPoint 21)
      (guardedBlock.indentationPoint 21) guardedBlock.text.length = .ok ⟨.empty, 21, 21, ""⟩ := by
    decide +kernel
  have hcode : guardedBlock.isProse 21 = false := by decide +kernel
  obtain ⟨hnodup, hnonneg, hne⟩ :=
    candidates_offered rightward_default (by decide) hcode hcandidates
  exact ⟨⟨rightward_default, by decide, hcode, hmarker⟩, hcandidates, hnodup, hnonneg,
    hne _ _ (.inl rfl) hmarker (.inl rfl)⟩

end Document

end LayoutRule

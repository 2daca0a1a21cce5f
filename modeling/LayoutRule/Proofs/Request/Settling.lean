import LayoutRule.Request.Answer
import LayoutRule.Proofs.Layout.Contours
import LayoutRule.Proofs.Layout.Proposals

/-!
# Requests settle

A request for candidates *settles*: it gives a result, or it fails because too many requests lie
inside one another; and it never notes that a move through the text was cut short. `Noted.Settles`
says so for one computation, with the property of its result, and has one rule for each way to put
computations together.

Each way to answer a request settles when the requests that it makes itself do (`Request.Grounded`),
for every stretch of the text. What a result says about the texts that candidates put in is in
`Inserts`.
-/

namespace LayoutRule

/-! ## Computations that settle -/

/-- The computation gives a result with the property or stops at the bound on nesting, and no move
through the text was cut short. -/
structure Noted.Settles {α : Type} (x : Noted α) (bound : Int) (P : α → Prop) : Prop where
  /-- The only fault is that requests lie too deep. -/
  result : Yields x.result P ∨ x.result = .error (.tooDeep bound)
  /-- No move was cut short. -/
  notes : ∀ why, Note.stoppedEarly why ∉ x.notes

namespace Noted.Settles

variable {α β : Type} {bound : Int} {x : Noted α} {P Q : α → Prop} {R : β → Prop}

/-- A value with the property settles. -/
theorem pure {a : α} (h : P a) : (Pure.pure a : Noted α).Settles bound P :=
  ⟨.inl ⟨a, rfl, h⟩, by simp [Pure.pure, Noted.pure]⟩

/-- A computation that takes no notes. -/
theorem lift {r : Except Fault α} (h : Yields r P) : (liftM r : Noted α).Settles bound P :=
  ⟨.inl h, by simp [liftM, monadLift, MonadLift.monadLift, Noted.ofExcept]⟩

/-- Failing at the bound on nesting is a way to settle. -/
theorem tooDeep : (Noted.fail (.tooDeep bound) : Noted α).Settles bound P :=
  ⟨.inr rfl, by simp [Noted.fail]⟩

/-- Taking a note settles, unless it is the note that a move was cut short. -/
theorem note {n : Note} (h : ∀ why, n ≠ .stoppedEarly why) :
    (Noted.note n).Settles bound fun _ => True :=
  ⟨.inl ⟨(), rfl, trivial⟩, fun why hmem => h why (List.mem_singleton.mp hmem).symm⟩

/-- A computation that settles with a property does so with every weaker one. -/
theorem mono (h : x.Settles bound P) (hPQ : ∀ a, P a → Q a) : x.Settles bound Q :=
  ⟨h.result.imp_left fun hr => hr.mono hPQ, h.notes⟩

/-- One computation after another. -/
theorem bind {f : α → Noted β} (h : x.Settles bound P) (hf : ∀ a, P a → (f a).Settles bound R) :
    (x >>= f).Settles bound R := by
  show (Noted.bind x f).Settles bound R
  rcases h.result with ⟨a, ha, hp⟩ | he
  · have hfa := hf a hp
    simp only [Noted.bind, ha]
    refine ⟨hfa.result, ?_⟩
    intro why hmem
    rcases List.mem_append.mp hmem with hmem | hmem
    · exact h.notes why hmem
    · exact hfa.notes why hmem
  · simp only [Noted.bind, he]
    exact ⟨.inr rfl, h.notes⟩

/-- What follows a computation whose result is known. -/
theorem bind_ok {r : Except Fault α} {a : α} {f : α → Noted β} (h : r = .ok a)
    (hf : (f a).Settles bound R) : (liftM r >>= f).Settles bound R :=
  (lift (P := (· = a)) ⟨a, h, rfl⟩).bind fun _ hb => hb ▸ hf

/-- A computation that is one of two, before the rest. -/
theorem ite_bind {c : Prop} [Decidable c] {y : Noted α} {f : α → Noted β}
    (h : (if c then x else y).Settles bound P) (hf : ∀ a, P a → (f a).Settles bound R) :
    (if c then x >>= f else y >>= f).Settles bound R := by
  split
  · next hc => exact (if_pos hc ▸ h).bind hf
  · next hc => exact (if_neg hc ▸ h).bind hf

end Noted.Settles

/-! ## Texts that candidates put in -/

/-- Each text that a candidate puts in is one of the rules' texts, and there is one only if that is
allowed. -/
def Inserts (allowed : Prop) (cs : List Candidate) : Prop :=
  ∀ c ∈ cs, ∀ text ∈ c.insert, allowed ∧ IsInsert text

namespace Inserts

variable {allowed allowed' : Prop} {cs more : List Candidate} {c : Candidate}

/-- An empty list puts nothing in. -/
theorem nil : Inserts allowed [] := by simp [Inserts]

/-- A candidate without a text. -/
theorem single (column : Int) : Inserts allowed [⟨column, none⟩] := by simp [Inserts]

/-- Texts that may be put in under a condition may be so under every weaker one. -/
theorem mono (h : Inserts allowed cs) (himp : allowed → allowed') : Inserts allowed' cs := by
  intro c hc text ht
  obtain ⟨h₁, h₂⟩ := h c hc text ht
  exact ⟨himp h₁, h₂⟩

/-- Offering one more candidate keeps to the texts of the rules. -/
theorem offer (h : Inserts allowed cs) (hc : ∀ text ∈ c.insert, allowed ∧ IsInsert text) :
    Inserts allowed (offer cs c) := by
  simp only [LayoutRule.offer]
  split
  · exact h
  · intro c' hc'
    rcases List.mem_append.mp hc' with hc' | hc'
    · exact h c' hc'
    · rw [List.mem_singleton.mp hc']
      exact hc

/-- Offering more candidates keeps to the texts of the rules. -/
theorem offerAll (h : Inserts allowed cs) (hmore : Inserts allowed more) :
    Inserts allowed (offerAll cs more) := by
  induction more generalizing cs with
  | nil => exact h
  | cons c rest ih =>
    exact ih (h.offer (hmore c List.mem_cons_self)) fun c' hc' =>
      hmore c' (List.mem_cons_of_mem c hc')

/-- Offering the candidates of proposals keeps to the texts of the rules. -/
theorem offerProposals (d : Document) (step : Int) {ps : List Proposal} (h : Inserts allowed cs)
    (hps : ∀ p ∈ ps, ∀ text ∈ p.insert, allowed ∧ IsInsert text) :
    Inserts allowed (offerProposals d step cs ps) := by
  refine h.offerAll ?_
  intro c hc text ht
  obtain ⟨p, hp, rfl⟩ := List.mem_map.mp hc
  rw [Proposal.candidate_insert] at ht
  exact hps p hp text ht

/-- Replacing the column of a bracket keeps to the texts of the rules, as the column inside the
bracket comes without one. -/
theorem replaceBracketColumn {bracketCol basic : Int} (h : Inserts allowed cs)
    (hmore : Inserts allowed more) :
    Inserts allowed (Request.replaceBracketColumn bracketCol basic cs more) := by
  fun_induction Request.replaceBracketColumn bracketCol basic cs more with
  | case1 cs => exact h.offer (by simp)
  | case2 cs c rest hcol =>
    exact (h.offer (by simp)).offerAll fun c' hc' => hmore c' (List.mem_cons_of_mem c hc')
  | case3 cs c rest hcol ih =>
    exact ih (h.offer (hmore c List.mem_cons_self)) fun c' hc' =>
      hmore c' (List.mem_cons_of_mem c hc')

end Inserts

/-! ## Measuring other lines -/

namespace Request

open Document Text

variable {r : Request} {pos start stop : Int}

/-- Text may be put in at `stop`: on a blank line, or before a comment that nothing follows up to a
blank last line. -/
def MayInsert (d : Document) (start stop : Int) : Prop :=
  d.isBlankLine stop = true ∨
    (d.openComment? start stop = .ok (some stop) ∧
      d.skipGap stop d.text.length = .ok d.text.length ∧ d.isBlankLine d.text.length = true)

/-- The requests that are made for other lines settle, on every stretch of the text. -/
def Grounded (r : Request) : Prop :=
  ∀ inhibit start stop, 0 ≤ start → start ≤ r.doc.text.length → 0 ≤ stop →
    stop ≤ r.doc.text.length →
    (r.nested inhibit start stop).Settles r.settings.maxNestingDepth
      (Inserts (MayInsert r.doc start stop))

/-- Whether the text at a position hangs can be told at every position of the text. -/
theorem hangs_yields (h₀ : 0 ≤ pos) (h₁ : pos ≤ r.doc.text.length) :
    Yields (r.hangs pos) fun _ => True := by
  unfold hangs
  split
  · exact .pure trivial
  refine (readLexeme_yields h₀ h₁).bind fun word _ => ?_
  split
  · exact .pure trivial
  · exact (skipGap_yields (by omega) (Int.le_refl _)).bind fun next _ => .pure trivial

/-- The offsets of the keyword at a position can be told at every position of the text. -/
theorem offsetAt?_yields (h₀ : 0 ≤ pos) (h₁ : pos ≤ r.doc.text.length) :
    Yields (r.offsetAt? pos) fun _ => True := by
  unfold offsetAt?
  exact (readLexeme_yields h₀ h₁).bind fun word _ => .pure trivial

/-- The column that a text would get on a line of its own settles, when the requests for other lines
do. -/
theorem virtualColumn_settles (hr : r.Grounded) (h₀ : 0 ≤ pos) (h₁ : pos ≤ r.doc.text.length)
    (start : Option Int) (hs : ∀ i ∈ start, 0 ≤ i ∧ i ≤ r.doc.text.length) :
    (r.virtualColumn pos start).Settles r.settings.maxNestingDepth fun _ => True := by
  have hnested : ∀ i : Int, 0 ≤ i ∧ i ≤ r.doc.text.length →
      (do let cs ← r.nested (← r.hangs pos) i pos
          return nearestLeft cs (r.doc.column pos) : Noted Int).Settles
        r.settings.maxNestingDepth fun _ => True := by
    intro i hi
    refine (Noted.Settles.lift (hangs_yields h₀ h₁)).bind fun hanging _ => ?_
    exact (hr hanging i pos hi.1 hi.2 h₀ h₁).bind fun cs _ => .pure trivial
  unfold virtualColumn
  simp only
  split
  · exact .pure trivial
  cases start with
  | some i => exact hnested i (hs i rfl)
  | none =>
    exact (Noted.Settles.lift (definitionStart_yields r.doc r.settings pos)).bind fun i hi =>
      hnested i hi

/-- What goes by the column of a word or bracket that may hang. -/
theorem openerColumn_settles {α : Type} {f : Int → Noted α} {P : α → Prop} (hr : r.Grounded)
    (h₀ : 0 ≤ pos) (h₁ : pos ≤ r.doc.text.length) (start : Option Int)
    (hs : ∀ i ∈ start, 0 ≤ i ∧ i ≤ r.doc.text.length)
    (hf : ∀ col, (f col).Settles r.settings.maxNestingDepth P) :
    (do
      if ← r.hangs pos then
        let col ← r.virtualColumn pos start
        f col
      else
        let col ← pure (r.doc.column pos)
        f col : Noted α).Settles r.settings.maxNestingDepth P := by
  refine (Noted.Settles.lift (hangs_yields h₀ h₁)).bind fun hanging _ => ?_
  split
  · exact (virtualColumn_settles hr h₀ h₁ start hs).bind fun col _ => hf col
  · exact (Noted.Settles.pure (P := fun _ => True) trivial).bind fun col _ => hf col

/-- The column of a block settles, when the requests for other lines do. -/
theorem blockColumn_settles (hr : r.Grounded) (h₀ : 0 ≤ pos) (h₁ : pos ≤ r.doc.text.length)
    (start : Option Int) (hs : ∀ i ∈ start, 0 ≤ i ∧ i ≤ r.doc.text.length)
    (offsets : Option KeywordOffset) (default : Option Int) :
    (r.blockColumn pos start offsets default).Settles r.settings.maxNestingDepth fun _ => True := by
  unfold blockColumn
  simp only
  refine Noted.Settles.ite_bind (P := fun _ => True) ?_ fun offsets _ => ?_
  · split
    · exact .pure trivial
    · exact .lift (offsetAt?_yields h₀ h₁)
  · refine (Noted.Settles.lift (hangs_yields h₀ h₁)).bind fun hanging _ => ?_
    split
    · exact (virtualColumn_settles hr h₀ h₁ start hs).bind fun base _ => .pure trivial
    · exact .pure trivial

/-- The keyword before a place of the text. -/
theorem keywordBefore?_yields (h₀ : 0 ≤ start) (h₁ : stop ≤ r.doc.text.length) :
    Yields (r.keywordBefore? start stop) fun q => ∀ i ∈ q, 0 ≤ i ∧ i ≤ r.doc.text.length := by
  unfold keywordBefore?
  refine (skipGapBack_yields h₀ h₁).bind fun p hp => ?_
  split
  · exact .pure (by simp)
  next hlt =>
  refine (read_yields (by omega) (by omega)).bind fun c _ => ?_
  refine Yields.ite_bind (P := fun q => start ≤ q ∧ q ≤ p - 1) ?_ fun q hq => ?_
  · split
    · refine (retreat_yields ?_).mono fun q hq => ⟨by omega, hq.1⟩
      exact fun k hk hlt => (read_yields (by omega) (by omega)).map fun _ _ => trivial
    · exact .pure ⟨by omega, Int.le_refl _⟩
  · dsimp only
    split
    · refine .pure fun i hi => ?_
      cases hi
      omega
    · exact .pure (by simp)

end Request

/-! ## Keywords that close others -/

/-- The words of a pair are found inside the stretch. -/
theorem Text.pos_of_mem_pairWords {t : Text} {pair : WordPair} {stop k : Nat} {hit : KeywordHit}
    (h : hit ∈ t.pairWords pair stop k) : k ≤ hit.pos ∧ hit.pos < stop := by
  fun_induction t.pairWords pair stop k with
  | case1 k hlt found hfound ih =>
    rcases List.mem_cons.mp h with rfl | h
    · have : hit.pos = k := by
        unfold pairWordAt? at hfound
        grind
      omega
    · have := ih h
      omega
  | case2 k hlt hnone ih =>
    have := ih h
    omega
  | case3 => cases h

namespace Document

variable {d : Document} {pos limit stop : Int}

/-- Whether a `let` was ended by layout can always be told. -/
theorem letEnded_yields (h₀ : 0 ≤ pos) (stop : Int) :
    Yields (d.letEnded pos stop) fun _ => True := by
  unfold letEnded
  split
  · refine (skipGap_yields (by omega) (Int.le_refl _)).bind ?_
    rintro i ⟨hi, -⟩
    split
    · -- the braces may never be closed: then the block was not ended
      have hmoves : d.text.MovesOn i (d.expressionAfter i d.text.length) :=
        expressionAfter_cases (by omega) (Int.le_refl _)
      rcases hmoves with ⟨why, hwhy⟩ | ⟨j, hj, hlt, -⟩
      · rw [hwhy]
        exact .pure trivial
      · rw [hj]
        exact (skipGap_yields (by omega) (Int.le_refl _)).bind fun k _ => .pure trivial
    · exact .pure trivial
  · exact .pure trivial

/-- Whether a keyword is hidden can always be told. -/
theorem keywordHidden_yields (skipEnded : Bool) (hl : 0 ≤ limit) (h₀ : 0 ≤ pos)
    (h₁ : pos ≤ d.text.length) (stop : Int) :
    Yields (d.keywordHidden skipEnded limit stop pos) fun _ => True := by
  unfold keywordHidden
  refine (openString?_yields hl h₁).bind fun s _ => ?_
  split
  · exact .pure trivial
  refine (openComment?_yields hl h₀ h₁).bind fun c _ => ?_
  split
  · exact .pure trivial
  refine (openBracket?_yields hl h₁).bind fun b _ => ?_
  split
  · exact .pure trivial
  split
  · exact letEnded_yields h₀ stop
  · exact .pure trivial

/-- The opener is one of the keywords. -/
theorem openerAmong?_yields (skipEnded : Bool) (hl : 0 ≤ limit) (stop : Int) (depth : Nat)
    (hits : List KeywordHit) (hhits : ∀ hit ∈ hits, (hit.pos : Int) ≤ d.text.length) :
    Yields (d.openerAmong? skipEnded limit stop depth hits) fun r => ∀ i ∈ r, 0 ≤ i ∧
      i ≤ d.text.length := by
  induction hits generalizing depth with
  | nil => exact ⟨none, rfl, by simp⟩
  | cons hit rest ih =>
    have hrest := fun depth => ih depth fun hit' hmem => hhits hit' (List.mem_cons_of_mem hit hmem)
    have hhit := hhits hit List.mem_cons_self
    unfold openerAmong?
    refine (keywordHidden_yields skipEnded hl (Int.natCast_nonneg _) hhit stop).bind
      fun hidden _ => ?_
    split
    · exact hrest depth
    split
    · exact hrest (depth + 1)
    split
    · exact hrest _
    · refine .pure fun i hi => ?_
      cases hi
      omega

/-- The search for the opener of a keyword always comes to an end, and what it finds lies inside the
text. -/
theorem matchingOpener?_yields (pair : WordPair) (skipEnded : Bool) (hl : 0 ≤ limit)
    (hl' : limit ≤ d.text.length) (h₀ : 0 ≤ pos) (h₁ : pos ≤ d.text.length) :
    Yields (d.matchingOpener? pair skipEnded limit pos) fun r => ∀ i ∈ r, 0 ≤ i ∧
      i ≤ d.text.length := by
  have hsearch : ∀ l : Int, 0 ≤ l → l ≤ d.text.length →
      Yields (do
        d.text.checkStart l
        d.text.checkStart pos
        d.openerAmong? skipEnded l pos 1 (d.text.pairWordsBack pair l pos)) fun r =>
          ∀ i ∈ r, 0 ≤ i ∧ i ≤ d.text.length := by
    intro l h₂ h₃
    rw [Text.checkStart_of_mem h₂ h₃, Text.checkStart_of_mem h₀ h₁]
    refine openerAmong?_yields skipEnded h₂ pos 1 _ ?_
    intro hit hmem
    have hlt := (Text.pos_of_mem_pairWords (List.mem_reverse.mp hmem)).2
    unfold Text.clamp at hlt
    unfold Text.length at h₁ ⊢
    omega
  unfold matchingOpener?
  refine (openBracket?_yields hl h₁).bind fun b hb => ?_
  cases b with
  | none => exact hsearch limit hl hl'
  | some b =>
    have := hb b rfl
    exact hsearch (b + 1) (by omega) (by omega)

end Document

namespace Request

open Document Text

variable {r : Request} {pos start stop bracket : Int}

/-- Looking for the opener of a closing keyword settles, and its candidates put nothing in. -/
theorem closingKeyword?_settles (hr : r.Grounded) (hs : 0 ≤ start) (hs' : start ≤ r.doc.text.length)
    (h₀ : 0 ≤ pos) (h₁ : pos ≤ r.doc.text.length) :
    (r.closingKeyword? pos start).Settles r.settings.maxNestingDepth fun o =>
      ∀ cs ∈ o, Inserts False cs := by
  unfold closingKeyword?
  refine .bind_ok (Text.checkStart_of_mem h₀ h₁) ?_
  split
  · exact .pure (by simp)
  next pair _ =>
  rw [if_neg (by omega)]
  refine (Noted.Settles.lift (matchingOpener?_yields pair.words _ hs hs' h₀ h₁)).bind
    fun opener hopener => ?_
  cases opener with
  | none => exact .pure (by simp)
  | some opener =>
    obtain ⟨h₂, h₃⟩ := hopener opener rfl
    refine openerColumn_settles hr h₂ h₃ (some start) ?_ fun col => .pure ?_
    · intro i hi
      cases hi
      exact ⟨hs, hs'⟩
    · intro cs hcs
      cases hcs
      exact .single _

/-! ## Contours and brackets -/

/-- What a contour proposes. -/
theorem offerContour_yields (kind : LineKind) (first : String) (hs : 0 ≤ start)
    (h₁ : stop ≤ r.doc.text.length) (contour : List Int)
    (hlines : ∀ p ∈ contour, r.doc.CodeLine start p ∧ p < stop) (hwide : r.doc.Widening contour)
    {found : List Candidate} (hfound : Inserts (kind = .empty) found) :
    Yields (r.offerContour start stop kind first contour found) fun cs =>
      Inserts (kind = .empty) cs := by
  induction contour generalizing found with
  | nil => exact ⟨found, rfl, hfound⟩
  | cons p rest ih =>
    obtain ⟨hcode, hlt⟩ := hlines p List.mem_cons_self
    have hp : 0 ≤ p := by have := hcode.start_le; omega
    obtain ⟨x, hx, hblank⟩ :=
      exists_char_indentationPoint (d := r.doc) p (by rw [hcode.point]; omega)
    rw [hcode.point] at hx
    unfold offerContour
    refine (clauseAt_yields hs hp hlt h₁ hx hblank).bind ?_
    rintro clause ⟨hplaced, hhead⟩
    have hopen : r.doc.openComment? (min start p) p = .ok none := by
      rw [Int.min_eq_left hcode.start_le]
      exact hcode.outside
    refine (lineProposals_yields kind first hp h₁ hplaced
      (hhead hcode.notBlank hopen) ?boundary stop).bind ?_
    case boundary =>
      -- the next line of the contour starts right of this one, so the first part of the clause is
      -- visible
      cases rest with
      | nil => exact hlt
      | cons next more =>
        have hstop := indentationPoint_lt_lineStop hcode.notBlank
        rw [hcode.point] at hstop
        exact lt_moveToColumn hp hstop ((List.pairwise_cons.mp hwide).1 next List.mem_cons_self)
    intro ps hps
    exact ih (fun q hq => hlines q (List.mem_cons_of_mem p hq)) (List.pairwise_cons.mp hwide).2
      (hfound.offerProposals _ _ hps)

/-- Below a contour, text is put in on a blank line only. -/
theorem belowContour_yields (hs : 0 ≤ start) (h₀ : 0 ≤ stop) (h₁ : stop ≤ r.doc.text.length)
    {contour : List Int} (hlines : ∀ p ∈ contour, r.doc.CodeLine start p ∧ p < stop)
    (hwide : r.doc.Widening contour) :
    Yields (r.belowContour start contour stop) fun cs =>
      Inserts (r.doc.isBlankLine stop = true) cs := by
  unfold belowContour
  refine (markerAt_yields h₀ h₁ hs (Int.le_refl _)).bind fun m hm => ?_
  refine (readLexeme_yields h₀ h₁).bind fun first _ => ?_
  refine (offerContour_yields m.kind first hs h₁ contour hlines hwide .nil).mono fun cs hcs => ?_
  exact hcs.mono hm.empty.mp

/-- The column inside a bracket settles, when the requests for other lines do. -/
theorem insideColumn_settles (hr : r.Grounded) (hb : 0 ≤ bracket)
    (hb' : bracket ≤ r.doc.text.length) (h₁ : stop ≤ r.doc.text.length) :
    (r.insideColumn bracket stop).Settles r.settings.maxNestingDepth fun _ => True := by
  unfold insideColumn
  refine (Noted.Settles.lift (skipGap_yields (by omega) h₁)).bind fun follow _ => ?_
  split
  · exact blockColumn_settles hr hb hb' none (by simp) _ _
  · exact .pure trivial

/-- The text inside a bracket. -/
theorem insideBracket_settles (hr : r.Grounded) (hb : 0 ≤ bracket) (hlt : bracket < stop)
    (h₁ : stop ≤ r.doc.text.length) :
    (r.insideBracket bracket stop).Settles r.settings.maxNestingDepth
      (Inserts (r.doc.isBlankLine stop = true)) := by
  have hb' : bracket ≤ r.doc.text.length := by omega
  unfold insideBracket
  simp only
  split
  · have hcol := openerColumn_settles (P := Inserts (r.doc.isBlankLine stop = true)) hr hb hb' none
      (by simp) fun col => .pure (.single col)
    split
    · split
      · exact (Noted.Settles.note (by simp)).bind fun _ _ => hcol
      · exact hcol
    · exact hcol
  · refine Noted.Settles.ite_bind (P := fun _ => True) ?_ fun basic _ => ?_
    · split
      · exact .pure trivial
      · exact insideColumn_settles hr hb hb' h₁
    · refine (Noted.Settles.lift (contour_yields r.settings (by omega) h₁)).bind ?_
      rintro contour ⟨hlines, hwide⟩
      split
      · exact .pure (.single basic)
      · refine (Noted.Settles.lift (belowContour_yields (by omega) (by omega) h₁ hlines hwide)).bind
          fun inner hinner => ?_
        exact .pure (.replaceBracketColumn .nil hinner)

/-! ## Comments -/

/-- Whether a comment ends right before a place can always be told. -/
theorem commentBefore?_yields (hs : 0 ≤ start) (h₁ : pos ≤ r.doc.text.length) :
    Yields (r.commentBefore? pos start) fun _ => True := by
  unfold commentBefore?
  refine (skipBlanksBack_yields hs h₁).bind fun p _ => ?_
  refine (Document.nesting_yields hs h₁).bind fun s _ => ?_
  split
  · exact .pure trivial
  · split
    · exact .pure trivial
    · exact .pure trivial

/-- Behind a comment, text may be put in only at the end of the text. -/
theorem eq_length_of_mayInsert {d : Document} {code : Int} (hs : 0 ≤ start) (h₀ : 0 ≤ stop)
    (h₁ : stop ≤ d.text.length) (hcode : d.skipGap stop d.text.length = .ok code)
    (h : MayInsert d start code) : code = d.text.length ∧ d.isBlankLine d.text.length = true := by
  obtain ⟨hle, hmax, hstops⟩ := (skipGap_yields h₀ (Int.le_refl _)).of_eq hcode
  have hcomment : d.openComment? start code = .ok (some code) → d.commentAt code = .ok true := by
    intro hopen
    rcases (openComment?_yields hs (by omega) (by omega)).of_eq hopen code rfl with
      ⟨-, hc⟩ | ⟨-, hlt⟩
    · exact hc
    · exact absurd hlt (Int.lt_irrefl code)
  rcases Int.lt_or_le code d.text.length with hlt | hge
  · obtain ⟨hgap, hnot⟩ := hstops hlt
    rcases h with hblank | ⟨hopen, -⟩
    · rw [isGapAt_of_isBlankLine (by omega) hlt hblank] at hgap
      cases hgap
    · rw [hcomment hopen] at hnot
      cases hnot
  · obtain rfl : code = d.text.length := by omega
    rcases h with hblank | ⟨hopen, -, hblank⟩
    · exact ⟨rfl, hblank⟩
    · exact ⟨rfl, hblank⟩

/-- A line that starts with a comment follows the code after the comment; where there is none, text
may be put in. -/
theorem commentLine_settles (hr : r.Grounded) (hs : 0 ≤ start) (hs' : start ≤ r.doc.text.length)
    (h₀ : 0 ≤ stop) (h₁ : stop ≤ r.doc.text.length)
    (hopen : r.doc.openComment? start stop = .ok (some stop)) :
    (r.commentLine stop start).Settles r.settings.maxNestingDepth
      (Inserts (MayInsert r.doc start stop)) := by
  unfold commentLine
  refine Noted.Settles.ite_bind (P := fun _ => True) ?_ fun previous _ => ?_
  · split
    · exact .pure trivial
    · exact .lift (commentBefore?_yields hs h₁)
  obtain ⟨code, hcode, hle, hmax, -⟩ := skipGap_yields (d := r.doc) h₀ (Int.le_refl _)
  refine .bind_ok hcode ?_
  refine (hr false start code hs hs' (by omega) (by omega)).bind fun cs hcs => .pure ?_
  refine Inserts.offerAll ?_ ?_
  · cases previous with
    | none => exact .nil
    | some p => exact Inserts.nil.offer (by simp)
  · intro c hc
    refine (hcs.mono fun hmay => ?_) c (List.mem_mergeSort.mp hc)
    obtain ⟨rfl, hblank⟩ := eq_length_of_mayInsert hs h₀ h₁ hcode hmay
    exact .inr ⟨hopen, hcode, hblank⟩

/-- The candidates inside a comment can always be found, and they put nothing in. -/
theorem insideComment_yields (hs : 0 ≤ start) (hs' : start ≤ r.doc.text.length) (h₀ : 0 ≤ stop)
    (h₁ : stop ≤ r.doc.text.length) (opened : Int) :
    Yields (r.insideComment opened stop start) (Inserts False) := by
  unfold insideComment
  simp only
  split
  · exact .pure (.single _)
  have hle := r.doc.indentationPoint_le_length (r.doc.text.moveLines stop (-1)).1
  refine (Text.checkStart_yields h₀ h₁).bind fun _ _ =>
    (Text.checkStart_yields (by omega) (by omega)).bind fun _ _ => ?_
  split
  · exact .pure (.single _)
  · split
    · exact .pure (.single _)
    · exact .pure (.single _)

/-! ## Whole answers -/

/-- A request for code settles. -/
theorem codeLine_settles (hr : r.Grounded) (hs : 0 ≤ start) (hs' : start ≤ r.doc.text.length)
    (h₀ : 0 ≤ stop) (h₁ : stop ≤ r.doc.text.length) :
    (r.codeLine start stop).Settles r.settings.maxNestingDepth
      (Inserts (r.doc.isBlankLine stop = true)) := by
  unfold codeLine
  refine (closingKeyword?_settles hr hs hs' h₀ h₁).bind fun closing hclosing => ?_
  cases closing with
  | some cs => exact .pure ((hclosing cs rfl).mono False.elim)
  | none =>
    refine (Noted.Settles.lift (keywordBefore?_yields hs h₁)).bind fun keyword hkeyword => ?_
    cases keyword with
    | some q =>
      obtain ⟨h₂, h₃⟩ := hkeyword q rfl
      refine (blockColumn_settles hr h₂ h₃ (some start) ?_ _ _).bind fun col _ =>
        .pure (.single col)
      intro i hi
      cases hi
      exact ⟨hs, hs'⟩
    | none =>
      refine (Noted.Settles.lift (openBracket?_yields hs h₁)).bind fun bracket hbracket => ?_
      cases bracket with
      | some b =>
        obtain ⟨h₂, h₃⟩ := hbracket b rfl
        exact insideBracket_settles hr (by omega) h₃ h₁
      | none =>
        refine (Noted.Settles.lift (contour_yields r.settings hs h₁)).bind ?_
        rintro contour ⟨hlines, hwide⟩
        split
        · exact .pure (.single _)
        · exact .lift (belowContour_yields hs h₀ h₁ hlines hwide)

/-- An answer settles when the requests inside it do. -/
theorem answer_settles (hr : r.Grounded) (hs : 0 ≤ start) (hs' : start ≤ r.doc.text.length)
    (h₀ : 0 ≤ stop) (h₁ : stop ≤ r.doc.text.length) :
    (r.answer start stop).Settles r.settings.maxNestingDepth
      (Inserts (MayInsert r.doc start stop)) := by
  unfold answer
  refine (Noted.Settles.lift (openString?_yields hs h₁)).bind fun quote _ => ?_
  cases quote with
  | some q => exact .pure (.single _)
  | none =>
    obtain ⟨opened, hopened, -⟩ := openComment?_yields (d := r.doc) hs h₀ h₁
    refine .bind_ok hopened ?_
    cases opened with
    | some c =>
      show (r.commentText c stop start).Settles _ _
      unfold commentText
      split
      · next hc =>
        rw [hc] at hopened
        exact commentLine_settles hr hs hs' h₀ h₁ hopened
      · exact (Noted.Settles.lift (insideComment_yields hs hs' h₀ h₁ c)).mono fun cs hcs =>
          hcs.mono False.elim
    | none => exact (codeLine_settles hr hs hs' h₀ h₁).mono fun cs hcs => hcs.mono .inl

end Request

/-- Requests settle at every bound on their nesting. -/
theorem candidatesWithin_settles (d : Document) (s : Settings) (levels : Nat) (inhibit : Bool)
    {start stop : Int} (hs : 0 ≤ start) (hs' : start ≤ d.text.length) (h₀ : 0 ≤ stop)
    (h₁ : stop ≤ d.text.length) :
    (candidatesWithin d s levels inhibit start stop).Settles s.maxNestingDepth
      (Inserts (Request.MayInsert d start stop)) := by
  induction levels generalizing inhibit start stop with
  | zero => exact .tooDeep
  | succ levels ih =>
    have hr : Request.Grounded ⟨d, s, inhibit, candidatesWithin d s levels⟩ :=
      fun inhibit _ _ hs hs' h₀ h₁ => ih inhibit hs hs' h₀ h₁
    exact Request.answer_settles hr hs hs' h₀ h₁

end LayoutRule

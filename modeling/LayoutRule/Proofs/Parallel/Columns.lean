import LayoutRule.Proofs.Parallel.Contours

/-!
# Columns and candidates of parallel documents

Columns of parallel documents correspond when they differ by the common shift; where that is not
zero they also have to lie right of the margin, since candidates are kept there. Lists of
corresponding candidates stay so when candidates are offered, sorted or searched. `Noted.Same`
compares computations that take notes: both take the same notes, and give related results or the
same fault.
-/

namespace LayoutRule

/-! ## Computations with notes -/

/-- Computations that give related values or the same fault. -/
def Alike {α β : Type} (R : α → β → Prop) (x : Except Fault α) (y : Except Fault β) : Prop :=
  Parallel.Both R x y ∨ ∃ fault, x = .error fault ∧ y = .error fault

/-- Computations that take the same notes and give related values or the same fault. -/
structure Noted.Same {α β : Type} (R : α → β → Prop) (x : Noted α) (y : Noted β) : Prop where
  /-- The notes are the same. -/
  notes : y.notes = x.notes
  /-- The values are related. -/
  result : Alike R x.result y.result

namespace Noted.Same

variable {α β γ δ : Type} {R : α → β → Prop} {S : γ → δ → Prop}

/-- Related values are computations that are the same. -/
theorem pure {a : α} {b : β} (h : R a b) : Noted.Same R (Pure.pure a) (Pure.pure b) :=
  ⟨rfl, .inl ⟨a, b, rfl, rfl, h⟩⟩

/-- Computations without notes that give related values are the same. -/
theorem lift {x : Except Fault α} {y : Except Fault β} (h : Parallel.Both R x y) :
    Noted.Same R (liftM x) (liftM y) :=
  ⟨rfl, .inl h⟩

/-- Computations that fail in the same way are the same. -/
theorem fail (fault : Fault) : Noted.Same R (Noted.fail fault) (Noted.fail fault) :=
  ⟨rfl, .inr ⟨fault, rfl, rfl⟩⟩

/-- Taking the same note is the same. -/
theorem note (n : Note) : Noted.Same (fun _ _ => True) (Noted.note n) (Noted.note n) :=
  ⟨rfl, .inl ⟨(), (), rfl, rfl, trivial⟩⟩

/-- One computation after another. -/
theorem bind {x : Noted α} {y : Noted β} {f : α → Noted γ} {g : β → Noted δ} (h : Noted.Same R x y)
    (hf : ∀ a b, R a b → Noted.Same S (f a) (g b)) : Noted.Same S (x >>= f) (y >>= g) := by
  show Noted.Same S (Noted.bind x f) (Noted.bind y g)
  unfold Noted.bind
  rcases h.result with ⟨a, b, ha, hb, hr⟩ | ⟨fault, ha, hb⟩
  · have hfa := hf a b hr
    rw [ha, hb]
    exact ⟨by simp only [h.notes, hfa.notes], hfa.result⟩
  · rw [ha, hb]
    exact ⟨h.notes, .inr ⟨fault, rfl, rfl⟩⟩

/-- What follows computations whose results are known. -/
theorem bind_ok {x : Except Fault α} {y : Except Fault β} {a : α} {b : β} {f : α → Noted γ}
    {g : β → Noted δ} (hx : x = .ok a) (hy : y = .ok b) (hf : Noted.Same S (f a) (g b)) :
    Noted.Same S (liftM x >>= f) (liftM y >>= g) := by
  refine (lift (R := fun a' b' => a' = a ∧ b' = b) ⟨a, b, hx, hy, rfl, rfl⟩).bind ?_
  rintro _ _ ⟨rfl, rfl⟩
  exact hf

/-- Computations that are one of two by the same condition, before the rest. -/
theorem ite_bind {c : Prop} [Decidable c] {x x' : Noted α} {y y' : Noted β} {f : α → Noted γ}
    {g : β → Noted δ} (h : Noted.Same R (if c then x else x') (if c then y else y'))
    (hf : ∀ a b, R a b → Noted.Same S (f a) (g b)) :
    Noted.Same S (if c then x >>= f else x' >>= f) (if c then y >>= g else y' >>= g) := by
  split
  · next hc =>
    rw [if_pos hc, if_pos hc] at h
    exact h.bind hf
  · next hc =>
    rw [if_neg hc, if_neg hc] at h
    exact h.bind hf

end Noted.Same

namespace Parallel

open Text Document

variable {s : Settings} {d e : Document} {C : Parallel s d e} {a b col col' offset : Int}

/-! ## Columns -/

/-- Columns that correspond; shifted ones are not left of the margin. -/
def SameColumn (C : Parallel s d e) (col col' : Int) : Prop :=
  col' = col + C.shift ∧ (C.shift = 0 ∨ 0 ≤ col)

/-- Counterparts on a line that was not moved have corresponding columns. -/
theorem Fixed.column (h : C.Fixed a b) : C.SameColumn (d.column a) (e.column b) :=
  ⟨h.1.column h.2, .inr (d.column_nonneg a)⟩

/-- Columns that correspond do so after the same offset. Where there is a shift the offset must not
lead to the left, so that the column does not come to lie left of the margin. -/
theorem SameColumn.add (h : C.SameColumn col col') (hoffset : C.shift = 0 ∨ 0 ≤ offset) :
    C.SameColumn (col + offset) (col' + offset) := by
  obtain ⟨h₁, h₂⟩ := h
  exact ⟨by omega, by omega⟩

/-- Corresponding columns come in the same order. -/
theorem SameColumn.le_iff (h : C.SameColumn a b) (h' : C.SameColumn col col') :
    b ≤ col' ↔ a ≤ col := by
  have h₁ := h.1
  have h₂ := h'.1
  omega

/-- Different columns have different corresponding ones. -/
theorem SameColumn.eq_iff (h : C.SameColumn a b) (h' : C.SameColumn col col') :
    b = col' ↔ a = col := by
  have h₁ := h.1
  have h₂ := h'.1
  omega

/-- The columns of the top level correspond. -/
theorem sameColumn_top (C : Parallel s d e) : C.SameColumn (s.topColumn d) (s.topColumn e) := by
  refine ⟨C.top, ?_⟩
  rcases C.style with ⟨hshift, -⟩ | ⟨-, hbird⟩
  · exact .inl hshift
  · right
    unfold Settings.topColumn
    rw [hbird]
    exact Int.le_refl 0

/-! ## Offsets of the settings -/

/-- Where there is a shift, the general step does not lead to the left. -/
theorem indentStep_nonneg (C : Parallel s d e) : C.shift = 0 ∨ 0 ≤ s.indentStep :=
  C.rightward.imp_right fun h => h.indentStep

/-- Where there is a shift, the offset of a closing keyword does not lead to the left. -/
theorem closerOffset_nonneg (C : Parallel s d e) (pair : KeywordPair) :
    C.shift = 0 ∨ 0 ≤ pair.closerOffset s :=
  C.rightward.imp_right fun h => h.closerOffset_nonneg pair

/-- Where there is a shift, no offset behind a keyword leads to the left. -/
theorem keywordOffset_nonneg (C : Parallel s d e) {word : String} {offsets : KeywordOffset}
    (h : s.keywordOffset? word = some offsets) :
    C.shift = 0 ∨ ∀ offset, offsets.offset = some offset ∨ offsets.hanging = some offset →
      0 ≤ offset :=
  C.rightward.imp_right fun hright _ ho => hright.keywordOffset_nonneg h ho

/-! ## Candidates -/

/-- Candidates at corresponding columns that put in the same text. -/
def SameCandidate (C : Parallel s d e) (c c' : Candidate) : Prop :=
  C.SameColumn c.column c'.column ∧ c'.insert = c.insert

/-- Lists of corresponding candidates. -/
def SameCandidates (C : Parallel s d e) (cs cs' : List Candidate) : Prop :=
  List.Forall₂ C.SameCandidate cs cs'

/-- Corresponding columns alone are corresponding candidates. -/
theorem SameColumn.candidates (h : C.SameColumn col col') :
    C.SameCandidates [⟨col, none⟩] [⟨col', none⟩] :=
  .cons ⟨h, rfl⟩ .nil

/-- A candidate has no more than one corresponding candidate, in both directions. So lists of them
can be searched alike. -/
theorem biUnique_sameCandidate (C : Parallel s d e) : Relator.BiUnique C.SameCandidate := by
  constructor
  · intro c₁ c₂ c' h₁ h₂
    obtain ⟨⟨hcol₁, -⟩, hins₁⟩ := h₁
    obtain ⟨⟨hcol₂, -⟩, hins₂⟩ := h₂
    cases c₁
    cases c₂
    simp only [Candidate.mk.injEq] at *
    exact ⟨by omega, hins₁.symm.trans hins₂⟩
  · intro c c₁ c₂ h₁ h₂
    obtain ⟨⟨hcol₁, -⟩, hins₁⟩ := h₁
    obtain ⟨⟨hcol₂, -⟩, hins₂⟩ := h₂
    cases c₁
    cases c₂
    simp only [Candidate.mk.injEq] at *
    exact ⟨by omega, hins₁.trans hins₂.symm⟩

namespace SameCandidates

variable {cs cs' more more' : List Candidate} {c c' : Candidate}

/-- Corresponding candidates that are offered to corresponding lists leave corresponding lists: a
candidate is new to both or to none. -/
theorem offer (h : C.SameCandidates cs cs') (hc : C.SameCandidate c c') :
    C.SameCandidates (offer cs c) (offer cs' c') := by
  obtain ⟨⟨hcol, hmargin⟩, hinsert⟩ := hc
  have hshift := C.shift_nonneg
  have hkept : C.SameCandidate { c with column := max 0 c.column }
      { c' with column := max 0 c'.column } := by
    refine ⟨⟨?_, .inr (Int.le_max_left _ _)⟩, hinsert⟩
    simp only
    omega
  have hmem := List.rel_mem C.biUnique_sameCandidate hkept h
  unfold LayoutRule.offer
  simp only
  by_cases hin : { c with column := max 0 c.column } ∈ cs
  · rw [if_pos hin, if_pos (hmem.mp hin)]
    exact h
  · rw [if_neg hin, if_neg fun hin' => hin (hmem.mpr hin')]
    exact List.rel_append h (.cons hkept .nil)

/-- Corresponding lists that are offered to corresponding lists leave corresponding lists. -/
theorem offerAll (h : C.SameCandidates cs cs') (hmore : C.SameCandidates more more') :
    C.SameCandidates (offerAll cs more) (offerAll cs' more') :=
  List.rel_foldl (fun _ _ h _ _ hc => h.offer hc) h hmore

/-- Replacing the column of a bracket in corresponding lists leaves corresponding lists. -/
theorem replaceBracketColumn {basic basic' : Int} (hcol : C.SameColumn col col')
    (hbasic : C.SameColumn basic basic') (h : C.SameCandidates cs cs')
    (hmore : C.SameCandidates more more') :
    C.SameCandidates (Request.replaceBracketColumn col basic cs more)
      (Request.replaceBracketColumn col' basic' cs' more') := by
  induction hmore generalizing cs cs' with
  | nil => exact h.offer ⟨hbasic, rfl⟩
  | @cons c c' rest rest' hc hrest ih =>
    have hiff := hc.1.eq_iff hcol
    unfold Request.replaceBracketColumn
    by_cases heq : c.column = col
    · rw [if_pos heq, if_pos (hiff.mpr heq)]
      exact SameCandidates.offerAll (h.offer ⟨hbasic, rfl⟩) hrest
    · rw [if_neg heq, if_neg fun h => heq (hiff.mp h)]
      exact ih (h.offer hc)

/-- The nearest candidate to the left. -/
theorem nearestLeft (h : C.SameCandidates cs cs') (hcol : C.SameColumn col col') :
    C.SameColumn (Request.nearestLeft cs col) (Request.nearestLeft cs' col') := by
  have hshift := C.shift_nonneg
  -- the best candidates so far correspond, or there is none
  have hbest : ∀ {best best' : Int}, C.SameColumn best best' ∨ (best = -1 ∧ best' = -1) →
      C.SameColumn
        (cs.foldl (fun best c => if c.column ≤ col then max best c.column else best) best)
        (cs'.foldl (fun best c => if c.column ≤ col' then max best c.column else best) best') ∨
      ((cs.foldl (fun best c => if c.column ≤ col then max best c.column else best) best) = -1 ∧
        (cs'.foldl (fun best c => if c.column ≤ col' then max best c.column else best) best') =
          -1) := by
    induction h with
    | nil => exact fun hbest => hbest
    | @cons c c' rest rest' hc _ ih =>
      intro best best' hbest
      rw [List.foldl_cons, List.foldl_cons]
      apply ih
      have hiff := hc.1.le_iff hcol
      have hcolumn := hc.1
      unfold SameColumn at hbest hcolumn ⊢
      by_cases hle : c.column ≤ col
      · rw [if_pos hle, if_pos (hiff.mpr hle)]
        omega
      · rw [if_neg hle, if_neg fun h => hle (hiff.mp h)]
        exact hbest
  unfold Request.nearestLeft
  simp only
  rcases hbest (.inr ⟨rfl, rfl⟩) with hsame | ⟨hnone, hnone'⟩
  · have hnonneg := hsame.2
    have hvalue := hsame.1
    split
    · rw [if_pos (by omega)]
      exact hsame
    · rw [if_neg (by omega)]
      exact hcol
  · rw [hnone, hnone']
    exact hcol

end SameCandidates

end Parallel

/-- The candidate some columns further to the right. -/
def Candidate.moveRight (c : Candidate) (count : Int) : Candidate :=
  { c with column := c.column + count }

namespace Parallel

open Text Document

variable {s : Settings} {d e : Document} {C : Parallel s d e} {col col' : Int}
  {cs cs' : List Candidate}

/-- Corresponding candidates are those of the first document, moved by the shift. -/
theorem SameCandidates.eq_map (h : C.SameCandidates cs cs') :
    cs' = cs.map (·.moveRight C.shift) := by
  induction h with
  | nil => rfl
  | @cons c c' _ _ hc _ ih =>
    obtain ⟨⟨hcol, -⟩, hinsert⟩ := hc
    rw [List.map_cons, ← ih]
    congr 1
    cases c'
    simp only [Candidate.moveRight, Candidate.mk.injEq] at *
    exact ⟨hcol, hinsert⟩

/-- Candidates that are not left of the margin correspond to those that are moved to the right by
the shift. -/
theorem sameCandidates_map (h : ∀ c ∈ cs, C.shift = 0 ∨ 0 ≤ c.column) :
    C.SameCandidates cs (cs.map (·.moveRight C.shift)) := by
  unfold SameCandidates
  rw [List.forall₂_map_right_iff, List.forall₂_same]
  exact fun c hc => ⟨⟨rfl, h c hc⟩, rfl⟩

/-- Where there is a shift, candidates that correspond to others do not lie left of the margin. -/
theorem SameCandidates.margin (h : C.SameCandidates cs cs') :
    ∀ c ∈ cs, C.shift = 0 ∨ 0 ≤ c.column := by
  induction h with
  | nil => simp
  | cons hc _ ih =>
    intro c hmem
    rcases List.mem_cons.mp hmem with rfl | hmem
    · exact hc.1.2
    · exact ih c hmem

/-- Candidates are sorted alike. -/
theorem SameCandidates.nearestFirst (h : C.SameCandidates cs cs') (hcol : C.SameColumn col col') :
    C.SameCandidates (Request.nearestFirst col cs) (Request.nearestFirst col' cs') := by
  have hsort : Request.nearestFirst col' cs' =
      (Request.nearestFirst col cs).map (·.moveRight C.shift) := by
    unfold Request.nearestFirst
    rw [h.eq_map]
    refine (List.map_mergeSort fun c _ c' _ => ?_).symm
    have hvalue := hcol.1
    simp only [Candidate.moveRight, hvalue]
    exact decide_eq_decide.mpr (by omega)
  rw [hsort]
  refine sameCandidates_map fun c hc => h.margin c ?_
  exact List.mem_mergeSort.mp hc

/-- Proposals stand for corresponding candidates. -/
theorem SameProposal.candidate {p q : Proposal} (h : SameProposal C.Fixed p q)
    (hsome : p.place.isSome) :
    C.SameCandidate (p.candidate d s.indentStep) (q.candidate e s.indentStep) := by
  have hcolumn : ∀ {x y : Option Int}, Option.Rel C.Fixed x y → x.isSome →
      C.SameColumn (d.partColumn x) (e.partColumn y) := by
    intro x y hxy hx
    cases hxy with
    | none => cases hx
    | some hfixed => exact hfixed.column
  cases h with
  | under hplace insert => exact ⟨hcolumn hplace hsome, rfl⟩
  | step hplace => exact ⟨(hcolumn hplace hsome).add C.indentStep_nonneg, rfl⟩
  | small hplace => exact ⟨(hcolumn hplace hsome).add (.inr (show 0 ≤ smallOffset by decide)), rfl⟩

/-- Offered proposals. -/
theorem SameCandidates.offerProposals {ps qs : List Proposal} (h : C.SameCandidates cs cs')
    (hps : List.Forall₂ (SameProposal C.Fixed) ps qs) (hsome : Clause.NamesParts ps) :
    C.SameCandidates (offerProposals d s.indentStep cs ps)
      (offerProposals e s.indentStep cs' qs) := by
  refine h.offerAll ?_
  induction hps with
  | nil => exact .nil
  | @cons p q ps qs hpq _ ih =>
    exact .cons (hpq.candidate (hsome p List.mem_cons_self))
      (ih fun r hr => hsome r (List.mem_cons_of_mem p hr))

end Parallel

end LayoutRule

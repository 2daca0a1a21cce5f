import LayoutRule.Layout.LineRules
import LayoutRule.Proofs.Layout.Clauses

/-!
# Every clause has a shape

A clause that is taken apart at the start of a line of code always has a shape: its parts come in
order, so a visible part makes the part it follows visible, and its first part is at the start of
the line (`exists_shape`). The rules for a line therefore never meet a clause without a shape
(`lineProposals_yields`).

The rules put text in for an empty line only, and the text is a name or the bar of a guard, followed
by a blank. Every proposal goes by a part that the clause has (`lineProposals_cases`), never by the
end of the text that stands for a missing part.
-/

namespace LayoutRule

/-- A text that the rules may put in before the code of a line. -/
def IsInsert (text : String) : Prop := text = "| " ∨ ∃ name, IsName name ∧ text = name ++ " "

/-- The text that a proposal puts in. -/
def Proposal.insert : Proposal → Option String
  | .under _ insert => insert
  | .beyond _ _ => none

/-- The place that a proposal names. -/
def Proposal.place : Proposal → Option Int
  | .under place _ => place
  | .beyond place _ => place

/-- The candidate of a proposal puts in what the proposal does. Only the column is worked out. -/
theorem Proposal.candidate_insert (d : Document) (step : Int) (p : Proposal) :
    (p.candidate d step).insert = p.insert := by
  cases p <;> rfl

/-! ## Shapes -/

/-- A shape has a row of the table that fits. -/
theorem Shape.exists_row {bits : List Char} {shape : Shape} (h : Shape.ofBits? bits = some shape) :
    ∃ row, (shape, row) ∈ Shape.table ∧ Shape.fits row bits = true := by
  obtain ⟨⟨_, row⟩, hrow, rfl⟩ := Option.map_eq_some_iff.mp h
  have hfits := List.find?_some hrow
  exact ⟨row, List.mem_of_find?_eq_some hrow, hfits⟩

namespace Clause

variable {d : Document} {c : Clause} {start stop boundary : Int}

/-- The bit of a part tells whether the part can be seen. -/
theorem visibleBit_eq (boundary : Int) (place : Option Int) :
    visibleBit boundary place = if sees boundary place then '1' else '0' := by
  cases place with
  | none => rfl
  | some p => simp [visibleBit, sees]

/-- The table has a row for all bits where no part is visible without the part it follows. -/
theorem ofBits?_of_ordered : ∀ name afterName guard afterGuard rhs afterRhs : Bool,
    (afterName → name) → (afterGuard → guard) → (afterRhs → rhs) → (name || guard || rhs) →
    ∃ shape, shape ≠ .nothing ∧ Shape.ofBits?
      ([name, afterName, guard, afterGuard, rhs, afterRhs].map
      fun b => if b then '1' else '0') = some shape := by
  intro name afterName guard afterGuard rhs afterRhs h₁ h₂ h₃ h₄
  cases name <;> cases afterName <;> cases guard <;> cases afterGuard <;> cases rhs
    <;> cases afterRhs <;>
    simp only [Bool.false_eq_true, Bool.or_self, forall_const, imp_false] at h₁ h₂ h₃ h₄ <;>
    exact ⟨_, by decide, rfl⟩

/-- What follows a part is visible only together with the part. -/
theorem sees_of_follows {part after : Option Int} (h : after.isSome → part.isSome)
    (hlt : ∀ p ∈ part, ∀ q ∈ after, p < q) (hsees : sees boundary after = true) :
    sees boundary part = true := by
  cases after with
  | none => cases hsees
  | some q =>
    obtain ⟨p, rfl⟩ := Option.isSome_iff_exists.mp (h rfl)
    have hpq := hlt p rfl q rfl
    simp only [sees, decide_eq_true_eq] at hsees ⊢
    omega

/-- The bar of the guard stands before its condition. -/
theorem Placed.guard_lt (h : c.Placed start stop) : ∀ p ∈ c.guard, ∀ q ∈ c.afterGuard, p < q := by
  intro p hp q hq
  have := h.inOrder.1
  simp only [places, List.pairwise_append] at this
  exact this.1.1.2.2 p (by simp [Option.mem_def.mp hp]) q (by simp [Option.mem_def.mp hq])

/-- The sign of the right-hand side stands before what follows it. -/
theorem Placed.rhs_lt (h : c.Placed start stop) : ∀ p ∈ c.rhs, ∀ q ∈ c.afterRhs, p < q := by
  intro p hp q hq
  have := h.inOrder.1
  simp only [places, List.pairwise_append] at this
  exact this.2.2 p (by simp [Option.mem_def.mp hp]) q (by simp [Option.mem_def.mp hq])

/-- A clause whose first part is visible has a name, a visible guard or a visible right-hand
side. -/
theorem Placed.sees_first (h : c.Placed start stop) (hhead : c.places.head? = some start)
    (hlt : start < boundary) :
    (c.name.isSome || sees boundary c.guard || sees boundary c.rhs) = true := by
  have h₁ := h.afterName
  have h₂ := h.afterGuard
  have h₃ := h.afterRhs
  obtain ⟨name, text, afterName, guard, afterGuard, rhs, afterRhs⟩ := c
  cases name with
  | some p => simp
  | none =>
    cases afterName with
    | some p => exact absurd (h₁ rfl) (by simp)
    | none =>
      cases guard with
      | some p =>
        cases hhead
        simp [sees, hlt]
      | none =>
        cases afterGuard with
        | some p => exact absurd (h₂ rfl) (by simp)
        | none =>
          cases rhs with
          | some p =>
            cases hhead
            simp [sees, hlt]
          | none =>
            cases afterRhs with
            | some p => exact absurd (h₃ rfl) (by simp)
            | none => cases hhead

/-- A clause whose first part is visible has a shape. -/
theorem exists_shape (h : c.Placed start stop) (hhead : c.places.head? = some start)
    (hlt : start < boundary) :
    ∃ shape, shape ≠ .nothing ∧ Shape.ofBits? (c.visibleBits boundary) = some shape := by
  have hbits : c.visibleBits boundary =
      [c.name.isSome, sees boundary c.afterName, sees boundary c.guard, sees boundary c.afterGuard,
        sees boundary c.rhs, sees boundary c.afterRhs].map fun b => if b then '1' else '0' := by
    simp [visibleBits, visibleBit_eq]
  rw [hbits]
  apply ofBits?_of_ordered
  · intro hsees
    refine h.afterName ?_
    cases hn : c.afterName with
    | none => rw [hn] at hsees; cases hsees
    | some q => rfl
  · exact sees_of_follows h.afterGuard h.guard_lt
  · exact sees_of_follows h.afterRhs h.rhs_lt
  · exact h.sees_first hhead hlt

/-! ## Texts that are put in -/

/-- No proposal puts text in. -/
def PutsNothing (ps : List Proposal) : Prop := ∀ p ∈ ps, p.insert = none

/-- For a line with a `where` no text is put in. -/
theorem putsNothing_whereLine (shape : Shape) : PutsNothing (c.whereLine shape) := by
  cases shape <;> simp [PutsNothing, whereLine, under, step, Proposal.insert]

/-- For a line that starts with a name no text is put in. -/
theorem putsNothing_nameLine (last : Bool) (first : String) (shape : Shape) :
    PutsNothing (c.nameLine last first shape) := by
  intro p hp
  cases shape <;> simp only [nameLine, when] at hp <;> grind [under, step, small, Proposal.insert]

/-- For any other line of code no text is put in. -/
theorem putsNothing_otherLine (last : Bool) (shape : Shape) :
    PutsNothing (c.otherLine last shape) := by
  intro p hp
  cases shape <;> simp only [otherLine] at hp <;> grind [under, step, small, Proposal.insert]

/-- For a line that starts with a guard no text is put in. -/
theorem putsNothing_guardLine : PutsNothing (c.guardLine d boundary) := by
  intro p hp
  simp only [guardLine, when] at hp
  grind [under, step, Proposal.insert]

/-- For a line that starts with the sign of a right-hand side no text is put in. -/
theorem putsNothing_rhsLine : PutsNothing (c.rhsLine boundary) := by
  intro p hp
  simp only [rhsLine, when] at hp
  grind [under, step, Proposal.insert]

/-- Below a declaration no text is put in. -/
theorem putsNothing_declarationLine? {kind : LineKind} {ps : List Proposal}
    (h : c.declarationLine? kind = some ps) : PutsNothing ps := by
  intro p hp
  simp only [declarationLine?] at h
  grind [under, step, Proposal.insert]

/-- For an empty line the rules put in the name of the clause or a bar. -/
theorem isInsert_of_emptyLine {last : Bool} {shape : Shape} {p : Proposal} {text : String}
    (hname : ∀ s ∈ c.nameText, IsName s) (hp : p ∈ c.emptyLine d last shape)
    (ht : text ∈ p.insert) :
    IsInsert text := by
  have hname' : ∀ s, c.nameText = some s → IsName s := hname
  cases shape <;> simp only [emptyLine, when] at hp
    <;> grind [under, step, small, Proposal.insert, IsInsert]

/-! ## Places that are named -/

/-- The parts that the name of a shape lists are there. -/
def Has (c : Clause) : Shape → Prop
  | .nameGuardRhsAfter => c.name.isSome ∧ c.guard.isSome ∧ c.rhs.isSome ∧ c.afterRhs.isSome
  | .nameGuardRhs => c.name.isSome ∧ c.guard.isSome ∧ c.rhs.isSome
  | .nameGuardAfter => c.name.isSome ∧ c.guard.isSome ∧ c.afterGuard.isSome
  | .nameGuard => c.name.isSome ∧ c.guard.isSome
  | .nameRhsAfter => c.name.isSome ∧ c.rhs.isSome ∧ c.afterRhs.isSome
  | .nameRhs => c.name.isSome ∧ c.rhs.isSome
  | .nameAfter => c.name.isSome ∧ c.afterName.isSome
  | .name => c.name.isSome
  | .guardRhsAfter => c.guard.isSome ∧ c.rhs.isSome ∧ c.afterRhs.isSome
  | .guardRhs => c.guard.isSome ∧ c.rhs.isSome
  | .guardAfter => c.guard.isSome ∧ c.afterGuard.isSome
  | .guard => c.guard.isSome
  | .rhsAfter => c.rhs.isSome ∧ c.afterRhs.isSome
  | .rhs => c.rhs.isSome
  | .nothing => True

/-- The guard is among the parts of every shape below which it is looked at. -/
theorem Has.guard {shape : Shape} (h : c.Has shape) (hconsults : consultsGuard shape = true) :
    c.guard.isSome := by
  cases shape <;> simp_all [Has, consultsGuard]

/-- A shape whose last part follows a sign shows that part. -/
def Shows (c : Clause) (boundary : Int) : Shape → Prop
  | .nameGuardRhsAfter => sees boundary c.afterRhs = true
  | .nameRhsAfter => sees boundary c.afterRhs = true
  | .guardRhsAfter => sees boundary c.afterRhs = true
  | .rhsAfter => sees boundary c.afterRhs = true
  | .nameGuardAfter => sees boundary c.afterGuard = true
  | .guardAfter => sees boundary c.afterGuard = true
  | _ => True

/-- A part that can be seen is there. -/
theorem isSome_of_sees {place : Option Int} (h : sees boundary place = true) : place.isSome := by
  cases place with
  | none => cases h
  | some p => rfl

/-- A part whose bit is one can be seen. -/
theorem sees_of_visibleBit {place : Option Int} (h : visibleBit boundary place = '1') :
    sees boundary place = true := by
  rw [visibleBit_eq] at h
  split at h
  · assumption
  · exact absurd h (by decide)

/-- A clause has the parts of its shape, and shows the last of them. -/
theorem has_and_shows {shape : Shape} (h : Shape.ofBits? (c.visibleBits boundary) = some shape) :
    c.Has shape ∧ c.Shows boundary shape := by
  obtain ⟨row, hrow, hfits⟩ := Shape.exists_row h
  have hsees : ∀ {place : Option Int}, visibleBit boundary place = '1' →
      sees boundary place = true ∧ place.isSome :=
    fun hbit => ⟨sees_of_visibleBit hbit, isSome_of_sees (sees_of_visibleBit hbit)⟩
  clear h
  cases shape <;> simp [Shape.table] at hrow <;> subst hrow
    <;> simp [Shape.fits, visibleBits] at hfits <;>
    grind [Has, Shows, Option.isSome_iff_ne_none]

/-- All proposals name places that are there. -/
def NamesParts (ps : List Proposal) : Prop := ∀ p ∈ ps, p.place.isSome

/-- A proposal goes by the name, the guard, the sign or what follows the name, or it is to go right
under what follows a bar or a sign, which then can be seen. -/
def GoesBy (c : Clause) (boundary : Int) (p : Proposal) : Prop :=
  p.place = c.name ∨ p.place = c.afterName ∨ p.place = c.guard ∨ p.place = c.rhs ∨
    (p.place = c.afterGuard ∨ p.place = c.afterRhs) ∧ sees boundary p.place = true ∧
    p = .under p.place none

/-- All that the rules say about places: each proposal goes by a part, and the part is there. -/
def Named (c : Clause) (boundary : Int) (ps : List Proposal) : Prop :=
  ∀ p ∈ ps, p.place.isSome ∧ c.GoesBy boundary p

/-- The proposals for an empty line go by parts that the clause has. -/
theorem named_emptyLine {last : Bool} {shape : Shape} (h : c.Has shape)
    (hshows : c.Shows boundary shape) : c.Named boundary (c.emptyLine d last shape) := by
  intro p hp
  cases shape <;> simp only [emptyLine, when] at hp
    <;> grind [Has, Shows, GoesBy, under, step, small, Proposal.place]

/-- The proposals for a line with a `where` go by parts that the clause has. -/
theorem named_whereLine {shape : Shape} (h : c.Has shape) :
    c.Named boundary (c.whereLine shape) := by
  intro p hp
  cases shape <;> simp only [whereLine] at hp <;> grind [Has, GoesBy, under, step, Proposal.place]

/-- The proposals for a line that starts with a name go by parts that the clause has. -/
theorem named_nameLine {last : Bool} {first : String} {shape : Shape} (h : c.Has shape)
    (hshows : c.Shows boundary shape) : c.Named boundary (c.nameLine last first shape) := by
  intro p hp
  cases shape <;> simp only [nameLine, when] at hp
    <;> grind [Has, Shows, GoesBy, under, step, small, Proposal.place]

/-- The proposals for any other line of code go by parts that the clause has. -/
theorem named_otherLine {last : Bool} {shape : Shape} (h : c.Has shape)
    (hshows : c.Shows boundary shape) : c.Named boundary (c.otherLine last shape) := by
  intro p hp
  cases shape <;> simp only [otherLine] at hp
    <;> grind [Has, Shows, GoesBy, under, step, small, Proposal.place]

/-- The proposals that go by the shape of the clause go by parts that it has, for every kind of
line. -/
theorem named_shapedLine {kind : LineKind} {last : Bool} {first : String} {shape : Shape}
    (h : c.Has shape) (hshows : c.Shows boundary shape) :
    c.Named boundary (c.shapedLine d kind last first shape) := by
  unfold shapedLine
  split
  · exact named_emptyLine h hshows
  · split
    · exact named_whereLine h
    · exact named_nameLine h hshows
  · exact named_otherLine h hshows

/-- The proposals for a line that starts with a guard go by parts that the clause has. -/
theorem named_guardLine : c.Named boundary (c.guardLine d boundary) := by
  intro p hp
  have hguard : sees boundary c.guard = true → _ := isSome_of_sees
  simp only [guardLine, when] at hp
  grind [GoesBy, under, step, Proposal.place]

/-- The proposals for a line that starts with the sign of a right-hand side go by parts that the
clause has. -/
theorem named_rhsLine : c.Named boundary (c.rhsLine boundary) := by
  intro p hp
  have hguard : sees boundary c.guard = true → _ := isSome_of_sees
  have hrhs : sees boundary c.rhs = true → _ := isSome_of_sees
  simp only [rhsLine, when] at hp
  grind [GoesBy, under, step, Proposal.place]

/-- Below a declaration the proposals go by its name, which is there when its text is. -/
theorem named_declarationLine? {kind : LineKind} {ps : List Proposal}
    (hname : c.nameText.isSome → c.name.isSome) (h : c.declarationLine? kind = some ps) :
    c.Named boundary ps := by
  intro p hp
  simp only [declarationLine?] at h
  grind [GoesBy, under, step, Proposal.place]

end Clause

/-! ## Proposals of a line -/

namespace Document

variable {d : Document} {c : Clause} {start stop boundary : Int}

/-- A guard of the clause can be looked at. -/
theorem checkGuard_eq (h₀ : 0 ≤ start) (h₁ : stop ≤ d.text.length) (h : c.Placed start stop)
    (looked : Bool) : d.checkGuard c looked = .ok () := by
  unfold checkGuard
  split
  · cases hg : c.guard with
    | none => exact Text.checkStart_of_mem (Int.le_refl 0) d.text.length_nonneg
    | some p =>
      have := h.inOrder.2 p (by simp [Clause.places, hg])
      exact Text.checkStart_of_mem (by simp only [Option.getD_some]; omega)
        (by simp only [Option.getD_some]; omega)
  · rfl

/-- What the rules propose for a line: every proposal goes by a part of the clause that is there,
and no text is put in unless the line is empty. -/
theorem lineProposals_cases {kind : LineKind} {first : String} {last : Int} {ps : List Proposal}
    (hname : c.nameText.isSome → c.name.isSome)
    (h : d.lineProposals kind first c boundary last = .ok ps) :
    c.Named boundary ps ∧
      (Clause.PutsNothing ps ∨ kind = .empty ∧
        ∃ isLast shape, ps = c.emptyLine d isLast shape) := by
  unfold lineProposals at h
  split at h
  · cases h
    cases hn : c.name.isSome with
    | false => simp [Clause.when, Clause.Named, Clause.PutsNothing]
    | true =>
      simp [Clause.when, Clause.Named, Clause.GoesBy, Clause.PutsNothing, Clause.under,
        Proposal.place, Proposal.insert, hn]
  split at h
  · obtain ⟨_, -, h⟩ := bind_eq_ok.1 h
    cases h
    exact ⟨Clause.named_guardLine, .inl Clause.putsNothing_guardLine⟩
  split at h
  · cases h
    exact ⟨Clause.named_rhsLine, .inl Clause.putsNothing_rhsLine⟩
  split at h
  · next hps =>
    cases h
    exact ⟨Clause.named_declarationLine? hname hps, .inl (Clause.putsNothing_declarationLine? hps)⟩
  split at h
  · cases h
  · cases h
  · next hshape =>
    obtain ⟨_, -, h⟩ := bind_eq_ok.1 h
    cases h
    obtain ⟨hhas, hshows⟩ := Clause.has_and_shows hshape
    refine ⟨Clause.named_shapedLine hhas hshows, ?_⟩
    cases kind with
    | empty => exact .inr ⟨rfl, _, _, rfl⟩
    | name =>
      refine .inl ?_
      simp only [LineKind.shaped, Clause.shapedLine]
      split
      · exact Clause.putsNothing_whereLine _
      · exact Clause.putsNothing_nameLine _ _ _
    | _ => exact .inl (Clause.putsNothing_otherLine _ _)

/-- Every proposal names a part of the clause that is there. -/
theorem namesParts_of_lineProposals {kind : LineKind} {first : String} {last : Int}
    {ps : List Proposal} (hname : c.nameText.isSome → c.name.isSome)
    (h : d.lineProposals kind first c boundary last = .ok ps) : Clause.NamesParts ps :=
  fun p hp => ((lineProposals_cases hname h).1 p hp).1

/-- The rules have an answer for every clause whose first part is visible. -/
theorem exists_lineProposals (kind : LineKind) (first : String) (h₀ : 0 ≤ start)
    (h₁ : stop ≤ d.text.length) (h : c.Placed start stop) (hhead : c.places.head? = some start)
    (hlt : start < boundary) (last : Int) :
    ∃ ps, d.lineProposals kind first c boundary last = .ok ps := by
  obtain ⟨shape, hne, hshape⟩ := Clause.exists_shape h hhead hlt
  unfold lineProposals
  rw [checkGuard_eq h₀ h₁ h, hshape]
  split
  · exact ⟨_, rfl⟩
  split
  · exact ⟨_, rfl⟩
  split
  · exact ⟨_, rfl⟩
  split
  · exact ⟨_, rfl⟩
  split
  · next heq => cases heq
  · next heq => cases heq; exact absurd rfl hne
  · rw [checkGuard_eq h₀ h₁ h]
    exact ⟨_, rfl⟩

/-- The rules have an answer for every clause whose first part is visible, and put text in for an
empty line only. -/
theorem lineProposals_yields (kind : LineKind) (first : String) (h₀ : 0 ≤ start)
    (h₁ : stop ≤ d.text.length) (h : c.Placed start stop) (hhead : c.places.head? = some start)
    (hlt : start < boundary) (last : Int) :
    Yields (d.lineProposals kind first c boundary last) fun ps =>
      ∀ p ∈ ps, ∀ text ∈ p.insert, kind = .empty ∧ IsInsert text := by
  obtain ⟨ps, hps⟩ := exists_lineProposals kind first h₀ h₁ h hhead hlt last
  refine ⟨ps, hps, fun p hp text ht => ?_⟩
  rcases (lineProposals_cases h.isSome_name hps).2 with hnothing | ⟨hkind, _, _, rfl⟩
  · rw [hnothing p hp] at ht
    cases ht
  · exact ⟨hkind, Clause.isInsert_of_emptyLine (fun s hs => (h.nameText s hs).2) hp ht⟩

end Document

end LayoutRule

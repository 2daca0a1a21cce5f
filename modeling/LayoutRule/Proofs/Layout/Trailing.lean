import LayoutRule.Proofs.Layout.Proposals
import Mathlib.Data.List.Basic

/-!
# Proposals that name what follows a sign

A line may go under the condition of a guard or under what follows the sign of a right-hand side. No
rule measures any further from there or puts text in there, and after such a proposal a line of the
contour puts no text in at all (`trails_of_lineProposals`). A part that cannot be seen is not named.
-/

namespace LayoutRule

namespace Clause

variable {d : Document} {c : Clause} {boundary own : Int} {ps qs : List Proposal} {shape : Shape}

/-- Only what follows a sign may stand at `own`. -/
structure Apart (c : Clause) (own : Int) : Prop where
  name : c.name ≠ some own
  afterName : c.afterName ≠ some own
  guard : c.guard ≠ some own
  rhs : c.rhs ≠ some own

/-- A line is proposed to go under `own`, if at all, when that can be seen; from the first such
proposal on no text is put in. -/
structure Trails (boundary own : Int) (ps : List Proposal) : Prop where
  under : ∀ p ∈ ps, p.place = some own → p = .under (some own) none ∧ own < boundary
  insert : ps.Pairwise fun p q => p.place = some own → q.insert = none

/-- Proposals that name other places, before others. -/
theorem Trails.append (hps : ∀ p ∈ ps, p.place ≠ some own) (hqs : Trails boundary own qs) :
    Trails boundary own (ps ++ qs) where
  under p hp hplace := by
    rcases List.mem_append.mp hp with hp | hp
    · exact absurd hplace (hps p hp)
    · exact hqs.under p hp hplace
  insert := by
    refine List.pairwise_append.mpr
      ⟨?_, hqs.insert, fun p hp q _ hplace => absurd hplace (hps p hp)⟩
    exact List.pairwise_of_forall_mem_list fun p hp q _ hplace => absurd hplace (hps p hp)

/-- A proposal for a line to go under `own`. -/
theorem GoesBy.under_own {p : Proposal} (hp : c.GoesBy boundary p) (h : c.Apart own)
    (hplace : p.place = some own) : p = .under (some own) none ∧ own < boundary := by
  unfold GoesBy at hp
  rw [hplace] at hp
  rcases hp with hp | hp | hp | hp | ⟨-, hsees, hp⟩
  · exact absurd hp.symm h.name
  · exact absurd hp.symm h.afterName
  · exact absurd hp.symm h.guard
  · exact absurd hp.symm h.rhs
  · exact ⟨hp, of_decide_eq_true hsees⟩

/-- For an empty line the rules put text in only before they come to what follows a sign. -/
theorem insert_emptyLine (last : Bool) (shape : Shape) (h : c.Apart own) :
    (c.emptyLine d last shape).Pairwise fun p q => p.place = some own → q.insert = none := by
  obtain ⟨h₁, h₂, h₃, h₄⟩ := h
  cases shape <;> simp only [emptyLine, when]
    <;> grind [Clause.under, step, small, Proposal.place, Proposal.insert]

end Clause

/-- What a line of the contour proposes. -/
theorem Document.trails_of_lineProposals {d : Document} {c : Clause} {kind : LineKind}
    {first : String} {boundary stop own : Int} {ps : List Proposal}
    (hname : c.nameText.isSome → c.name.isSome) (h : c.Apart own)
    (hps : d.lineProposals kind first c boundary stop = .ok ps) :
    Clause.Trails boundary own ps := by
  obtain ⟨hnamed, htext⟩ := lineProposals_cases hname hps
  refine ⟨fun p hp => (hnamed p hp).2.under_own h, ?_⟩
  rcases htext with hnothing | ⟨-, last, shape, rfl⟩
  · exact List.pairwise_of_forall_mem_list fun _ _ q hq _ => hnothing q hq
  · exact Clause.insert_emptyLine last shape h

end LayoutRule

import LayoutRule.Fault
import LayoutRule.Platform
import LayoutRule.Text.Basic

/-!
# Limits

Positions are unbounded integers, but a position that is used to address something must fit into an
address, and a run of characters into the memory of the platform. Inside the text every position
fits.
-/

namespace LayoutRule

/-- Whether a position fits into an address. -/
def isAddress (i : Int) : Bool := decide (-addressLimit ≤ i) && decide (i < addressLimit)

/-- Why nothing was found at a position: `missing`, unless no address has that position. -/
def missingAt (missing : Fault) (i : Int) : Fault := if isAddress i then missing else .unaddressable

/-- Checks that a run of `count` characters can be made. One that is too long for the memory and one
that is too long for an address are two faults. -/
def checkRun [Platform] (count : Int) : Except Fault Unit :=
  if count < Platform.runLimit then .ok ()
  else if isAddress count then .error .noMemory
  else .error .tooWide

/-- A run can be made exactly when the memory of the platform holds it. -/
theorem checkRun_eq_ok [Platform] {count : Int} :
    checkRun count = .ok () ↔ count < Platform.runLimit := by
  unfold checkRun
  constructor
  · intro h
    split at h
    · assumption
    · split at h <;> cases h
  · intro h
    rw [if_pos h]

/-- Checks that a pattern can be matched from a position: one of the text, or one that has an
address. -/
def Text.checkStart (t : Text) (i : Int) : Except Fault Unit :=
  if (0 ≤ i ∧ i ≤ t.length) ∨ isAddress i then .ok () else .error .unmatchable

/-- Inside the text a pattern can be matched from every position. -/
theorem Text.checkStart_of_mem {t : Text} {i : Int} (h₀ : 0 ≤ i) (h₁ : i ≤ t.length) :
    t.checkStart i = .ok () :=
  if_pos (.inl ⟨h₀, h₁⟩)

end LayoutRule

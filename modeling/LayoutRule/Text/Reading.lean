import LayoutRule.Text.Limit

/-!
# Reading characters and walking over them

`Text.read` reads one character and fails outside the text. `advance` and `retreat` walk over
positions as long as a test holds, never past a limit; the test may itself read the text and fail.
The bounds proved here are what makes the scanning loops end.
-/

namespace LayoutRule

/-- A sequence of two steps succeeds exactly when both of them do. -/
theorem bind_eq_ok {ε α β : Type} {x : Except ε α} {f : α → Except ε β} {b : β} :
    x >>= f = .ok b ↔ ∃ a, x = .ok a ∧ f a = .ok b := by
  cases x with
  | error e => exact ⟨fun h => (nomatch h), fun ⟨_, h, _⟩ => nomatch h⟩
  | ok a => exact ⟨fun h => ⟨a, rfl, h⟩, fun ⟨_, h, hf⟩ => by cases h; exact hf⟩

/-- The character at a position, a negative one counted from the end. -/
def Text.read (t : Text) (i : Int) : Except Fault Char :=
  match t.read? i with
  | some c => .ok c
  | none => .error (missingAt .outsideText i)

/-- Moves forward from `i` while it is before `limit` and the test holds there. -/
def advance (test : Int → Except Fault Bool) (limit i : Int) : Except Fault Int :=
  if i < limit then
    match test i with
    | .ok true => advance test limit (i + 1)
    | .ok false => .ok i
    | .error e => .error e
  else .ok i
termination_by (limit - i).toNat

/-- Moves backward from `i` while it is after `limit` and the test holds right before it. -/
def retreat (test : Int → Except Fault Bool) (limit i : Int) : Except Fault Int :=
  if limit < i then
    match test (i - 1) with
    | .ok true => retreat test limit (i - 1)
    | .ok false => .ok i
    | .error e => .error e
  else .ok i
termination_by (i - limit).toNat

/-- A walk forward ends no earlier than where it starts, whatever its test says. -/
theorem le_of_advance {test : Int → Except Fault Bool} {limit i j : Int}
    (h : advance test limit i = .ok j) : i ≤ j := by
  fun_induction advance test limit i with
  | case1 i _ _ ih => have := ih h; omega
  | case2 => cases h; omega
  | case3 => cases h
  | case4 => cases h; omega

/-- A character can be read only before the end of the text. -/
theorem Text.lt_length_of_read {t : Text} {i : Int} {c : Char} (h : t.read i = .ok c) :
    i < t.length := by
  unfold Text.read at h
  split at h
  · next hc => exact t.lt_length_of_read? hc
  · cases h

end LayoutRule

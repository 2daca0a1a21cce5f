/-!
# Text and positions

A `Text` is a sequence of code points. Positions are integers, because a request may name any
position, also one before the first or past the last character. Two rules give such a position a
meaning:

* *reading* (`Text.read?`): a negative position counts from the end, any other position outside the
  text holds no character;
* *bounding* (`Text.bound`): as the end of a window, a negative position counts from the end and is
  then moved to the nearest position of the text.

A third rule, `Text.clamp`, moves a position to the nearest one of the text without counting from
the end; it is the start of a pattern match. Inside the text, `0 ≤ i ≤ t.length`, all three rules
agree.
-/

namespace LayoutRule

/-- A text: its code points in order. -/
structure Text where
  /-- The code points. -/
  chars : Array Char
deriving DecidableEq, Inhabited

namespace Text

/-- The text of a string. -/
def ofString (s : String) : Text := ⟨s.toList.toArray⟩

/-- The string of a text. -/
def toString (t : Text) : String := String.ofList t.chars.toList

/-- The number of code points, also the position right after the last one. -/
def length (t : Text) : Int := t.chars.size

/-- The character at a position of the text; there is none before the first and past the last. -/
def charAt? (t : Text) (i : Int) : Option Char :=
  if 0 ≤ i then t.chars[i.toNat]? else none

/-- The character read at a position, a negative one counted from the end. -/
def read? (t : Text) (i : Int) : Option Char :=
  if 0 ≤ i then t.chars[i.toNat]? else t.charAt? (i + t.length)

/-- The end of a window: a negative position counts from the end, then the nearest position of the
text. -/
def bound (t : Text) (i : Int) : Nat :=
  if 0 ≤ i then min i.toNat t.chars.size else (i + t.length).toNat

/-- The nearest position of the text. -/
def clamp (t : Text) (i : Int) : Nat := min i.toNat t.chars.size

/-- The part of the text between two bounds, empty when they are not in order. -/
def slice (t : Text) (start stop : Int) : Text :=
  ⟨t.chars.extract (t.bound start) (t.bound stop)⟩

/-- The text up to a bound. -/
def takeTo (t : Text) (stop : Int) : Text := ⟨t.chars.extract 0 (t.bound stop)⟩

/-- The text from a bound on. -/
def dropTo (t : Text) (start : Int) : Text := ⟨t.chars.extract (t.bound start) t.chars.size⟩

/-- One text after another. -/
def append (s t : Text) : Text := ⟨s.chars ++ t.chars⟩

instance : Append Text := ⟨Text.append⟩

/-- A run of `count` equal characters. -/
def replicate (count : Nat) (c : Char) : Text := ⟨Array.replicate count c⟩

/-! ## Bounds -/

/-- The length of a text is never negative, so that it can be compared with positions. -/
theorem length_nonneg (t : Text) : 0 ≤ t.length := Int.natCast_nonneg _

/-- A bounded position is one of the text: the place behind the last character is the last one. -/
theorem bound_le_size (t : Text) (i : Int) : t.bound i ≤ t.chars.size := by
  unfold bound length at *; split <;> omega

/-- A clamped position is one of the text, like a bounded one. -/
theorem clamp_le_size (t : Text) (i : Int) : t.clamp i ≤ t.chars.size := by
  unfold clamp; omega

/-- Inside the text a bound is the position itself. -/
theorem bound_of_mem {t : Text} {i : Int} (h₀ : 0 ≤ i) (h₁ : i ≤ t.length) :
    (t.bound i : Int) = i := by
  unfold bound length at *; rw [if_pos h₀]; omega

/-- Inside the text a clamped position is the position itself. -/
theorem clamp_of_mem {t : Text} {i : Int} (h₀ : 0 ≤ i) (h₁ : i ≤ t.length) :
    (t.clamp i : Int) = i := by
  unfold clamp length at *; omega

/-- A character is read only before the end. -/
theorem lt_length_of_read? {t : Text} {i : Int} {c : Char} (h : t.read? i = some c) :
    i < t.length := by
  have hn := t.length_nonneg
  unfold read? at h
  split at h
  · have := (Array.getElem?_eq_some_iff.mp h).1
    unfold length; omega
  · omega

/-! ## Runs of characters -/

/-- The end of the longest run of characters satisfying `p` that starts at `k`. -/
def runStop (t : Text) (p : Char → Bool) (k : Nat) : Nat :=
  if h : k < t.chars.size then
    if p t.chars[k] then t.runStop p (k + 1) else k
  else k
termination_by t.chars.size - k

/-- The start of the longest run of characters satisfying `p` that ends at `k`. -/
def runStart (t : Text) (p : Char → Bool) : Nat → Nat
  | 0 => 0
  | k + 1 =>
    match t.chars[k]? with
    | some c => if p c then t.runStart p k else k + 1
    | none => t.runStart p k

/-- A run of characters never stops before the place where it is looked for. -/
theorem le_runStop (t : Text) (p : Char → Bool) (k : Nat) : k ≤ t.runStop p k := by
  fun_induction runStop t p k <;> omega

/-- A run that is looked for inside the text stops inside it, at its end at the latest. -/
theorem runStop_le (t : Text) (p : Char → Bool) (k : Nat) (h : k ≤ t.chars.size) :
    t.runStop p k ≤ t.chars.size := by
  fun_induction runStop t p k <;> omega

/-- Looking back, a run never starts behind the place from which it is looked for. -/
theorem runStart_le (t : Text) (p : Char → Bool) (k : Nat) : t.runStart p k ≤ k := by
  induction k with
  | zero => simp [runStart]
  | succ k ih => unfold runStart; split <;> (try split) <;> omega

/-- A run is not empty when its first character satisfies the predicate. -/
theorem lt_runStop {t : Text} {p : Char → Bool} {k : Nat} {c : Char}
    (hc : t.chars[k]? = some c) (hp : p c = true) : k < t.runStop p k := by
  obtain ⟨hk, rfl⟩ := Array.getElem?_eq_some_iff.mp hc
  unfold runStop
  rw [dif_pos hk, if_pos hp]
  have := t.le_runStop p (k + 1)
  omega

/-! ## Words in the text -/

/-- Whether the word `w` is written from index `k` on. -/
def holdsAt (t : Text) : List Char → Nat → Bool
  | [], _ => true
  | c :: w, k => t.chars[k]? == some c && t.holdsAt w (k + 1)

/-- Whether the word `w` is written at a position, inside the window that ends at `limit`. -/
def hasWord (t : Text) (w : List Char) (i limit : Int) : Bool :=
  decide (t.bound i + w.length ≤ t.bound limit) && t.holdsAt w (t.bound i)

/-- The last index at most `k` where the word `w` is written. -/
def lastFrom? (t : Text) (w : List Char) : Nat → Option Nat
  | 0 => if t.holdsAt w 0 then some 0 else none
  | k + 1 => if t.holdsAt w (k + 1) then some (k + 1) else t.lastFrom? w k

/-- The last place where the word `w` is written before `stop`. -/
def lastWord? (t : Text) (w : List Char) (stop : Int) : Option Int :=
  if w.length ≤ t.bound stop then (t.lastFrom? w (t.bound stop - w.length)).map (fun k => (k : Int))
    else none

/-- A word of at least one character is written only before the end. -/
theorem lt_length_of_hasWord {t : Text} {c : Char} {w : List Char} {i limit : Int}
    (h : t.hasWord (c :: w) i limit = true) : i < t.length := by
  have h₁ := t.bound_le_size limit
  simp only [hasWord, Bool.and_eq_true, decide_eq_true_eq, List.length_cons] at h
  have h₂ := h.1
  unfold bound length at *
  split at h₂ <;> omega

/-! ## Newlines -/

/-- Every character but the newline. -/
def notNewline (c : Char) : Bool := c != '\n'

/-- The position of the first newline from a bound on. -/
def newlineFrom? (t : Text) (i : Int) : Option Int :=
  let k := t.runStop notNewline (t.bound i)
  if k < t.chars.size then some k else none

/-- A run that stops before the end of the text stops at a character that fails the test. -/
theorem runStop_stops {t : Text} {p : Char → Bool} {k : Nat} (h : t.runStop p k < t.chars.size) :
    ∃ c, t.chars[t.runStop p k]? = some c ∧ p c = false := by
  fun_induction runStop t p k with
  | case1 k hk hp ih => exact ih h
  | case2 k hk hp => exact ⟨t.chars[k], Array.getElem?_eq_getElem hk, by simpa using hp⟩
  | case3 k hk => omega

/-- The first newline from a bound on is a newline. -/
theorem newlineFrom?_eq_some {t : Text} {i k : Int} (h : t.newlineFrom? i = some k) :
    ∃ m : Nat, k = m ∧ t.chars[m]? = some '\n' := by
  unfold newlineFrom? at h
  simp only at h
  split at h
  · next hk =>
    obtain ⟨c, hc, hp⟩ := runStop_stops hk
    have : c = '\n' := by simpa [notNewline] using hp
    subst this
    exact ⟨_, (Option.some.inj h).symm, hc⟩
  · cases h

/-- The number of newlines before a bound. -/
def newlinesBefore (t : Text) (i : Int) : Nat := (t.takeTo i).chars.count '\n'

end Text

end LayoutRule

import LayoutRule.Proofs.Lexical.Walks

/-!
# Scanning in two parts

A scan can be cut wherever one of its pieces starts (`nesting_resume`). The brackets that the first
part leaves open lie below those of the second part, less the ones that the second part closes: a
closing bracket that finds nothing open in the second part alone closes a bracket of the first part.
`Text.strayClosers` counts these closing brackets.

Two facts carry the result. Above brackets of an earlier part a scan does what it does alone
(`nestingFrom_atop`). And the first part ends in the same state whether the scan stops there or goes
on (`Walk.nestingFrom_cut`): a comment counts as one only when its first two characters stand before
the end of the stretch, but a comment that the whole scan has passed ends before the cut.
-/

namespace LayoutRule

namespace Nesting

variable (s u : Nesting) (n : Nat) (i : Int) (p : Piece)

/-- The number of brackets, one or none, that the piece `p` closes and that were not opened in the
state `s`. -/
def strays : Nat := if p.kind = .closing ∧ s.openers = [] then 1 else 0

/-- The state `s` above an earlier state `u` of which the `n` innermost brackets have been
closed. -/
def atop : Nesting where
  openers := s.openers ++ u.openers.drop n
  string? := s.string?
  comment? := s.comment?
  comments := u.comments ++ s.comments

/-- A piece closes a bracket of the earlier state when there is none above it. -/
theorem record_atop : (s.atop u n).record i p = (s.record i p).atop u (n + s.strays p) := by
  by_cases hclosing : p.kind = .closing
  · cases hopen : s.openers with
    | nil => simp [record, atop, strays, hclosing, hopen]
    | cons b rest => simp [record, atop, strays, hclosing, hopen]
  · cases hkind : p.kind <;> simp_all [record, atop, strays]

/-- The end of the stretch lies in the same piece. -/
theorem within?_atop (limit : Int) :
    (s.atop u n).within? i limit p = (s.within? i limit p).map fun final => final.atop u n := by
  unfold within?
  split
  · split <;> rfl
  · rfl

/-- A state outside of strings and comments, as the earlier state of a scan that has not read
anything yet. -/
theorem empty_atop (hstring : u.string? = none) (hcomment : u.comment? = none) :
    ({} : Nesting).atop u 0 = u := by
  cases u
  simp_all [atop]

end Nesting

namespace Text

variable {t : Text} {bird : Bool} {a b c i limit : Int} {s : Nesting}

/-- The number of closing brackets between `i` and `limit` that find no open bracket, from the state
`s` on. -/
def strayClosersFrom (t : Text) (bird : Bool) (limit : Int) (s : Nesting) (i : Int) : Nat :=
  if i < limit then
    match _h : t.pieceAt bird i limit with
    | .error _ => 0
    | .ok p =>
      match s.within? i limit p with
      | some _ => 0
      | none => s.strays p + t.strayClosersFrom bird limit (s.record i p) p.stop
  else 0
termination_by (limit - i).toNat
decreasing_by
  have := lt_stop_of_pieceAt _h
  omega

/-- The number of closing brackets between `start` and `limit` that find no open bracket there. -/
def strayClosers (t : Text) (bird : Bool) (start limit : Int) : Nat :=
  t.strayClosersFrom bird limit {} start

/-- Over a piece that ends in the stretch the count goes on behind the piece. The piece counts when
it closes a bracket that was not opened before. -/
theorem strayClosersFrom_step {p : Piece} (hlt : i < limit) (hp : t.pieceAt bird i limit = .ok p)
    (hwithin : s.within? i limit p = none) :
    t.strayClosersFrom bird limit s i =
      s.strays p + t.strayClosersFrom bird limit (s.record i p) p.stop := by
  rw [strayClosersFrom, if_pos hlt]
  split
  · next he =>
    rw [hp] at he
    cases he
  · next q hq =>
    rw [hp] at hq
    cases hq
    rw [hwithin]

/-- A piece that the stretch ends inside of is the last one, and it closes nothing. -/
theorem strayClosersFrom_within {p : Piece} {final : Nesting} (hp : t.pieceAt bird i limit = .ok p)
    (hwithin : s.within? i limit p = some final) : t.strayClosersFrom bird limit s i = 0 := by
  rw [strayClosersFrom]
  split
  · split
    · rfl
    · next q hq =>
      rw [hp] at hq
      cases hq
      rw [hwithin]
  · rfl

/-- A scan above an earlier state does what it does alone. -/
theorem nestingFrom_atop {final : Nesting} (u : Nesting) (n : Nat)
    (h : t.nestingFrom bird limit s i = .ok final) :
    t.nestingFrom bird limit (s.atop u n) i =
      .ok (final.atop u (n + t.strayClosersFrom bird limit s i)) := by
  fun_induction nestingFrom t bird limit s i generalizing n with
  | case1 => cases h
  | case2 s i hlt p hp final' hwithin =>
    cases h
    rw [Document.nestingFrom_step hlt hp, Nesting.within?_atop, hwithin,
      strayClosersFrom_within hp hwithin]
    rfl
  | case3 s i hlt p hp hwithin ih =>
    rw [Document.nestingFrom_step hlt hp, Nesting.within?_atop, hwithin,
      strayClosersFrom_step hlt hp hwithin, ← Nat.add_assoc, ← ih _ h, ← Nesting.record_atop]
    rfl
  | case4 s i hlt =>
    cases h
    rw [nestingFrom, if_neg hlt, strayClosersFrom, if_neg hlt]
    rfl

/-- At a place of its walk a scan has the state of the scan that stops there. -/
theorem Walk.nestingFrom_cut (h : t.Walk bird c a b) (h₀ : 0 ≤ a) (hle : b ≤ c) :
    ∃ s', t.nestingFrom bird b s a = .ok s' ∧ t.nestingFrom bird c s a = t.nestingFrom bird c s' b ∧
      s'.string? = s.string? ∧ s'.comment? = s.comment? := by
  induction h generalizing s with
  | refl i => exact ⟨s, by rw [Text.nestingFrom, if_neg (Int.lt_irrefl i)], rfl, rfl, rfl⟩
  | @step i j p hlt hp h ih =>
    have hstop := lt_stop_of_pieceAt hp
    have hpj := h.le
    have hp' : t.pieceAt bird i j = .ok p := pieceAt_shorten h₀ hp (by omega) hle fun _ => hpj
    have hwithin : ∀ limit, p.stop ≤ limit → s.within? i limit p = none :=
      fun limit hlimit => if_neg (by omega)
    have hopen : (s.record i p).string? = s.string? ∧ (s.record i p).comment? = s.comment? := by
      unfold Nesting.record
      split <;> exact ⟨rfl, rfl⟩
    obtain ⟨s', hfirst, hrest, hstring, hcomment⟩ := ih (s := s.record i p) (by omega) hle
    refine ⟨s', ?_, ?_, hstring.trans hopen.1, hcomment.trans hopen.2⟩
    · rw [Document.nestingFrom_step (by omega) hp', hwithin j hpj]
      exact hfirst
    · rw [Document.nestingFrom_step hlt hp, hwithin c (by omega)]
      exact hrest

/-- A scan goes on from a place of its walk with what the scan up to there has found. -/
theorem Walk.nesting_eq (h : t.Walk bird c a b) (h₀ : 0 ≤ a) (hle : b ≤ c)
    (hs : t.nesting bird a b = .ok s) :
    t.nesting bird a c = t.nestingFrom bird c s b ∧ s.string? = none ∧ s.comment? = none := by
  obtain ⟨s', hfirst, hrest, hstring, hcomment⟩ := h.nestingFrom_cut (s := {}) h₀ hle
  cases hs.symm.trans hfirst
  exact ⟨hrest, hstring, hcomment⟩

/-- A scan from `a` to `c` that finds a piece at `b`, or ends there, is the scan from `a` to `b` and
then the one from `b` to `c`: it ends in the string or comment of the second, has the comments of
both, and its open brackets, innermost first, are those of the second and then those of the first
less one for each closing bracket that is stray in the second. -/
theorem nesting_resume (h₀ : 0 ≤ a) (hbc : b ≤ c) (hc : c ≤ t.length) (h : t.Walk bird c a b) :
    ∃ first second whole, t.nesting bird a b = .ok first ∧ t.nesting bird b c = .ok second ∧
      t.nesting bird a c = .ok whole ∧
      whole.string? = second.string? ∧ whole.comment? = second.comment? ∧
      whole.comments = first.comments ++ second.comments ∧
      whole.openers = second.openers ++ first.openers.drop (t.strayClosers bird b c) := by
  have hab := h.le
  obtain ⟨first, hfirst, -⟩ : Yields (t.nesting bird a b) fun s => s.Inside a b :=
    nesting_yields h₀ (by omega)
  obtain ⟨second, hsecond, -⟩ : Yields (t.nesting bird b c) fun s => s.Inside b c :=
    nesting_yields (by omega) hc
  obtain ⟨hrest, hstring, hcomment⟩ := h.nesting_eq h₀ hbc hfirst
  have hatop := nestingFrom_atop first 0 hsecond
  rw [Nesting.empty_atop first hstring hcomment, Nat.zero_add] at hatop
  exact ⟨first, second, second.atop first (t.strayClosers bird b c), hfirst, hsecond,
    hrest.trans hatop, rfl, rfl, rfl, rfl⟩

/-- Two open brackets and a comment, then three closing brackets before a comment that has no
end. -/
def bracketedNote : Text := ofString "([x {-y-}) ]) -- z"

/-- The third closing bracket is stray in the whole text as well. -/
theorem nesting_resume_bracketedNote :
    bracketedNote.Walk false 16 0 9 ∧
      bracketedNote.nesting false 0 9 = .ok { openers := [1, 0], comments := [⟨4, 9⟩] } ∧
      bracketedNote.strayClosers false 9 16 = 3 ∧
      bracketedNote.nesting false 0 16 = .ok { comment? := some 14, comments := [⟨4, 9⟩] } := by
  have hwalk : bracketedNote.Walk false 16 0 9 :=
    .step (by decide) (p := ⟨.opening, 1⟩) (by decide +kernel) <|
    .step (by decide) (p := ⟨.opening, 2⟩) (by decide +kernel) <|
    .step (by decide) (p := ⟨.other, 3⟩) (by decide +kernel) <|
    .step (by decide) (p := ⟨.other, 4⟩) (by decide +kernel) <|
    .step (by decide) (p := ⟨.comment, 9⟩) (by decide +kernel) (.refl 9)
  have hfirst : bracketedNote.nesting false 0 9 =
      .ok { openers := [1, 0], comments := [⟨4, 9⟩] } := by decide +kernel
  have hsecond : bracketedNote.nesting false 9 16 = .ok { comment? := some 14 } := by decide +kernel
  have hstray : bracketedNote.strayClosers false 9 16 = 3 := by decide +kernel
  refine ⟨hwalk, hfirst, hstray, ?_⟩
  obtain ⟨first, second, ⟨openers, string?, comment?, comments⟩, h₁, h₂, hwhole, hstring, hcomment,
      hcomments, hopeners⟩ := nesting_resume (by decide) (by decide) (by decide) hwalk
  cases hfirst.symm.trans h₁
  cases hsecond.symm.trans h₂
  rw [hstray] at hopeners
  simp_all

end Text

end LayoutRule

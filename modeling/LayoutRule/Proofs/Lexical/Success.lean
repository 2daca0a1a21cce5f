import LayoutRule.Lexical.Expression
import LayoutRule.Proofs.Text.Lines

/-!
# Scanning inside the text succeeds

A character can be read at every position of the text before its end, so every scan that stays
between two positions of the text gives a result. `Yields x P` says that a computation succeeds and
that its result satisfies `P`; each function of the scanner has one lemma of this form, which says
where its result lies as well.

Only a move over one expression can fail, and then with a `ScanFailure` (`expressionStop_cases`).
-/

namespace LayoutRule

/-- Results can be compared, so that a single run is checked by evaluation. -/
instance decidableEqResult {ε α : Type} [DecidableEq ε] [DecidableEq α] : DecidableEq (Except ε α)
  | .ok a, .ok b => decidable_of_iff (a = b) ⟨congrArg _, Except.ok.inj⟩
  | .error e, .error e' => decidable_of_iff (e = e') ⟨congrArg _, Except.error.inj⟩
  | .ok _, .error _ => .isFalse nofun
  | .error _, .ok _ => .isFalse nofun

/-- The computation succeeds, with a result that satisfies `P`. -/
def Yields {α : Type} (x : Except Fault α) (P : α → Prop) : Prop := ∃ a, x = .ok a ∧ P a

namespace Yields

variable {α β : Type} {x : Except Fault α} {P Q : α → Prop}

/-- A value that satisfies a property is a computation that yields it. -/
theorem pure {a : α} (h : P a) : Yields (Pure.pure a) P := ⟨a, rfl, h⟩

/-- What a computation yields satisfies every weaker property too. -/
theorem mono (h : Yields x P) (hPQ : ∀ a, P a → Q a) : Yields x Q := by
  obtain ⟨a, ha, hp⟩ := h
  exact ⟨a, ha, hPQ a hp⟩

/-- One step after another. -/
theorem bind {f : α → Except Fault β} {R : β → Prop} (h : Yields x P)
    (hf : ∀ a, P a → Yields (f a) R) : Yields (x >>= f) R := by
  obtain ⟨a, rfl, hp⟩ := h
  exact hf a hp

/-- A computation whose value is mapped yields what holds of the image. -/
theorem map {f : α → β} {R : β → Prop} (h : Yields x P) (hf : ∀ a, P a → R (f a)) :
    Yields (x.map f) R := by
  obtain ⟨a, rfl, hp⟩ := h
  exact ⟨f a, rfl, hf a hp⟩

/-- A step that is one of two, before the rest. -/
theorem ite_bind {c : Prop} [Decidable c] {y : Except Fault α} {f : α → Except Fault β}
    {R : β → Prop} (h : Yields (if c then x else y) P) (hf : ∀ a, P a → Yields (f a) R) :
    Yields (if c then x >>= f else y >>= f) R := by
  split
  · next hc => exact (if_pos hc ▸ h).bind hf
  · next hc => exact (if_neg hc ▸ h).bind hf

/-- What a computation is known to give has the property. -/
theorem of_eq {a : α} (h : Yields x P) (hx : x = .ok a) : P a := by
  obtain ⟨b, hb, hp⟩ := h
  rw [hx] at hb
  cases hb
  exact hp

end Yields

/-! ## Reading and walking -/

namespace Text

variable {t : Text}

/-- The check that a position is one of the text is passed by every position of the text. -/
theorem checkStart_yields {i : Int} (h₀ : 0 ≤ i) (h₁ : i ≤ t.length) :
    Yields (t.checkStart i) fun _ => True :=
  ⟨(), checkStart_of_mem h₀ h₁, trivial⟩

/-- Before the end of the text a character can be read. -/
theorem read_yields {i : Int} (h₀ : 0 ≤ i) (h₁ : i < t.length) :
    Yields (t.read i) fun c => t.chars[i.toNat]? = some c := by
  have hlt : i.toNat < t.chars.size := by unfold length at h₁; omega
  have hget : t.chars[i.toNat]? = some t.chars[i.toNat] := Array.getElem?_eq_getElem hlt
  refine ⟨t.chars[i.toNat], ?_, hget⟩
  unfold read read?
  rw [if_pos h₀, hget]

/-- From the front of the text on, a position reads the character with this index. -/
theorem charAt?_eq {i : Int} (h₀ : 0 ≤ i) : t.charAt? i = t.chars[i.toNat]? := by
  unfold charAt?
  rw [if_pos h₀]

end Text

/-- A walk forward over places where the test gives an answer. -/
theorem advance_yields {test : Int → Except Fault Bool} {limit i : Int}
    (h : ∀ k, i ≤ k → k < limit → Yields (test k) fun _ => True) :
    Yields (advance test limit i) fun j =>
      i ≤ j ∧ j ≤ max i limit ∧ (∀ k, i ≤ k → k < j → test k = .ok true) ∧
        (j < limit → test j = .ok false) := by
  fun_induction advance test limit i with
  | case1 i hi hc ih =>
    refine (ih fun k hk => h k (by omega)).mono ?_
    rintro j ⟨h₁, h₂, h₃, h₄⟩
    refine ⟨by omega, by omega, ?_, h₄⟩
    intro k hk hkj
    rcases Int.lt_or_eq_of_le hk with hlt | rfl
    · exact h₃ k (by omega) hkj
    · exact hc
  | case2 i hi hc => exact ⟨i, rfl, by omega, by omega, fun k h₁ h₂ => by omega, fun _ => hc⟩
  | case3 i hi e he =>
    obtain ⟨b, hb, -⟩ := h i (Int.le_refl i) hi
    rw [he] at hb
    cases hb
  | case4 i hi => exact ⟨i, rfl, by omega, by omega, fun k h₁ h₂ => by omega, fun h => absurd h hi⟩

/-- A walk backward over places where the test gives an answer. -/
theorem retreat_yields {test : Int → Except Fault Bool} {limit i : Int}
    (h : ∀ k, limit ≤ k → k < i → Yields (test k) fun _ => True) :
    Yields (retreat test limit i) fun j =>
      j ≤ i ∧ min i limit ≤ j ∧ (∀ k, j ≤ k → k < i → test k = .ok true) ∧
        (limit < j → test (j - 1) = .ok false) := by
  fun_induction retreat test limit i with
  | case1 i hi hc ih =>
    refine (ih fun k h₁ h₂ => h k h₁ (by omega)).mono ?_
    rintro j ⟨h₁, h₂, h₃, h₄⟩
    refine ⟨by omega, by omega, ?_, h₄⟩
    intro k hk hki
    rcases Int.lt_or_eq_of_le (show k ≤ i - 1 by omega) with hlt | rfl
    · exact h₃ k hk hlt
    · exact hc
  | case2 i hi hc => exact ⟨i, rfl, by omega, by omega, fun k h₁ h₂ => by omega, fun _ => hc⟩
  | case3 i hi e he =>
    obtain ⟨b, hb, -⟩ := h (i - 1) (by omega) (by omega)
    rw [he] at hb
    cases hb
  | case4 i hi => exact ⟨i, rfl, by omega, by omega, fun k h₁ h₂ => by omega, fun h => absurd h hi⟩

namespace Text

variable {t : Text} {bird : Bool} {i limit : Int}

/-! ## Comments -/

/-- The end of a run of dashes can be told, and lies between its start and the end of the text. -/
theorem dashStop_yields (h₀ : 0 ≤ i) (h₁ : i ≤ t.length) :
    Yields (t.dashStop i) fun j => i ≤ j ∧ j ≤ t.length := by
  refine (advance_yields fun k hk hlt => ?_).mono ?_
  · exact (read_yields (by omega) hlt).map fun _ _ => trivial
  · rintro j ⟨hj₁, hj₂, -⟩
    exact ⟨hj₁, by omega⟩

/-- Whether a line comment starts at a position can be told for every one that is not negative. -/
theorem lineCommentAt_yields (h₀ : 0 ≤ i) : Yields (t.lineCommentAt i limit) fun _ => True := by
  unfold lineCommentAt
  split
  · next h =>
    rw [Bool.and_eq_true] at h
    have hi := lt_length_of_hasWord h.1
    refine (dashStop_yields h₀ (by omega)).bind fun j hj => ?_
    split
    · next hlt => exact (read_yields (by omega) hlt).bind fun _ _ => .pure trivial
    · exact .pure trivial
  · exact ⟨false, rfl, trivial⟩

/-- Whether a comment starts can be told at every position that is not negative. -/
theorem commentAt_yields (limit : Int) (h₀ : 0 ≤ i) :
    Yields (t.commentAt i limit) fun _ => True := by
  unfold commentAt
  split
  · exact ⟨true, rfl, trivial⟩
  · exact lineCommentAt_yields h₀

/-! ## Literals -/

/-- The rest of a string can be read from every position, and it ends at most one place behind the
text, where a gap without an end leads. -/
theorem stringRest_yields (h₀ : 0 ≤ i) : Yields (t.stringRest i) fun k => k ≤ t.length + 1 := by
  fun_induction stringRest t i with
  | case1 j hj e he =>
    obtain ⟨c, hc, -⟩ := read_yields h₀ hj
    rw [he] at hc
    cases hc
  | case2 j hj hr ih => exact ih (by omega)
  | case3 j hj => exact ⟨_, rfl, by omega⟩
  | case4 j hj => exact ⟨_, rfl, by omega⟩
  | case5 j hj c hr h₁ h₂ h₃ ih => exact ih (by omega)
  | case6 j hj => exact ⟨_, rfl, by omega⟩

/-- A character literal ends inside the text. -/
theorem charLiteralStop?_le {k m : Nat} (h : t.charLiteralStop? k = some m) : m ≤ t.chars.size := by
  unfold charLiteralStop? escapeStop? at h
  grind

/-! ## Pieces -/

/-- Whether a position is the first of its line can be told at every position of the text. -/
theorem startsLine_yields (h₀ : 0 ≤ i) (h₁ : i ≤ t.length) :
    Yields (t.startsLine i) fun _ => True := by
  unfold startsLine
  split
  · exact ⟨true, rfl, trivial⟩
  · exact (read_yields (by omega) (by omega)).map fun _ _ => trivial

/-- Whether a marker of a literate line stands somewhere can be told at every position of the
text. -/
theorem isMarker_yields (c : Char) (h₀ : 0 ≤ i) (h₁ : i ≤ t.length) :
    Yields (t.isMarker bird c i) fun _ => True := by
  unfold isMarker
  split
  · exact startsLine_yields h₀ h₁
  · exact ⟨false, rfl, trivial⟩

/-- Whether a quote starts a character literal can be told at every position of the text, and the
literal ends inside the text. -/
theorem characterAt?_yields (c : Char) (h₀ : 0 ≤ i) (h₁ : i ≤ t.length) :
    Yields (t.characterAt? c i) fun stop? => ∀ k ∈ stop?, (k : Int) ≤ t.length := by
  unfold characterAt? afterName
  split
  · have hname : Yields (if i = 0 then Except.ok false else Except.map isNameChar (t.read (i - 1)))
        fun _ => True := by
      split
      · exact ⟨false, rfl, trivial⟩
      · exact (read_yields (by omega) (by omega)).map fun _ _ => trivial
    refine hname.bind fun named _ => ?_
    split
    · exact .pure (by simp)
    · exact .pure fun k hk => Int.ofNat_le.mpr (charLiteralStop?_le hk)
  · exact ⟨none, rfl, by simp⟩

/-- Every position before the end of the text starts a piece. -/
theorem pieceAt_yields (bird : Bool) (limit : Int) (h₀ : 0 ≤ i) (h₁ : i < t.length) :
    Yields (t.pieceAt bird i limit) fun p =>
      i < p.stop ∧ (p.kind ≠ .comment → p.kind ≠ .string → p.stop ≤ t.length) := by
  suffices h : Yields (t.pieceAt bird i limit) fun p =>
      p.kind ≠ .comment → p.kind ≠ .string → p.stop ≤ t.length by
    obtain ⟨p, hp, hk⟩ := h
    exact ⟨p, hp, lt_stop_of_pieceAt hp, hk⟩
  unfold pieceAt
  refine (read_yields h₀ h₁).bind fun c _ => ?_
  refine (isMarker_yields c h₀ (by omega)).bind fun marker _ => ?_
  split
  · exact .pure fun _ _ => by simp only; omega
  refine (commentAt_yields limit h₀).bind fun comment _ => ?_
  split
  · exact .pure fun h => absurd rfl h
  split
  · refine (stringRest_yields (by omega) : Yields (t.stringStop i) _).bind fun k _ => ?_
    exact .pure fun _ h => absurd rfl h
  refine (characterAt?_yields c h₀ (by omega)).bind fun stop? hstop => ?_
  cases stop? with
  | some k => exact .pure fun _ _ => hstop k rfl
  | none =>
    refine .pure fun _ _ => ?_
    unfold singlePiece
    split
    · simp only; omega
    · split <;> (simp only; omega)

end Text

/-! ## What is open at a place -/

/-- Everything that a nesting names lies in the stretch from `start` to `limit`. -/
structure Nesting.Inside (s : Nesting) (start limit : Int) : Prop where
  /-- Open brackets lie in the stretch. -/
  openers : ∀ i ∈ s.openers, start ≤ i ∧ i < limit
  /-- So does an open string. -/
  string : ∀ i, s.string? = some i → start ≤ i ∧ i < limit
  /-- So does an open comment. -/
  comment : ∀ i, s.comment? = some i → start ≤ i ∧ i < limit
  /-- And so do the comments behind. -/
  comments : ∀ c ∈ s.comments, start ≤ c.start ∧ c.start < c.stop ∧ c.stop ≤ limit

namespace Nesting

variable {s : Nesting} {start limit i : Int} {p : Piece}

/-- At the start of a scan nothing is open, so nothing lies outside of the stretch. -/
theorem inside_empty (start limit : Int) : ({} : Nesting).Inside start limit := by
  constructor <;> simp

/-- A whole piece leaves everything inside. -/
theorem Inside.record (h : s.Inside start limit) (hi : start ≤ i) (hlt : i < limit)
    (hp : i < p.stop) (hstop : p.kind = .comment → p.stop ≤ limit) :
    (s.record i p).Inside start limit := by
  unfold Nesting.record
  split
  · next hk =>
    refine ⟨h.openers, h.string, h.comment, ?_⟩
    intro c hc
    rcases List.mem_append.mp hc with hc | hc
    · exact h.comments c hc
    · rw [List.mem_singleton] at hc
      subst hc
      exact ⟨hi, hp, hstop hk⟩
  · refine ⟨?_, h.string, h.comment, h.comments⟩
    intro j hj
    rcases List.mem_cons.mp hj with rfl | hj
    · exact ⟨hi, hlt⟩
    · exact h.openers j hj
  · exact ⟨fun j hj => h.openers j (List.mem_of_mem_tail hj), h.string, h.comment, h.comments⟩
  · exact h

/-- Stopping inside a piece names the start of that piece. -/
theorem Inside.within (h : s.Inside start limit) (hi : start ≤ i) (hlt : i < limit)
    {final : Nesting} (hw : s.within? i limit p = some final) : final.Inside start limit := by
  unfold Nesting.within? at hw
  split at hw
  · split at hw
    · cases hw
      exact ⟨h.openers, h.string, fun j hj => by cases hj; exact ⟨hi, hlt⟩, h.comments⟩
    · cases hw
      exact ⟨h.openers, fun j hj => by cases hj; exact ⟨hi, hlt⟩, h.comment, h.comments⟩
    · cases hw
  · cases hw

/-- A comment that is not stopped in ends in the stretch. -/
theorem stop_le_of_within?_eq_none (h : s.within? i limit p = none) (hk : p.kind = .comment) :
    p.stop ≤ limit := by
  unfold Nesting.within? at h
  rw [hk] at h
  by_cases hlt : limit < p.stop
  · rw [if_pos hlt] at h
    cases h
  · omega

end Nesting

namespace Text

variable {t : Text} {bird : Bool} {start limit i : Int}

/-- A scan of a stretch of the text succeeds from every place of the stretch on, and everything it
finds lies in the stretch. -/
theorem nestingFrom_yields {s : Nesting} (h₀ : 0 ≤ start) (h₁ : limit ≤ t.length) (hi : start ≤ i)
    (hs : s.Inside start limit) :
    Yields (t.nestingFrom bird limit s i) fun r => r.Inside start limit := by
  fun_induction nestingFrom t bird limit s i with
  | case1 s i hlt e he =>
    obtain ⟨p, hp, -⟩ := pieceAt_yields (t := t) (i := i) bird limit (by omega) (by omega)
    rw [he] at hp
    cases hp
  | case2 s i hlt p hp final hw => exact ⟨final, rfl, hs.within hi hlt hw⟩
  | case3 s i hlt p hp hw ih =>
    have hstop := lt_stop_of_pieceAt hp
    exact ih (by omega) (hs.record hi hlt hstop (Nesting.stop_le_of_within?_eq_none hw))
  | case4 s i hlt => exact ⟨s, rfl, hs⟩

/-- What is open can be told after every stretch of the text. -/
theorem nesting_yields (h₀ : 0 ≤ start) (h₁ : limit ≤ t.length) :
    Yields (t.nesting bird start limit) fun s => s.Inside start limit :=
  nestingFrom_yields h₀ h₁ (Int.le_refl start) (Nesting.inside_empty start limit)

/-! ## Expressions -/

/-- A computation that gives a position after `i` and in the text, or fails for the text that is
there. -/
def MovesOn (t : Text) (i : Int) (x : Except Fault Int) : Prop :=
  (∃ why, x = .error (.scan why)) ∨ Yields x fun j => i < j ∧ j ≤ t.length

/-- Looking for the end of a group moves on, or fails for what is written. -/
theorem groupRest_cases {depth : Int} (h₀ : 0 ≤ i) : t.MovesOn i (t.groupRest bird depth i) := by
  suffices h : (∃ why, t.groupRest bird depth i = .error (.scan why)) ∨
      Yields (t.groupRest bird depth i) fun j => j ≤ t.length by
    rcases h with h | ⟨j, hj, hle⟩
    · exact .inl h
    · exact .inr ⟨j, hj, lt_of_groupRest hj, hle⟩
  fun_induction groupRest t bird depth i with
  | case1 depth i hlt e he =>
    obtain ⟨p, hp, -⟩ := pieceAt_yields bird t.length h₀ hlt
    rw [he] at hp
    cases hp
  | case2 => exact .inl ⟨_, rfl⟩
  | case3 depth i hlt p hp _ _ ih =>
    have := lt_stop_of_pieceAt hp
    exact ih (by omega)
  | case4 i hlt p hp hle hk => exact .inr ⟨p.stop, rfl, by omega⟩
  | case5 depth i hlt p hp _ _ _ ih =>
    have := lt_stop_of_pieceAt hp
    exact ih (by omega)
  | case6 depth i hlt p hp _ _ _ ih =>
    have := lt_stop_of_pieceAt hp
    exact ih (by omega)
  | case7 => exact .inl ⟨_, rfl⟩

/-- A word or a run of operator characters ends inside the text. -/
theorem plainStop_le (h : i < t.length) : t.plainStop i ≤ t.length := by
  have hk := t.clamp_le_size i
  have h₁ := t.runStop_le isNameChar (t.clamp i) hk
  have h₂ := t.runStop_le isOperatorChar (t.clamp i) hk
  unfold plainStop wordStop? operatorStop? length at *
  grind

/-- A move over an expression gives a later position of the text or a `ScanFailure`, nothing
else. -/
theorem expressionStop_cases (bird : Bool) (h₀ : 0 ≤ i) :
    t.MovesOn i (t.expressionStop bird i) := by
  unfold expressionStop
  split
  · exact .inl ⟨_, rfl⟩
  next hlt =>
  rw [Int.not_le] at hlt
  obtain ⟨c, hc, -⟩ := read_yields h₀ hlt
  obtain ⟨p, hp, hstop, hle⟩ := pieceAt_yields bird t.length h₀ hlt
  rw [hc, hp]
  show t.MovesOn i (if isClosing c then _ else if isOpening c then _ else
    if p.kind = .string ∨ p.kind = .character then
      if t.length < p.stop then Except.error (.scan .openString) else Except.ok p.stop
    else Except.ok (t.plainStop i))
  split
  · exact .inl ⟨_, rfl⟩
  split
  · exact groupRest_cases h₀
  split
  · split
    · exact .inl ⟨_, rfl⟩
    · exact .inr ⟨_, rfl, hstop, by omega⟩
  · exact .inr ⟨_, rfl, lt_plainStop hlt, plainStop_le hlt⟩

/-- The lexeme at a position of the text can be read. -/
theorem readLexeme_yields (h₀ : 0 ≤ i) (h₁ : i ≤ t.length) :
    Yields (t.readLexeme i) fun w => w = t.lexemeAt i := by
  unfold readLexeme
  rw [checkStart_of_mem h₀ h₁]
  exact .pure rfl

end Text

end LayoutRule

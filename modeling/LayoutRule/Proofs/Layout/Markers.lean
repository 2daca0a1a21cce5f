import LayoutRule.Proofs.Lexical.Ending
import LayoutRule.Proofs.Request.Offers

/-!
# Bars and signs at the end of the text

The bar of a guard is one that is not doubled (`Text.IsBar`), and a right-hand side starts with one
of seven signs (`Text.IsSign`). Both rules speak of the next character, if there is one. Where the
text goes on, the markers keep to them (`Text.kindAt_eq_guard`, `Text.kindAt_eq_rhs`). A bar or an
equals sign that is the last character of the text is no marker yet: the next character is asked
for. Ending the line makes it one, and changes the kind of no other place
(`Document.markerAt_endLine`).
-/

namespace LayoutRule

namespace Text

variable {t : Text} {k : Nat}

/-- A bar that is not doubled. -/
def IsBar (t : Text) (k : Nat) : Prop := t.chars[k]? = some '|' ∧ t.chars[k + 1]? ≠ some '|'

/-- The signs of a right-hand side, the equals sign apart. -/
def rhsWords : List String := ["::", "∷", "->", "→", "<-", "←"]

/-- A sign of a right-hand side: one of the words, or an equals sign that belongs neither to `=>`
nor to `==`. -/
def IsSign (t : Text) (k : Nat) : Prop :=
  (∃ w ∈ rhsWords, t.holdsAt w.toList k = true) ∨
    t.chars[k]? = some '=' ∧ t.chars[k + 1]? ≠ some '>' ∧ t.chars[k + 1]? ≠ some '='

/-! ## The markers of code -/

/-- The marker of a guard is found at a bar that is followed by another character. -/
theorem isSome_guardStop? : (t.guardStop? k).isSome = true ↔ t.IsBar k ∧ k + 1 < t.chars.size := by
  unfold guardStop? IsBar
  cases hnext : t.chars[k + 1]? with
  | none =>
    have hend := Array.getElem?_eq_none_iff.mp hnext
    exact iff_of_false (by simp) fun h => by omega
  | some y =>
    have hlt := (Array.getElem?_eq_some_iff.mp hnext).1
    cases hc : t.chars[k]? with
    | none => simp
    | some c =>
      by_cases hbar : c = '|'
      · subst hbar
        by_cases hy : y = '|' <;> simp [hy, hlt]
      · simp [hbar]

/-- The words, character by character. -/
theorem exists_rhsWord :
    (∃ w ∈ rhsWords, t.holdsAt w.toList k = true) ↔
      ∃ c, t.chars[k]? = some c ∧
        (c ∈ rhsSigns ∨ ∃ y, t.chars[k + 1]? = some y ∧ (c, y) ∈ rhsPairs) := by
  have hwords : (∃ w ∈ rhsWords, t.holdsAt w.toList k = true) ↔
      t.chars[k]? = some ':' ∧ t.chars[k + 1]? = some ':' ∨ t.chars[k]? = some '∷' ∨
        t.chars[k]? = some '-' ∧ t.chars[k + 1]? = some '>' ∨ t.chars[k]? = some '→' ∨
          t.chars[k]? = some '<' ∧ t.chars[k + 1]? = some '-' ∨ t.chars[k]? = some '←' := by
    simp [rhsWords, holdsAt]
  rw [hwords]
  cases t.chars[k]? with
  | none => simp
  | some c => cases t.chars[k + 1]? <;> grind [rhsSigns, rhsPairs]

/-- The marker of a right-hand side is found at one of its signs, and at an equals sign only when
another character follows. -/
theorem isSome_rhsStop? :
    (t.rhsStop? k).isSome = true ↔ t.IsSign k ∧
    (t.chars[k]? = some '=' → k + 1 < t.chars.size) := by
  rw [IsSign, exists_rhsWord]
  unfold rhsStop?
  cases hc : t.chars[k]? with
  | none => simp
  | some c =>
    by_cases hsign : c ∈ rhsSigns
    · have hne : c ≠ '=' := by
        rintro rfl
        exact absurd hsign (by decide)
      simp [hsign, hne]
    cases hnext : t.chars[k + 1]? with
    | none =>
      have hend := Array.getElem?_eq_none_iff.mp hnext
      refine iff_of_false (by simp [hsign]) ?_
      rintro ⟨⟨x, hx, hmem | ⟨y, hy, -⟩⟩ | ⟨heq, -⟩, hlt⟩
      · cases hx
        exact hsign hmem
      · cases hy
      · have := hlt heq
        omega
    | some y =>
      have hlt := (Array.getElem?_eq_some_iff.mp hnext).1
      by_cases heq : c = '='
      · subst heq
        simp [hsign, rhsPairs, hlt]
      · simp [hsign, heq]

/-- A name starts with neither a bar nor a sign. -/
theorem not_sign_of_nameStop? {stop : Nat} (h : t.nameStop? k = some stop) :
    ¬t.IsBar k ∧ ¬t.IsSign k := by
  obtain ⟨c, hc, hstart⟩ : ∃ c, t.chars[k]? = some c ∧ isNameStart c = true := by
    unfold nameStop? at h
    grind
  have hno : ∀ x : Char, isNameStart x = false → t.chars[k]? ≠ some x := by
    rintro x hx hcx
    rw [hc] at hcx
    cases hcx
    cases hx.symm.trans hstart
  have hsigns : rhsSigns.all (fun x => !isNameStart x) = true ∧
      rhsPairs.all (fun p => !isNameStart p.1) = true := by
    decide +kernel
  refine ⟨fun hbar => hno '|' (by decide) hbar.1, ?_⟩
  rintro (hword | heq)
  · obtain ⟨x, hx, hmem | ⟨y, -, hmem⟩⟩ := exists_rhsWord.mp hword
    · exact hno x (by simpa using List.all_eq_true.mp hsigns.1 x hmem) hx
    · exact hno x (by simpa using List.all_eq_true.mp hsigns.2 (x, y) hmem) hx
  · exact hno '=' (by decide) heq.1

/-- A place is of the kind of names when a name starts there. -/
theorem kindAt_eq_name : t.kindAt k = .name ↔ (t.nameStop? k).isSome = true := by
  unfold kindAt markerStop?
  cases t.nameStop? k with
  | some stop => simp
  | none => cases t.guardStop? k <;> cases t.rhsStop? k <;> simp

/-- A guard is a bar that is not doubled and that something follows. -/
theorem kindAt_eq_guard : t.kindAt k = .guard ↔ t.IsBar k ∧ k + 1 < t.chars.size := by
  rw [← isSome_guardStop?]
  unfold kindAt markerStop?
  cases hname : t.nameStop? k with
  | some stop =>
    have hbar := (not_sign_of_nameStop? hname).1
    simp [isSome_guardStop?, hbar]
  | none => cases t.guardStop? k <;> cases t.rhsStop? k <;> simp

/-- A right-hand side starts with a sign; if that is an equals sign, something follows it. -/
theorem kindAt_eq_rhs :
    t.kindAt k = .rhs ↔ t.IsSign k ∧ (t.chars[k]? = some '=' → k + 1 < t.chars.size) := by
  have hbar : (t.guardStop? k).isSome = true → (t.rhsStop? k).isSome = true → False := by
    rw [isSome_guardStop?]
    rintro ⟨⟨hc, -⟩, -⟩ hrhs
    unfold rhsStop? at hrhs
    grind [rhsSigns, rhsPairs]
  rw [← isSome_rhsStop?]
  unfold kindAt markerStop?
  cases hname : t.nameStop? k with
  | some stop =>
    have hsign := (not_sign_of_nameStop? hname).2
    simp [isSome_rhsStop?, hsign]
  | none =>
    cases hguard : t.guardStop? k with
    | some stop =>
      rw [hguard] at hbar
      simpa using hbar
    | none => cases t.rhsStop? k <;> simp

/-- A place of the text is of one of four kinds: the kinds for empty lines and comments are given to
lines only. -/
theorem kindAt_mem (t : Text) (k : Nat) : t.kindAt k ∈ [LineKind.name, .guard, .rhs, .other] := by
  unfold kindAt
  cases h : t.markerStop? k with
  | none => simp
  | some m => rcases markerStop?_kind h with ⟨hkind, -⟩ | hkind | hkind <;> simp [hkind]

/-! ## Ending the line -/

/-- Ending the last line makes no bar and takes none away: a newline is no second bar. -/
theorem isBar_endLine : t.endLine.IsBar k ↔ t.IsBar k := by
  unfold IsBar
  rw [getElem?_endLine_eq_some (by decide), Ne, getElem?_endLine_eq_some (by decide)]

/-- Ending the last line makes no sign and takes none away: no sign has a newline as its second
character. -/
theorem isSign_endLine : t.endLine.IsSign k ↔ t.IsSign k := by
  have hwords : ∀ w ∈ rhsWords, '\n' ∉ w.toList := by decide
  unfold IsSign
  refine or_congr (exists_congr fun w => and_congr_right fun hw => ?_) ?_
  · rw [holdsAt_endLine (hwords w hw)]
  · rw [getElem?_endLine_eq_some (by decide), Ne, getElem?_endLine_eq_some (by decide), Ne,
      getElem?_endLine_eq_some (by decide)]

/-- Ending the last line leaves all names as they are. -/
theorem nameStop?_endLine (t : Text) (k : Nat) : t.endLine.nameStop? k = t.nameStop? k := by
  unfold nameStop?
  rw [runStop_endLine (by decide)]
  rcases t.getElem?_endLine_cases k with h | ⟨hnone, hnl⟩
  · rw [h]
  · rw [hnone, hnl]
    rfl

/-- Once the last line is ended, exactly the bars are markers of guards. -/
theorem kindAt_endLine_eq_guard (hk : k < t.chars.size) :
    t.endLine.kindAt k = .guard ↔ t.IsBar k := by
  rw [kindAt_eq_guard, isBar_endLine, size_endLine]
  exact and_iff_left (by omega)

/-- Once the last line is ended, exactly the signs are markers of right-hand sides. -/
theorem kindAt_endLine_eq_rhs (hk : k < t.chars.size) : t.endLine.kindAt k = .rhs ↔ t.IsSign k := by
  rw [kindAt_eq_rhs, isSign_endLine, size_endLine]
  exact and_iff_left fun _ => by omega

/-- The kind of a place stays unless a bar or an equals sign is asked for its next character. -/
theorem kindAt_endLine_eq (hk : k < t.chars.size)
    (hbar : t.chars[k]? = some '|' → k + 1 < t.chars.size)
    (heq : t.chars[k]? = some '=' → k + 1 < t.chars.size) : t.endLine.kindAt k = t.kindAt k := by
  have hname : t.endLine.kindAt k = .name ↔ t.kindAt k = .name := by
    rw [kindAt_eq_name, kindAt_eq_name, nameStop?_endLine]
  have hguard : t.endLine.kindAt k = .guard ↔ t.kindAt k = .guard := by
    rw [kindAt_endLine_eq_guard hk, kindAt_eq_guard]
    exact (and_iff_left_of_imp fun h => hbar h.1).symm
  have hrhs : t.endLine.kindAt k = .rhs ↔ t.kindAt k = .rhs := by
    rw [kindAt_endLine_eq_rhs hk, kindAt_eq_rhs]
    exact (and_iff_left heq).symm
  have hnew := t.endLine.kindAt_mem k
  have hold := t.kindAt_mem k
  grind

/-- The kind of a place changes where a bar or an equals sign is the last character. -/
theorem kindAt_endLine_ne (hk : k < t.chars.size) :
    t.endLine.kindAt k ≠ t.kindAt k ↔ k + 1 = t.chars.size ∧
    (t.chars[k]? = some '|' ∨ t.chars[k]? = some '=') := by
  constructor
  · intro hne
    by_contra hother
    exact hne (kindAt_endLine_eq hk (fun hc => by grind) fun hc => by grind)
  · rintro ⟨hend, hc⟩ hsame
    have hnext : t.chars[k + 1]? = none := Array.getElem?_eq_none (by omega)
    rcases hc with hc | hc
    · have hbar : t.IsBar k := ⟨hc, by rw [hnext]; nofun⟩
      rw [← kindAt_endLine_eq_guard hk, hsame, kindAt_eq_guard] at hbar
      omega
    · have hsign : t.IsSign k := .inr ⟨hc, by rw [hnext]; nofun, by rw [hnext]; nofun⟩
      rw [← kindAt_endLine_eq_rhs hk, hsame, kindAt_eq_rhs] at hsign
      have := hsign.2 hc
      omega

end Text

namespace Document

open Text

variable {d : Document} {origin : Int} {k : Nat}

/-- The kind of a place by what is asked first: a blank line, a comment, then the code. -/
theorem markerAt_kindAt (ho : 0 ≤ origin) (hk : k < d.text.chars.size) :
    Yields (d.markerAt k origin d.text.length) fun m =>
      ∃ opened, d.openComment? (min origin k) k = .ok opened ∧
      m.kind = if d.isBlankLine k then .empty else if opened.isSome then .comment
        else d.text.kindAt k := by
  have h₁ : (k : Int) ≤ d.text.length := by unfold length; omega
  have hclamp := clamp_of_mem (Int.natCast_nonneg k) h₁
  obtain ⟨opened, hopened, -⟩ :=
    openComment?_yields (d := d) (by omega : 0 ≤ min origin k) (Int.natCast_nonneg k) h₁
  obtain ⟨m, hm, -⟩ := markerAt_yields (Int.natCast_nonneg k) h₁ ho (Int.le_refl _)
  refine ⟨m, hm, opened, hopened, ?_⟩
  rcases kind_of_markerAt hm with ⟨hblank, hkind⟩ | ⟨hblank, opened', hopened', hkind⟩
  · rw [if_pos hblank, hkind]
  · rw [hopened] at hopened'
    cases hopened'
    rw [hkind, hblank, Int.ofNat.inj hclamp]
    rfl

/-- Bars and signs of code are markers where the text goes on. With a newline behind the text all of
them are, and apart from a bar or an equals sign at the end every place keeps its kind. -/
theorem markerAt_endLine (ho : 0 ≤ origin) (hk : k < d.text.chars.size) :
    ∃ m m', d.markerAt k origin d.text.length = .ok m ∧
      d.endLine.markerAt k origin d.endLine.text.length = .ok m' ∧
      (d.isBlankLine k = false → d.openComment? (min origin k) k = .ok none →
        (m.kind = .guard ↔ d.text.IsBar k ∧ k + 1 < d.text.chars.size) ∧
        (m.kind = .rhs ↔ d.text.IsSign k ∧
          (d.text.chars[k]? = some '=' → k + 1 < d.text.chars.size)) ∧
        (m'.kind = .guard ↔ d.text.IsBar k) ∧ (m'.kind = .rhs ↔ d.text.IsSign k)) ∧
      (m'.kind ≠ m.kind ↔ d.isBlankLine k = false ∧ d.openComment? (min origin k) k = .ok none ∧
        k + 1 = d.text.chars.size ∧
        (d.text.chars[k]? = some '|' ∨ d.text.chars[k]? = some '=')) := by
  have hlt : (k : Int) < d.text.length := by unfold length; omega
  obtain ⟨m, hm, opened, hopened, hkind⟩ := markerAt_kindAt (d := d) ho hk
  obtain ⟨m', hm', opened', hopened', hkind'⟩ :=
    markerAt_kindAt (d := d.endLine) ho
      (by rw [text_endLine, size_endLine]; omega : k < d.endLine.text.chars.size)
  rw [openComment?_endLine (by omega) (Int.natCast_nonneg k) hlt, hopened] at hopened'
  cases hopened'
  rw [isBlankLine_endLine (Int.natCast_nonneg k) (Int.le_of_lt hlt)] at hkind'
  refine ⟨m, m', hm, hm', ?_, ?_⟩
  · intro hblank hnone
    rw [hopened] at hnone
    cases hnone
    rw [hkind, hkind', hblank]
    exact ⟨kindAt_eq_guard, kindAt_eq_rhs, kindAt_endLine_eq_guard hk, kindAt_endLine_eq_rhs hk⟩
  · rw [hkind, hkind', hopened]
    cases hblank : d.isBlankLine k with
    | true => simp
    | false =>
      cases opened with
      | some c => simp
      | none => simpa using kindAt_endLine_ne hk

/-- A clause that ends in the middle of typing, with an equals sign. -/
def typedClause : Document := .new (ofString "f x | c -> a\n    | d =") .plain 8

/-- The equals sign at the end of a clause is of another kind before the line is ended, and the
marker of a right-hand side afterwards. -/
theorem markerAt_endLine_typedClause :
    (0 : Int) ≤ 0 ∧ 21 < typedClause.text.chars.size ∧
    ∃ m m', typedClause.markerAt (21 : Nat) 0 typedClause.text.length = .ok m ∧
      typedClause.endLine.markerAt (21 : Nat) 0 typedClause.endLine.text.length = .ok m' ∧
      (m.kind = .guard ↔ typedClause.text.IsBar 21 ∧ 21 + 1 < typedClause.text.chars.size) ∧
      m'.kind = .rhs ∧ m'.kind ≠ m.kind := by
  have hk : 21 < typedClause.text.chars.size := by decide
  have hblank : typedClause.isBlankLine (21 : Nat) = false := by decide +kernel
  have hcomment : typedClause.openComment? (min 0 (21 : Nat)) (21 : Nat) = .ok none := by
    decide +kernel
  obtain ⟨m, m', hm, hm', hkinds, hchange⟩ := markerAt_endLine (d := typedClause) (Int.le_refl 0) hk
  obtain ⟨hguard, -, -, hrhs⟩ := hkinds hblank hcomment
  have hsign : typedClause.text.IsSign 21 := .inr (by decide)
  exact ⟨Int.le_refl 0, hk, m, m', hm, hm', hguard, hrhs.mpr hsign,
    hchange.mpr ⟨hblank, hcomment, by decide, .inr (by decide)⟩⟩

/-- A bar or an equals sign at the very end of the text is code of no kind, until the line ends. -/
theorem last_sign_unmarked :
    let bar := Document.new (ofString "f x |") .plain 8
    let sign := Document.new (ofString "f x =") .plain 8
    (bar.isBlankLine 4 = false ∧ bar.openComment? 0 4 = .ok none ∧ bar.text.IsBar 4 ∧
      (bar.markerAt 4 0 5).map (·.kind) = .ok .other ∧
      (bar.endLine.markerAt 4 0 6).map (·.kind) = .ok .guard) ∧
    (sign.isBlankLine 4 = false ∧ sign.openComment? 0 4 = .ok none ∧ sign.text.IsSign 4 ∧
      (sign.markerAt 4 0 5).map (·.kind) = .ok .other ∧
      (sign.endLine.markerAt 4 0 6).map (·.kind) = .ok .rhs) := by
  exact ⟨⟨by decide +kernel, by decide +kernel, ⟨by decide, by decide⟩, by decide +kernel,
    by decide +kernel⟩, by decide +kernel, by decide +kernel, .inr (by decide), by decide +kernel,
    by decide +kernel⟩

end Document

end LayoutRule

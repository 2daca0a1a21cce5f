import LayoutRule.Layout.Clause
import LayoutRule.Proofs.Document.Gaps

/-!
# The parts of a clause

Every place of the text has a marker (`markerAt_yields`), and a stretch that starts with code can
always be taken apart (`clauseAt_yields`): the parts come in order, each inside the stretch, a part
that follows another is never there alone, and the first of them is the start of the stretch. A
clause that starts with a name remembers the text of that name. `clauseAt_ordered` says so part by
part.
-/

namespace LayoutRule

/-! ## Markers -/

/-- The text of a name: a character that may start a name, then characters of names. -/
def IsName (s : String) : Prop :=
  ∃ c rest, s.toList = c :: rest ∧ isNameStart c = true ∧ ∀ x ∈ rest, isNameChar x = true

namespace Text

variable {t : Text} {k stop : Nat}

/-- A name has at least one character and ends inside the text. -/
theorem nameStop?_bounds (h : t.nameStop? k = some stop) : k < stop ∧ stop ≤ t.chars.size := by
  unfold nameStop? at h
  split at h
  · next c hc =>
    have hk := (Array.getElem?_eq_some_iff.mp hc).1
    split at h
    · cases h
      exact ⟨t.le_runStop isNameChar (k + 1), t.runStop_le isNameChar (k + 1) hk⟩
    · cases h
  · cases h

/-- The bar of a guard has one character and ends inside the text. -/
theorem guardStop?_bounds (h : t.guardStop? k = some stop) : k < stop ∧ stop ≤ t.chars.size := by
  unfold guardStop? at h
  split at h
  · next c hc _ =>
    have hk := (Array.getElem?_eq_some_iff.mp hc).1
    split at h
    · cases h
    · cases h
      exact ⟨Nat.lt_succ_self k, hk⟩
  · cases h

/-- The sign of a right-hand side has at least one character and ends inside the text. -/
theorem rhsStop?_bounds (h : t.rhsStop? k = some stop) : k < stop ∧ stop ≤ t.chars.size := by
  unfold rhsStop? at h
  split at h
  · cases h
  · next c hc =>
    have hk := (Array.getElem?_eq_some_iff.mp hc).1
    split at h
    · cases h
      exact ⟨Nat.lt_succ_self k, hk⟩
    · split at h
      · cases h
      · next next hnext =>
        have hk' := (Array.getElem?_eq_some_iff.mp hnext).1
        split at h
        · split at h
          · cases h
          · cases h
            exact ⟨Nat.lt_succ_self k, hk⟩
        · split at h
          · cases h
            exact ⟨by omega, hk'⟩
          · cases h

/-- A marker is not empty and lies in the text. -/
theorem markerStop?_bounds {kind : LineKind} (h : t.markerStop? k = some (kind, stop)) :
    k < stop ∧ stop ≤ t.chars.size := by
  unfold markerStop? at h
  split at h
  · next hn => cases h; exact nameStop?_bounds hn
  · split at h
    · next hg => cases h; exact guardStop?_bounds hg
    · obtain ⟨stop', hr, he⟩ := Option.map_eq_some_iff.mp h
      cases he
      exact rhsStop?_bounds hr

/-- The kind of a marker is one of three. -/
theorem markerStop?_kind {kind : LineKind} (h : t.markerStop? k = some (kind, stop)) :
    (kind = .name ∧ t.nameStop? k = some stop) ∨ kind = .guard ∨ kind = .rhs := by
  unfold markerStop? at h
  split at h
  · next hn => cases h; exact .inl ⟨rfl, hn⟩
  · split at h
    · cases h; exact .inr (.inl rfl)
    · obtain ⟨stop', hr, he⟩ := Option.map_eq_some_iff.mp h
      cases he
      exact .inr (.inr rfl)

/-- What stands up to the end of a name is a name. -/
theorem isName_of_nameStop? (h : t.nameStop? k = some stop) :
    IsName (String.ofList (t.chars.extract k stop).toList) := by
  have hb := nameStop?_bounds h
  unfold nameStop? at h
  split at h
  · next c hc =>
    split at h
    · next hs =>
      cases h
      obtain ⟨hk, rfl⟩ := Array.getElem?_eq_some_iff.mp hc
      refine ⟨t.chars[k], (t.chars.extract (k + 1) (t.runStop isNameChar (k + 1))).toList,
        ?_, hs, ?_⟩
      · rw [String.toList_ofList, Array.toList_extract, Array.toList_extract,
          List.extract_eq_take_drop, List.extract_eq_take_drop,
          List.drop_eq_getElem_cons (by simpa using hk)]
        rw [show t.runStop isNameChar (k + 1) - k =
          t.runStop isNameChar (k + 1) - (k + 1) + 1 by omega, List.take_succ_cons]
        simp
      · intro x hx
        obtain ⟨i, hi, hget⟩ := List.getElem_of_mem hx
        have hlt : k + 1 + i < t.runStop isNameChar (k + 1) := by
          simp at hi
          omega
        obtain ⟨c', hc', hp⟩ :=
          char_of_lt_runStop (t := t) (p := isNameChar) (k := k + 1) (i := k + 1 + i) (by omega) hlt
        have : x = c' := by
          have hsz := (Array.getElem?_eq_some_iff.mp hc').2
          rw [← hget, ← hsz]
          simp
        rw [this]
        exact hp
    · cases h
  · cases h

end Text

namespace Document

open Text

variable {d : Document} {start stop origin limit pos : Int}

/-- What the marker at a place says about the place. -/
structure MarkerFacts (d : Document) (pos origin : Int) (m : Marker) : Prop where
  /-- The marker starts at the place. -/
  start : m.start = pos
  /-- A marker with a text is not empty. -/
  stop : m.kind = .name ∨ m.kind = .guard ∨ m.kind = .rhs → pos < m.stop
  /-- Exactly a blank line is empty. -/
  empty : m.kind = .empty ↔ d.isBlankLine pos = true
  /-- A comment is one that was found from the origin on. -/
  comment : m.kind = .comment → d.openComment? (min origin pos) pos ≠ .ok none
  /-- A name has the text of a name. -/
  text : m.kind = .name → IsName m.text

/-- Every place of the text has a marker. -/
theorem markerAt_yields (h₀ : 0 ≤ pos) (h₁ : pos ≤ d.text.length) (ho : 0 ≤ origin)
    (hl : limit ≤ d.text.length) :
    Yields (d.markerAt pos origin limit) fun m => d.MarkerFacts pos origin m := by
  unfold markerAt
  split
  · next hb => exact ⟨_, rfl, rfl, by simp, by simp [hb], by simp, by simp⟩
  next hb =>
  obtain ⟨r, hr, -⟩ :=
    (openComment?_yields (by omega) h₀ h₁ : Yields (d.openComment? (min origin pos) pos) _)
  rw [hr]
  show Yields (if r.isSome then _ else _) _
  split
  · next hs =>
    refine ⟨_, rfl, rfl, by simp, by simp [hb], ?_, by simp⟩
    intro _ hnone
    rw [hr] at hnone
    cases hnone
    cases hs
  refine (checkStart_yields h₀ h₁).bind fun _ _ => ?_
  dsimp only
  split
  · next kind stop hm =>
    have hclamp := clamp_of_mem h₀ h₁
    obtain ⟨hlt, hsize⟩ := markerStop?_bounds hm
    refine (skipBlanks_yields (by omega) hl).bind fun j hj => .pure ?_
    rcases markerStop?_kind hm with ⟨rfl, hn⟩ | rfl | rfl
    · exact ⟨hclamp, fun _ =>
        by show pos < j; omega, by simp [hb], by simp, fun _ => isName_of_nameStop? hn⟩
    · exact ⟨hclamp, fun _ => by show pos < j; omega, by simp [hb], by simp, by simp⟩
    · exact ⟨hclamp, fun _ => by show pos < j; omega, by simp [hb], by simp, by simp⟩
  · exact .pure ⟨rfl, by simp, by simp [hb], by simp, by simp⟩

/-! ## Steps -/

/-- Code is passed over by no test that it does not satisfy. -/
theorem passOver_eq {test : Char → Bool} {c : Char} (hc : d.text.charAt? pos = some c)
    (ht : test c = false) : d.passOver test limit pos = pos := by
  unfold passOver
  split
  · rw [hc]
    simp [ht]
  · rfl

/-- A step always succeeds, and stays in the stretch. -/
theorem stepOver_yields (h₀ : 0 ≤ pos) (hp : pos < stop) (h₁ : stop ≤ d.text.length) :
    Yields (d.stepOver pos stop) fun j => pos < j ∧ j ≤ stop := by
  suffices h : Yields (d.stepOver pos stop) fun j => j ≤ stop by
    obtain ⟨j, hj, hle⟩ := h
    exact ⟨j, hj, lt_of_stepOver hp hj, hle⟩
  have hle := d.le_passOver isClosing stop pos
  unfold stepOver nextSymbol
  by_cases hi : d.passOver isClosing stop pos < stop
  · simp only [if_pos hi]
    have hmove : d.text.MovesOn (d.passOver isClosing stop pos)
        (d.expressionAfter (d.passOver isClosing stop pos) d.text.length) :=
      expressionAfter_cases (by omega) (Int.le_refl _)
    rcases hmove with ⟨why, hw⟩ | ⟨k, hk, h₂, h₃⟩
    · rw [hw]
      exact ⟨stop, rfl, Int.le_refl stop⟩
    · obtain ⟨l, hl, -⟩ := (skipBlanks_yields (by omega) h₁ : Yields (d.skipBlanks k stop) _)
      rw [hk]
      simp only [bind, Except.bind, hl]
      exact ⟨min l stop, rfl, Int.min_le_right l stop⟩
  · simp only [if_neg hi]
    exact ⟨min (d.passOver isClosing stop pos) stop, rfl, Int.min_le_right _ stop⟩

/-- The marker of a cursor is that of its place, unless the place is the end of the stretch. -/
def Cursor.Marked (d : Document) (origin stop : Int) (c : Cursor) : Prop :=
  c.pos < stop → d.markerAt c.pos origin stop = .ok c.marker

/-- Stepping over symbols succeeds. Either no step was made, or the first symbol is the place where
it started. -/
theorem stepWhile_yields {test : LineKind → Bool} {c : Cursor} (ho : 0 ≤ origin)
    (h₁ : stop ≤ d.text.length) (h₀ : 0 ≤ c.pos) (hc : c.pos ≤ stop) :
    Yields (d.stepWhile origin stop test c) fun r =>
      r.Marked d origin stop ∧ r.pos ≤ stop ∧
        ((r.pos = c.pos ∧ r.first = c.first) ∨
          (c.pos < r.pos ∧ r.first = (c.first <|> some c.pos))) := by
  fun_induction stepWhile d origin stop test c with
  | case1 c hlt e he =>
    obtain ⟨m, hm, -⟩ := markerAt_yields (d := d) h₀ (by omega) ho h₁
    rw [he] at hm
    cases hm
  | case2 c hlt m hm ht e he =>
    obtain ⟨j, hj, -⟩ := stepOver_yields h₀ hlt h₁
    rw [he] at hj
    cases hj
  | case3 c hlt m hm ht j hj ih =>
    obtain ⟨hlt', hle⟩ := (stepOver_yields h₀ hlt h₁).of_eq hj
    refine (ih (by simp only; omega) hle).mono ?_
    rintro r ⟨hr, hstop, hcase⟩
    refine ⟨hr, hstop, .inr ?_⟩
    rcases hcase with ⟨hpos, hfirst⟩ | ⟨hpos, hfirst⟩
    · exact ⟨by simp only at hpos; omega, hfirst⟩
    · refine ⟨by simp only at hpos; omega, ?_⟩
      rw [hfirst]
      cases c.first <;> rfl
  | case4 c hlt m hm ht => exact ⟨_, rfl, fun _ => hm, by simp only; omega, .inl ⟨rfl, rfl⟩⟩
  | case5 c hlt => exact ⟨c, rfl, fun h => absurd h hlt, hc, .inl ⟨rfl, rfl⟩⟩

/-- Stepping over symbols from a fresh cursor: the first symbol, if there is one, is where the
cursor stood. -/
theorem stepFrom_yields {test : LineKind → Bool} (m : Marker) (ho : 0 ≤ origin)
    (h₁ : stop ≤ d.text.length) (h₀ : 0 ≤ pos) (hp : pos ≤ stop) :
    Yields (d.stepWhile origin stop test ⟨pos, m, none⟩) fun r =>
      r.Marked d origin stop ∧ r.pos ≤ stop ∧ pos ≤ r.pos ∧ ∀ x ∈ r.first, x = pos ∧ x < r.pos := by
  refine (stepWhile_yields ho h₁ (c := ⟨pos, m, none⟩) h₀ hp).mono ?_
  rintro r ⟨hmarked, hle, ⟨hpos, hf⟩ | ⟨hpos, hf⟩⟩
  · exact ⟨hmarked, hle, by simp only at hpos; omega, by simp [hf]⟩
  · refine ⟨hmarked, hle, Int.le_of_lt hpos, ?_⟩
    intro x hx
    rw [hf] at hx
    cases hx
    exact ⟨rfl, hpos⟩

end Document

/-! ## Clauses -/

/-- Places in order in the stretch from `start` to `stop`. -/
def InOrder (l : List Int) (start stop : Int) : Prop :=
  l.Pairwise (· < ·) ∧ ∀ p ∈ l, start ≤ p ∧ p < stop

/-- Places in order can be continued by a later place and one after that. -/
theorem InOrder.append_two {l : List Int} {start stop p : Int} {q : Option Int}
    (hl : InOrder l start p) (hp : start ≤ p ∧ p < stop) (hq : ∀ x ∈ q, p < x ∧ x < stop) :
    InOrder (l ++ [p] ++ q.toList) start stop := by
  obtain ⟨hpair, hin⟩ := hl
  constructor
  · refine List.pairwise_append.mpr ⟨?_, by cases q <;> simp, ?_⟩
    · refine List.pairwise_append.mpr ⟨hpair, List.pairwise_singleton _ _, ?_⟩
      intro x hx y hy
      rw [List.mem_singleton.mp hy]
      exact (hin x hx).2
    · intro x hx y hy
      have hpy := hq y (Option.mem_toList.mp hy)
      rcases List.mem_append.mp hx with hx | hx
      · have := hin x hx
        omega
      · rw [List.mem_singleton.mp hx]
        exact hpy.1
  · intro x hx
    rcases List.mem_append.mp hx with hx | hx
    · rcases List.mem_append.mp hx with hx | hx
      · have := hin x hx
        omega
      · rw [List.mem_singleton.mp hx]
        exact hp
    · have := hq x (Option.mem_toList.mp hx)
      omega

namespace Clause

/-- The places of the parts that are there, in the order of the parts. -/
def places (c : Clause) : List Int :=
  c.name.toList ++ c.afterName.toList ++ c.guard.toList ++ c.afterGuard.toList ++ c.rhs.toList ++
    c.afterRhs.toList

/-- The parts of a clause come in order in the stretch from `start` to `stop`, none without the one
it follows. -/
structure Placed (c : Clause) (start stop : Int) : Prop where
  /-- The parts come in order and lie in the stretch. -/
  inOrder : InOrder c.places start stop
  /-- What follows the name comes with a name. -/
  afterName : c.afterName.isSome → c.name.isSome
  /-- The text of the name comes with a name, and is one. -/
  nameText : ∀ s ∈ c.nameText, c.name.isSome ∧ IsName s
  /-- The condition comes with a guard. -/
  afterGuard : c.afterGuard.isSome → c.guard.isSome
  /-- What follows the sign comes with a sign. -/
  afterRhs : c.afterRhs.isSome → c.rhs.isSome

/-- The text of a name comes with the name. -/
theorem Placed.isSome_name {c : Clause} {start stop : Int} (h : c.Placed start stop)
    (htext : c.nameText.isSome) : c.name.isSome := by
  obtain ⟨text, htext⟩ := Option.isSome_iff_exists.mp htext
  exact (h.nameText text htext).1

/-- No part of the right-hand side is there. -/
def HasNoRhs (c : Clause) : Prop := c.rhs = none ∧ c.afterRhs = none

/-- No part from the guard on is there. -/
def HasNoGuard (c : Clause) : Prop := c.guard = none ∧ c.afterGuard = none ∧ c.HasNoRhs

/-- A clause without parts is placed in every stretch. -/
theorem placed_empty (start stop : Int) : ({} : Clause).Placed start stop := by
  refine ⟨⟨.nil, ?_⟩, ?_, ?_, ?_, ?_⟩ <;> simp [places]

/-- The parts of a clause that lie in a stretch lie in every longer one. -/
theorem Placed.mono {c : Clause} {start stop stop' : Int} (h : c.Placed start stop)
    (hle : stop ≤ stop') : c.Placed start stop' := by
  refine { h with inOrder := ⟨h.inOrder.1, ?_⟩ }
  intro p hp
  have := h.inOrder.2 p hp
  omega

/-- The places of a clause with a guard put in. -/
theorem places_guard {c : Clause} (h : c.HasNoGuard) (p : Int) (q : Option Int) :
    ({ c with guard := some p, afterGuard := q } : Clause).places =
      c.places ++ [p] ++ q.toList := by
  obtain ⟨h₁, h₂, h₃, h₄⟩ := h
  simp [places, h₁, h₂, h₃, h₄]

/-- The places of a clause with a right-hand side put in. -/
theorem places_rhs {c : Clause} (h : c.HasNoRhs) (p : Int) (q : Option Int) :
    ({ c with rhs := some p, afterRhs := q } : Clause).places = c.places ++ [p] ++ q.toList := by
  obtain ⟨h₁, h₂⟩ := h
  simp [places, h₁, h₂]

/-- The first part of a clause is its name, its guard or its right-hand side: what follows one of
them is never first. -/
theorem Placed.head?_places {c : Clause} {start stop : Int} (h : c.Placed start stop) :
    c.places.head? = (c.name <|> c.guard <|> c.rhs) := by
  have hname := h.afterName
  have hguard := h.afterGuard
  have hrhs := h.afterRhs
  unfold places
  cases hn : c.name with
  | some name => simp
  | none =>
    cases hg : c.guard with
    | some guard => simp_all
    | none => cases hr : c.rhs <;> simp_all

end Clause

namespace Document

open Text

variable {d : Document} {start stop origin : Int}

/-- How far a clause has been taken apart: its parts lie before the cursor, and the first is the
start of the stretch, or the cursor has not moved from there. -/
structure Reached (d : Document) (start stop origin : Int) (m : Marker) (clause : Clause)
    (c : Cursor) : Prop where
  /-- The parts lie before the cursor. -/
  placed : clause.Placed start c.pos
  /-- The cursor lies in the stretch. -/
  bounds : start ≤ c.pos ∧ c.pos ≤ stop
  /-- It knows the marker of its place. -/
  marked : c.Marked d origin stop
  /-- The first part is the start. -/
  first : clause.places.head? = some start ∨ (clause.places = [] ∧ c.pos = start ∧ c.marker = m)

/-- The first part stays the first when parts are added after it. -/
theorem Reached.head?_append {m : Marker} {clause : Clause} {c : Cursor}
    (h : d.Reached start stop origin m clause c) (q : List Int) :
    (clause.places ++ [c.pos] ++ q).head? = some start := by
  rw [List.append_assoc, List.head?_append]
  rcases h.first with hf | ⟨hempty, hp, -⟩
  · rw [hf]
    rfl
  · rw [hempty, hp]
    rfl

/-- A name at the start of the stretch, and the symbols stepped over after it up to `r`. -/
theorem reached_head {m : Marker} {text : Option String} {r : Cursor} (htext : ∀ s ∈ text, IsName s)
    (hr : r.Marked d origin stop) (hle : r.pos ≤ stop) (hpos : start < r.pos)
    (hfirst : ∀ x ∈ r.first, start < x ∧ x < r.pos) :
    d.Reached start stop origin m ⟨some start, text, r.first, none, none, none, none⟩ r := by
  have hplaces :
      (⟨some start, text, r.first, none, none, none, none⟩ : Clause).places =
        [] ++ [start] ++ r.first.toList := by
    simp [Clause.places]
  have horder := InOrder.append_two (l := []) ⟨.nil, by simp⟩ ⟨Int.le_refl start, hpos⟩ hfirst
  refine ⟨⟨?_, fun _ => rfl, fun s hs => ⟨rfl, htext s hs⟩, by simp, by simp⟩, ⟨by omega, hle⟩, hr,
    .inl ?_⟩
  · rw [hplaces]
    exact horder
  · rw [hplaces]
    rfl

/-- The head of a clause that starts with code; a name or another symbol at the start is its
name. -/
theorem headPart_yields {m : Marker} {x : Char} (ho : 0 ≤ origin) (h₀ : 0 ≤ start)
    (hlt : start < stop) (h₁ : stop ≤ d.text.length) (hm : d.markerAt start origin stop = .ok m)
    (hx : d.text.charAt? start = some x) (hb : isBlank x = false) :
    Yields (d.headPart start stop origin m) fun r =>
      r.1.HasNoGuard ∧ d.Reached start stop origin m r.1 r.2 ∧
      (inHead m.kind = true → r.1.places ≠ []) := by
  have hfacts := (markerAt_yields h₀ (by omega) ho h₁).of_eq hm
  unfold headPart
  split
  · next hk =>
    have hstop := hfacts.stop (.inl hk)
    refine (stepFrom_yields m ho h₁ (by omega) (by omega)).bind ?_
    rintro c ⟨hmarked, hle, hpos, hfirst⟩
    rw [hfacts.start]
    refine .pure ⟨⟨rfl, rfl, rfl, rfl⟩, reached_head ?_ hmarked hle (by omega) ?_,
      fun _ => by simp [Clause.places]⟩
    · intro s hs
      cases hs
      exact hfacts.text hk
    · intro x hx
      have := hfirst x hx
      omega
  · rw [passOver_eq hx hb]
    refine (stepOver_yields h₀ hlt h₁).bind ?_
    rintro j ⟨hj, hle⟩
    refine (stepFrom_yields m ho h₁ (by omega) hle).bind ?_
    rintro c ⟨hmarked, hle, hpos, hfirst⟩
    refine .pure ⟨⟨rfl, rfl, rfl, rfl⟩, reached_head (by simp) hmarked hle (by omega) ?_,
      fun _ => by simp [Clause.places]⟩
    intro x hx
    have := hfirst x hx
    omega
  · next hname hother =>
    refine .pure ⟨⟨rfl, rfl, rfl, rfl⟩,
      ⟨Clause.placed_empty _ _, ⟨Int.le_refl start, Int.le_of_lt hlt⟩, fun _ => hm,
      .inr ⟨rfl, rfl, rfl⟩⟩, ?_⟩
    intro hk
    simp only [inHead, Bool.or_eq_true, beq_iff_eq] at hk
    rcases hk with hk | hk
    · exact absurd hk hname
    · exact absurd hk hother

/-- The guard of a clause whose head is known. -/
theorem guardPart_yields {m : Marker} {clause : Clause} {c : Cursor} (ho : 0 ≤ origin)
    (h₀ : 0 ≤ start) (hlt : start < stop) (h₁ : stop ≤ d.text.length) (hg : clause.HasNoGuard)
    (h : d.Reached start stop origin m clause c) :
    Yields (d.guardPart stop origin clause c) fun r =>
      r.1.HasNoRhs ∧ d.Reached start stop origin m r.1 r.2 ∧
        (clause.places ≠ [] ∨ m.kind = .guard → r.1.places ≠ []) := by
  have hbounds := h.bounds
  unfold guardPart
  split
  · next hk =>
    obtain ⟨hpos, hkind⟩ := hk
    have hfacts := (markerAt_yields (by omega) (by omega) ho h₁).of_eq (h.marked hpos)
    have hstop := hfacts.stop (.inr (.inl hkind))
    refine (stepFrom_yields c.marker ho h₁ (by omega) (by omega)).bind ?_
    rintro r ⟨hmarked, hle, hpos, hfirst⟩
    rw [hfacts.start]
    have hplaces := Clause.places_guard hg c.pos r.first
    have horder : InOrder (clause.places ++ [c.pos] ++ r.first.toList) start r.pos := by
      refine h.placed.inOrder.append_two ⟨hbounds.1, by omega⟩ ?_
      intro x hx
      have := hfirst x hx
      omega
    refine .pure ⟨hg.2.2,
      ⟨⟨?_, h.placed.afterName, h.placed.nameText, fun _ => rfl, h.placed.afterRhs⟩, ⟨?_, hle⟩,
      hmarked, .inl ?_⟩, fun _ => ?_⟩
    · rw [hplaces]
      exact horder
    · show start ≤ r.pos
      omega
    · rw [hplaces]
      exact h.head?_append _
    · rw [hplaces]
      simp
  · next hk =>
    refine .pure ⟨hg.2.2, h, ?_⟩
    rintro (hne | hguard) hempty
    · exact hne hempty
    · rcases h.first with hf | ⟨-, hp, hm⟩
      · rw [hempty] at hf
        cases hf
      · exact hk ⟨by omega, by rw [hm]; exact hguard⟩

/-- The right-hand side of a clause whose guard is known. -/
theorem rhsPart_placed {m : Marker} {clause : Clause} {c : Cursor} (ho : 0 ≤ origin)
    (h₀ : 0 ≤ start) (hlt : start < stop) (h₁ : stop ≤ d.text.length) (hn : clause.HasNoRhs)
    (h : d.Reached start stop origin m clause c) :
    (rhsPart stop clause c).Placed start stop ∧
      (clause.places ≠ [] ∨ m.kind = .rhs → (rhsPart stop clause c).places.head? = some start) := by
  have hbounds := h.bounds
  unfold rhsPart
  split
  · next hk =>
    obtain ⟨hpos, hkind⟩ := hk
    have hfacts := (markerAt_yields (by omega) (by omega) ho h₁).of_eq (h.marked hpos)
    have hstop := hfacts.stop (.inr (.inr hkind))
    rw [hfacts.start]
    have hplaces := Clause.places_rhs hn c.pos
      (if min c.marker.stop stop < stop then some (min c.marker.stop stop) else none)
    refine ⟨⟨?_, h.placed.afterName, h.placed.nameText, h.placed.afterGuard, fun _ => rfl⟩,
      fun _ => ?_⟩
    · rw [hplaces]
      refine h.placed.inOrder.append_two ⟨hbounds.1, hpos⟩ ?_
      intro x hx
      split at hx
      · cases hx
        omega
      · cases hx
    · rw [hplaces]
      exact h.head?_append _
  · next hk =>
    refine ⟨h.placed.mono hbounds.2, ?_⟩
    rcases h.first with hf | ⟨hempty, hp, hm⟩
    · exact fun _ => hf
    · rintro (hne | hrhs)
      · exact absurd hempty hne
      · exact absurd ⟨by omega, by rw [hm]; exact hrhs⟩ hk

/-- A stretch that starts with code can be taken apart. Its first part is its start, unless a
comment holds the start. -/
theorem clauseAt_yields {x : Char} (ho : 0 ≤ origin) (h₀ : 0 ≤ start) (hlt : start < stop)
    (h₁ : stop ≤ d.text.length) (hx : d.text.charAt? start = some x) (hb : isBlank x = false) :
    Yields (d.clauseAt start stop origin) fun c =>
      c.Placed start stop ∧
        (d.isBlankLine start = false → d.openComment? (min origin start) start = .ok none →
          c.places.head? = some start) := by
  unfold clauseAt
  obtain ⟨m, hm, hfacts⟩ := markerAt_yields (d := d) h₀ (by omega) ho h₁
  rw [hm]
  refine (headPart_yields ho h₀ hlt h₁ hm hx hb).bind ?_
  rintro ⟨head, c⟩ ⟨hg, hreached, hhead⟩
  refine (guardPart_yields ho h₀ hlt h₁ hg hreached).bind ?_
  rintro ⟨clause, c⟩ ⟨hn, hreached, hguard⟩
  obtain ⟨hplaced, hrhs⟩ := rhsPart_placed ho h₀ hlt h₁ hn hreached
  refine .pure ⟨hplaced, ?_⟩
  intro hblank hcomment
  apply hrhs
  have hempty : m.kind ≠ .empty := by
    intro hk
    rw [hfacts.empty, hblank] at hk
    cases hk
  have hcomm : m.kind ≠ .comment := fun hk => hfacts.comment hk hcomment
  cases hkind : m.kind with
  | empty => exact absurd hkind hempty
  | comment => exact absurd hkind hcomm
  | name => exact .inl (hguard (.inl (hhead (by rw [hkind]; rfl))))
  | other => exact .inl (hguard (.inl (hhead (by rw [hkind]; rfl))))
  | guard => exact .inl (hguard (.inr hkind))
  | rhs => exact .inr rfl

/-- What stands at a place outside a gap is a character, and no blank. -/
theorem exists_char_of_not_isGapAt {pos : Int} (h₀ : 0 ≤ pos) (h : d.isGapAt pos = .ok false) :
    ∃ x, d.text.charAt? pos = some x ∧ isBlank x = false := by
  unfold isGapAt at h
  obtain ⟨x, hread, h⟩ := bind_eq_ok.1 h
  obtain ⟨y, hy, hchar⟩ := read_yields h₀ (lt_length_of_read hread)
  cases hread.symm.trans hy
  refine ⟨x, (charAt?_eq h₀).trans hchar, ?_⟩
  cases hb : isBlank x with
  | false => rfl
  | true =>
    rw [hb] at h
    cases h

/-- A stretch that starts with code, and not with a blank, a newline or a marker, can be taken
apart. The parts that are there come in order, all of them inside the stretch; what follows a part,
and the text of a name, is never there without the part or the name; and the name, or the guard or
the right-hand side when there is no name, is the start of the stretch unless a comment starts there
or holds it. -/
theorem clauseAt_ordered (ho : 0 ≤ origin) (hle : origin ≤ start) (hlt : start < stop)
    (h₁ : stop ≤ d.text.length) (hcode : d.isGapAt start = .ok false) :
    ∃ c, d.clauseAt start stop origin = .ok c ∧
      c.places.Pairwise (· < ·) ∧ (∀ p ∈ c.places, start ≤ p ∧ p < stop) ∧
      (c.afterName.isSome → c.name.isSome) ∧ (c.nameText.isSome → c.name.isSome) ∧
      (c.afterGuard.isSome → c.guard.isSome) ∧ (c.afterRhs.isSome → c.rhs.isSome) ∧
      (d.openComment? origin start = .ok none → (c.name <|> c.guard <|> c.rhs) = some start) := by
  obtain ⟨x, hx, hb⟩ := exists_char_of_not_isGapAt (by omega) hcode
  obtain ⟨c, hc, hplaced, hfirst⟩ := clauseAt_yields ho (by omega) hlt h₁ hx hb
  refine ⟨c, hc, hplaced.inOrder.1, hplaced.inOrder.2, hplaced.afterName, ?_, hplaced.afterGuard,
    hplaced.afterRhs, ?_⟩
  · intro htext
    obtain ⟨s, hs⟩ := Option.isSome_iff_exists.mp htext
    exact (hplaced.nameText s hs).1
  · intro hcomment
    have hblank : d.isBlankLine start = false := by
      cases hline : d.isBlankLine start with
      | false => rfl
      | true => cases hcode.symm.trans (isGapAt_of_isBlankLine (by omega) (by omega) hline)
    rw [← hplaced.head?_places]
    exact hfirst hblank (by rwa [Int.min_eq_left hle])

/-- A marked line with a bracket before its guard, and one after its sign that is never closed. -/
def bracketedClause : Document := .new (Text.ofString "> (f x) z | a = (b\n> c") .bird 8

/-- Its parts, from the first bracket on: the marker is not among them. -/
theorem clauseAt_ordered_bracketedClause :
    bracketedClause.isGapAt 2 = .ok false ∧
      bracketedClause.clauseAt 2 22 0 =
        .ok ⟨some 2, none, some 8, some 10, some 12, some 14, some 16⟩ ∧
      ∃ c, bracketedClause.clauseAt 2 22 0 = .ok c ∧ c.places.Pairwise (· < ·) ∧
        (c.name <|> c.guard <|> c.rhs) = some 2 := by
  have hcode : bracketedClause.isGapAt 2 = .ok false := by decide +kernel
  obtain ⟨c, hc, hsorted, -, -, -, -, -, hfirst⟩ := clauseAt_ordered (Int.le_refl 0) (by decide)
    (show (2 : Int) < 22 by decide) (by decide +kernel) hcode
  exact ⟨hcode, by decide +kernel, c, hc, hsorted, hfirst (by decide +kernel)⟩

end Document

end LayoutRule

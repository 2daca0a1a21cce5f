import LayoutRule.Proofs.Layout.Proposals
import LayoutRule.Proofs.Parallel.Gaps

/-!
# Clauses of parallel documents

Counterparts hold the same marker, steps from symbol to symbol lead to counterparts, and so a clause
taken apart at counterparts has the same parts (`Parallel.Place.clauseAt`). What the rules propose
below the clause is then the same as well, place by place (`Parallel.lineProposals`).
-/

namespace LayoutRule

namespace Parallel

open Text Document

variable {s : Settings} {d e : Document} {C : Parallel s d e} {n : Nat} {x y a b l m o o' : Int}

/-! ## Markers -/

/-- The same marker at counterparts; the code after it may lie past the ends. -/
structure SameMarker (C : Parallel s d e) (p q : Marker) : Prop where
  /-- Markers of one kind. -/
  kind : q.kind = p.kind
  /-- They start at counterparts. -/
  start : C.Place p.start q.start
  /-- The code after them starts at counterparts. -/
  stop : C.Lands p.stop q.stop
  /-- They have one text. -/
  text : q.text = p.text

/-- The first of two places has the first of their counterparts as its counterpart. -/
theorem Place.min (h : C.Place a b) (hl : C.Place l m) : C.Place (min a l) (min b m) := by
  have hiff := h.le_iff hl
  rcases Int.lt_or_le l a with hgt | hle
  · rw [Int.min_eq_right (by omega), Int.min_eq_right (by omega)]
    exact hl
  · rw [Int.min_eq_left hle, Int.min_eq_left (by omega)]
    exact h

/-- A move that may lead past the ends leads to counterparts when it is cut at counterparts. -/
theorem Lands.min (h : C.Lands a b) (hl : C.Place l m) : C.Place (min a l) (min b m) := by
  rcases h with h | hbeyond
  · exact h.min hl
  · have hend := hl.le_end
    unfold Beyond at hbeyond
    rw [Int.min_eq_right (by omega), Int.min_eq_right (by omega)]
    exact hl

/-- Counterparts hold the same marker. -/
theorem Place.markerAt (h : C.Place a b) (ho : C.Place o o') (hl : C.Limit l m) :
    Both C.SameMarker (d.markerAt a o l) (e.markerAt b o' m) := by
  obtain ⟨h₀, h₁, h₀', h₁', -⟩ := h.bounds
  unfold Document.markerAt
  rw [h.isBlankLine, checkStart_of_mem h₀ h₁, checkStart_of_mem h₀' h₁']
  split
  · exact ⟨_, _, rfl, rfl, rfl, h, .inl h, rfl⟩
  refine ((ho.min h).openComment? h).bind fun i j hfound => ?_
  have hsome : j.isSome = i.isSome := by
    cases hfound <;> rfl
  rw [hsome]
  split
  · exact ⟨_, _, rfl, rfl, rfl, h, .inl h, rfl⟩
  simp only [ok_bind]
  rcases h.agree.markerStop? with ⟨hd, he⟩ | ⟨kind, stop, hle, hr, hd, he⟩
  · rw [hd, he]
    exact ⟨_, _, rfl, rfl, rfl, h, .inl h, rfl⟩
  · have hclamp := h.clamp_eq
    rw [hd, he]
    simp only
    refine ((h.reach hle hr).skipBlanks hl).bind fun i j hlands =>
      ⟨_, _, rfl, rfl, rfl, ?_, hlands, ?_⟩
    · rw [hclamp.1, hclamp.2]
      exact h
    · rw [h.agree.extract_eq hr]

/-! ## Steps -/

/-- Characters of the line are passed over alike. -/
theorem Place.passOver {a b : Int} {test : Char → Bool} (htest : test '\n' = false)
    (h : C.Place a b) (hl : C.Place l m) : C.Place (d.passOver test l a) (e.passOver test m b) := by
  have hiff := h.lt_iff hl
  rw [passOver.eq_def d, passOver.eq_def e]
  rcases Int.lt_or_le a l with hlt | hge
  · have hlen := hl.bounds
    obtain ⟨c, -, hget⟩ := read_yields (t := d.text) h.bounds.1 (by omega)
    have hc : d.text.charAt? a = some c := (charAt?_eq h.bounds.1).trans hget
    rw [if_pos hlt, if_pos (hiff.mpr hlt), hc, h.char.trans hc]
    simp only
    split
    · next hpass =>
        exact (h.succ hc fun hnl => absurd (hnl ▸ hpass) (by simp [htest])).passOver htest hl
    · exact h
  · rw [if_neg (by omega), if_neg (by omega)]
    exact h
termination_by (l - a).toNat

/-- A step that does not come to an end before the stretch does reaches the end of the stretch. -/
theorem stepOver_of_passes {pos stop bound : Int} (hlt : d.passOver isClosing stop pos < stop)
    (h₀ : 0 ≤ bound) (hstop : stop ≤ bound) (hlen : stop ≤ d.text.length)
    (h : Passes bound (d.expressionAfter (d.passOver isClosing stop pos) d.text.length)) :
    d.stepOver pos stop = .ok stop := by
  unfold stepOver nextSymbol
  simp only [if_pos hlt]
  rcases h with ⟨why, hw⟩ | ⟨k, hk, hbound⟩
  · rw [hw]
    rfl
  · obtain ⟨i, hi, h₁, h₂, -⟩ := skipBlanks_yields (d := d) (by omega : 0 ≤ k) hlen
    rw [hk, ok_bind, hi, ok_bind, show min i stop = stop by omega]
    rfl

/-- Steps lead to counterparts. -/
theorem Place.stepOver (h : C.Place a b) (hl : C.Place l m) :
    Both C.Place (d.stepOver a l) (e.stepOver b m) := by
  have hpass := h.passOver (by decide : isClosing '\n' = false) hl
  have hiff := hpass.lt_iff hl
  have hend := hl.le_end
  have hlen := hl.bounds
  rcases Int.lt_or_le (d.passOver isClosing l a) l with hlt | hge
  · rcases hpass.expressionAfter with ⟨i, j, hi, hj, hnear⟩ | ⟨hd, he⟩
    · have hskip : ∃ i' j', d.skipBlanks i l = .ok i' ∧ e.skipBlanks j m = .ok j' ∧
          C.Place (Min.min i' l) (Min.min j' m) := by
        have h₀ := hnear.nonneg
        rcases hnear with hplace | ⟨n, hline⟩
        · obtain ⟨i', j', hi', hj', hlands⟩ := hplace.skipBlanks (.inl hl)
          exact ⟨i', j', hi', hj', hlands.min hl⟩
        · rcases Int.lt_or_le l i with hpast | hbefore
          · have hpast' := (hl.lt_line_iff hline).mpr hpast
            obtain ⟨i', hi', h₁, h₂, -⟩ := skipBlanks_yields (d := d) h₀.1 hlen.2.1
            obtain ⟨j', hj', h₃, h₄, -⟩ := skipBlanks_yields (d := e) h₀.2 hlen.2.2.2.1
            refine ⟨i', j', hi', hj', ?_⟩
            rw [Int.min_eq_right (by omega), Int.min_eq_right (by omega)]
            exact hl
          · have hcode := hline.point_le_place hl hbefore
            obtain ⟨i', j', hi', hj', hlands⟩ := hline.point.skipBlanks (.inl hl)
            rw [← skipBlanks_lead hline.starts.1 hcode.1] at hi'
            rw [← skipBlanks_lead hline.starts.2 hcode.2] at hj'
            exact ⟨i', j', hi', hj', hlands.min hl⟩
      obtain ⟨i', j', hi', hj', hplace⟩ := hskip
      refine ⟨_, _, ?_, ?_, hplace⟩
      · unfold Document.stepOver nextSymbol
        simp only [if_pos hlt]
        rw [hi, ok_bind, hi', ok_bind]
        rfl
      · unfold Document.stepOver nextSymbol
        simp only [if_pos (hiff.mpr hlt)]
        rw [hj, ok_bind, hj', ok_bind]
        rfl
    · exact ⟨l, m, stepOver_of_passes hlt (by omega) hend.1 hlen.2.1 hd,
        stepOver_of_passes (hiff.mpr hlt) (by omega) hend.2 hlen.2.2.2.1 he, hl⟩
  · refine ⟨_, _, ?_, ?_, hpass.min hl⟩
    · unfold Document.stepOver nextSymbol
      simp only [if_neg (Int.not_lt.mpr hge)]
      rfl
    · unfold Document.stepOver nextSymbol
      simp only [if_neg (show ¬e.passOver isClosing m b < m by omega)]
      rfl

/-- Cursors at counterparts. -/
structure SameCursor (C : Parallel s d e) (p q : Cursor) : Prop where
  /-- They stand at counterparts. -/
  pos : C.Place p.pos q.pos
  /-- They saw the same marker. -/
  marker : C.SameMarker p.marker q.marker
  /-- The first symbols that were stepped over are counterparts. -/
  first : Option.Rel C.Place p.first q.first

/-- Steps over symbols of some kinds lead to the same place. -/
theorem SameCursor.stepWhile {p q : Cursor} (h : C.SameCursor p q) (ho : C.Place o o')
    (hl : C.Place l m) (test : LineKind → Bool) :
    Both C.SameCursor (d.stepWhile o l test p) (e.stepWhile o' m test q) := by
  have hiff := h.pos.lt_iff hl
  rw [stepWhile.eq_def d, stepWhile.eq_def e]
  rcases Int.lt_or_le p.pos l with hlt | hge
  · obtain ⟨r, r', hr, hr', hmarker⟩ := h.pos.markerAt ho (.inl hl)
    obtain ⟨i, j, hi, hj, hplace⟩ := h.pos.stepOver hl
    have hstep := lt_of_stepOver hlt hi
    have hfirst : Option.Rel C.Place (p.first <|> some p.pos) (q.first <|> some q.pos) := by
      have hf := h.first
      generalize p.first = x, q.first = y at hf
      cases hf with
      | none => exact .some h.pos
      | some hplace => exact .some hplace
    rw [if_pos hlt, if_pos (hiff.mpr hlt), hr, hr']
    simp only
    rw [hmarker.kind]
    split
    · split
      · next he =>
        rw [hi] at he
        cases he
      next i' hi' =>
      rw [hi] at hi'
      cases hi'
      split
      · next he =>
        rw [hj] at he
        cases he
      next j' hj' =>
      rw [hj] at hj'
      cases hj'
      exact SameCursor.stepWhile (p := ⟨i, r, p.first <|> some p.pos⟩)
        (q := ⟨j, r', q.first <|> some q.pos⟩) ⟨hplace, hmarker, hfirst⟩ ho hl test
    · exact ⟨_, _, rfl, rfl, h.pos, hmarker, h.first⟩
  · rw [if_neg (by omega), if_neg (by omega)]
    exact ⟨p, q, rfl, rfl, h⟩
termination_by (l - p.pos).toNat

/-! ## Clauses -/

/-- Clauses whose parts are related. -/
structure SameClause (R : Int → Int → Prop) (p q : Clause) : Prop where
  /-- The names. -/
  name : Option.Rel R p.name q.name
  /-- The texts of the names. -/
  nameText : q.nameText = p.nameText
  /-- What follows the names. -/
  afterName : Option.Rel R p.afterName q.afterName
  /-- The bars of the guards. -/
  guard : Option.Rel R p.guard q.guard
  /-- The conditions of the guards. -/
  afterGuard : Option.Rel R p.afterGuard q.afterGuard
  /-- The signs of the right-hand sides. -/
  rhs : Option.Rel R p.rhs q.rhs
  /-- What follows the signs. -/
  afterRhs : Option.Rel R p.afterRhs q.afterRhs

/-- The heads of clauses at counterparts have the same parts, and leave cursors at counterparts. -/
theorem Place.headPart (h : C.Place a b) (ho : C.Place o o') (hl : C.Place l m) {p q : Marker}
    (hm : C.SameMarker p q) :
    Both (fun r r' => SameClause C.Place r.1 r'.1 ∧ C.SameCursor r.2 r'.2) (d.headPart a l o p)
      (e.headPart b m o' q) := by
  unfold Document.headPart
  rw [hm.kind, hm.text]
  split
  · refine (SameCursor.stepWhile (p := ⟨_, p, none⟩) (q := ⟨_, q, none⟩)
      ⟨hm.stop.min hl, hm, .none⟩ ho hl _).bind ?_
    intro r r' hr
    exact ⟨_, _, rfl, rfl, ⟨.some hm.start, rfl, hr.first, .none, .none, .none, .none⟩, hr⟩
  · have hpass := h.passOver (by decide : isBlank '\n' = false) hl
    refine (hpass.stepOver hl).bind fun i j hplace => ?_
    refine (SameCursor.stepWhile (p := ⟨i, p, none⟩) (q := ⟨j, q, none⟩)
      ⟨hplace, hm, .none⟩ ho hl _).bind ?_
    intro r r' hr
    exact ⟨_, _, rfl, rfl, ⟨.some hpass, rfl, hr.first, .none, .none, .none, .none⟩, hr⟩
  · exact ⟨_, _, rfl, rfl, ⟨.none, rfl, .none, .none, .none, .none, .none⟩, h, hm, .none⟩

/-- From cursors at counterparts the same guard is found, and the cursors behind it are at
counterparts. -/
theorem SameCursor.guardPart {p q : Cursor} {c c' : Clause} (h : C.SameCursor p q)
    (hc : SameClause C.Place c c') (ho : C.Place o o') (hl : C.Place l m) :
    Both (fun r r' => SameClause C.Place r.1 r'.1 ∧ C.SameCursor r.2 r'.2) (d.guardPart l o c p)
      (e.guardPart m o' c' q) := by
  have hiff := h.pos.lt_iff hl
  unfold Document.guardPart
  rw [h.marker.kind]
  by_cases hguard : p.pos < l ∧ p.marker.kind = .guard
  · rw [if_pos hguard, if_pos ⟨hiff.mpr hguard.1, hguard.2⟩]
    refine (SameCursor.stepWhile (p := ⟨_, p.marker, none⟩) (q := ⟨_, q.marker, none⟩)
      ⟨h.marker.stop.min hl, h.marker, .none⟩ ho hl _).bind fun r r' hr => ?_
    exact ⟨_, _, rfl, rfl, { hc with guard := .some h.marker.start, afterGuard := hr.first }, hr⟩
  · rw [if_neg hguard, if_neg fun h => hguard ⟨hiff.mp h.1, h.2⟩]
    exact ⟨_, _, rfl, rfl, hc, h⟩

/-- From cursors at counterparts the same right-hand side is found. -/
theorem SameCursor.rhsPart {p q : Cursor} {c c' : Clause} (h : C.SameCursor p q)
    (hc : SameClause C.Place c c') (hl : C.Place l m) :
    SameClause C.Place (rhsPart l c p) (rhsPart m c' q) := by
  have hiff := h.pos.lt_iff hl
  have hstop := h.marker.stop.min hl
  have hstopIff := hstop.lt_iff hl
  unfold Document.rhsPart
  rw [h.marker.kind]
  by_cases hrhs : p.pos < l ∧ p.marker.kind = .rhs
  · have hrhs' : q.pos < m ∧ p.marker.kind = .rhs := ⟨hiff.mpr hrhs.1, hrhs.2⟩
    rw [if_pos hrhs, if_pos hrhs']
    refine { hc with rhs := .some h.marker.start, afterRhs := ?_ }
    rcases Int.lt_or_le (Min.min p.marker.stop l) l with hlt | hge
    · rw [if_pos hlt, if_pos (hstopIff.mpr hlt)]
      exact .some hstop
    · rw [if_neg (by omega), if_neg (by omega)]
      exact .none
  · rw [if_neg hrhs, if_neg fun h => hrhs ⟨hiff.mp h.1, h.2⟩]
    exact hc

/-- A clause at counterparts has the same parts. -/
theorem Place.clauseAt (h : C.Place a b) (hl : C.Place l m) (ho : C.Place o o') :
    Both (SameClause C.Place) (d.clauseAt a l o) (e.clauseAt b m o') := by
  unfold Document.clauseAt
  refine (h.markerAt ho (.inl hl)).bind fun p q hm => ?_
  refine (h.headPart ho hl hm).bind fun ⟨c, p⟩ ⟨c', q⟩ ⟨hc, hp⟩ => ?_
  refine (hp.guardPart hc ho hl).bind fun ⟨c, p⟩ ⟨c', q⟩ ⟨hc, hp⟩ => ?_
  exact ⟨_, _, rfl, rfl, hp.rhsPart hc hl⟩

/-- A relation between parts that may be missing can be exchanged for another one that holds of the
parts that are there. -/
theorem rel_of_mem {R S : Int → Int → Prop} {p q : Option Int} (h : Option.Rel R p q)
    (hS : ∀ a ∈ p, ∀ b, R a b → S a b) : Option.Rel S p q := by
  cases h with
  | none => exact .none
  | some hr => exact .some (hS _ rfl _ hr)

/-- What is known of the places of the parts is known of the parts. -/
theorem SameClause.mono {R S : Int → Int → Prop} {c c' : Clause} (h : SameClause R c c')
    (hS : ∀ a ∈ c.places, ∀ b, R a b → S a b) : SameClause S c c' where
  name := rel_of_mem h.name fun a ha => hS a (by simp [Clause.places, Option.mem_def.mp ha])
  nameText := h.nameText
  afterName := rel_of_mem h.afterName fun a ha =>
    hS a (by simp [Clause.places, Option.mem_def.mp ha])
  guard := rel_of_mem h.guard fun a ha => hS a (by simp [Clause.places, Option.mem_def.mp ha])
  afterGuard := rel_of_mem h.afterGuard fun a ha =>
    hS a (by simp [Clause.places, Option.mem_def.mp ha])
  rhs := rel_of_mem h.rhs fun a ha => hS a (by simp [Clause.places, Option.mem_def.mp ha])
  afterRhs := rel_of_mem h.afterRhs fun a ha => hS a (by simp [Clause.places, Option.mem_def.mp ha])

/-! ## Proposals -/

/-- Counterparts on a line that was not moved. -/
def Fixed (C : Parallel s d e) (a b : Int) : Prop := C.Place a b ∧ d.text.lineStart a < C.free

/-- Proposals that name related places. -/
inductive SameProposal (R : Int → Int → Prop) : Proposal → Proposal → Prop where
  | under {p q : Option Int} (h : Option.Rel R p q) (insert : Option String) :
      SameProposal R (.under p insert) (.under q insert)
  | step {p q : Option Int} (h : Option.Rel R p q) :
      SameProposal R (.beyond p none) (.beyond q none)
  | small {p q : Option Int} (h : Option.Rel R p q) :
      SameProposal R (.beyond p (some smallOffset)) (.beyond q (some smallOffset))

/-- Proposals that are made under a condition correspond when the proposals do. -/
theorem when_same {R : Int → Int → Prop} {ps qs : List Proposal}
    (h : List.Forall₂ (SameProposal R) ps qs) (condition : Bool) :
    List.Forall₂ (SameProposal R) (Clause.when condition ps) (Clause.when condition qs) := by
  cases condition with
  | true => exact h
  | false => exact .nil

section Single

variable {R : Int → Int → Prop} {p q : Option Int} (h : Option.Rel R p q)

include h

/-- Proposals to go under corresponding parts correspond, whatever text they put in. -/
theorem under_same (insert : Option String) :
    List.Forall₂ (SameProposal R) [.under p insert] [.under q insert] :=
  .cons (.under h insert) .nil

/-- Proposals to go one step beyond corresponding parts correspond. -/
theorem step_same : List.Forall₂ (SameProposal R) [Clause.step p] [Clause.step q] :=
  .cons (.step h) .nil

/-- Proposals to go a small step beyond corresponding parts correspond. -/
theorem small_same : List.Forall₂ (SameProposal R) [Clause.small p] [Clause.small q] :=
  .cons (.small h) .nil

end Single

/-- Corresponding parts are both there or both missing. -/
theorem rel_isSome {R : Int → Int → Prop} {p q : Option Int} (h : Option.Rel R p q) :
    q.isSome = p.isSome := by
  cases h <;> rfl

namespace SameClause

variable {R : Int → Int → Prop} {c c' : Clause} {last : Bool} {first : String} {shape : Shape}

/-- Corresponding clauses propose the same for a line with a `where`. -/
theorem whereLine (h : SameClause R c c') :
    List.Forall₂ (SameProposal R) (c.whereLine shape) (c'.whereLine shape) := by
  cases shape with
  | nameGuardRhsAfter | nameGuardRhs | nameGuard => exact under_same h.guard none
  | nameRhsAfter | nameRhs | nameAfter | name => exact step_same h.name
  | nameGuardAfter | guardRhsAfter | guardRhs | guardAfter | guard => exact step_same h.guard
  | rhsAfter | rhs => exact step_same h.rhs
  | nothing => exact .nil

/-- Corresponding clauses propose the same for any other line of code. -/
theorem otherLine (h : SameClause R c c') :
    List.Forall₂ (SameProposal R) (c.otherLine last shape) (c'.otherLine last shape) := by
  cases shape with
  | nameGuardRhsAfter | nameRhsAfter | guardRhsAfter | rhsAfter => exact under_same h.afterRhs none
  | nameGuardRhs | guardRhs =>
    cases last with
    | true => exact step_same h.guard
    | false => exact small_same h.rhs
  | nameGuardAfter | guardAfter => exact under_same h.afterGuard none
  | nameGuard | guard => exact small_same h.guard
  | nameRhs | rhs => exact small_same h.rhs
  | nameAfter => exact under_same h.afterName none
  | name => exact step_same h.name
  | nothing => exact .nil

/-- Corresponding clauses propose the same for a line that starts with a name. -/
theorem nameLine (h : SameClause R c c') :
    List.Forall₂ (SameProposal R) (c.nameLine last first shape) (c'.nameLine last first shape) := by
  have hname := under_same h.name none
  have hdiffers : (c'.nameText != some first) = (c.nameText != some first) := by rw [h.nameText]
  unfold Clause.nameLine
  rw [hdiffers]
  cases shape with
  | nameGuardRhsAfter | nameRhsAfter =>
    exact List.rel_append hname (when_same (under_same h.afterRhs none) _)
  | nameGuardRhs => exact List.rel_append hname (when_same (step_same h.guard) _)
  | nameGuardAfter => exact List.rel_append hname (when_same (under_same h.afterGuard none) _)
  | nameGuard => exact List.rel_append hname (when_same (small_same h.guard) _)
  | nameRhs => exact List.rel_append hname (when_same (step_same h.name) _)
  | nameAfter => exact List.rel_append hname (when_same (under_same h.afterName none) _)
  | name => exact hname
  | guardRhsAfter | rhsAfter => exact when_same (under_same h.afterRhs none) _
  | guardRhs => exact when_same (step_same h.guard) _
  | guardAfter => exact when_same (under_same h.afterGuard none) _
  | guard => exact when_same (small_same h.guard) _
  | rhs => exact when_same (small_same h.rhs) _
  | nothing => exact .nil

/-- Corresponding clauses propose the same for an empty line. Where the rules look at the guard and
at the sign of the right-hand side, both documents have to read alike there. -/
theorem emptyLine (h : SameClause R c c')
    (hguard : Clause.consultsGuard shape = true →
      e.text.isOpenGuard (c'.guard.getD 0) = d.text.isOpenGuard (c.guard.getD 0))
    (hsign : e.text.charAt? (c'.rhs.getD (-1)) = d.text.charAt? (c.rhs.getD (-1))) :
    List.Forall₂ (SameProposal R) (c.emptyLine d last shape) (c'.emptyLine e last shape) := by
  have hname := under_same h.name none
  have hagain : ∀ insert, List.Forall₂ (SameProposal R) [Clause.under c.name, .under c.name insert]
      [Clause.under c'.name, .under c'.name insert] :=
        fun insert => .cons (.under h.name none) (under_same h.name insert)
  have hbar : Clause.consultsGuard shape = true → List.Forall₂ (SameProposal R)
      (Clause.when (d.text.isOpenGuard (c.guard.getD 0)) [.under c.guard (some "| ")])
      (Clause.when (e.text.isOpenGuard (c'.guard.getD 0)) [.under c'.guard (some "| ")]) := by
    intro hconsults
    rw [hguard hconsults]
    exact when_same (under_same h.guard _) _
  unfold Clause.emptyLine
  simp only [h.nameText, hsign, rel_isSome h.afterName]
  cases shape with
  | nameGuardRhsAfter =>
    exact List.rel_append (List.rel_append (hagain _) (hbar rfl)) (under_same h.afterRhs none)
  | nameGuardRhs =>
    exact List.rel_append (List.rel_append (hagain _) (hbar rfl)) (when_same (step_same h.guard) _)
  | nameGuardAfter =>
    exact List.rel_append (.cons (.under h.name none) (under_same h.afterGuard none))
      (when_same (step_same h.name) _)
  | nameGuard =>
    exact List.rel_append (.cons (.under h.name none) (under_same h.guard none))
      (when_same (small_same h.guard) _)
  | nameRhsAfter =>
    exact List.rel_append (List.rel_append hname (when_same (under_same h.name _) _))
      (under_same h.afterRhs none)
  | nameRhs => exact List.rel_append (hagain _) (when_same (step_same h.name) _)
  | nameAfter | name => exact .cons (.under h.name none) (step_same h.name)
  | guardRhsAfter => exact List.rel_append (hbar rfl) (under_same h.afterRhs none)
  | guardRhs => exact List.rel_append (hbar rfl) (when_same (step_same h.guard) _)
  | guardAfter => exact List.rel_append (hbar rfl) (under_same h.afterGuard none)
  | guard => exact List.rel_append (hbar rfl) (when_same (small_same h.guard) _)
  | rhsAfter => exact under_same h.afterRhs none
  | rhs => exact when_same (small_same h.rhs) _
  | nothing => exact .nil

/-- Corresponding parts are both visible or both hidden when the boundaries lie alike. -/
theorem sees {boundary boundary' : Int} {p q : Option Int} (h : Option.Rel R p q)
    (hlt : ∀ a b, R a b → (b < boundary' ↔ a < boundary)) :
    Clause.sees boundary' q = Clause.sees boundary p := by
  cases h with
  | none => rfl
  | some hr => exact decide_eq_decide.mpr (hlt _ _ hr)

/-- Corresponding clauses propose the same for a line that starts with a guard. -/
theorem guardLine {boundary boundary' : Int} (h : SameClause R c c')
    (hlt : ∀ a b, R a b → (b < boundary' ↔ a < boundary))
    (hguard : c.guard.isSome →
      e.text.isOpenGuard (c'.guard.getD 0) = d.text.isOpenGuard (c.guard.getD 0)) :
    List.Forall₂ (SameProposal R) (c.guardLine d boundary) (c'.guardLine e boundary') := by
  have hopen : (Clause.sees boundary' c'.guard && e.text.isOpenGuard (c'.guard.getD 0)) =
      (Clause.sees boundary c.guard && d.text.isOpenGuard (c.guard.getD 0)) := by
    rw [sees h.guard hlt]
    cases hsees : Clause.sees boundary c.guard with
    | false => rfl
    | true => rw [hguard (Clause.isSome_of_sees hsees)]
  unfold Clause.guardLine
  rw [hopen, rel_isSome h.rhs, rel_isSome h.name]
  obtain ⟨hname, -, -, hguardPart, -, hrhs, -⟩ := h
  split
  · exact .cons (.under hguardPart _) .nil
  · split
    · exact .cons (.under hrhs _) .nil
    · exact when_same (.cons (.step hname) .nil) _

/-- Corresponding clauses propose the same for a line that starts with the sign of a right-hand
side. -/
theorem rhsLine {boundary boundary' : Int} (h : SameClause R c c')
    (hlt : ∀ a b, R a b → (b < boundary' ↔ a < boundary)) :
    List.Forall₂ (SameProposal R) (c.rhsLine boundary) (c'.rhsLine boundary') := by
  unfold Clause.rhsLine
  rw [sees h.rhs hlt, sees h.guard hlt, rel_isSome h.name]
  split
  · exact .cons (.under h.rhs _) .nil
  · split
    · exact .cons (.step h.guard) .nil
    · exact when_same (.cons (.step h.name) .nil) _

/-- Below corresponding declarations the same is proposed, and otherwise both are no
declarations. -/
theorem declarationLine? (h : SameClause R c c') (kind : LineKind) :
    Option.Rel (List.Forall₂ (SameProposal R)) (c.declarationLine? kind)
      (c'.declarationLine? kind) := by
  unfold Clause.declarationLine?
  rw [h.nameText, rel_isSome h.rhs]
  split
  · exact .none
  · split
    · split
      · exact .some (.cons (.step h.name) .nil)
      · split
        · refine .some (.cons (.under h.name _) (.cons ?_ .nil))
          split
          · exact .under h.rhs _
          · exact .step h.name
        · exact .some (.cons (.under h.name _) .nil)
    · exact .none

/-- The same parts of corresponding clauses are visible. -/
theorem visibleBits {boundary boundary' : Int} (h : SameClause R c c')
    (hlt : ∀ a b, R a b → (b < boundary' ↔ a < boundary)) :
    c'.visibleBits boundary' = c.visibleBits boundary := by
  unfold Clause.visibleBits
  simp only [Clause.visibleBit_eq, sees h.afterName hlt, sees h.guard hlt, sees h.afterGuard hlt,
    sees h.rhs hlt, sees h.afterRhs hlt, rel_isSome h.name]

/-- The guards of corresponding clauses are both open or both complete. -/
theorem isOpenGuard (h : SameClause C.Place c c') (hg : c.guard.isSome) :
    e.text.isOpenGuard (c'.guard.getD 0) = d.text.isOpenGuard (c.guard.getD 0) := by
  have hguard := h.guard
  generalize c.guard = p, c'.guard = q at hguard hg
  cases hguard with
  | none => cases hg
  | some hplace => exact hplace.agree.isOpenGuard.symm

/-- The right-hand sides of corresponding clauses start with the same character. -/
theorem sign (h : SameClause C.Place c c') :
    e.text.charAt? (c'.rhs.getD (-1)) = d.text.charAt? (c.rhs.getD (-1)) := by
  have hrhs := h.rhs
  generalize c.rhs = p, c'.rhs = q at hrhs
  cases hrhs with
  | none => rfl
  | some hplace => exact hplace.char

/-- The place of a guard passes its check in both documents. -/
theorem checkGuard (h : SameClause C.Place c c') (looked : Bool) :
    d.checkGuard c looked = .ok () ∧ e.checkGuard c' looked = .ok () := by
  have hguard := h.guard
  unfold Document.checkGuard
  generalize c.guard = p, c'.guard = q at hguard
  cases looked with
  | false => exact ⟨rfl, rfl⟩
  | true =>
    cases hguard with
    | none => exact ⟨checkStart_of_mem (Int.le_refl 0) d.text.length_nonneg,
        checkStart_of_mem (Int.le_refl 0) e.text.length_nonneg⟩
    | some hplace =>
      obtain ⟨h₀, h₁, h₀', h₁', -⟩ := hplace.bounds
      exact ⟨checkStart_of_mem h₀ h₁, checkStart_of_mem h₀' h₁'⟩

/-- Below the same clause the rules propose the same. -/
theorem lineProposals {boundary boundary' : Int} (h : SameClause R c c')
    (hR : ∀ a b, R a b → C.Place a b) (kind : LineKind) (first : String)
    (hb : C.Place boundary boundary') (hl : C.Place l m)
    (hshape : Shape.ofBits? (c.visibleBits boundary) = some shape) (hne : shape ≠ .nothing) :
    Both (List.Forall₂ (SameProposal R)) (d.lineProposals kind first c boundary l)
      (e.lineProposals kind first c' boundary' m) := by
  have hplaces : SameClause C.Place c c' := h.mono fun a _ b hab => hR a b hab
  have hlt : ∀ a b, R a b → (b < boundary' ↔ a < boundary) := fun a b hab => (hR a b hab).lt_iff hb
  have hlast : decide (m ≤ boundary') = decide (l ≤ boundary) := decide_eq_decide.mpr (hl.le_iff hb)
  have hhas := (Clause.has_and_shows hshape).1
  unfold Document.lineProposals
  rw [h.visibleBits hlt, hshape, hlast, (hplaces.checkGuard _).1, (hplaces.checkGuard _).2,
    rel_isSome h.name]
  split
  · exact ⟨_, _, rfl, rfl, when_same (.cons (.under h.name _) .nil) _⟩
  split
  · exact ⟨_, _, rfl, rfl, h.guardLine hlt hplaces.isOpenGuard⟩
  split
  · exact ⟨_, _, rfl, rfl, h.rhsLine hlt⟩
  have hdeclared := h.declarationLine? kind.shaped
  generalize c.declarationLine? kind.shaped = x, c'.declarationLine? kind.shaped = y at hdeclared
  cases hdeclared with
  | some hps => exact ⟨_, _, rfl, rfl, hps⟩
  | none =>
    have hrules : List.Forall₂ (SameProposal R)
        (c.shapedLine d kind.shaped (decide (l ≤ boundary)) first shape)
        (c'.shapedLine e kind.shaped (decide (l ≤ boundary)) first shape) := by
      unfold Clause.shapedLine
      split
      · exact h.emptyLine (fun hg => hplaces.isOpenGuard (hhas.guard hg)) hplaces.sign
      · split
        · exact h.whereLine
        · exact h.nameLine
      · exact h.otherLine
    simp only
    rw [(hplaces.checkGuard _).1, (hplaces.checkGuard _).2]
    exact ⟨_, _, rfl, rfl, hrules⟩

end SameClause

end Parallel

end LayoutRule

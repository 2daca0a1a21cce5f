import LayoutRule.Proofs.Layout.Proposals

/-!
# Hidden parts of a clause

A part of a clause is hidden when the next line of the contour starts at or before it.
`Clause.shown` takes the hidden parts out of a clause. The rules of a line go by what is left:
`lineProposals_shown` says that they propose the same below a clause and below what is shown of it,
even in another document, as long as the two documents read alike at the parts that are shown. Two
kinds of rules look further. A line that starts with a guard asks whether the clause has a
right-hand side at all, and so does a line below a `data` declaration; both are left out here.

The order of the parts matters in one place. Below a name with a visible right-hand side the rules
ask whether anything follows the name, without asking whether that is visible; it stands before the
right-hand side, so it is.
-/

namespace LayoutRule

namespace Clause

variable {d e : Document} {c : Clause} {boundary : Int} {shape : Shape}

/-- A part, if it can be seen. -/
def seen (boundary : Int) (place : Option Int) : Option Int :=
  if sees boundary place then place else none

/-- The clause without its hidden parts; the name is never hidden. -/
def shown (c : Clause) (boundary : Int) : Clause where
  name := c.name
  nameText := c.nameText
  afterName := seen boundary c.afterName
  guard := seen boundary c.guard
  afterGuard := seen boundary c.afterGuard
  rhs := seen boundary c.rhs
  afterRhs := seen boundary c.afterRhs

/-- Two documents read alike at a clause: its guard can be looked at in both with the same answer,
and the sign of its right-hand side starts with the same character. -/
structure ReadsAlike (c : Clause) (d e : Document) : Prop where
  guard : ∀ g ∈ c.guard, d.text.readGuard g = e.text.readGuard g
  sign : ∀ r ∈ c.rhs, d.text.charAt? r = e.text.charAt? r

/-- A document reads like itself at every part of a clause. -/
theorem ReadsAlike.refl (c : Clause) (d : Document) : c.ReadsAlike d d :=
  ⟨fun _ _ => rfl, fun _ _ => rfl⟩

/-! ## What is left -/

/-- Hiding a part that cannot be seen does not change whether it is seen. -/
theorem sees_seen (boundary : Int) (place : Option Int) :
    sees boundary (seen boundary place) = sees boundary place := by
  unfold seen
  split
  · rfl
  · next h => exact (Bool.eq_false_iff.mpr h).symm

/-- The bits of a clause are those of what is shown of it. -/
theorem visibleBits_shown (c : Clause) (boundary : Int) :
    (c.shown boundary).visibleBits boundary = c.visibleBits boundary := by
  have hbit : ∀ place, visibleBit boundary place = visibleBit boundary (seen boundary place) := by
    intro place
    rw [visibleBit_eq, visibleBit_eq, sees_seen]
  unfold visibleBits
  rw [hbit c.afterName, hbit c.guard, hbit c.afterGuard, hbit c.rhs, hbit c.afterRhs]
  rfl

/-- A part that can be seen is not hidden. -/
theorem seen_eq_of_sees {place : Option Int} (h : sees boundary place = true) :
    seen boundary place = place := by
  simp [seen, h]

/-- A part that is left is the part of the clause. -/
theorem seen_eq_of_isSome {place : Option Int} (h : (seen boundary place).isSome) :
    seen boundary place = place := by
  rw [seen] at h
  split at h
  · next hs => exact seen_eq_of_sees hs
  · cases h

/-- What follows the name is visible together with the right-hand side. -/
theorem seen_afterName (hc : c.places.Pairwise (· < ·)) (hrhs : (seen boundary c.rhs).isSome) :
    seen boundary c.afterName = c.afterName := by
  cases ha : c.afterName with
  | none => rfl
  | some a =>
    obtain ⟨r, hr⟩ := Option.isSome_iff_exists.mp hrhs
    obtain ⟨hsees, hr⟩ : sees boundary c.rhs = true ∧ c.rhs = some r := by
      rw [seen] at hr
      split at hr
      · next hs => exact ⟨hs, hr⟩
      · cases hr
    have hlt : a < r := by
      simp only [places, List.pairwise_append] at hc
      exact hc.1.2.2 a (by simp [ha]) r (by simp [hr])
    refine seen_eq_of_sees ?_
    simp only [hr, sees, decide_eq_true_eq] at hsees ⊢
    omega

/-- Every part of the shape of a clause is shown. -/
theorem has_shown (h : Shape.ofBits? (c.visibleBits boundary) = some shape) :
    (c.shown boundary).Has shape := by
  rw [← visibleBits_shown] at h
  exact (has_and_shows h).1

/-! ## Rules that go by what is left -/

/-- The shown parts of a shape are those of the clause. -/
theorem shown_eq_of_isSome (c : Clause) (boundary : Int) :
    ((c.shown boundary).afterName.isSome → (c.shown boundary).afterName = c.afterName) ∧
    ((c.shown boundary).guard.isSome → (c.shown boundary).guard = c.guard) ∧
    ((c.shown boundary).afterGuard.isSome → (c.shown boundary).afterGuard = c.afterGuard) ∧
    ((c.shown boundary).rhs.isSome → (c.shown boundary).rhs = c.rhs) ∧
    ((c.shown boundary).afterRhs.isSome → (c.shown boundary).afterRhs = c.afterRhs) :=
  ⟨seen_eq_of_isSome, seen_eq_of_isSome, seen_eq_of_isSome, seen_eq_of_isSome, seen_eq_of_isSome⟩

/-- A line with a `where` is given the same proposals when the hidden parts are taken out. -/
theorem whereLine_shown (h : Shape.ofBits? (c.visibleBits boundary) = some shape) :
    (c.shown boundary).whereLine shape = c.whereLine shape := by
  have hparts := c.shown_eq_of_isSome boundary
  have hname : (c.shown boundary).name = c.name := rfl
  have hhas := has_shown h
  cases shape <;> grind [whereLine, Has]

/-- A line that starts with a name is given the same proposals when the hidden parts are taken
out. -/
theorem nameLine_shown (h : Shape.ofBits? (c.visibleBits boundary) = some shape) (last : Bool)
    (first : String) :
    (c.shown boundary).nameLine last first shape = c.nameLine last first shape := by
  have hparts := c.shown_eq_of_isSome boundary
  have hname : (c.shown boundary).name = c.name := rfl
  have htext : (c.shown boundary).nameText = c.nameText := rfl
  have hhas := has_shown h
  unfold nameLine
  rw [htext]
  generalize (c.nameText != some first) = differs
  cases shape <;> grind [Has]

/-- Any other line of code is given the same proposals when the hidden parts are taken out. -/
theorem otherLine_shown (h : Shape.ofBits? (c.visibleBits boundary) = some shape) (last : Bool) :
    (c.shown boundary).otherLine last shape = c.otherLine last shape := by
  have hparts := c.shown_eq_of_isSome boundary
  have hname : (c.shown boundary).name = c.name := rfl
  have hhas := has_shown h
  cases shape <;> grind [otherLine, Has]

/-- For an empty line the rules look at the guard and at the sign, both only where the shape has
them. -/
theorem emptyLine_shown (hc : c.places.Pairwise (· < ·))
    (h : Shape.ofBits? (c.visibleBits boundary) = some shape)
    (hsign : ∀ r ∈ (c.shown boundary).rhs, d.text.charAt? r = e.text.charAt? r)
    (hguard : consultsGuard shape = true →
      ∀ g ∈ (c.shown boundary).guard, d.text.isOpenGuard g = e.text.isOpenGuard g)
    (last : Bool) : (c.shown boundary).emptyLine e last shape = c.emptyLine d last shape := by
  have hparts := c.shown_eq_of_isSome boundary
  have hafter : (c.shown boundary).rhs.isSome → (c.shown boundary).afterName = c.afterName :=
    seen_afterName hc
  have hname : (c.shown boundary).name = c.name := rfl
  have htext : (c.shown boundary).nameText = c.nameText := rfl
  have hopen : consultsGuard shape = true → (c.shown boundary).guard.isSome →
      e.text.isOpenGuard ((c.shown boundary).guard.getD 0) =
        d.text.isOpenGuard (c.guard.getD 0) := by
    intro hconsults hsome
    obtain ⟨g, hg⟩ := Option.isSome_iff_exists.mp hsome
    rw [← hparts.2.1 hsome, hg]
    exact (hguard hconsults g hg).symm
  have hchar : (c.shown boundary).rhs.isSome →
      e.text.charAt? ((c.shown boundary).rhs.getD (-1)) = d.text.charAt? (c.rhs.getD (-1)) := by
    intro hsome
    obtain ⟨r, hr⟩ := Option.isSome_iff_exists.mp hsome
    rw [← hparts.2.2.2.1 hsome, hr]
    exact (hsign r hr).symm
  have hhas := has_shown h
  clear hguard hsign hc h
  cases shape <;> simp only [Has] at hhas <;> simp_all [emptyLine, consultsGuard]

/-- A line that starts with the sign of a right-hand side is given the same proposals when the
hidden parts are taken out. It asks for the visible parts only. -/
theorem rhsLine_shown (c : Clause) (boundary : Int) :
    (c.shown boundary).rhsLine boundary = c.rhsLine boundary := by
  have hrhs : sees boundary (c.shown boundary).rhs = sees boundary c.rhs := sees_seen boundary c.rhs
  have hguard : sees boundary (c.shown boundary).guard = sees boundary c.guard :=
    sees_seen boundary c.guard
  unfold rhsLine
  rw [hrhs, hguard]
  split
  · next h => exact congrArg (fun p => [under p]) (seen_eq_of_sees h)
  · split
    · next h => exact congrArg (fun p => [step p]) (seen_eq_of_sees h)
    · rfl

/-- Below a declaration the rules go by the name alone, except after `data`. -/
theorem declarationLine?_shown (hdata : c.nameText ≠ some "data") (kind : LineKind) :
    (c.shown boundary).declarationLine? kind = c.declarationLine? kind := by
  have hname : (c.shown boundary).name = c.name := rfl
  have htext : (c.shown boundary).nameText = c.nameText := rfl
  unfold declarationLine?
  rw [htext, hname]
  cases h : c.nameText with
  | none => rfl
  | some word =>
    have hword : word ≠ "data" := fun heq => hdata (heq ▸ h)
    simp [hword]

/-- Every line that goes by the shape of the clause is given the same proposals below what is shown
of the clause, in a document that reads alike at the sign of the right-hand side and, where that is
asked for, at the guard. -/
theorem shapedLine_shown (hc : c.places.Pairwise (· < ·))
    (h : Shape.ofBits? (c.visibleBits boundary) = some shape)
    (hsign : ∀ r ∈ (c.shown boundary).rhs, d.text.charAt? r = e.text.charAt? r) {kind : LineKind}
    (hguard : (kind == .empty && consultsGuard shape) = true →
      ∀ g ∈ (c.shown boundary).guard, d.text.isOpenGuard g = e.text.isOpenGuard g)
    (last : Bool) (first : String) :
    (c.shown boundary).shapedLine e kind last first shape =
      c.shapedLine d kind last first shape := by
  unfold shapedLine
  split
  · exact emptyLine_shown hc h hsign hguard last
  · split
    · exact whereLine_shown h
    · exact nameLine_shown h last first
  · exact otherLine_shown h last

/-! ## Places that are named -/

/-- The place that a proposal names is that of one of the parts. -/
theorem GoesBy.mem_places {p : Proposal} {i : Int} (h : c.GoesBy boundary p)
    (hi : p.place = some i) : i ∈ c.places := by
  unfold GoesBy at h
  rw [hi] at h
  simp only [places, List.mem_append, Option.mem_toList]
  rcases h with h | h | h | h | ⟨h | h, -⟩ <;> simp [← h]

end Clause

namespace Document

variable {d e : Document} {c c' : Clause} {kind : LineKind} {first : String} {boundary stop : Int}

/-! ## Hidden parts do not matter -/

/-- Two texts where a guard reads alike fail alike on its place, and agree about the guard when they
do not. -/
theorem checkStart_of_readGuard {t u : Text} {g : Int} (h : t.readGuard g = u.readGuard g) :
    t.checkStart g = u.checkStart g ∧
    (t.checkStart g = .ok () → t.isOpenGuard g = u.isOpenGuard g) := by
  unfold Text.readGuard at h
  cases ht : t.checkStart g with
  | error f =>
    cases hu : u.checkStart g with
    | error f' => rw [ht, hu] at h; cases h; exact ⟨rfl, fun hok => by cases hok⟩
    | ok _ => rw [ht, hu] at h; cases h
  | ok _ =>
    cases hu : u.checkStart g with
    | error f' => rw [ht, hu] at h; cases h
    | ok _ => rw [ht, hu] at h; exact ⟨rfl, fun _ => Except.ok.inj h⟩

/-- A rule by shape finds the same below a clause and below what is shown of it. -/
theorem checkedLine_shown {shape : Shape} (hc : c.places.Pairwise (· < ·))
    (h : Shape.ofBits? (c.visibleBits boundary) = some shape)
    (hd : (c.shown boundary).ReadsAlike d e) (last : Bool) :
    (do e.checkGuard (c.shown boundary) (kind == .empty && Clause.consultsGuard shape)
        return (c.shown boundary).shapedLine e kind last first shape :
          Except Fault (List Proposal)) =
      do d.checkGuard c (kind == .empty && Clause.consultsGuard shape)
         return c.shapedLine d kind last first shape := by
  have hline := @Clause.shapedLine_shown d e c boundary shape hc h hd.sign kind
  cases hlook : kind == .empty && Clause.consultsGuard shape with
  | false =>
    refine congrArg Except.ok (hline ?_ last first)
    intro hlook'
    rw [hlook] at hlook'
    cases hlook'
  | true =>
    have hsome : (c.shown boundary).guard.isSome :=
      (Clause.has_shown h).guard (Bool.and_eq_true_iff.mp hlook).2
    have hsame : (c.shown boundary).guard = c.guard := Clause.seen_eq_of_isSome hsome
    obtain ⟨g, hg⟩ := Option.isSome_iff_exists.mp hsome
    obtain ⟨hstart, hopen⟩ := checkStart_of_readGuard (hd.guard g hg)
    simp only [checkGuard, ↓reduceIte, ← hsame, hg, Option.getD_some, ← hstart]
    cases hg' : d.text.checkStart g with
    | error f => rfl
    | ok _ =>
      refine congrArg Except.ok (hline ?_ last first)
      intro _ g' hg''
      rw [hg] at hg''
      cases hg''
      exact hopen hg'

/-- The rules propose the same below a clause and below what is shown of it, in every document that
reads alike there. -/
theorem lineProposals_shown (hkind : kind ≠ .guard) (hdata : c.nameText ≠ some "data")
    (hc : c.places.Pairwise (· < ·)) (hd : (c.shown boundary).ReadsAlike d e) :
    e.lineProposals kind first (c.shown boundary) boundary stop =
      d.lineProposals kind first c boundary stop := by
  unfold lineProposals
  rw [Clause.declarationLine?_shown hdata, Clause.visibleBits_shown, Clause.rhsLine_shown]
  simp only [if_neg hkind]
  split
  · rfl
  split
  · rfl
  split
  · rfl
  split
  · rfl
  · rfl
  · next h => exact checkedLine_shown hc h hd _

/-- The rules fail in two ways: the bits have no shape, or the guard, which is there, cannot be
looked at. -/
theorem lineProposals_error {f : Fault}
    (h : d.lineProposals kind first c boundary stop = .error f) :
    f = .impossible kind.shaped (c.visibleBits boundary) ∨
    ∃ g ∈ c.guard, d.text.checkStart g = .error f := by
  have hguard : ∀ {looked : Bool} {ps : List Proposal}, (looked = true → c.guard.isSome) →
      (do d.checkGuard c looked; return ps : Except Fault (List Proposal)) = .error f →
      ∃ g ∈ c.guard, d.text.checkStart g = .error f := by
    intro looked ps hlook h
    cases looked with
    | false => cases h
    | true =>
      obtain ⟨g, hg⟩ := Option.isSome_iff_exists.mp (hlook rfl)
      refine ⟨g, hg, ?_⟩
      simp only [checkGuard, ↓reduceIte, hg, Option.getD_some] at h
      cases hs : d.text.checkStart g with
      | error f' => rw [hs] at h; cases h; rfl
      | ok _ => rw [hs] at h; cases h
  unfold lineProposals at h
  split at h
  · cases h
  split at h
  · exact .inr (hguard Clause.isSome_of_sees h)
  split at h
  · cases h
  split at h
  · cases h
  split at h
  · cases h; exact .inl rfl
  · cases h; exact .inl rfl
  · next hshape =>
    refine .inr (hguard ?_ h)
    intro hlook
    exact (Clause.has_and_shows hshape).1.guard (Bool.and_eq_true_iff.mp hlook).2

/-- Hidden parts do not matter. Take two clauses whose parts come in order, of which the same is
shown, and a line that does not start with a guard below a clause that is no `data` declaration.
Then

* the rules propose the same below both, or fail in the same way;
* they read the text only at the parts that are shown, so they do the same in every document that
  reads alike there;
* a proposal names a part that is shown;
* a failure says that the shown parts have no shape, or that the guard, which is shown, cannot be
  looked at. -/
theorem lineProposals_eq_of_shown_eq (hkind : kind ≠ .guard) (hdata : c.nameText ≠ some "data")
    (hc : c.places.Pairwise (· < ·)) (hc' : c'.places.Pairwise (· < ·))
    (h : c.shown boundary = c'.shown boundary) :
    d.lineProposals kind first c' boundary stop = d.lineProposals kind first c boundary stop ∧
    (∀ e, (c.shown boundary).ReadsAlike d e →
      e.lineProposals kind first c' boundary stop = d.lineProposals kind first c boundary stop) ∧
    ((c.nameText.isSome → c.name.isSome) →
      ∀ ps, d.lineProposals kind first c boundary stop = .ok ps →
      ∀ p ∈ ps, ∃ i ∈ (c.shown boundary).places, p.place = some i) ∧
    ∀ f, d.lineProposals kind first c boundary stop = .error f →
      f = .impossible kind.shaped (c.visibleBits boundary) ∨
      ∃ g ∈ (c.shown boundary).guard, d.text.checkStart g = .error f := by
  have htext : (c.shown boundary).nameText = (c'.shown boundary).nameText := by rw [h]
  have hdata' : c'.nameText ≠ some "data" := fun hname => hdata (htext.trans hname)
  have hsame : ∀ e, (c.shown boundary).ReadsAlike d e →
      e.lineProposals kind first c' boundary stop = d.lineProposals kind first c boundary stop := by
    intro e he
    rw [← lineProposals_shown hkind hdata' hc' (.refl _ e), ← h]
    exact lineProposals_shown hkind hdata hc he
  have hshown : d.lineProposals kind first (c.shown boundary) boundary stop =
      d.lineProposals kind first c boundary stop := lineProposals_shown hkind hdata hc (.refl _ d)
  refine ⟨hsame d (.refl _ d), hsame, ?_, ?_⟩
  · intro hname ps hps p hp
    have hname : (c.shown boundary).nameText.isSome → (c.shown boundary).name.isSome := hname
    rw [← hshown] at hps
    obtain ⟨hsome, hgoes⟩ := (lineProposals_cases hname hps).1 p hp
    obtain ⟨i, hi⟩ := Option.isSome_iff_exists.mp hsome
    exact ⟨i, hgoes.mem_places hi, hi⟩
  · intro f hf
    rw [← hshown] at hf
    rw [← Clause.visibleBits_shown]
    exact lineProposals_error hf

/-- A guard and a right-hand side that the next line hides may as well be missing. -/
theorem lineProposals_eq_of_shown_eq_hidden :
    let d : Document := .new (Text.ofString "f x | y = 1\n\n") .plain 8
    let c : Clause :=
      { name := some 0, nameText := some "f", afterName := some 2, guard := some 4, rhs := some 8 }
    let c' : Clause := { name := some 0, nameText := some "f", afterName := some 2, rhs := some 5 }
    c.shown 4 = c'.shown 4 ∧ d.lineProposals .empty "" c' 4 12 = d.lineProposals .empty "" c 4 12 ∧
      d.lineProposals .empty "" c 4 12 = .ok [.under (some 0) none, .beyond (some 0) none] := by
  refine ⟨by decide, ?_, by decide⟩
  exact (lineProposals_eq_of_shown_eq (by decide) (by decide) (by decide) (by decide) (by decide)).1

end Document

end LayoutRule

import LayoutRule.Proofs.Parallel.Requests
import LayoutRule.Proofs.Request.Hollow
import LayoutRule.Proofs.Request.Nearest
import LayoutRule.Proofs.Request.Parts
import LayoutRule.Proofs.Layout.Trailing

/-!
# Moving a comment that a line starts with

A request for the code behind a comment may name the comment in one way only: as what follows the
sign of a guard or of a right-hand side further up (`Document.Hollow.parts`). When the line of the
comment moves, such candidates move with it, and all others stay (`Parallel.Aside.drawn`). So a
candidate that the comment was moved to attracts (`Parallel.Aside.codeLine`).
-/

namespace LayoutRule

/-! ## Parts of a clause before the comment -/

namespace Document

open Text

variable {d : Document} {start point code p a k : Int} {clause : Clause}

/-- What is no gap is code of its line. -/
theorem code_of_isGapAt (h₀ : 0 ≤ k) (h : d.isGapAt k = .ok false) :
    d.indentationPoint k ≤ k ∧ k < d.text.lineStop k := by
  have hpoint : d.indentationPoint k ≤ k := by
    rcases Int.lt_or_le k (d.indentationPoint k) with hlt | hle
    · exfalso
      rw [← indentationPoint_eq_of_lineStart_eq (d.text.lineStart_lineStart k)] at hlt
      cases h.symm.trans (isGapAt_lead (d.text.lineStart_lineStart k) (lineStart_le h₀) hlt)
    · exact hle
  refine ⟨hpoint, ?_⟩
  have hread := h
  unfold isGapAt at hread
  obtain ⟨c, hc, -⟩ := bind_eq_ok.1 hread
  obtain ⟨c', hc', hget⟩ := read_yields (t := d.text) h₀ (lt_length_of_read hc)
  have hchar : d.text.charAt? k = some c' := (charAt?_eq h₀).trans hget
  refine lt_lineStop_of_charAt? h₀ hchar ?_
  rintro rfl
  rw [isGapAt_code hpoint hchar] at h
  cases h

/-- Code before the first of a line stands on a line further up. -/
theorem lineStop_lt_of_lt (hfirst : d.indentationPoint point = point) (hlen : point ≤ d.text.length)
    (h₀ : 0 ≤ a) (hpoint : d.indentationPoint a ≤ a) (hlt : a < point) :
    d.text.lineStop a < d.text.lineStart point := by
  rcases Int.lt_or_le a (d.text.lineStart point) with habove | hsame
  · exact lineStop_lt_lineStart h₀ habove
  · exfalso
    have hstart := lineStart_eq_of_between hsame
      (Int.le_trans (Int.le_of_lt hlt) (le_lineStop (by omega) hlen))
    rw [indentationPoint_eq_of_lineStart_eq hstart, hfirst] at hpoint
    omega

namespace Hollow

/-- A part that the rules can see stands before the comment. -/
theorem shown_lt (h : d.Hollow start point code) (ha : d.Shown start a) (hle : start ≤ a)
    (hlt : a < code) : a < point := by
  rcases Int.lt_or_le a point with hbefore | hge
  · exact hbefore
  · exfalso
    obtain ⟨q, hq⟩ := h.openComment?_eq hge hlt ha.code ha.whole
    have hnone := ha.outside
    rw [Int.min_eq_left hle, hq] at hnone
    cases hnone

/-- What follows a sign before the comment is the comment at the latest. -/
theorem le_of_gaps (h : d.Hollow start point code) {g : Int} (h₀ : 0 ≤ g) (hlt : g < point)
    (hcode : d.indentationPoint g ≤ g ∧ g < d.text.lineStop g)
    (hgaps : ∀ k, g + 2 ≤ k → k < a → d.isGapAt k = .ok true) : a ≤ point := by
  have habove := lineStop_lt_of_lt h.first (Int.le_of_lt h.bounds.1) h₀ hcode.1 hlt
  have hstart := lineStart_le (t := d.text) (by omega : 0 ≤ point)
  rcases Int.lt_or_le point a with hbehind | hle
  · exact absurd h.comment (commentAt_of_gap (by omega) (hgaps point (by omega) hbehind))
  · exact hle

/-- The parts of a clause on a line above the comment come in order. -/
theorem placed (h : d.Hollow start point code) (hline : d.CodeLine start p) (hp : p < point)
    (hclause : d.clauseAt p code start = .ok clause) : clause.Placed p code := by
  have hbounds := h.bounds
  have hnonneg := h.nonneg
  have hstart := hline.start_le
  obtain ⟨c, hc, hblank⟩ := exists_char_indentationPoint (d := d) p (by rw [hline.point]; omega)
  rw [hline.point] at hc
  exact ((clauseAt_yields hnonneg (by omega) (by omega) hbounds.2.2 hc hblank).of_eq hclause).1

/-- The parts of a clause on a line above the comment: the comment may be what follows a sign, and
nothing stands behind it. -/
theorem parts (h : d.Hollow start point code) (hline : d.CodeLine start p) (hp : p < point)
    (hclause : d.clauseAt p code start = .ok clause) :
    clause.Apart point ∧ ∀ a ∈ clause.places, a ≤ point := by
  have hbounds := h.bounds
  have hnonneg := h.nonneg
  have hstart := hline.start_le
  obtain ⟨c, hc, hblank⟩ := exists_char_indentationPoint (d := d) p (by rw [hline.point]; omega)
  rw [hline.point] at hc
  have hcoded := clauseAt_coded hnonneg (by omega) (by omega) hbounds.2.2 hc hblank hclause
  have hin := (h.placed hline hp hclause).inOrder.2
  simp only [Clause.places, List.mem_append, Option.mem_toList] at hin
  have hshown : ∀ a, d.Shown start a → p ≤ a ∧ a < code → a < point := fun a ha hrange =>
    h.shown_lt ha (by omega) hrange.2
  have hsign : ∀ a, a = p ∨ d.Shown start a → p ≤ a ∧ a < code →
      a < point ∧ d.indentationPoint a ≤ a ∧ a < d.text.lineStop a := by
    rintro a (rfl | ha) hrange
    · have hstop := indentationPoint_lt_lineStop hline.notBlank
      rw [hline.point] at hstop ⊢
      exact ⟨hp, Int.le_refl _, hstop⟩
    · exact ⟨hshown a ha hrange, code_of_isGapAt (by omega) ha.code⟩
  have hname : ∀ a, clause.name = some a → a < point := fun a ha => hcoded.name a ha ▸ hp
  have hafterName : ∀ a, clause.afterName = some a → a < point := fun a ha =>
    hshown a (hcoded.afterName a ha) (hin a (by simp [ha]))
  have hguard : ∀ a, clause.guard = some a → a < point ∧ d.indentationPoint a ≤ a ∧
      a < d.text.lineStop a := fun a ha =>
    hsign a (hcoded.guard a ha) (hin a (by simp [ha]))
  have hrhs : ∀ a, clause.rhs = some a → a < point ∧ d.indentationPoint a ≤ a ∧
      a < d.text.lineStop a := fun a ha =>
    hsign a (hcoded.rhs a ha) (hin a (by simp [ha]))
  refine ⟨⟨?_, ?_, ?_, ?_⟩, fun a ha => ?_⟩
  · exact fun heq => Int.lt_irrefl _ (hname point heq)
  · exact fun heq => Int.lt_irrefl _ (hafterName point heq)
  · exact fun heq => Int.lt_irrefl _ (hguard point heq).1
  · exact fun heq => Int.lt_irrefl _ (hrhs point heq).1
  · simp only [Clause.places, List.mem_append, Option.mem_toList] at ha
    rcases ha with ((((ha | ha) | ha) | ha) | ha) | ha
    · exact Int.le_of_lt (hname a ha)
    · exact Int.le_of_lt (hafterName a ha)
    · exact Int.le_of_lt (hguard a ha).1
    · obtain ⟨g, hg, hgaps⟩ := hcoded.afterGuard a ha
      have := hin g (by simp [Option.mem_def.mp hg])
      exact h.le_of_gaps (by omega) (hguard g hg).1 (hguard g hg).2 hgaps
    · exact Int.le_of_lt (hrhs a ha).1
    · obtain ⟨g, hg, hgaps⟩ := hcoded.afterRhs a ha
      have := hin g (by simp [Option.mem_def.mp hg])
      exact h.le_of_gaps (by omega) (hrhs g hg).1 (hrhs g hg).2 hgaps

/-- What a contour above the comment proposes. -/
theorem trails_contourProposals (h : d.Hollow start point code) {kind : LineKind} {first : String}
    {contour : List Int} (hlines : ∀ p ∈ contour, d.CodeLine start p ∧ p < point)
    {ps : List Proposal} (hps : d.contourProposals start code kind first contour = .ok ps) :
    Clause.Trails code point ps := by
  induction contour generalizing ps with
  | nil =>
    cases hps
    exact ⟨by simp, .nil⟩
  | cons p rest ih =>
    obtain ⟨hline, hp⟩ := hlines p List.mem_cons_self
    unfold contourProposals at hps
    obtain ⟨clause, hclause, hps⟩ := bind_eq_ok.1 hps
    obtain ⟨own, hown, hps⟩ := bind_eq_ok.1 hps
    obtain ⟨below, hbelow, hps⟩ := bind_eq_ok.1 hps
    cases hps
    have htrails := trails_of_lineProposals (h.placed hline hp hclause).isSome_name
      (h.parts hline hp hclause).1 hown
    have hrest := ih (fun q hq => hlines q (List.mem_cons_of_mem p hq)) hbelow
    cases rest with
    | nil =>
      cases hbelow
      rwa [List.append_nil]
    | cons next more =>
      -- the line is cut off before its end, so it does not reach down to the comment
      refine .append (fun q hq hplace => ?_) hrest
      have hcut := (htrails.under q hq hplace).2
      have hbound := (d.moveToColumn_bounds p (d.column next)).2.1
      have hnonneg : 0 ≤ p := Int.le_trans h.nonneg hline.start_le
      have hstop := lineStop_lt_of_lt h.first (Int.le_of_lt h.bounds.1) hnonneg
        (Int.le_of_eq hline.point) hp
      have hstart := lineStart_le (t := d.text) (by omega : 0 ≤ point)
      dsimp only at hcut
      omega

end Hollow

end Document

/-! ## Lines that move -/

namespace Parallel

open Text Document

variable {s : Settings} {d e : Document} {C : Parallel s d e}
  {start start' point point' code code' a b : Int}

/-- Columns are the same above the line that starts with a place, and may differ from that line
on. -/
structure Aside (C : Parallel s d e) (point point' : Int) : Prop where
  first : d.indentationPoint point = point
  shift : C.shift = 0
  free : C.free = d.text.lineStart point
  place : C.Place point point'

/-- Counterparts above the line, or the place itself. -/
def Beside (C : Parallel s d e) (point point' a b : Int) : Prop :=
  C.Fixed a b ∨ (a = point ∧ b = point')

namespace Aside

/-- Counterparts before the place stand on lines above it, where columns are the same. -/
theorem fixed (h : C.Aside point point') (hp : C.Place a b) (hlt : a < point) : C.Fixed a b := by
  have habove := lineStop_lt_of_lt h.first h.place.bounds.2.1 hp.bounds.1 hp.point_le hlt
  have hle := d.text.lineStart_le_lineStop a
  exact ⟨hp, by rw [h.free]; omega⟩

/-- Counterparts on lines where columns are the same stand before the place. -/
theorem lt_of_fixed (h : C.Aside point point') (hp : C.Fixed a b) : a < point := by
  have hlt := hp.2
  rw [h.free] at hlt
  have habove := lineStop_lt_lineStart (d.text.lineStart_nonneg a) hlt
  rw [d.text.lineStop_lineStart] at habove
  have hstop := hp.1.le_stop
  have hstart := lineStart_le (t := d.text) h.place.bounds.1
  omega

/-- There is no shift, so corresponding columns are equal. -/
theorem eq_of_sameColumn (h : C.Aside point point') {col col' : Int}
    (hcol : C.SameColumn col col') : col' = col := by
  have := hcol.1
  have := h.shift
  omega

/-- There is no shift, so corresponding candidates are equal. -/
theorem eq_of_sameCandidates (h : C.Aside point point') {cs cs' : List Candidate}
    (hcs : C.SameCandidates cs cs') : cs' = cs := by
  rw [hcs.eq_map, h.shift]
  refine (List.map_congr_left fun c _ => ?_).trans cs.map_id
  unfold Candidate.moveRight
  rw [Int.add_zero]
  rfl

/-- What a proposal gives in the second document: the place itself has its column there, all else
has the column it had. -/
theorem candidate (h : C.Aside point point') {p q : Proposal}
    (hsame : SameProposal (C.Beside point point') p q) (hsome : p.place.isSome)
    (hunder : p.place = some point → p = .under (some point) none) (step : Int) :
    (p.place = some point ∧ q.candidate e step = ⟨e.column point', none⟩) ∨
      (p.place ≠ some point ∧ q.candidate e step = p.candidate d step) := by
  have hcolumn : ∀ {x y : Option Int}, Option.Rel (C.Beside point point') x y → x.isSome →
      (x = some point ∧ y = some point') ∨ (x ≠ some point ∧ e.partColumn y = d.partColumn x) := by
    intro x y hrel hsome
    cases hrel with
    | none => cases hsome
    | @some a b hrel =>
      rcases hrel with hfixed | ⟨rfl, rfl⟩
      · have hlt := h.lt_of_fixed hfixed
        exact .inr ⟨fun heq => by cases heq; omega, h.eq_of_sameColumn hfixed.column⟩
      · exact .inl ⟨rfl, rfl⟩
  cases hsame with
  | under hrel insert =>
    rcases hcolumn hrel hsome with ⟨rfl, rfl⟩ | ⟨hne, hcol⟩
    · cases hunder rfl
      exact .inl ⟨rfl, rfl⟩
    · exact .inr ⟨hne, by simp only [Proposal.candidate, hcol]⟩
  | step hrel =>
    rcases hcolumn hrel hsome with ⟨rfl, rfl⟩ | ⟨hne, hcol⟩
    · cases hunder rfl
    · exact .inr ⟨hne, by simp only [Proposal.candidate, hcol]⟩
  | small hrel =>
    rcases hcolumn hrel hsome with ⟨rfl, rfl⟩ | ⟨hne, hcol⟩
    · cases hunder rfl
    · exact .inr ⟨hne, by simp only [Proposal.candidate, hcol]⟩

/-- The candidates that name the place move with it. -/
theorem drawn (h : C.Aside point point') {boundary : Int} {ps ps' : List Proposal}
    (hsame : List.Forall₂ (SameProposal (C.Beside point point')) ps ps')
    (hnames : Clause.NamesParts ps) (htrails : Clause.Trails boundary point ps) (step : Int) :
    Request.Drawn ⟨e.column point', none⟩ (ps.map (Proposal.candidate d step))
      (ps'.map (Proposal.candidate e step)) := by
  induction hsame with
  | nil => exact ⟨[], [], [], rfl, rfl, .nil, by simp⟩
  | @cons p q ps ps' hpq hrest ih =>
    obtain ⟨hunder, hinsert⟩ := htrails
    obtain ⟨hhead, htail⟩ := List.pairwise_cons.mp hinsert
    have hdrawn := ih (fun p hp => hnames p (List.mem_cons_of_mem _ hp))
      ⟨fun p hp => hunder p (List.mem_cons_of_mem _ hp), htail⟩
    rw [List.map_cons, List.map_cons]
    rcases h.candidate hpq (hnames p List.mem_cons_self)
      (fun hplace => (hunder p List.mem_cons_self hplace).1) step with
      ⟨hplace, hcandidate⟩ | ⟨-, hcandidate⟩
    · -- from here on no text is put in
      obtain rfl := (hunder p List.mem_cons_self hplace).1
      have hmoved : Request.Moved ⟨e.column point', none⟩
          ((Proposal.under (some point) none).candidate d step ::
            ps.map (Proposal.candidate d step))
          (q.candidate e step :: ps'.map (Proposal.candidate e step)) :=
        .cons (.inr hcandidate) hdrawn.moved
      have hnone : ∀ x ∈ (Proposal.under (some point) none).candidate d step ::
          ps.map (Proposal.candidate d step), x.insert = none := by
        intro x hx
        rcases List.mem_cons.mp hx with rfl | hx
        · rfl
        · obtain ⟨r, hr, rfl⟩ := List.mem_map.mp hx
          rw [Proposal.candidate_insert]
          exact hhead r hr hplace
      refine ⟨[], _, _, rfl, rfl, hmoved, fun x hx => ?_⟩
      rcases List.mem_append.mp hx with hx | hx
      · exact hnone x hx
      · rcases hmoved.mem hx with hx | rfl
        · exact hnone x hx
        · rfl
    · obtain ⟨same, rest, rest', hl, hl', hmoved, hnone⟩ := hdrawn
      rw [hl, hl', hcandidate]
      exact ⟨_ :: same, rest, rest', rfl, rfl, hmoved, hnone⟩

variable {inhibit : Bool} {nested nested' : Bool → Int → Int → Noted (List Candidate)}

/-- The candidates below a contour. -/
theorem belowContour {S : List Candidate → List Candidate → Prop} (h : C.Aside point point')
    (hollow : d.Hollow start point code) (hfirst : C.Place start start')
    (hlast : C.Place code code')
    {contour contour' : List Int} (hcontour : d.contour s start code = .ok contour)
    (hrel : List.Forall₂ C.Fixed contour contour')
    (hS : ∀ {l l'}, Request.Drawn ⟨e.column point', none⟩ l l' →
      S (offerAll [] l) (offerAll [] l')) :
    Both S (Request.belowContour ⟨d, s, inhibit, nested⟩ start contour code)
      (Request.belowContour ⟨e, s, inhibit, nested'⟩ start' contour' code') := by
  have hbounds := hollow.bounds
  obtain ⟨hlines, hwide⟩ := (contour_yields (d := d) s hollow.nonneg hbounds.2.2).of_eq hcontour
  have habove : ∀ p ∈ contour, p < point := by
    clear hcontour hlines hwide
    induction hrel with
    | nil => simp
    | cons hfixed _ ih => exact List.forall_mem_cons.mpr ⟨h.lt_of_fixed hfixed, ih⟩
  have hbefore : ∀ p ∈ contour, d.CodeLine start p ∧ p < point :=
    fun p hp => ⟨(hlines p hp).1, habove p hp⟩
  refine Place.belowContour (R := C.Beside point point') hfirst hlast ?_ ?_ hrel hlines hwide
    fun hps hsame hnames =>
      hS (h.drawn hsame hnames (hollow.trails_contourProposals hbefore hps) s.indentStep)
  · rintro a b (hfixed | ⟨rfl, rfl⟩)
    · exact hfixed.1
    · exact h.place
  · intro p hp clause hclause a ha b hplace
    obtain ⟨hline, hlt⟩ := hbefore p hp
    rcases Int.lt_or_eq_of_le ((hollow.parts hline hlt hclause).2 a ha) with hlt | rfl
    · exact .inl (h.fixed hplace hlt)
    · exact .inr ⟨rfl, (hplace.eq_iff h.place).mpr rfl⟩

/-- What a request for the code goes by stands above the comment. -/
theorem facing (h : C.Aside point point') (hollow : d.Hollow start point code)
    (hfirst : C.Place start start') (hlast : C.Place code code') (hclear : d.Clear start code)
    (hin : d.text.closingPair? code ≠ some .letIn) : C.Facing start start' code code' := by
  have hbounds := hollow.bounds
  have hnonneg := hollow.nonneg
  have hstart := hollow.start_le
  have hback : ∀ {start start' p}, d.Hollow start point code → C.Place start start' →
      d.skipGapBack code start = .ok p → start < p → d.text.lineStart p < C.free := by
    intro start start' p hollow hfirst hp hlt
    have hstart := hollow.start_le
    obtain ⟨_, p', hp', -, hplace, -, hbehind⟩ := hlast.skipGapBack hfirst (by omega)
    cases hp.symm.trans hp'
    rcases Int.lt_or_eq_of_le (hollow.skipGapBack_le hp hlt) with hbefore | rfl
    · exact (h.fixed hplace hbefore).2
    · exact absurd hollow.first.symm (hbehind hlt)
  have hbracket : ∀ {p}, d.openBracket? start code = .ok (some p) → ∃ q, C.Place p q := by
    intro p hp
    obtain ⟨_, _, hb, -, hrel⟩ := hfirst.openBracket? hlast
    cases hp.symm.trans hb
    cases hrel with
    | some hplace => exact ⟨_, hplace⟩
  refine ⟨hfirst, hlast, by omega, ?_, hback hollow hfirst, ?_, ?_, ?_, .inr hclear⟩
  · intro pair hpair
    have hpair : (pair == .letIn) = false := by
      rw [beq_eq_false_iff_ne]
      rintro rfl
      exact hin hpair
    rw [hpair]
    obtain ⟨opener, opener', hd, he, hrel⟩ :
        Both (Option.Rel C.Place) (d.matchingOpener? pair.words false start code)
          (e.matchingOpener? pair.words false start' code') :=
      Place.matchingOpener? hlast (fun hskip => absurd hskip (by decide)) hfirst pair
    refine ⟨opener, opener', hd, he, rel_of_mem hrel fun o ho o' hplace => ?_⟩
    cases ho
    exact h.fixed hplace (hollow.opener_lt hd)
  · intro p hp
    obtain ⟨q, hplace⟩ := hbracket hp
    exact (h.fixed hplace (hollow.bracket_lt hp)).2
  · intro p q hp
    obtain ⟨p', hplace⟩ := hbracket hp
    exact hback (hollow.inner hp) (hplace.succ_bracket hp)
  · intro p q hp hq hlt
    obtain ⟨p', hplace⟩ := hbracket hp
    have hinner := hollow.inner hp
    have hle := hinner.start_le
    obtain ⟨_, q', hq', -, hfollow⟩ := (hplace.succ_bracket hp).skipGap_to hlast (by omega)
    cases hq.symm.trans hq'
    exact (h.fixed hfollow (hinner.skipGap_lt hq hlt)).2

/-- The column of the definition, which may start with the comment. -/
theorem keeps_definitionColumn (h : C.Aside point point') (hollow : d.Hollow start point code)
    (hfirst : C.Place start start') (hlast : C.Place code code')
    (hbelow : d.text.lineStop point < code) :
    Request.Keeps ⟨e.column point', none⟩
      [⟨Request.definitionColumn ⟨d, s, inhibit, nested⟩ start code, none⟩]
      [⟨Request.definitionColumn ⟨e, s, inhibit, nested'⟩ start' code', none⟩] := by
  refine Request.keeps_singleton fun hkept => ?_
  rcases Int.lt_or_eq_of_le hollow.start_le with hlt | rfl
  · rwa [h.eq_of_sameColumn ((h.fixed hfirst hlt).definitionColumn hlast)]
  · obtain rfl := (hfirst.eq_iff h.place).mpr rfl
    have hline : d.text.lineStart start ≠ d.text.lineStart code := by
      intro heq
      have hstop := hlast.le_stop
      rw [← lineStop_eq_of_lineStart_eq heq] at hstop
      omega
    have hline' : e.text.lineStart start' ≠ e.text.lineStart code' :=
      fun heq => hline ((hfirst.lineStart_eq_iff hlast).mp heq)
    have hbird : e.bird = d.bird := C.style.elim (fun hsame => hsame.2) fun hshift => by
      have := h.shift; omega
    have hmargin := d.column_nonneg start
    have hmargin' := e.column_nonneg start'
    unfold Request.definitionColumn Candidate.kept at *
    simp only [Candidate.mk.injEq, and_true, beq_eq_false_iff_ne.mpr hline,
      beq_eq_false_iff_ne.mpr hline', Bool.false_and, hbird, h.eq_of_sameColumn C.sameColumn_top,
      Bool.and_eq_true, beq_iff_eq, Bool.false_eq_true, if_false] at hkept ⊢
    -- the top column answers where the comment stands right behind the marker
    split
    · next hmark' =>
      split at hkept
      · exact hkept
      · next hmark => exact absurd ⟨hmark'.1, by omega⟩ hmark
    · exact Int.max_eq_right hmargin'

/-- The candidates for the code behind the comment: the column that the comment has in the second
document is the nearest there when it is so in the first. -/
theorem codeLine (hn : C.SameNested nested nested') (h : C.Aside point point')
    (hollow : d.Hollow start point code) (hfirst : C.Place start start')
    (hlast : C.Place code code') (hclear : d.Clear start code)
    (hin : d.text.closingPair? code ≠ some .letIn) (hbelow : d.text.lineStop point < code) :
    Noted.Same (Request.Keeps ⟨e.column point', none⟩)
      (Request.codeLine ⟨d, s, inhibit, nested⟩ start code)
      (Request.codeLine ⟨e, s, inhibit, nested'⟩ start' code') := by
  have hcol : 0 ≤ e.column point' := e.column_nonneg point'
  refine (h.facing hollow hfirst hlast hclear hin).codeLine hn (.inr hollow.outside) ?_
    (h.keeps_definitionColumn hollow hfirst hlast hbelow) ?_ ?_
  · intro cs cs' hcs
    rw [h.eq_of_sameCandidates hcs]
    exact fun _ hkept => hkept
  · intro contour contour' hcontour hrel
    exact h.belowContour hollow hfirst hlast hcontour hrel fun hdrawn =>
      (hdrawn.attracts_offerAll hcol).keeps (Offered.nil.offerAll _)
  · intro a b hb hplace contour contour' basic basic' hcontour hrel hbasic
    have hfixed := h.fixed hplace (hollow.bracket_lt hb)
    rw [h.eq_of_sameColumn hbasic, h.eq_of_sameColumn hfixed.column]
    exact h.belowContour (hollow.inner hb) (hplace.succ_bracket hb) hlast hcontour hrel
      fun hdrawn =>
      (hdrawn.attracts_replaceBracketColumn hcol _ _).keeps (Offered.nil.replaceBracketColumn _ _ _)

end Aside

end Parallel

end LayoutRule

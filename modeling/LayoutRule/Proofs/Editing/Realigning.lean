import LayoutRule.Proofs.Editing.Relocating

/-!
# Aligning twice

After alignment the definition around the same place has the same clauses, each line moved along
with its sign: the lines of code are the same ones, those below the first line of a clause are still
deeper than top level, and no clause has another name. So a second alignment finds the signs where
the first one brought them and leaves them alone (`align_align`). The one exception is a sign that
the scanner takes for the character of a literal: a line that starts inside a string is scanned from
there as the rest of the string, and taken apart as code all the same (`align_literal_twice`).
-/

namespace LayoutRule

/-! ## Moved clauses -/

section Lists

variable {α β : Type} {f : α → β} {p : α → Bool} {q : β → Bool} {l : List α}

/-- Taking items as long as a test holds can be done before the items are mapped, by a test that
says the same of an item as the other one of its image. -/
theorem takeWhile_map_eq (h : ∀ a ∈ l, q (f a) = p a) :
    (l.map f).takeWhile q = (l.takeWhile p).map f := by
  induction l with
  | nil => rfl
  | cons a l ih =>
    rw [List.map_cons, List.takeWhile_cons, List.takeWhile_cons, h a List.mem_cons_self]
    split
    · rw [ih fun b hb => h b (List.mem_cons_of_mem a hb), List.map_cons]
    · rfl

/-- Dropping items as long as a test holds can be done before the items are mapped, under the same
condition. -/
theorem dropWhile_map_eq (h : ∀ a ∈ l, q (f a) = p a) :
    (l.map f).dropWhile q = (l.dropWhile p).map f := by
  induction l with
  | nil => rfl
  | cons a l ih =>
    rw [List.map_cons, List.dropWhile_cons, List.dropWhile_cons, h a List.mem_cons_self]
    split
    · exact ih fun b hb => h b (List.mem_cons_of_mem a hb)
    · rw [List.map_cons]

/-- Moving clauses without renaming them moves the run around a place. -/
theorem runAround_map {g : α × Option String → β × Option String} (hname : ∀ c, (g c).2 = c.2)
    (starts : β × Option String → Bool) (named : List (α × Option String)) :
    runAround starts (named.map g) = (runAround (fun c => starts (g c)) named).map g := by
  unfold runAround
  rw [takeWhile_map_eq (p := fun c => starts (g c)) fun _ _ => rfl,
    dropWhile_map_eq (p := fun c => starts (g c)) fun _ _ => rfl, ← List.map_reverse]
  cases (named.takeWhile fun c => starts (g c)).reverse with
  | nil => rfl
  | cons here above =>
    simp only [List.map_cons, hname]
    split
    · rfl
    · rw [List.map_append, List.map_reverse, List.map_cons,
        takeWhile_map_eq (p := fun c => c.2 == here.2) fun c _ => by rw [hname],
        takeWhile_map_eq (p := fun c => c.2 == here.2) fun c _ => by rw [hname]]

end Lists

/-- A clause with its lines moved. -/
def ClauseLines.map (f : Int → Int) (c : ClauseLines) : ClauseLines := ⟨f c.head, c.rest.map f⟩

namespace Document

open Text

variable {d e : Document} {s : Settings} {sign : AlignSign} {pads : Nat → Nat} {pos p q top : Int}
  {points found signs : List Int} {c : ClauseLines} {clauses : List ClauseLines} {name : String}

/-- Lines that are deeper as before are cut into clauses as before. -/
theorem clauseLines_map {f : Int → Int}
    (h : ∀ p ∈ points, e.isDeeper top (f p) = d.isDeeper top p) :
    e.clauseLines top (points.map f) = (d.clauseLines top points).map (ClauseLines.map f) := by
  fun_induction clauseLines d top points with
  | case1 =>
    rw [List.map_nil, clauseLines]
    rfl
  | case2 p points ih =>
    have htail : ∀ q ∈ points, e.isDeeper top (f q) = d.isDeeper top q :=
      fun q hq => h q (List.mem_cons_of_mem p hq)
    rw [List.map_cons, clauseLines, takeWhile_map_eq htail, dropWhile_map_eq htail,
      ih fun q hq => htail q ((List.dropWhile_sublist _).subset hq)]
    rfl

/-- A clause starts no later than all lines of its own and of the clauses below it. -/
theorem lineStart_head_le {before after : List ClauseLines} {x a : ClauseLines}
    (hseparate : d.text.Separate points)
    (hclauses : d.clauseLines top points = before ++ x :: after) (ha : a ∈ before ++ [x])
    (hc : c ∈ x :: after) (hp : p ∈ c.points) : d.text.lineStart a.head ≤ d.text.lineStart p := by
  have hpairs := hseparate
  rw [← flatMap_clauseLines (d := d) top points, hclauses] at hpairs
  obtain ⟨hown, hacross⟩ := List.pairwise_flatMap.mp hpairs
  have hstop := d.text.lineStart_le_lineStop a.head
  rcases List.mem_append.mp ha with ha | ha
  · have hlt := (List.pairwise_append.mp hacross).2.2 a ha c hc a.head List.mem_cons_self p hp
    omega
  · rw [List.mem_singleton] at ha
    subst ha
    rcases List.mem_cons.mp hc with rfl | hc
    · rcases List.mem_cons.mp hp with rfl | hp
      · exact Int.le_refl _
      · have hlt := (List.pairwise_cons.mp (hown c (by simp))).1 p hp
        omega
    · have hlt :=
        (List.pairwise_cons.mp (List.pairwise_append.mp hacross).2.1).1 c hc a.head
          List.mem_cons_self p hp
      omega

/-- Every sign of a definition stands on a line of one of its clauses. -/
theorem exists_of_mem_foundSigns (hclauses : d.definitionClauses s pos = .ok clauses)
    (hcode : ∀ c ∈ clauses, ∀ p ∈ c.points, d.CodePoint p) (h : d.foundSigns s sign pos = .ok found)
    (hq : q ∈ found) : ∃ c ∈ clauses, ∃ p ∈ c.points, d.SignOn sign p q := by
  unfold foundSigns at h
  rw [hclauses, ok_bind] at h
  obtain ⟨signs, hsigns, h⟩ := bind_eq_ok.1 h
  cases h
  obtain ⟨rs, hrs, hflat⟩ :=
    flatten_signs ((Yields.mapM fun c hc => clauseSigns_yields sign (hcode c hc)).of_eq hsigns)
  rw [hflat] at hq
  obtain ⟨p, hp, hsign⟩ := exists_of_mem_results hrs hq
  obtain ⟨c, hc, hpc⟩ := List.mem_flatMap.mp hp
  exact ⟨c, hc, p, hpc, hsign q rfl⟩

/-- A named clause does not start with a sign. -/
theorem Stretched.pads_head (h : d.Stretched e pads) (hname : d.nameAt? p = some name) :
    pads p.toNat = 0 := by
  by_contra hpads
  obtain ⟨x, hx, hhead⟩ := h.signs.signHead hpads
  unfold nameAt? nameStop? at hname
  rw [hx] at hname
  have hword := hhead.name
  rw [isNameChar, Bool.or_eq_false_iff] at hword
  simp [isNameStart, hword.1] at hname

/-- Blanks are put in before signs on lines of these clauses only. -/
def PadsWithin (d : Document) (sign : AlignSign) (clauses : List ClauseLines) (pads : Nat → Nat) :
    Prop :=
  ∀ k, pads k ≠ 0 → ∃ c ∈ clauses, ∃ p ∈ c.points, d.SignOn sign p k

/-- Blanks that are put in within clauses stand before signs. -/
theorem PadsWithin.signed (h : d.PadsWithin sign clauses pads) : d.Signed sign pads := by
  intro k hk
  obtain ⟨-, -, p, -, hp⟩ := h k hk
  exact ⟨p, hp⟩

/-- No blanks are put in above the first clause that has some. -/
theorem PadsWithin.front_lineStart (h : d.PadsWithin sign clauses pads)
    {before after : List ClauseLines} {x a : ClauseLines} (hseparate : d.text.Separate points)
    (hlines : d.clauseLines top points = before ++ x :: after)
    (hbelow : ∀ c ∈ clauses, c ∈ x :: after) (ha : a ∈ before ++ [x]) :
    front pads (d.text.lineStart a.head).toNat = (d.text.lineStart a.head).toNat := by
  refine front_eq_self fun j hj => ?_
  by_contra hpads
  obtain ⟨c, hc, p, hp, hsign⟩ := h j hpads
  have hfirst := lineStart_head_le hseparate hlines ha (hbelow c hc) hp
  have hline := hsign.lineStart_eq
  have hle := lineStart_le (t := d.text) (Int.natCast_nonneg j)
  omega

/-! ## The definition -/

/-- All clauses with their names. -/
def named (d : Document) (s : Settings) (points : List Int) : List (ClauseLines × Option String) :=
  (d.clauseLines (s.topColumn d) points).map d.withName

/-- The clauses with their names are the clauses. -/
theorem map_fst_named (d : Document) (s : Settings) (points : List Int) :
    (d.named s points).map (·.1) = d.clauseLines (s.topColumn d) points := by
  unfold named
  rw [List.map_map]
  exact List.map_id _

section Run

variable (hpoints : d.codePoints = .ok points) (hname : d.clauseNameAt? s pos = .ok (some name))
  (hclauses : d.definitionClauses s pos = .ok clauses)
include hpoints hname hclauses

/-- The clauses of a definition with a name are a longest run of that name, and the place stands in
it. -/
theorem exists_run :
    ∃ before inner outer after, d.named s points = before ++ inner ++ (outer ++ after) ∧
    (d.named s points).takeWhile (d.startsBy pos) = before ++ inner ∧ inner ≠ [] ∧
    LongestRun name before (inner ++ outer) after ∧ clauses = (inner ++ outer).map (·.1) := by
  obtain ⟨here, hlast, hhere⟩ := getLast?_of_clauseNameAt? hpoints hname
  obtain ⟨before, inner, outer, after, hnamed, htake, hne, hrun⟩ := exists_longestRun hlast hhere
  refine ⟨before, inner, outer, after, hnamed, htake, hne, hrun, ?_⟩
  rw [definitionClauses_eq hpoints, hrun.runAround_eq hnamed htake hne] at hclauses
  exact (Except.ok.inj hclauses).symm

/-- A clause of the definition is one of the document, and it has the name of the definition. -/
theorem named_of_mem_clauses (hc : c ∈ clauses) :
    c ∈ d.clauseLines (s.topColumn d) points ∧ d.nameAt? c.head = some name := by
  obtain ⟨before, inner, outer, after, hnamed, -, -, hrun, rfl⟩ := exists_run hpoints hname hclauses
  obtain ⟨r, hr, rfl⟩ := List.mem_map.mp hc
  have hmem : r ∈ d.named s points := by
    rw [hnamed]
    simp only [List.mem_append] at hr ⊢
    tauto
  obtain ⟨c, hc', rfl⟩ := List.mem_map.mp hmem
  exact ⟨hc', hrun.same _ hr⟩

/-- Where the signs of a definition get blanks, a line starts with one of them only below the first
line of a clause. -/
theorem PadsWithin.isDeeper (hwithin : d.PadsWithin sign clauses pads) (h : d.Stretched e pads)
    (hp : d.CodePoint p) (hpads : pads p.toNat ≠ 0) : d.isDeeper (s.topColumn d) p = true := by
  obtain ⟨c, hc, p', hp', hsign⟩ := hwithin _ hpads
  rw [Int.toNat_of_nonneg hp.nonneg] at hsign
  have hpoint : p' = p := by
    rw [← hsign.point.point, ← hp.point, indentationPoint_eq_of_lineStart_eq hsign.lineStart_eq]
  subst hpoint
  obtain ⟨hmem, hnamed⟩ := named_of_mem_clauses hpoints hname hclauses hc
  rcases List.mem_cons.mp hp' with rfl | hrest
  · exact absurd (h.pads_head hnamed) hpads
  · exact isDeeper_of_mem_rest hmem hrest

end Run

/-- The column of the top level does not change when blanks are put in, because it depends on the
style and on the settings only. -/
theorem Stretched.topColumn (h : d.Stretched e pads) (s : Settings) :
    s.topColumn e = s.topColumn d := by
  unfold Settings.topColumn
  rw [h.bird]

/-- The clauses are the same ones, with the same names. -/
theorem Stretched.named_relocate (h : d.Stretched e pads) (hpoints : d.codePoints = .ok points)
    (hdeep : ∀ p, d.CodePoint p → pads p.toNat ≠ 0 → d.isDeeper (s.topColumn d) p = true) :
    e.named s (points.map (relocate pads)) =
      (d.named s points).map (Prod.map (ClauseLines.map (relocate pads)) id) := by
  have hcode := (d.codePoints_yields.of_eq hpoints).2
  have hlines := clauseLines_map (e := e) fun p hp =>
    h.isDeeper_relocate (hcode p hp) (hdeep p (hcode p hp))
  unfold named
  rw [h.topColumn s, hlines, List.map_map, List.map_map]
  refine List.map_congr_left fun c hc => ?_
  have hhead := hcode _ (mem_points_of_mem_clauseLines hc List.mem_cons_self)
  exact congrArg (Prod.mk _) (h.nameAt?_relocate hhead)

/-- Whether a moved clause starts no later than the line of `pos`. -/
theorem Stretched.startsBy_relocate (h : d.Stretched e pads) {r : ClauseLines × Option String}
    (hr : d.CodePoint r.1.head) :
    e.startsBy pos (Prod.map (ClauseLines.map (relocate pads)) id r) =
      decide ((front pads (d.text.lineStart r.1.head).toNat : Int) ≤ pos) := by
  have h₀ := hr.nonneg
  have hlt := hr.lt_lineStop
  have hlen := d.text.lineStop_le_length r.1.head
  have hstart := h.signs.keepsLines.lineStart_moved (k := r.1.head.toNat)
    (by unfold length at hlen; omega)
  rw [← h.text, Int.toNat_of_nonneg h₀] at hstart
  show decide (e.text.lineStart (relocate pads r.1.head) ≤ pos) = _
  rw [relocate, hstart]

/-- Around the same place stands the same definition. -/
theorem Stretched.definitionClauses_relocate (h : d.Stretched e pads)
    (hpoints : d.codePoints = .ok points) (hname : d.clauseNameAt? s pos = .ok (some name))
    (hclauses : d.definitionClauses s pos = .ok clauses)
    (hwithin : d.PadsWithin sign clauses pads) :
    e.definitionClauses s pos = .ok (clauses.map (ClauseLines.map (relocate pads))) := by
  have hdeep : ∀ p, d.CodePoint p → pads p.toNat ≠ 0 → d.isDeeper (s.topColumn d) p = true :=
    fun p hp =>
    hwithin.isDeeper hpoints hname hclauses h hp
  have hpoints' : e.codePoints = .ok (points.map (relocate pads)) := by
    rw [h.codePoints, hpoints]
    rfl
  obtain ⟨hseparate, hcode⟩ := d.codePoints_yields.of_eq hpoints
  obtain ⟨before, inner, outer, after, hnamed, htake, hne, hrun, rfl⟩ :=
    exists_run hpoints hname hclauses
  obtain ⟨x, rest, rfl⟩ := List.exists_cons_of_ne_nil hne
  have hlines : d.clauseLines (s.topColumn d) points =
      before.map (·.1) ++ x.1 :: (rest ++ outer ++ after).map (·.1) := by
    rw [← map_fst_named, hnamed]
    simp
  have hheads : ∀ r ∈ d.named s points, d.CodePoint r.1.head := by
    intro r hr
    obtain ⟨c, hc, rfl⟩ := List.mem_map.mp hr
    exact hcode _ (mem_points_of_mem_clauseLines hc List.mem_cons_self)
  have habove : ∀ r ∈ before ++ [x], front pads (d.text.lineStart r.1.head).toNat =
      (d.text.lineStart r.1.head).toNat := by
    intro r hr
    refine hwithin.front_lineStart hseparate hlines (fun c hc => ?_) ?_
    · simp only [List.map_append, List.map_cons, List.mem_append, List.mem_cons] at hc ⊢
      tauto
    · have hmem := List.mem_map_of_mem (f := fun r : ClauseLines × Option String => r.1) hr
      rwa [List.map_append] at hmem
  have hstarts : ∀ r ∈ d.named s points,
      e.startsBy pos (Prod.map (ClauseLines.map (relocate pads)) id r) = true →
      d.startsBy pos r = true := by
    intro r hr hstart
    rw [h.startsBy_relocate (hheads r hr), decide_eq_true_eq] at hstart
    have := le_front pads (d.text.lineStart r.1.head).toNat
    have := d.text.lineStart_nonneg r.1.head
    exact decide_eq_true (by omega)
  have hfirst : ∀ r ∈ before ++ [x], e.startsBy pos
      (Prod.map (ClauseLines.map (relocate pads)) id r) = true := by
    intro r hr
    have hmem : r ∈ (d.named s points).takeWhile (d.startsBy pos) := by
      rw [htake]
      simp only [List.mem_append, List.mem_cons] at hr ⊢
      tauto
    have hstart : d.startsBy pos r = true := List.mem_takeWhile_imp hmem
    have h₀ := d.text.lineStart_nonneg r.1.head
    rw [h.startsBy_relocate (hheads r ((List.takeWhile_sublist _).subset hmem)), habove r hr,
      Int.toNat_of_nonneg h₀]
    exact hstart
  obtain ⟨rest₁, rest₂, htake', rfl⟩ := exists_takeWhile_of_imp hstarts htake hfirst
  have hrun' : LongestRun name before (x :: rest₁ ++ (rest₂ ++ outer)) after := by simpa using hrun
  rw [definitionClauses_eq hpoints']
  show Except.ok
    ((runAround (e.startsBy pos) (e.named s (points.map (relocate pads)))).map (·.1)) = _
  rw [h.named_relocate hpoints hdeep,
    runAround_map (g := Prod.map (ClauseLines.map (relocate pads)) id) fun _ =>
    rfl, hrun'.runAround_eq (by rw [hnamed]; simp) htake' (List.cons_ne_nil _ _), List.map_map,
    List.map_map,
    show x :: rest₁ ++ (rest₂ ++ outer) = x :: (rest₁ ++ rest₂) ++ outer by simp]
  rfl

/-! ## Signs of a definition -/

section Signs

variable (h : d.Stretched e pads) (hsigned : d.Signed sign pads)
include h hsigned

/-- The signs of a clause are those of its lines before, each moved by the blanks that were put in
up to it. -/
theorem Stretched.clauseSigns_relocate
    (hc : ∀ p ∈ c.points, d.Uncommented p ∧ e.Uncommented (relocate pads p)) :
    e.clauseSigns sign (c.map (relocate pads)) =
      (d.clauseSigns sign c).map (List.map (relocate pads)) := by
  have hline : ∀ isHead, ∀ p ∈ c.points,
      e.signOnLine? sign isHead (relocate pads p) =
        (d.signOnLine? sign isHead p).map (Option.map (relocate pads)) :=
    fun isHead p hp => h.signOnLine?_relocate hsigned isHead (hc p hp).1 (hc p hp).2
  unfold clauseSigns
  show (do
    let first ← e.signOnLine? sign true (relocate pads c.head)
    let others ← (c.rest.map (relocate pads)).mapM (e.signOnLine? sign false)
    return (first :: others).filterMap id) = _
  rw [hline true c.head List.mem_cons_self,
    mapM_map_eq fun p hp => hline false p (List.mem_cons_of_mem _ hp)]
  cases d.signOnLine? sign true c.head with
  | error err => rfl
  | ok first =>
    cases c.rest.mapM (d.signOnLine? sign false) with
    | error err => rfl
    | ok others =>
      show Except.ok (((first :: others).map (Option.map (relocate pads))).filterMap id) =
        Except.ok (((first :: others).filterMap id).map (relocate pads))
      rw [List.filterMap_map, List.map_filterMap]
      rfl

/-- Signs are written as before. -/
theorem Stretched.lexemeAt_relocate (hq : d.SignOn sign p q) :
    e.text.lexemeAt (relocate pads q) = d.text.lexemeAt q := by
  have h₀ := hq.nonneg
  have hb := hq.bounds
  have hlen := d.text.lineStop_le_length p
  have hsize : q.toNat < d.text.chars.size := by unfold length at hlen; omega
  have hagree := (hsigned.lone hq).agree
  have hlt' := h.signs.moved_lt_length hsize
  have hclamp := clamp_of_mem (t := d.text) h₀ (by omega)
  have hclamp' := clamp_of_mem (t := d.text.widen pads) (Int.natCast_nonneg (moved pads q.toNat))
    (Int.le_of_lt hlt')
  have hk : d.text.clamp q = q.toNat := by omega
  have hk' : (d.text.widen pads).clamp (relocate pads q) = moved pads q.toNat := by
    unfold relocate
    omega
  rw [h.text]
  refine (Agree.lexemeAt ?_).symm
  rw [hk, hk', moved_eq]
  exact hagree

/-- The signs that are written like the first one are the same ones as before, because blanks before
a sign do not change how it is written. -/
theorem Stretched.likeFirst_relocate (hfound : ∀ q ∈ found, ∃ p, d.SignOn sign p q) :
    e.likeFirst (found.map (relocate pads)) = (d.likeFirst found).map (relocate pads) := by
  have hlexeme : ∀ q ∈ found, e.text.lexemeAt (relocate pads q) = d.text.lexemeAt q := by
    intro q hq
    obtain ⟨p, hp⟩ := hfound q hq
    exact h.lexemeAt_relocate hsigned hp
  cases found with
  | nil => rfl
  | cons first rest =>
    show relocate pads first :: (rest.map (relocate pads)).filter
      (fun q => e.text.lexemeAt q == e.text.lexemeAt (relocate pads first)) =
        relocate pads first :: (rest.filter fun q => d.text.lexemeAt q == d.text.lexemeAt first).map
          (relocate pads)
    rw [List.filter_map, hlexeme first List.mem_cons_self]
    refine congrArg _ (congrArg _ (List.filter_congr fun q hq => ?_))
    rw [Function.comp_apply, hlexeme q (List.mem_cons_of_mem first hq)]

end Signs

/-- The signs that are aligned are the same ones. -/
theorem Stretched.alignedSigns_relocate (h : d.Stretched e pads)
    (hname : d.clauseNameAt? s pos = .ok (some name))
    (hclauses : d.definitionClauses s pos = .ok clauses) (hwithin : d.PadsWithin sign clauses pads)
    (hsigns : d.alignedSigns s sign pos = .ok signs) :
    e.alignedSigns s sign pos = .ok (signs.map (relocate pads)) := by
  obtain ⟨points, hpoints, -⟩ := d.codePoints_yields
  have hpoints' : e.codePoints = .ok (points.map (relocate pads)) := by
    rw [h.codePoints, hpoints]
    rfl
  have hcode : ∀ c ∈ clauses, ∀ p ∈ c.points, d.Uncommented p ∧
      e.Uncommented (relocate pads p) := by
    intro c hc p hp
    have hmem := mem_points_of_mem_clauseLines (named_of_mem_clauses hpoints hname hclauses hc).1 hp
    exact ⟨uncommented_of_mem_codePoints hpoints hmem,
      uncommented_of_mem_codePoints hpoints' (List.mem_map_of_mem hmem)⟩
  have hfound : e.foundSigns s sign pos =
      (d.foundSigns s sign pos).map (List.map (relocate pads)) := by
    unfold foundSigns
    rw [h.definitionClauses_relocate hpoints hname hclauses hwithin, hclauses, ok_bind, ok_bind,
      mapM_map_eq fun c hc => h.clauseSigns_relocate hwithin.signed (hcode c hc)]
    cases clauses.mapM (d.clauseSigns sign) with
    | error err => rfl
    | ok lists => exact congrArg Except.ok List.map_flatten.symm
  obtain ⟨found, hok, -, hsignOn⟩ := d.foundSigns_yields s sign pos
  rw [alignedSigns_eq, hok] at hsigns
  cases hsigns
  rw [alignedSigns_eq, hfound, hok]
  exact congrArg Except.ok (h.likeFirst_relocate hwithin.signed hsignOn)

/-! ## Alignment -/

/-- A scan from the start of the text takes the character at `q` for that of a literal. -/
def InLiteral (d : Document) (q : Int) : Prop :=
  ∃ piece, d.text.Visits d.bird 0 d.text.length (q - 1) piece ∧ piece.kind = .character

/-- Where no sign that lacks blanks is the character of a literal, the blanks are those of
`Stretched`. -/
theorem stretched_padded {target : Int} (hsigned : d.Signed sign (d.pads target signs))
    (hliteral : ∀ q ∈ signs, d.column q < target → ¬ d.InLiteral q) :
    d.Stretched (d.padded target signs) (d.pads target signs) := by
  refine ⟨rfl, rfl, rfl, hsigned.padsSigns, fun a piece hv hkind => ?_⟩
  have h₀ := hv.start_le
  have hcast : ((a.toNat + 1 : Nat) : Int) = a + 1 := by omega
  unfold pads
  split
  · next hmem =>
    rw [hcast] at hmem ⊢
    have hno : ¬ d.column (a + 1) < target := fun hlt =>
      hliteral _ hmem hlt ⟨piece, by rwa [Int.add_sub_cancel], hkind⟩
    omega
  · rfl

/-- Signs that all stand in one column are aligned at it. -/
theorem alignColumn_le {target : Int} (hcolumn : ∀ q ∈ signs, d.column q = target)
    (hleast : sign = .rhs → s.rhsAlignColumn ≤ target) (hq : q ∈ signs) :
    d.alignColumn s sign signs ≤ target := by
  have hmax : (signs.map d.column).max? = some target := by
    rw [List.map_congr_left hcolumn, List.map_const']
    exact List.max?_replicate_of_pos (List.length_pos_of_mem hq)
  rw [alignColumn_eq s sign hmax]
  cases sign with
  | guard => exact Int.le_refl _
  | rhs => exact Int.max_le.mpr ⟨Int.le_refl _, hleast rfl⟩

/-- The signs that are aligned can be found. When the clause around `pos` has a name and none of
these signs that lacks blanks is the character of a literal, a second alignment after one that
succeeds changes nothing: it succeeds, reports no line, and leaves the document with its version as
it is. -/
theorem align_align [Platform] (d : Document) (s : Settings) (sign : AlignSign) (pos : Int)
    {name : String} (hname : d.clauseNameAt? s pos = .ok (some name)) :
    ∃ signs, d.alignedSigns s sign pos = .ok signs ∧
      ((∀ q ∈ signs, d.column q < d.alignColumn s sign signs → ¬ d.InLiteral q) →
        ∀ e n, (d.align s sign pos).result = .ok (e, n) →
          (e.align s sign pos).result = .ok (e, 0)) := by
  obtain ⟨signs, hsigns, -⟩ := d.alignedSigns_yields s sign pos
  refine ⟨signs, hsigns, fun hliteral e n hen => ?_⟩
  obtain ⟨-, hpair⟩ := (align_eq_ok_iff hsigns).mp hen
  cases hpair
  obtain ⟨points, hpoints, -, hcode⟩ := d.codePoints_yields
  obtain ⟨clauses, hclauses, -⟩ := d.definitionClauses_yields s pos
  obtain ⟨found, hfound, -⟩ := d.foundSigns_yields s sign pos
  have hlike : signs = d.likeFirst found := by
    rw [alignedSigns_eq, hfound] at hsigns
    exact (Except.ok.inj hsigns).symm
  generalize htarget : d.alignColumn s sign signs = target at hliteral ⊢
  have hwithin : d.PadsWithin sign clauses (d.pads target signs) := by
    intro k hk
    have hmem : (k : Int) ∈ signs := by
      by_contra hno
      exact hk (if_neg hno)
    rw [hlike] at hmem
    refine exists_of_mem_foundSigns hclauses (fun c hc p hp => ?_) hfound
      ((d.likeFirst_sublist found).subset hmem)
    exact hcode p (mem_points_of_mem_clauseLines
      (named_of_mem_clauses hpoints hname hclauses hc).1 hp)
  have hstretched := stretched_padded hwithin.signed hliteral
  have hsigns' := hstretched.alignedSigns_relocate hname hclauses hwithin hsigns
  have hcolumn : ∀ q ∈ signs.map (relocate (d.pads target signs)),
      (d.padded target signs).column q = target := by
    intro q' hq'
    obtain ⟨q, hq, rfl⟩ := List.mem_map.mp hq'
    exact column_moved_sign (spread_alignedSigns hsigns) hq
      (htarget ▸ column_le_alignColumn s sign hq)
  refine align_eq_self hsigns' fun q hq => ?_
  rw [hcolumn q hq]
  refine alignColumn_le hcolumn ?_ hq
  rintro rfl
  exact htarget ▸ rhsAlignColumn_le s signs

/-- Two clauses; in the first one a literal holds a sign. -/
def literalPattern : Document := .new (Text.ofString "f '=' = 1\nf n = 2\n") .plain 8

/-- The second sign is brought under that of the first clause, and stays there. -/
theorem align_align_literalPattern :
    ∃ e, (literalPattern.align {} .rhs 0).result = .ok (e, 1) ∧
      e.text = Text.ofString "f '=' = 1\nf n   = 2\n" ∧
      (e.align {} .rhs 0).result = .ok (e, 0) := by
  have hname : literalPattern.clauseNameAt? {} 0 = .ok (some "f") := by decide +kernel
  obtain ⟨signs, hsigns, hagain⟩ := align_align literalPattern {} .rhs 0 hname
  have hfound : literalPattern.alignedSigns {} .rhs 0 = .ok [6, 14] := by decide +kernel
  cases hsigns.symm.trans hfound
  have hresult : (literalPattern.align {} .rhs 0).result = .ok _ :=
    (align_eq_ok_iff hfound).mpr ⟨by decide +kernel, rfl⟩
  rw [show literalPattern.alignColumn {} .rhs [6, 14] = 6 by decide +kernel,
    show literalPattern.lacking 6 [6, 14] = 1 by decide +kernel] at hresult
  have hpiece : ∀ q ∈ ([6, 14] : List Int),
      literalPattern.text.pieceAt false (q - 1) 18 = .ok ⟨.other, q⟩ := by
    decide +kernel
  refine ⟨_, hresult, by decide +kernel, hagain ?_ _ _ hresult⟩
  rintro q hq - ⟨piece, hv, hkind⟩
  cases (hpiece q hq).symm.trans hv.piece
  cases hkind

/-- A clause with a line that starts inside a string. The scanner finds the literal of an equals
sign on it, and behind that the start of a comment. -/
def gapLiteral : Document :=
  .new (Text.ofString "f xxxxxx = \"abc\\\n  | '\"'='\\\x7b- '\n  | y = 2\n") .plain 8

/-- The same clause with blanks in the literal. -/
def gapSpaced : Document :=
  { gapLiteral with
    text := Text.ofString "f xxxxxx = \"abc\\\n  | '\"'  ='\\\x7b- '\n  | y = 2\n"
    version := 1 }

/-- Blanks in the literal end it, and with it the comment over the last line; so a second alignment
finds one more sign. -/
theorem align_literal_twice :
    gapLiteral.clauseNameAt? {} 0 = .ok (some "f") ∧
      (gapLiteral.align {} .rhs 0).result = .ok (gapSpaced, 1) ∧
      ∃ e, (gapSpaced.align {} .rhs 0).result = .ok (e, 1) ∧ e.version = 2 ∧
        e.text = Text.ofString "f xxxxxx = \"abc\\\n  | '\"'  ='\\\x7b- '\n  | y    = 2\n" := by
  have hfirst : gapLiteral.alignedSigns {} .rhs 0 = .ok [9, 24] := by decide +kernel
  have hsecond : gapSpaced.alignedSigns {} .rhs 0 = .ok [9, 26, 40] := by decide +kernel
  have hresult : (gapLiteral.align {} .rhs 0).result = .ok _ :=
    (align_eq_ok_iff hfirst).mpr ⟨by decide +kernel, rfl⟩
  have hresult' : (gapSpaced.align {} .rhs 0).result = .ok _ :=
    (align_eq_ok_iff hsecond).mpr ⟨by decide +kernel, rfl⟩
  have hlacking : gapLiteral.lacking 9 [9, 24] = 1 := by decide +kernel
  have hpadded : gapLiteral.padded 9 [9, 24] = gapSpaced := by
    have htext : gapLiteral.text.widen (gapLiteral.pads 9 [9, 24]) = gapSpaced.text := by
      decide +kernel
    have hversion : gapLiteral.version + gapLiteral.lacking 9 [9, 24] = 1 := by rw [hlacking]; rfl
    exact congrArg₂ (fun text version => { gapLiteral with text := text, version := version }) htext
      hversion
  rw [show gapLiteral.alignColumn {} .rhs [9, 24] = 9 by decide +kernel, hpadded, hlacking]
    at hresult
  rw [show gapSpaced.alignColumn {} .rhs [9, 26, 40] = 9 by decide +kernel,
    show gapSpaced.lacking 9 [9, 26, 40] = 1 by decide +kernel] at hresult'
  exact ⟨by decide +kernel, hresult, _, hresult', by decide +kernel, by decide +kernel⟩

end Document

end LayoutRule

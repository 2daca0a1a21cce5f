import LayoutRule.Proofs.Editing.Signs
import LayoutRule.Proofs.Layout.Spacing
import Mathlib.Data.List.TakeWhile

/-!
# The definition around a place

The clauses of a definition are a longest run of clauses with one name (`LongestRun`), and which of
them the place stands in does not matter (`LongestRun.runAround_eq`). The name of a clause is read
off the start of its first line (`clauseName?_eq`).
-/

namespace LayoutRule

/-! ## Runs of one name -/

section Lists

variable {α : Type} {p q : α → Bool} {l l₁ l₂ rest : List α} {x : α}

/-- A stretch where a test holds, up to an entry where it fails. -/
theorem takeWhile_append_of_head (h₁ : ∀ a ∈ l₁, p a = true) (h₂ : ∀ a ∈ l₂.head?, p a = false) :
    (l₁ ++ l₂).takeWhile p = l₁ := by
  rw [List.takeWhile_append_of_pos h₁]
  cases l₂ with
  | nil => rw [List.takeWhile_nil, List.append_nil]
  | cons a l₂ => rw [List.takeWhile_cons_of_neg (by rw [h₂ a rfl]; decide), List.append_nil]

/-- What follows a stretch where a test holds starts with an entry where it fails. -/
theorem head?_dropWhile_of_mem {a : α} (h : a ∈ (l.dropWhile p).head?) : p a = false := by
  have hnot := List.head?_dropWhile_not p l
  rw [show (l.dropWhile p).head? = some a from h] at hnot
  exact hnot

/-- A stronger test that holds up to an entry cuts a stretch somewhere behind that entry. -/
theorem exists_takeWhile_of_imp (himp : ∀ a ∈ l, q a = true → p a = true)
    (htake : l.takeWhile p = l₁ ++ x :: rest) (hfirst : ∀ a ∈ l₁ ++ [x], q a = true) :
    ∃ rest₁ rest₂, l.takeWhile q = l₁ ++ x :: rest₁ ∧ rest = rest₁ ++ rest₂ := by
  have hsplit : l = l₁ ++ [x] ++ (rest ++ l.dropWhile p) := by
    conv_lhs => rw [← List.takeWhile_append_dropWhile (p := p) (l := l), htake]
    simp
  have hstop : ∀ a ∈ (rest.dropWhile q ++ l.dropWhile p).head?, q a = false := by
    intro a ha
    cases hdrop : rest.dropWhile q with
    | cons b bs =>
      rw [hdrop] at ha
      exact head?_dropWhile_of_mem (l := rest) (by rw [hdrop]; exact ha)
    | nil =>
      rw [hdrop, List.nil_append] at ha
      have hno := head?_dropWhile_of_mem ha
      have hmem : a ∈ l := (List.dropWhile_sublist p).subset (List.mem_of_mem_head? ha)
      cases hq : q a with
      | false => rfl
      | true =>
        rw [himp a hmem hq] at hno
        cases hno
  refine ⟨rest.takeWhile q, rest.dropWhile q, ?_, List.takeWhile_append_dropWhile.symm⟩
  have hinside : ∀ a ∈ l₁ ++ [x] ++ rest.takeWhile q, q a = true := by
    intro a ha
    rcases List.mem_append.mp ha with ha | ha
    · exact hfirst a ha
    · exact List.mem_takeWhile_imp ha
  calc l.takeWhile q
    _ = (l₁ ++ [x] ++ rest.takeWhile q ++ (rest.dropWhile q ++ l.dropWhile p)).takeWhile q := by
      rw [List.append_assoc, ← List.append_assoc (rest.takeWhile q),
        List.takeWhile_append_dropWhile, ← hsplit]
    _ = l₁ ++ [x] ++ rest.takeWhile q := takeWhile_append_of_head hinside hstop
    _ = l₁ ++ x :: rest.takeWhile q := by simp

end Lists

section Runs

variable {α : Type} {name : String} {starts : α × Option String → Bool} {here : α × Option String}
  {named before inner outer after : List (α × Option String)}

/-- The clauses of one name around the last one before the place, or that one alone when it has no
name. -/
def runAround (starts : α × Option String → Bool) (named : List (α × Option String)) :
    List (α × Option String) :=
  match (named.takeWhile starts).reverse with
  | [] => []
  | here :: above =>
    if here.2.isNone then [here]
    else (above.takeWhile fun c => c.2 == here.2).reverse ++
      here :: (named.dropWhile starts).takeWhile fun c => c.2 == here.2

/-- The clauses between those before and those after are a longest run of clauses with one name. -/
structure LongestRun (name : String) (before run after : List (α × Option String)) : Prop where
  same : ∀ c ∈ run, c.2 = some name
  first : ∀ c ∈ before.getLast?, c.2 ≠ some name
  last : ∀ c ∈ after.head?, c.2 ≠ some name

/-- Every place in a longest run of one name has that run around it. -/
theorem LongestRun.runAround_eq (h : LongestRun name before (inner ++ outer) after)
    (hnamed : named = before ++ inner ++ (outer ++ after))
    (htake : named.takeWhile starts = before ++ inner) (hne : inner ≠ []) :
    runAround starts named = inner ++ outer := by
  obtain ⟨above, here, rfl⟩ : ∃ above here, inner = above ++ [here] := by
    rcases List.eq_nil_or_concat inner with hnil | ⟨above, here, hconcat⟩
    · exact absurd hnil hne
    · exact ⟨above, here, by rw [hconcat, List.concat_eq_append]⟩
  have hname : here.2 = some name := h.same here (by simp)
  have hdrop : named.dropWhile starts = outer ++ after := by
    have hsplit := List.takeWhile_append_dropWhile (p := starts) (l := named)
    rw [htake] at hsplit
    conv_rhs at hsplit => rw [hnamed]
    exact List.append_cancel_left hsplit
  have hsame : ∀ {l : List (α × Option String)}, (∀ c ∈ l, c ∈ above ++ [here] ++ outer) →
      ∀ c ∈ l, (c.2 == some name) = true := fun hl c hc => beq_iff_eq.mpr (h.same c (hl c hc))
  have habove : (above.reverse ++ before.reverse).takeWhile (fun c => c.2 == some name) =
      above.reverse := by
    refine takeWhile_append_of_head (hsame fun c hc => ?_) fun c hc => ?_
    · rw [List.mem_reverse] at hc
      simp [hc]
    · rw [List.head?_reverse] at hc
      exact beq_eq_false_iff_ne.mpr (h.first c hc)
  have hbelow : (outer ++ after).takeWhile (fun c => c.2 == some name) = outer := by
    refine takeWhile_append_of_head (hsame fun c hc => ?_) fun c hc => ?_
    · simp [hc]
    · exact beq_eq_false_iff_ne.mpr (h.last c hc)
  have hreverse : (before ++ (above ++ [here])).reverse =
      here :: (above.reverse ++ before.reverse) := by simp
  unfold runAround
  rw [htake, hreverse]
  simp only [hname, hdrop, habove, hbelow, Option.isNone_some, Bool.false_eq_true, if_false,
    List.reverse_reverse]
  simp

/-- A place in a clause with a name stands in a longest run of that name. -/
theorem exists_longestRun (hlast : (named.takeWhile starts).getLast? = some here)
    (hname : here.2 = some name) :
    ∃ before inner outer after, named = before ++ inner ++ (outer ++ after) ∧
      named.takeWhile starts = before ++ inner ∧
      inner ≠ [] ∧ LongestRun name before (inner ++ outer) after := by
  obtain ⟨above, habove⟩ : ∃ above, named.takeWhile starts = above ++ [here] :=
    List.getLast?_eq_some_iff.mp hlast
  have hsplit := List.takeWhile_append_dropWhile
    (p := fun c : α × Option String => c.2 == some name) (l := above.reverse)
  have htake : named.takeWhile starts =
      (above.reverse.dropWhile fun c => c.2 == some name).reverse ++
      ((above.reverse.takeWhile fun c => c.2 == some name).reverse ++ [here]) := by
    rw [habove, ← List.append_assoc, ← List.reverse_append, hsplit, List.reverse_reverse]
  refine ⟨_, _, (named.dropWhile starts).takeWhile fun c => c.2 == some name,
    (named.dropWhile starts).dropWhile fun c => c.2 == some name, ?_, htake, by simp, ?_⟩
  · rw [List.takeWhile_append_dropWhile, ← htake, List.takeWhile_append_dropWhile]
  · constructor
    · intro c hc
      rw [List.mem_append, List.mem_append, List.mem_singleton, List.mem_reverse] at hc
      rcases hc with (hc | rfl) | hc
      · exact beq_iff_eq.mp
          (List.mem_takeWhile_imp (p := fun c : α × Option String => c.2 == some name) hc)
      · exact hname
      · exact beq_iff_eq.mp
          (List.mem_takeWhile_imp (p := fun c : α × Option String => c.2 == some name) hc)
    · intro c hc
      rw [List.getLast?_reverse] at hc
      exact beq_eq_false_iff_ne.mp
        (head?_dropWhile_of_mem (p := fun c : α × Option String => c.2 == some name) hc)
    · intro c hc
      exact beq_eq_false_iff_ne.mp
        (head?_dropWhile_of_mem (p := fun c : α × Option String => c.2 == some name) hc)

end Runs

namespace Document

open Text

variable {d : Document} {s : Settings} {pos p : Int} {points : List Int}

/-! ## Lines of code -/

/-- The indentation point of a line of code, where no comment starts or is open. -/
structure Uncommented (d : Document) (p : Int) : Prop where
  point : d.CodePoint p
  /-- No comment starts there. -/
  comment : d.commentAt p = .ok false
  /-- No comment from above is open there. -/
  closed : d.openComment? 0 p = .ok none

/-- The indentation point of a line of code does not lie in a comment, nor does one start there. -/
theorem uncommented_of_codePoint? {bol : Int} (h : d.codePoint? bol = .ok (some p)) :
    d.Uncommented p := by
  have hpoint := ((d.codePoint?_yields bol).of_eq h p rfl).1
  unfold codePoint? at h
  split at h
  · cases h
  dsimp only at h
  obtain ⟨comment, hcomment, h⟩ := bind_eq_ok.1 h
  split at h
  · cases h
  next hno =>
  obtain ⟨opened, hopened, h⟩ := bind_eq_ok.1 h
  split at h
  · cases h
  next hnone =>
  cases h
  rw [Bool.not_eq_true] at hno
  rw [Option.not_isSome_iff_eq_none] at hnone
  exact ⟨hpoint, hno ▸ hcomment, hnone ▸ hopened⟩

/-- No indentation point among those of the lines of code has to do with a comment. -/
theorem uncommented_of_mem_codePoints (h : d.codePoints = .ok points) (hp : p ∈ points) :
    d.Uncommented p := by
  unfold codePoints at h
  obtain ⟨rs, hrs, h⟩ := bind_eq_ok.1 h
  cases h
  have hresults : Yields (d.text.lineStarts.mapM d.codePoint?)
      (List.Forall₂ (fun bol r => d.codePoint? bol = .ok r) _) :=
    Yields.mapM fun bol _ => (d.codePoint?_yields bol).imp fun r hr => ⟨hr.1, hr.1⟩
  obtain ⟨bol, -, hbol⟩ := exists_of_mem_results (hresults.of_eq hrs) hp
  exact uncommented_of_codePoint? hbol

/-! ## Names -/

/-- The name that stands at a place. -/
def nameAt? (d : Document) (p : Int) : Option String :=
  (d.text.nameStop? p.toNat).map fun stop =>
    String.ofList (d.text.chars.extract p.toNat stop).toList

/-- The head of a clause gives the clause the name that the clause starts with, if it starts with
one. -/
theorem nameText_headPart {start stop origin : Int} {m : Marker} {clause : Clause} {c : Cursor}
    (h : d.headPart start stop origin m = .ok (clause, c)) :
    clause.nameText = if m.kind = .name then some m.text else none := by
  unfold headPart at h
  split at h
  · next hkind =>
    obtain ⟨r, -, h⟩ := bind_eq_ok.1 h
    cases h
    rw [if_pos hkind]
  · next hkind =>
    obtain ⟨j, -, h⟩ := bind_eq_ok.1 h
    obtain ⟨r, -, h⟩ := bind_eq_ok.1 h
    cases h
    rw [if_neg (by rw [hkind]; decide)]
  · next hname _ =>
    cases h
    rw [if_neg hname]

/-- Looking for the guard of a clause leaves its name. -/
theorem nameText_guardPart {stop origin : Int} {clause clause' : Clause} {c c' : Cursor}
    (h : d.guardPart stop origin clause c = .ok (clause', c')) :
    clause'.nameText = clause.nameText := by
  unfold guardPart at h
  split at h
  · obtain ⟨g, -, h⟩ := bind_eq_ok.1 h
    cases h
    rfl
  · cases h
    rfl

/-- Looking for the right-hand side of a clause leaves its name. -/
theorem nameText_rhsPart (stop : Int) (clause : Clause) (c : Cursor) :
    (rhsPart stop clause c).nameText = clause.nameText := by
  unfold rhsPart
  split <;> rfl

/-- The marker at the start of the code of a line. -/
theorem Uncommented.exists_marker {origin limit : Int} (h : d.Uncommented p)
    (horigin : origin = p ∨ origin = 0) (hlimit : limit ≤ d.text.length) :
    ∃ m, d.markerAt p origin limit = .ok m ∧
      (m.kind, m.text) = (d.text.markerStop? p.toNat).elim (.other, "") fun r =>
      (r.1, String.ofList (d.text.chars.extract p.toNat r.2).toList) := by
  have h₀ := h.point.nonneg
  have hlt := h.point.lt_lineStop
  have hlen := d.text.lineStop_le_length p
  have hclosed : d.openComment? (min origin p) p = .ok none := by
    rcases horigin with rfl | rfl
    · rw [Int.min_self]
      unfold openComment?
      rw [if_pos (Int.le_refl _), h.comment]
      rfl
    · rw [Int.min_eq_left h₀]
      exact h.closed
  rw [markerAt_of_shown h₀ (by omega) h.point.notBlank hclosed]
  cases d.text.markerStop? p.toNat with
  | none => exact ⟨_, rfl, rfl⟩
  | some r =>
    obtain ⟨n, hn, -⟩ := skipBlanks_yields (d := d) (Int.natCast_nonneg r.2) hlimit
    refine ⟨⟨r.1, p, n, _⟩, ?_, rfl⟩
    simp only [hn]
    rfl

/-- The name of a clause stands at the start of its first line. -/
theorem clauseName?_eq {c : ClauseLines} (h : d.Uncommented c.head) :
    d.clauseName? c = .ok (d.nameAt? c.head) := by
  obtain ⟨clause, hclause, -⟩ := h.point.clauseAt_yields
  obtain ⟨m, hm, hmarker⟩ := h.exists_marker (.inl rfl) (d.text.lineStop_le_length c.head)
  have htext : clause.nameText = if m.kind = .name then some m.text else none := by
    unfold clauseAt at hclause
    rw [hm, ok_bind] at hclause
    obtain ⟨⟨first, cursor⟩, hfirst, hclause⟩ := bind_eq_ok.1 hclause
    obtain ⟨⟨second, cursor'⟩, hsecond, hclause⟩ := bind_eq_ok.1 hclause
    cases hclause
    rw [nameText_rhsPart, nameText_guardPart hsecond, nameText_headPart hfirst]
  have hname : (if m.kind = .name then some m.text else none) = d.nameAt? c.head := by
    unfold markerStop? at hmarker
    unfold nameAt?
    cases hstop : d.text.nameStop? c.head.toNat with
    | some stop =>
      rw [hstop] at hmarker
      have hkind : m.kind = .name := congrArg Prod.fst hmarker
      have hword : m.text = _ := congrArg Prod.snd hmarker
      rw [if_pos hkind, hword]
      rfl
    | none =>
      refine if_neg fun hkind => ?_
      rw [hstop, hkind] at hmarker
      cases hguard : d.text.guardStop? c.head.toNat with
      | some stop =>
        rw [hguard] at hmarker
        cases hmarker
      | none =>
        rw [hguard] at hmarker
        cases hrhs : d.text.rhsStop? c.head.toNat with
        | some stop =>
          rw [hrhs] at hmarker
          cases hmarker
        | none =>
          rw [hrhs] at hmarker
          cases hmarker
  unfold clauseName?
  rw [hclause, ok_bind, htext, hname]
  rfl

/-! ## Clauses -/

variable {top : Int} {c : ClauseLines} {name : String}

/-- The lines of a clause are among those that were cut into clauses. -/
theorem mem_points_of_mem_clauseLines (hc : c ∈ d.clauseLines top points) (hp : p ∈ c.points) :
    p ∈ points := by
  rw [← flatMap_clauseLines (d := d) top points]
  exact List.mem_flatMap.mpr ⟨c, hc, hp⟩

/-- The lines below the first one of a clause are indented deeper. -/
theorem isDeeper_of_mem_rest (hc : c ∈ d.clauseLines top points) (hp : p ∈ c.rest) :
    d.isDeeper top p = true := by
  fun_induction clauseLines d top points with
  | case1 => cases hc
  | case2 q points ih =>
    rcases List.mem_cons.mp hc with rfl | hc
    · exact List.mem_takeWhile_imp hp
    · exact ih hc

/-- A clause with its name. -/
def withName (d : Document) (c : ClauseLines) : ClauseLines × Option String := (c, d.nameAt? c.head)

/-- Whether a clause starts no later than the line of `pos`. -/
def startsBy (d : Document) (pos : Int) (c : ClauseLines × Option String) : Bool :=
  decide (d.text.lineStart c.1.head ≤ pos)

/-- The name of every clause can be told, so that all clauses are found with their names. -/
theorem mapM_withName (h : d.codePoints = .ok points) :
    (d.clauseLines top points).mapM (fun c => do return (c, ← d.clauseName? c)) =
      .ok ((d.clauseLines top points).map d.withName) := by
  have hnames : ∀ c ∈ d.clauseLines top points,
      (do return (c, ← d.clauseName? c) : Except Fault _) = .ok (d.withName c) := by
    intro c hc
    rw [clauseName?_eq
      (uncommented_of_mem_codePoints h (mem_points_of_mem_clauseLines hc List.mem_cons_self))]
    rfl
  generalize d.clauseLines top points = clauses at hnames
  induction clauses with
  | nil => rfl
  | cons c clauses ih =>
    rw [List.mapM_cons, hnames c List.mem_cons_self, ok_bind,
      ih fun c' hc' => hnames c' (List.mem_cons_of_mem c hc')]
    rfl

/-- The clauses of the definition around a place. -/
theorem definitionClauses_eq (h : d.codePoints = .ok points) :
    d.definitionClauses s pos =
      .ok ((runAround (d.startsBy pos) ((d.clauseLines (s.topColumn d) points).map d.withName)).map
        (·.1)) := by
  unfold definitionClauses
  rw [h, ok_bind]
  dsimp only
  rw [mapM_withName h, ok_bind,
    show (fun c : ClauseLines × Option String => decide (d.text.lineStart c.1.head ≤ pos)) =
      d.startsBy pos from rfl]
  unfold runAround
  cases (((d.clauseLines (s.topColumn d) points).map d.withName).takeWhile (d.startsBy pos)).reverse
    with
  | nil => rfl
  | cons here above =>
    simp only
    split
    · rfl
    · rfl

/-- The name of the last clause that starts no later than the line of `pos`. -/
def clauseNameAt? (d : Document) (s : Settings) (pos : Int) : Except Fault (Option String) := do
  let clauses := d.clauseLines (s.topColumn d) (← d.codePoints)
  match (clauses.takeWhile fun c => decide (d.text.lineStart c.head ≤ pos)).getLast? with
  | some c => d.clauseName? c
  | none => return none

/-- The name of the clause at a place is that of the last clause that starts no later. -/
theorem getLast?_of_clauseNameAt? (h : d.codePoints = .ok points)
    (hname : d.clauseNameAt? s pos = .ok (some name)) :
    ∃ here, (((d.clauseLines (s.topColumn d) points).map d.withName).takeWhile
      (d.startsBy pos)).getLast? = some here ∧
      here.2 = some name := by
  unfold clauseNameAt? at hname
  rw [h, ok_bind] at hname
  dsimp only at hname
  rw [List.takeWhile_map, List.getLast?_map]
  show ∃ here, Option.map d.withName
    ((d.clauseLines (s.topColumn d) points).takeWhile
      fun c => decide (d.text.lineStart c.head ≤ pos)).getLast? = some here ∧ _
  split at hname
  · next c hc =>
    have hmem : c ∈ d.clauseLines (s.topColumn d) points :=
      (List.takeWhile_sublist _).subset (List.mem_of_getLast? hc)
    rw [clauseName?_eq
      (uncommented_of_mem_codePoints h (mem_points_of_mem_clauseLines hmem List.mem_cons_self))]
      at hname
    rw [hc]
    exact ⟨_, rfl, Except.ok.inj hname⟩
  · cases hname

end Document

end LayoutRule

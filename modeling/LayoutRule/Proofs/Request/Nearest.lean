import LayoutRule.Proofs.Request.Offers
import Mathlib.Data.List.Forall2

/-!
# The nearest candidate

`Request.nearestFirst` sorts candidates by their distance from a column, and equally near ones keep
their order. So its first candidate is the first of the nearest ones (`head?_nearestFirst`), and it
does not matter whether a list repeats candidates: only what a search through the list finds matters
(`SameFinds`).

A candidate *attracts* when moving others onto it does not take the first place away from it. Below
a contour this is so wherever the moved candidates come behind all that put text in
(`Drawn.attracts_offerAll`), and also when the candidate at the column of a bracket is replaced
afterwards (`Drawn.attracts_replaceBracketColumn`).
-/

namespace LayoutRule

/-- How far a candidate lies from a column. -/
def Candidate.distance (c : Candidate) (col : Int) : Nat := (col - c.column).natAbs

/-- The candidate as it is kept in a list: the margin is the least column. -/
def Candidate.kept (c : Candidate) : Candidate := { c with column := max 0 c.column }

/-- A candidate that is not left of the margin is kept as it is. -/
theorem Candidate.kept_eq {c : Candidate} (h : 0 ≤ c.column) : c.kept = c := by
  unfold kept
  rw [Int.max_eq_right h]

/-! ## Searches -/

/-- Lists in which every search finds the same. -/
def SameFinds (l l' : List Candidate) : Prop := ∀ p : Candidate → Bool, l.find? p = l'.find? p

namespace SameFinds

variable {l l' m m' : List Candidate}

/-- Searches that find the same in two pairs of lists find the same from end to end. -/
theorem trans {l'' : List Candidate} (h : SameFinds l l') (h' : SameFinds l' l'') :
    SameFinds l l'' :=
  fun p => (h p).trans (h' p)

/-- Lists in which searches find the same can be put one behind the other. -/
theorem append (h : SameFinds l l') (h' : SameFinds m m') : SameFinds (l ++ m) (l' ++ m') := by
  intro p
  rw [List.find?_append, List.find?_append, h p, h' p]

/-- When the candidates of both lists are changed in the same way, searches still find the same. -/
theorem map (h : SameFinds l l') (f : Candidate → Candidate) : SameFinds (l.map f) (l'.map f) := by
  intro p
  rw [List.find?_map, List.find?_map, h]

/-- Lists in which searches find the same have the same candidates. -/
theorem mem_iff (h : SameFinds l l') {c : Candidate} : c ∈ l ↔ c ∈ l' := by
  have hfind : ∀ l : List Candidate, c ∈ l ↔ (l.find? (· == c)).isSome := by
    intro l
    rw [List.find?_isSome]
    simp
  rw [hfind, hfind, h]

/-- Lists in which searches find the same start with the same candidate. -/
theorem head? (h : SameFinds l l') : l.head? = l'.head? := by
  have hfind : ∀ l : List Candidate, l.find? (fun _ => true) = l.head? := by
    intro l
    cases l <;> rfl
  rw [← hfind, ← hfind, h]

end SameFinds

/-- A candidate that was there before is never found. -/
theorem sameFinds_of_mem {l : List Candidate} {c : Candidate} (h : c ∈ l) (m : List Candidate) :
    SameFinds (l ++ c :: m) (l ++ m) := by
  intro p
  rw [List.find?_append, List.find?_append]
  cases hp : l.find? p with
  | some x => rfl
  | none =>
    have hc : p c = false := by simpa using List.find?_eq_none.mp hp c h
    rw [List.find?_cons, hc]

/-- Offering candidates adds them at the end, as far as searches can tell. -/
theorem sameFinds_offerAll (cs more : List Candidate) :
    SameFinds (offerAll cs more) (cs ++ more.map Candidate.kept) := by
  induction more generalizing cs with
  | nil =>
    intro p
    rw [List.map_nil, List.append_nil]
    rfl
  | cons c rest ih =>
    refine (ih (offer cs c)).trans ?_
    rw [List.map_cons]
    show SameFinds ((if c.kept ∈ cs then cs else cs ++ [c.kept]) ++ rest.map Candidate.kept) _
    split
    · next hmem => exact fun p => (sameFinds_of_mem hmem _ p).symm
    · intro p
      rw [List.append_assoc]
      rfl

/-! ## The first of the nearest -/

namespace Request

variable {col : Int} {c : Candidate} {cs cs' : List Candidate}

/-- The first candidate in the order of distance is the first one that no other is nearer than. -/
theorem head?_nearestFirst :
    (nearestFirst col cs).head? = some c ↔
      cs.find? (fun x => decide (x.distance col ≤ c.distance col)) = some c ∧
        ∀ x ∈ cs, c.distance col ≤ x.distance col := by
  have htrans : ∀ x y z : Candidate, decide (x.distance col ≤ y.distance col) = true →
      decide (y.distance col ≤ z.distance col) = true →
        decide (x.distance col ≤ z.distance col) = true := by
    intro x y z h₁ h₂
    rw [decide_eq_true_eq] at *
    omega
  have htotal : ∀ x y : Candidate,
      (decide (x.distance col ≤ y.distance col) || decide (y.distance col ≤ x.distance col)) =
        true := by
    intro x y
    rw [Bool.or_eq_true, decide_eq_true_eq, decide_eq_true_eq]
    omega
  show (cs.mergeSort fun x y => decide (x.distance col ≤ y.distance col)).head? = some c ↔ _
  induction cs with
  | nil => simp
  | cons a rest ih =>
    obtain ⟨l₁, l₂, hsort, hrest, hnearer⟩ := List.mergeSort_cons htrans htotal a rest
    have hmem : ∀ x, x ∈ rest ↔ x ∈ l₁ ++ l₂ := by
      intro x
      rw [← hrest]
      exact List.mem_mergeSort.symm
    rw [hsort, List.find?_cons]
    cases l₁ with
    | nil =>
      -- no candidate of the rest is nearer than the first one
      have hsorted := List.pairwise_mergeSort htrans htotal (a :: rest)
      rw [hsort, List.nil_append, List.pairwise_cons] at hsorted
      have hfirst : ∀ x ∈ rest, a.distance col ≤ x.distance col := fun x hx =>
        of_decide_eq_true (hsorted.1 x ((hmem x).mp hx))
      rw [List.nil_append, List.head?_cons, Option.some.injEq]
      constructor
      · rintro rfl
        rw [decide_eq_true (Nat.le_refl _)]
        refine ⟨rfl, fun x hx => ?_⟩
        rcases List.mem_cons.mp hx with rfl | hx
        · exact Nat.le_refl _
        · exact hfirst x hx
      · rintro ⟨hfind, hleast⟩
        by_cases hnear : a.distance col ≤ c.distance col
        · rw [decide_eq_true hnear] at hfind
          exact Option.some.inj hfind
        · rw [decide_eq_false hnear] at hfind
          exact absurd (hfirst c (List.mem_of_find?_eq_some hfind)) hnear
    | cons b l₁ =>
      have hb := hnearer b List.mem_cons_self
      rw [Bool.not_eq_true', decide_eq_false_iff_not, Nat.not_le] at hb
      have hhead : ((b :: l₁) ++ a :: l₂).head? = (rest.mergeSort fun x y =>
          decide (x.distance col ≤ y.distance col)).head? := by
        rw [hrest]
        rfl
      rw [hhead, ih]
      have hbrest := (hmem b).mpr (by simp)
      constructor
      · rintro ⟨hfind, hleast⟩
        have hcb := hleast b hbrest
        rw [decide_eq_false (by omega)]
        refine ⟨hfind, fun x hx => ?_⟩
        rcases List.mem_cons.mp hx with rfl | hx
        · omega
        · exact hleast x hx
      · rintro ⟨hfind, hleast⟩
        have hcb := hleast b (List.mem_cons_of_mem a hbrest)
        rw [decide_eq_false (by omega)] at hfind
        exact ⟨hfind, fun x hx => hleast x (List.mem_cons_of_mem a hx)⟩

/-! ## Candidates that are moved -/

/-- The second list is the first with some candidates moved onto `c`. -/
def Moved (c : Candidate) (l l' : List Candidate) : Prop :=
  List.Forall₂ (fun x x' => x' = x ∨ x' = c) l l'

namespace Moved

variable {l l' : List Candidate}

/-- A list in which nothing was moved. -/
theorem refl (c : Candidate) (l : List Candidate) : Moved c l l :=
  List.forall₂_same.mpr fun _ _ => .inl rfl

/-- A candidate of the new list is one of the old list, or the one that others were moved onto. -/
theorem mem (h : Moved c l l') {x : Candidate} (hx : x ∈ l') : x ∈ l ∨ x = c := by
  induction h with
  | nil => cases hx
  | cons hhead _ ih =>
    rcases List.mem_cons.mp hx with rfl | hx
    · rcases hhead with rfl | rfl
      · exact .inl List.mem_cons_self
      · exact .inr rfl
    · exact (ih hx).imp_left (List.mem_cons_of_mem _)

/-- A search that finds the candidate itself still finds it. -/
theorem find? (h : Moved c l l') {p : Candidate → Bool} (hp : p c = true)
    (hfind : l.find? p = some c) : l'.find? p = some c := by
  induction h with
  | nil => cases hfind
  | @cons x x' rest rest' hhead _ ih =>
    rw [List.find?_cons] at hfind ⊢
    rcases hhead with rfl | rfl
    · cases hx : p x' with
      | true => rwa [hx] at hfind
      | false =>
        rw [hx] at hfind
        exact ih hfind
    · rw [hp]

/-- Candidates that were moved onto one are so after a change that leaves this one. -/
theorem map {f : Candidate → Candidate} (h : Moved c l l') (hf : f c = c) :
    Moved c (l.map f) (l'.map f) := by
  unfold Moved
  rw [List.forall₂_map_left_iff, List.forall₂_map_right_iff]
  refine List.Forall₂.imp ?_ h
  rintro x _ (rfl | rfl)
  · exact .inl rfl
  · exact .inr hf

end Moved

/-- Where the candidate is the first of the nearest ones in one list, it is so in the other. -/
def Attracts (c : Candidate) (cs cs' : List Candidate) : Prop :=
  ∀ col, (nearestFirst col cs).head? = some c → (nearestFirst col cs').head? = some c

/-- Candidates that are moved onto the first of the nearest ones leave it the first. -/
theorem attracts_of_moved {l l' : List Candidate} (hl : SameFinds cs l) (hl' : SameFinds cs' l')
    (h : c ∈ cs → Moved c l l') : Attracts c cs cs' := by
  intro col hhead
  have hmoved := h (List.mem_mergeSort.mp (List.mem_of_mem_head? hhead))
  rw [head?_nearestFirst, hl] at hhead
  rw [head?_nearestFirst, hl']
  refine ⟨hmoved.find? (decide_eq_true (Nat.le_refl _)) hhead.1, fun x hx => ?_⟩
  rcases hmoved.mem (hl'.mem_iff.mp hx) with hx | rfl
  · exact hhead.2 x (hl.mem_iff.mpr hx)
  · exact Nat.le_refl _

/-! ## Replacing the candidate at a bracket -/

/-- Puts `z` in place of `y`. -/
def swap (y z x : Candidate) : Candidate := if x = y then z else x

/-- When no candidate has the column of the bracket, the column inside the bracket is offered behind
all of them. -/
theorem replaceBracketColumn_of_absent {bracketCol basic : Int} (found : List Candidate)
    (h : ∀ c ∈ cs, c.column ≠ bracketCol) :
    replaceBracketColumn bracketCol basic found cs = offer (offerAll found cs) ⟨basic, none⟩ := by
  induction cs generalizing found with
  | nil => rfl
  | cons c rest ih =>
    rw [replaceBracketColumn, if_neg (h c List.mem_cons_self),
      ih _ fun c' hc' => h c' (List.mem_cons_of_mem c hc')]
    rfl

/-- The first candidate with the column of the bracket gives its place to the column inside the
bracket. -/
theorem replaceBracketColumn_of_first {bracketCol basic : Int} {y : Candidate}
    {more : List Candidate} (found : List Candidate) (h : ∀ c ∈ cs, c.column ≠ bracketCol)
    (hy : y.column = bracketCol) :
    replaceBracketColumn bracketCol basic found (cs ++ y :: more) =
      offerAll (offer (offerAll found cs) ⟨basic, none⟩) more := by
  induction cs generalizing found with
  | nil =>
    rw [List.nil_append, replaceBracketColumn, if_pos hy]
    rfl
  | cons c rest ih =>
    rw [List.cons_append, replaceBracketColumn, if_neg (h c List.mem_cons_self),
      ih _ fun c' hc' => h c' (List.mem_cons_of_mem c hc')]
    rfl

/-- As far as searches can tell, the column of the code inside a bracket replaces one candidate and
comes last. The candidate is the first at the column of the bracket; where there is none, any other
may be taken for it. -/
theorem sameFinds_replaceBracketColumn {bracketCol basic : Int} {y : Candidate} (h : Offered cs)
    (hy : cs.find? (·.column == bracketCol) = some y ∨
      (cs.find? (·.column == bracketCol) = none ∧ y.column = bracketCol)) :
    SameFinds (replaceBracketColumn bracketCol basic [] cs)
      (cs.map (swap y (Candidate.kept ⟨basic, none⟩)) ++ [Candidate.kept ⟨basic, none⟩]) := by
  have hkept : ∀ l : List Candidate, l ⊆ cs → l.map Candidate.kept = l := fun l hl =>
    (List.map_congr_left fun c hc => Candidate.kept_eq (h.column_nonneg c (hl hc))).trans l.map_id
  have hoffered : ∀ l : List Candidate, l ⊆ cs → SameFinds (offerAll [] l) l := by
    intro l hl
    have hfinds := sameFinds_offerAll [] l
    rwa [hkept l hl] at hfinds
  -- candidates other than `y` stay where they are
  have hstay : ∀ l : List Candidate, y ∉ l → l.map (swap y (Candidate.kept ⟨basic, none⟩)) = l := by
    intro l hl
    refine (List.map_congr_left fun c hc => ?_).trans l.map_id
    refine if_neg ?_
    rintro rfl
    exact hl hc
  rcases hy with hfirst | ⟨hnone, hcol⟩
  · obtain ⟨hcol, l₁, l₂, rfl, hbefore⟩ := List.find?_eq_some_iff_append.mp hfirst
    have habsent : ∀ c ∈ l₁, c.column ≠ bracketCol := fun c hc => by simpa using hbefore c hc
    have hnodup := List.nodup_append.mp h.nodup
    have hy₁ : y ∉ l₁ := fun hmem => habsent y hmem (by simpa using hcol)
    have hy₂ : y ∉ l₂ := (List.nodup_cons.mp hnodup.2.1).1
    rw [replaceBracketColumn_of_first [] habsent (by simpa using hcol), List.map_append,
      List.map_cons, hstay l₁ hy₁, hstay l₂ hy₂, swap, if_pos rfl]
    refine (sameFinds_offerAll _ l₂).trans ?_
    rw [hkept l₂ (by simp), List.append_assoc]
    have hhead := (sameFinds_offerAll (offerAll [] l₁) [⟨basic, none⟩]).trans
      ((hoffered l₁ (by simp)).append fun _ => rfl)
    refine (hhead.append fun _ => rfl).trans fun p => ?_
    have hlast := sameFinds_of_mem (l := l₁ ++ Candidate.kept ⟨basic, none⟩ :: l₂)
      (c := Candidate.kept ⟨basic, none⟩) (by simp) [] p
    simpa using hlast.symm
  · have habsent : ∀ c ∈ cs, c.column ≠ bracketCol :=
      fun c hc => by simpa using List.find?_eq_none.mp hnone c hc
    rw [replaceBracketColumn_of_absent [] habsent, hstay cs fun hmem => habsent y hmem hcol]
    exact (sameFinds_offerAll (offerAll [] cs) [⟨basic, none⟩]).trans
      ((hoffered cs fun _ hc => hc).append fun _ => rfl)

/-! ## Candidates that attract -/

/-- The second list is the first with some candidates moved onto `c`, and from the first of these on
none puts text in. -/
def Drawn (c : Candidate) (l l' : List Candidate) : Prop :=
  ∃ same rest rest', l = same ++ rest ∧ l' = same ++ rest' ∧ Moved c rest rest' ∧
    ∀ x ∈ rest ++ rest', x.insert = none

namespace Drawn

variable {l l' : List Candidate}

/-- Candidates that are drawn to one are moved onto it. -/
theorem moved (h : Drawn c l l') : Moved c l l' := by
  obtain ⟨same, rest, rest', rfl, rfl, hmoved, -⟩ := h
  exact List.rel_append (Moved.refl c same) hmoved

/-- Candidates that are drawn to one and then offered leave it the first of the nearest ones. -/
theorem attracts_offerAll (h : Drawn c l l') (hc : 0 ≤ c.column) :
    Attracts c (offerAll [] l) (offerAll [] l') :=
  attracts_of_moved (sameFinds_offerAll [] l) (sameFinds_offerAll [] l') fun _ =>
    h.moved.map (Candidate.kept_eq hc)

/-- The candidate that gives way to the code inside a bracket is the same in both lists. -/
theorem exists_replaced (h : Drawn c l l') (bracketCol : Int) :
    ∃ y, ∀ m ∈ [l, l'], m.find? (·.column == bracketCol) = some y ∨
      (m.find? (·.column == bracketCol) = none ∧ y.column = bracketCol) := by
  obtain ⟨same, rest, rest', rfl, rfl, -, hinsert⟩ := h
  cases hsame : same.find? (·.column == bracketCol) with
  | some y =>
    refine ⟨y, fun m hm => .inl ?_⟩
    simp only [List.mem_cons, List.not_mem_nil, or_false] at hm
    rcases hm with rfl | rfl <;> rw [List.find?_append, hsame] <;> rfl
  | none =>
    refine ⟨⟨bracketCol, none⟩, fun m hm => ?_⟩
    have hrest : ∀ m : List Candidate, (∀ x ∈ m, x.insert = none) →
        m.find? (·.column == bracketCol) = some ⟨bracketCol, none⟩ ∨
          (m.find? (·.column == bracketCol) = none ∧
            (⟨bracketCol, none⟩ : Candidate).column = bracketCol) := by
      intro m hm
      cases hfind : m.find? (·.column == bracketCol) with
      | none => exact .inr ⟨rfl, rfl⟩
      | some x =>
        have hcol : x.column = bracketCol := by simpa using List.find?_some hfind
        have hnone := hm x (List.mem_of_find?_eq_some hfind)
        cases x
        cases hcol
        cases hnone
        exact .inl rfl
    simp only [List.mem_cons, List.not_mem_nil, or_false] at hm
    rcases hm with rfl | rfl <;> rw [List.find?_append, hsame, Option.none_or]
    · exact hrest rest fun x hx => hinsert x (List.mem_append_left _ hx)
    · exact hrest rest' fun x hx => hinsert x (List.mem_append_right _ hx)

/-- Candidates that are drawn to one, itself not left of the margin, are so when all are kept. -/
theorem map_kept (h : Drawn c l l') (hc : 0 ≤ c.column) :
    Drawn c (l.map Candidate.kept) (l'.map Candidate.kept) := by
  obtain ⟨same, rest, rest', rfl, rfl, hmoved, hinsert⟩ := h
  refine ⟨same.map Candidate.kept, rest.map Candidate.kept, rest'.map Candidate.kept,
    List.map_append, List.map_append, hmoved.map (Candidate.kept_eq hc), ?_⟩
  rw [← List.map_append]
  intro x hx
  obtain ⟨y, hy, rfl⟩ := List.mem_map.mp hx
  exact hinsert y hy

/-- The first of the nearest candidates stays so when candidates are drawn to it and the column of a
bracket is replaced afterwards. Both lists are searched for this column, and where the search ends
may differ. -/
theorem attracts_replaceBracketColumn (h : Drawn c l l') (hc : 0 ≤ c.column)
    (bracketCol basic : Int) :
    Attracts c (replaceBracketColumn bracketCol basic [] (offerAll [] l))
      (replaceBracketColumn bracketCol basic [] (offerAll [] l')) := by
  have hkept := h.map_kept hc
  obtain ⟨y, hy⟩ := hkept.exists_replaced bracketCol
  have hfinds : ∀ m, (m.map Candidate.kept).find? (·.column == bracketCol) = some y ∨
      ((m.map Candidate.kept).find? (·.column == bracketCol) = none ∧ y.column = bracketCol) →
      SameFinds (replaceBracketColumn bracketCol basic [] (offerAll [] m))
        ((m.map Candidate.kept).map (swap y (Candidate.kept ⟨basic, none⟩)) ++
          [Candidate.kept ⟨basic, none⟩]) := by
    intro m hm
    have hoffered := sameFinds_offerAll [] m
    rw [List.nil_append] at hoffered
    rw [← hoffered] at hm
    exact (sameFinds_replaceBracketColumn (Offered.nil.offerAll m) hm).trans
      ((hoffered.map _).append fun _ => rfl)
  have hl := hfinds l (hy _ (by simp))
  refine attracts_of_moved hl (hfinds l' (hy _ (by simp))) fun hmem => ?_
  -- the candidate is there, so it is not the one that gives way, unless it is put in its own place
  have hstays : swap y (Candidate.kept ⟨basic, none⟩) c = c := by
    unfold swap
    split
    · next heq =>
      rcases List.mem_append.mp (hl.mem_iff.mp hmem) with hmap | hlast
      · obtain ⟨x, -, hx⟩ := List.mem_map.mp hmap
        unfold swap at hx
        split at hx
        · exact hx
        · next hne => exact absurd (hx.trans heq) hne
      · exact (List.mem_singleton.mp hlast).symm
    · rfl
  exact List.rel_append (hkept.moved.map hstays) (Moved.refl c _)

end Drawn

/-! ## Candidates that are kept -/

/-- Where the candidate is kept as the first of the nearest ones of one list, it is so of the
other. -/
def Keeps (c : Candidate) (cs cs' : List Candidate) : Prop :=
  ∀ col, (nearestFirst col cs).head?.map Candidate.kept = some c →
    (nearestFirst col cs').head?.map Candidate.kept = some c

/-- In an offered list no candidate lies left of the margin, so that a candidate that attracts is
also kept. -/
theorem Attracts.keeps (h : Attracts c cs cs') (hcs : Offered cs) : Keeps c cs cs' := by
  intro col hkept
  obtain ⟨x, hx, rfl⟩ := Option.map_eq_some_iff.mp hkept
  have hnonneg := hcs.column_nonneg x (List.mem_mergeSort.mp (List.mem_of_mem_head? hx))
  rw [Candidate.kept_eq hnonneg] at h ⊢
  rw [h col hx, Option.map_some, Candidate.kept_eq hnonneg]

/-- A candidate on its own is the nearest. -/
theorem keeps_singleton {x x' : Candidate} (h : x.kept = c → x'.kept = c) : Keeps c [x] [x'] := by
  intro col hkept
  have hhead : ∀ x : Candidate, (nearestFirst col [x]).head? = some x := by
    intro x
    unfold nearestFirst
    rw [List.mergeSort_singleton]
    rfl
  rw [hhead, Option.map_some] at hkept ⊢
  rw [h (Option.some.inj hkept)]

end Request

end LayoutRule

import LayoutRule.Proofs.Lexical.Resuming
import Mathlib.Order.Bounds.Basic

/-!
# Bracketed groups

A bracketed group can be found in two ways. `Text.groupStop` walks over the pieces of the whole text
and counts how many brackets are open; `Text.nesting` lists the open brackets of a stretch, and the
group ends with the shortest stretch after which its first bracket is not in the list.
`groupStop_iff` says that the two agree, and that a group without an end is refused for what the
scan to the end of the text finds open.

The stretches of the second way may end anywhere, also inside a literal or between the two
characters that start a comment. Such an end never closes a bracket (`nestingFrom_inside`), so only
the ends of pieces matter, and there the number of open brackets is the length of the list
(`Enclosed`).
-/

namespace LayoutRule

/-- A move over one expression fails, and this is what is said about it. -/
def Reports {α : Type} (x : Except Fault α) (text : String) : Prop :=
  ∃ why : ScanFailure, x = .error (.scan why) ∧ why.message = text

/-- A number can be read off its decimal digits. -/
theorem natDigits_injective : Function.Injective Nat.repr := by
  intro m n h
  rw [Nat.repr_eq_ofList_toDigits, Nat.repr_eq_ofList_toDigits, String.ofList_inj] at h
  have hvalue := congrArg (Nat.ofDigitChars 10 · 0) h
  simpa only [Nat.ofDigitChars_ten_toDigits] using hvalue

/-- An integer can be read off its sign and its decimal digits, because no digit is a sign. -/
theorem intDigits_injective : Function.Injective Int.repr := by
  have hsign : ∀ m n : Nat, m.repr ≠ "-" ++ n.repr := by
    intro m n h
    have hmem : '-' ∈ Nat.toDigits 10 m := by
      rw [← String.toList_ofList (l := Nat.toDigits 10 m), ← Nat.repr_eq_ofList_toDigits, h]
      simp
    exact absurd (Nat.isDigit_of_mem_toDigits (by decide) (by decide) hmem) (by decide)
  intro a b h
  rw [Int.repr_eq_if, Int.repr_eq_if] at h
  split at h <;> split at h
  · have := natDigits_injective h
    omega
  · exact absurd h (hsign _ _)
  · exact absurd h.symm (hsign _ _)
  · have := natDigits_injective ((String.append_right_inj _).mp h)
    omega

/-- Every failure has a wording of its own. -/
theorem ScanFailure.message_injective : Function.Injective ScanFailure.message := by
  intro why why' h
  have hchars := congrArg String.toList h
  cases why with
  | openInside what pos =>
    cases why' with
    | openInside what' pos' =>
      cases what <;> cases what' <;> simp [message, Unclosed.label, Int.toString_eq_repr]
        at hchars ⊢
      · exact intDigits_injective (String.toList_injective hchars)
      · exact intDigits_injective (String.toList_injective hchars)
    | _ => cases what <;> simp [message, Unclosed.label] at hchars
  | _ =>
    cases why' with
    | openInside what pos => cases what <;> simp [message, Unclosed.label] at hchars
    | _ => simp_all [message]

/-- The wording of a failure is reported exactly when a move fails in this way. -/
theorem reports_message_iff {α : Type} {x : Except Fault α} {why : ScanFailure} :
    Reports x why.message ↔ x = .error (.scan why) := by
  constructor
  · rintro ⟨why', rfl, h⟩
    rw [ScanFailure.message_injective h]
  · rintro rfl
    exact ⟨why, rfl, rfl⟩

/-- What a computation with a known result gives. -/
theorem Yields.iff_of_eq {α : Type} {x : Except Fault α} {P : α → Prop} {a : α} (hx : x = .ok a) :
    Yields x P ↔ P a :=
  ⟨fun h => h.of_eq hx, fun h => ⟨a, hx, h⟩⟩

namespace Text

variable {t : Text} {bird : Bool} {i x e : Int} {p : Piece} {s : Nesting}

/-! ## A stretch that ends inside a piece -/

/-- A piece that closes a group starts with a closing bracket. -/
theorem bracket_of_closing (h₀ : 0 ≤ i) {limit : Int} (h : t.pieceAt bird i limit = .ok p)
    (hkind : p.kind = .closing) : ∃ c, t.charAt? i = some c ∧ isClosing c = true := by
  obtain ⟨c, hc, hpiece⟩ := exists_char_of_pieceAt h₀ h
  refine ⟨c, hc, ?_⟩
  cases hpiece with
  | single =>
    unfold singlePiece at hkind
    split at hkind
    · cases hkind
    · split at hkind
      · assumption
      · cases hkind
  | marker => cases hkind
  | comment => cases hkind
  | string => cases hkind
  | character => cases hkind

/-- The limit of a stretch decides about a piece only by whether a comment starts. -/
theorem pieceAt_eq_of_commentAt {limit limit' : Int}
    (h : t.commentAt i limit' = t.commentAt i limit) :
    t.pieceAt bird i limit' = t.pieceAt bird i limit := by
  unfold pieceAt
  rw [h]

/-- A stretch that ends inside a piece has all the brackets open that were open before that
piece. -/
theorem nestingFrom_inside (h₀ : 0 ≤ x) (hp : t.pieceAt bird x t.length = .ok p) (hx : x < e)
    (he : e < p.stop) (hlen : e ≤ t.length) :
    Yields (t.nestingFrom bird e s x) fun r => s.openers ⊆ r.openers := by
  obtain ⟨q, hq, hstop, -⟩ := pieceAt_yields (t := t) (i := x) bird e h₀ (by omega)
  have hsame : t.commentAt x e = t.commentAt x t.length → q = p := by
    intro h
    rw [pieceAt_eq_of_commentAt h, hp] at hq
    exact (Except.ok.inj hq).symm
  -- the first two characters of a comment may be cut apart, but then the end of the stretch is
  -- between them
  have hends : e ≤ q.stop := by
    rcases Int.lt_or_le e (x + 2) with hnear | hfar
    · omega
    · obtain ⟨comment, hcomment, -⟩ := commentAt_yields (t := t) t.length h₀
      have hcut := commentAt_shorten h₀ (by omega) hcomment (by omega) hlen fun _ => hfar
      rw [hsame (hcut.trans hcomment.symm)]
      omega
  have hopen : q.kind ≠ .closing := by
    intro hkind
    obtain ⟨c, hc, hclosing⟩ := bracket_of_closing h₀ hq hkind
    have hno : c ≠ '-' ∧ c ≠ '\x7b' := by
      constructor <;> (rintro rfl; simp [isClosing] at hclosing)
    have heq :=
      hsame ((commentAt_eq_false h₀ hc hno.1 hno.2 e).trans
        (commentAt_eq_false h₀ hc hno.1 hno.2 _).symm)
    have hsingle := single_of_pieceAt h₀ hq (by simp [hkind]) (by simp [hkind]) (by simp [hkind])
    rw [heq] at hsingle
    omega
  rw [Document.nestingFrom_step hx hq]
  cases hwithin : s.within? x e q with
  | some final =>
    refine ⟨final, rfl, ?_⟩
    unfold Nesting.within? at hwithin
    grind
  | none =>
    refine ⟨s.record x q, by simp only; rw [nestingFrom, if_neg (by omega)], ?_⟩
    unfold Nesting.record
    split <;> simp_all

/-! ## The end of a group -/

/-- The ends of the stretches from `i` on after which the bracket at `i` is not open any more. -/
def closings (t : Text) (bird : Bool) (i : Int) : Set Int :=
  {e | i < e ∧ e ≤ t.length ∧ Yields (t.nesting bird i e) fun s => i ∉ s.openers}

/-- A walk from the bracket at `i` has come to `x`, where the group is `depth` brackets deep:
`inner` are the brackets that were opened inside the group and are still open. -/
structure Enclosed (t : Text) (bird : Bool) (i depth x : Int) (s : Nesting) (inner : List Int) :
    Prop where
  nonneg : 0 ≤ i
  walk : t.Walk bird t.length i x
  le : x ≤ t.length
  scan : t.nesting bird i x = .ok s
  openers : s.openers = inner ++ [i]
  depth : depth = inner.length + 1
  closings : ∀ e ∈ t.closings bird i, x < e

namespace Enclosed

variable {depth : Int} {inner : List Int}

/-- A stretch that goes on from here has found the same so far. -/
theorem nesting_eq (h : t.Enclosed bird i depth x s inner) (hx : x ≤ e) (he : e ≤ t.length) :
    t.nesting bird i e = t.nestingFrom bird e s x ∧ s.string? = none ∧ s.comment? = none :=
  (h.walk.shorten h.nonneg hx he).nesting_eq h.nonneg hx h.scan

/-- The group does not end before the next piece does. -/
theorem stop_le (h : t.Enclosed bird i depth x s inner) (hp : t.pieceAt bird x t.length = .ok p)
    (he : e ∈ t.closings bird i) : p.stop ≤ e := by
  have hx := h.closings e he
  have hix := h.walk.le
  have h₀ := h.nonneg
  obtain ⟨-, hlen, r, hr, hclosed⟩ := he
  rcases Int.lt_or_le e p.stop with hlt | hge
  · exfalso
    rw [(h.nesting_eq (Int.le_of_lt hx) hlen).1] at hr
    have hsub := (nestingFrom_inside (s := s) (by omega) hp hx hlt hlen).of_eq hr
    exact hclosed (hsub (by simp [h.openers]))
  · exact hge

/-- What the scan has found after the next piece. -/
theorem nesting_stop (h : t.Enclosed bird i depth x s inner)
    (hp : t.pieceAt bird x t.length = .ok p) (hstop : p.stop ≤ t.length) :
    t.nesting bird i p.stop = .ok (s.record x p) := by
  have hx := lt_stop_of_pieceAt hp
  have h₀ := h.nonneg
  have hix := h.walk.le
  have hp' : t.pieceAt bird x p.stop = .ok p :=
    pieceAt_shorten (by omega) hp (by omega) hstop fun _ => Int.le_refl _
  have hwithin : s.within? x p.stop p = none := if_neg (Int.lt_irrefl _)
  rw [(h.nesting_eq (Int.le_of_lt hx) hstop).1, Document.nestingFrom_step hx hp', hwithin]
  simp only
  rw [nestingFrom, if_neg (Int.lt_irrefl _)]

/-- The walk goes on over a piece after which the group is not ended. -/
theorem step {depth' : Int} {inner' : List Int} (h : t.Enclosed bird i depth x s inner)
    (hlt : x < t.length) (hp : t.pieceAt bird x t.length = .ok p) (hstop : p.stop ≤ t.length)
    (hopeners : (s.record x p).openers = inner' ++ [i]) (hdepth : depth' = inner'.length + 1) :
    t.Enclosed bird i depth' p.stop (s.record x p) inner' := by
  have hscan := h.nesting_stop hp hstop
  refine ⟨h.nonneg, h.walk.snoc hlt hp, hstop, hscan, hopeners, hdepth, ?_⟩
  intro e he
  rcases Int.lt_or_eq_of_le (h.stop_le hp he) with hlt' | rfl
  · exact hlt'
  · obtain ⟨-, -, r, hr, hclosed⟩ := he
    cases hscan.symm.trans hr
    exact absurd (by simp [hopeners]) hclosed

end Enclosed

/-- How the search for the end of the group at `i` may come out. -/
inductive GroupSearch (t : Text) (bird : Bool) (i : Int) : Except Fault Int → Prop where
  | closed {r : Int} (h : IsLeast (t.closings bird i) r) : GroupSearch t bird i (.ok r)
  | inString {u : Nesting} {j : Int} (hnone : t.closings bird i = ∅)
      (hu : t.nesting bird i t.length = .ok u) (hstring : u.string? = some j)
      (hcomment : u.comment? = none) : GroupSearch t bird i (.error (.scan (.openInside .string j)))
  | inComment {u : Nesting} {j : Int} (hnone : t.closings bird i = ∅)
      (hu : t.nesting bird i t.length = .ok u) (hstring : u.string? = none)
      (hcomment : u.comment? = some j) :
      GroupSearch t bird i (.error (.scan (.openInside .comment j)))
  | unbalanced {u : Nesting} (hnone : t.closings bird i = ∅)
      (hu : t.nesting bird i t.length = .ok u) (hstring : u.string? = none)
      (hcomment : u.comment? = none) : GroupSearch t bird i (.error (.scan .openBracket))

/-- A piece without an end is a string or a comment, and the group has no end either. -/
theorem Enclosed.groupSearch_unclosed {depth : Int} {inner : List Int}
    (h : t.Enclosed bird i depth x s inner) (hlt : x < t.length)
    (hp : t.pieceAt bird x t.length = .ok p) (hstop : t.length < p.stop) :
    t.GroupSearch bird i (.error (.scan (.openInside p.kind.unclosed x))) := by
  have hix := h.walk.le
  have h₀ := h.nonneg
  have hnone : t.closings bird i = ∅ := by
    apply Set.eq_empty_of_forall_notMem
    intro e he
    have := h.stop_le hp he
    have := he.2.1
    omega
  obtain ⟨hscan, hstring, hcomment⟩ := h.nesting_eq h.le (Int.le_refl _)
  rw [Document.nestingFrom_step hlt hp] at hscan
  unfold Nesting.within? at hscan
  rw [if_pos hstop] at hscan
  have hends := (pieceAt_yields (t := t) (i := x) bird t.length (by omega) hlt).of_eq hp
  rcases p with ⟨kind, stop⟩
  cases kind with
  | string => exact .inString hnone hscan rfl hcomment
  | comment => exact .inComment hnone hscan hstring rfl
  | _ => exact absurd (hends.2 nofun nofun) (by omega)

/-- The search from any place inside the group. -/
theorem Enclosed.groupRest {depth : Int} {inner : List Int}
    (h : t.Enclosed bird i depth x s inner) : t.GroupSearch bird i (t.groupRest bird depth x) := by
  fun_induction Text.groupRest t bird depth x generalizing s inner with
  | case1 depth x hlt fault hfault =>
    have hix := h.walk.le
    have h₀ := h.nonneg
    obtain ⟨p, hp, -⟩ := pieceAt_yields (t := t) (i := x) bird t.length (by omega) hlt
    cases hfault.symm.trans hp
  | case2 depth x hlt p hp hstop => exact h.groupSearch_unclosed hlt hp hstop
  | case3 depth x hlt p hp hstop hkind ih =>
    have hdepth := h.depth
    have hopeners : (s.record x p).openers = (x :: inner) ++ [i] := by
      simp [Nesting.record, hkind, h.openers]
    refine ih (h.step hlt hp (by omega) hopeners ?_)
    rw [List.length_cons]
    omega
  | case4 x hlt p hp hstop hkind =>
    -- the bracket of the group is the only one that is open, and it is closed here
    have hinner : inner = [] := List.eq_nil_of_length_eq_zero (by have := h.depth; omega)
    have hix := h.walk.le
    have hx := lt_stop_of_pieceAt hp
    refine .closed ⟨⟨by omega, by omega, _, h.nesting_stop hp (by omega), ?_⟩,
      fun e he => h.stop_le hp he⟩
    simp [Nesting.record, hkind, h.openers, hinner]
  | case5 depth x hlt p hp hstop hkind hdepth ih =>
    have hlength := h.depth
    cases inner with
    | nil => exact absurd hlength hdepth
    | cons b inner =>
      rw [List.length_cons] at hlength
      have hopeners : (s.record x p).openers = inner ++ [i] := by
        simp [Nesting.record, hkind, h.openers]
      exact ih (h.step hlt hp (by omega) hopeners (by omega))
  | case6 depth x hlt p hp hstop hopening hclosing ih =>
    have hsame : (s.record x p).openers = s.openers := by
      unfold Nesting.record
      split <;> simp_all
    exact ih (h.step hlt hp (by omega) (hsame.trans h.openers) h.depth)
  | case7 depth x hge =>
    have hend : x = t.length := Int.le_antisymm h.le (by omega)
    obtain ⟨-, hstring, hcomment⟩ := h.nesting_eq (Int.le_refl x) h.le
    refine .unbalanced (Set.eq_empty_of_forall_notMem fun e he => ?_)
      (hend ▸ h.scan) hstring hcomment
    have hx := h.closings e he
    have hlen := he.2.1
    omega

/-- An opening bracket that starts no comment is a piece. -/
theorem pieceAt_opening {c : Char} (h₀ : 0 ≤ i) (hc : t.charAt? i = some c)
    (hopen : isOpening c = true) (hblock : t.blockCommentAt i t.length = false) :
    t.pieceAt bird i t.length = .ok ⟨.opening, i + 1⟩ := by
  have hcases : c = '(' ∨ c = '[' ∨ c = '\x7b' := by simpa [isOpening, or_assoc] using hopen
  obtain ⟨p, hp, -⟩ :=
    pieceAt_yields (t := t) (i := i) bird t.length h₀ (Document.lt_length_of_charAt? h₀ hc)
  obtain ⟨c', hc', hpiece⟩ := exists_char_of_pieceAt h₀ hp
  cases hc.symm.trans hc'
  rw [hp]
  cases hpiece with
  | single =>
    unfold singlePiece
    rw [if_pos hopen]
  | marker hsign => exact absurd (hsign ▸ hcases) (by decide)
  | string _ hquote => exact absurd (hquote ▸ hcases) (by decide)
  | character _ hquote => exact absurd (hquote ▸ hcases) (by decide)
  | comment hcomment =>
    rcases commentAt_cases h₀ hcomment with hword | ⟨hword, -⟩
    · exact absurd hword (by simpa [blockCommentAt] using hblock)
    · have hdash := (chars_of_hasWord h₀ hword).1
      cases hc.symm.trans hdash
      exact absurd hcases (by decide)

/-- Behind the opening bracket the group is one bracket deep. -/
theorem enclosed_opening {c : Char} (h₀ : 0 ≤ i) (hc : t.charAt? i = some c)
    (hopen : isOpening c = true) (hblock : t.blockCommentAt i t.length = false) :
    t.Enclosed bird i 1 (i + 1) { openers := [i] } [] := by
  have hlt := Document.lt_length_of_charAt? h₀ hc
  have hp : t.pieceAt bird i t.length = .ok ⟨.opening, i + 1⟩ := pieceAt_opening h₀ hc hopen hblock
  have hp' : t.pieceAt bird i (i + 1) = .ok ⟨.opening, i + 1⟩ :=
    pieceAt_shorten h₀ hp (by omega) (by omega) nofun
  have hscan : t.nesting bird i (i + 1) = .ok { openers := [i] } := by
    have hwithin : ({} : Nesting).within? i (i + 1) ⟨.opening, i + 1⟩ = none :=
      if_neg (Int.lt_irrefl _)
    unfold nesting
    rw [Document.nestingFrom_step (Int.lt_succ i) hp', hwithin]
    simp only
    rw [nestingFrom, if_neg (Int.lt_irrefl _)]
    rfl
  refine ⟨h₀, .step hlt hp (.refl _), by omega, hscan, rfl, rfl, ?_⟩
  rintro e ⟨hie, -, r, hr, hclosed⟩
  rcases Int.lt_or_eq_of_le (Int.add_one_le_of_lt hie) with hlt' | rfl
  · exact hlt'
  · cases hscan.symm.trans hr
    exact absurd (List.mem_singleton_self i) hclosed

/-- The end of the group at an opening bracket is the end of the shortest stretch after which the
bracket is not open any more. When there is no such stretch, the move fails, and what is said
depends on what the scan to the end of the text ends in: a string, a comment, or neither. -/
theorem groupStop_iff {c : Char} (h₀ : 0 ≤ i) (hc : t.charAt? i = some c)
    (hopen : isOpening c = true) (hblock : t.blockCommentAt i t.length = false) :
    (∀ r, t.groupStop bird i = .ok r ↔ IsLeast (t.closings bird i) r) ∧
    (∀ j : Int, Reports (t.groupStop bird i) ("unterminated string at " ++ ToString.toString j) ↔
      t.closings bird i = ∅ ∧ Yields (t.nesting bird i t.length) fun s => s.string? = some j) ∧
    (∀ j : Int, Reports (t.groupStop bird i) ("unterminated comment at " ++ ToString.toString j) ↔
      t.closings bird i = ∅ ∧ Yields (t.nesting bird i t.length) fun s => s.comment? = some j) ∧
    (Reports (t.groupStop bird i) "unbalanced bracket" ↔
      t.closings bird i = ∅ ∧
        Yields (t.nesting bird i t.length) fun s => s.string? = none ∧ s.comment? = none) := by
  have hlt := Document.lt_length_of_charAt? h₀ hc
  have hsearch : t.GroupSearch bird i (t.groupStop bird i) := by
    unfold groupStop
    rw [Document.groupRest_step hlt (pieceAt_opening h₀ hc hopen hblock),
      if_neg (by simp only; omega)]
    exact (enclosed_opening h₀ hc hopen hblock).groupRest
  have hstring : ∀ j : Int, "unterminated string at " ++ ToString.toString j =
      (ScanFailure.openInside .string j).message := by
    simp [ScanFailure.message, Unclosed.label]
  have hcomment : ∀ j : Int, "unterminated comment at " ++ ToString.toString j =
      (ScanFailure.openInside .comment j).message := by
    simp [ScanFailure.message, Unclosed.label]
  have hbracket : "unbalanced bracket" = ScanFailure.openBracket.message := rfl
  simp only [hstring, hcomment, hbracket, reports_message_iff]
  generalize t.groupStop bird i = found at hsearch
  cases hsearch with
  | closed h =>
    have hsome := h.nonempty.ne_empty
    refine ⟨fun r => ⟨?_, fun h' => congrArg _ (h.unique h')⟩,
      by simp [hsome], by simp [hsome], by simp [hsome]⟩
    rintro ⟨⟩
    exact h
  | inString hnone hu hstring hcomment =>
    simp [hnone, IsLeast, Yields.iff_of_eq hu, hstring, hcomment]
  | inComment hnone hu hstring hcomment =>
    simp [hnone, IsLeast, Yields.iff_of_eq hu, hstring, hcomment]
  | unbalanced hnone hu hstring hcomment =>
    simp [hnone, IsLeast, Yields.iff_of_eq hu, hstring, hcomment]

/-- A group with closing brackets in a character, a string and two comments. -/
def hiddenBrackets : Text := ofString "(a ')' \")\" {-)-} -- )\n) b"

/-- A group that ends inside a string. -/
def unclosedQuote : Text := ofString "([a] \"b)"

/-- The closing brackets inside literals and comments do not end the group, which ends with the last
one; and a group that runs into a string is not closed anywhere, with the string open at the end. -/
theorem groupStop_iff_hiddenBrackets :
    (hiddenBrackets.charAt? 0 = some '(' ∧
      hiddenBrackets.blockCommentAt 0 hiddenBrackets.length = false ∧
      IsLeast (hiddenBrackets.closings false 0) 23) ∧
    unclosedQuote.charAt? 0 = some '(' ∧
      unclosedQuote.blockCommentAt 0 unclosedQuote.length = false ∧
      unclosedQuote.closings false 0 = ∅ ∧
      Yields (unclosedQuote.nesting false 0 8) fun s => s.string? = some 5 := by
  have hfirst : hiddenBrackets.charAt? 0 = some '(' := by decide
  have hblock : hiddenBrackets.blockCommentAt 0 hiddenBrackets.length = false := by decide
  have hfirst' : unclosedQuote.charAt? 0 = some '(' := by decide
  have hblock' : unclosedQuote.blockCommentAt 0 unclosedQuote.length = false := by decide
  have hreport : Reports (unclosedQuote.groupStop false 0)
      ("unterminated string at " ++ ToString.toString (5 : Int)) :=
    ⟨.openInside .string 5, by decide +kernel, by simp [ScanFailure.message, Unclosed.label]⟩
  refine ⟨⟨hfirst, hblock, ?_⟩, hfirst', hblock', ?_⟩
  · exact ((groupStop_iff (by decide) hfirst (by decide) hblock).1 23).mp (by decide +kernel)
  · exact ((groupStop_iff (by decide) hfirst' (by decide) hblock').2.1 5).mp hreport

end Text

end LayoutRule

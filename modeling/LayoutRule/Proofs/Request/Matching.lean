import LayoutRule.Proofs.Parallel.Keywords
import LayoutRule.Proofs.Text.Words

/-!
# The opener of a keyword is the top of a stack

The search for the opener of a closing keyword goes backward and counts the closers that still wait
for theirs. Read forward, the same words work a stack: an opener is put on it, and a closer takes
the innermost one away, or nothing when the stack is empty. The two agree (`openerAmong?_eq`),
because with `depth + 1` closers waiting the search ends at entry `depth` of the stack: a closer in
front makes one more wait and takes one entry away, an opener does the opposite.

`matchingOpener?_eq_top` says so for the keywords between two places: every place is looked at for a
word of the pair, and those words count that lie outside of strings, comments and brackets and are
no ended `let`.
-/

namespace LayoutRule

/-! ## The stack -/

namespace KeywordHit

/-- The openers without a closer once a word was read, when `stack` are those before it, innermost
first. -/
def read (stack : List Int) (hit : KeywordHit) : List Int :=
  if hit.closes then stack.tail else hit.pos :: stack

/-- The openers that no closer took, innermost first, when words are read from first to last. -/
def unclosed (hits : List KeywordHit) : List Int := hits.foldl read []

/-- Reading one more word at the end changes the stack by this word. -/
theorem unclosed_concat (hits : List KeywordHit) (hit : KeywordHit) :
    unclosed (hits ++ [hit]) = read (unclosed hits) hit := by
  simp [unclosed]

end KeywordHit

/-! ## The words between two places -/

namespace Text

/-- The words of a pair from index `start` to `stop`, first to last. -/
def wordsOfPair (t : Text) (pair : WordPair) (start stop : Nat) : List KeywordHit :=
  (List.range' start (stop - start)).filterMap (t.pairWordAt? pair stop)

variable {t : Text} {pair : KeywordPair} {stop k : Nat}

/-- A word of a pair that is found at a place stands there, before the end of the stretch. -/
theorem wordWithin_of_pairWordAt? {pair : WordPair} {hit : KeywordHit}
    (h : t.pairWordAt? pair stop k = some hit) :
    hit.pos = k ∧ t.wordWithin (pair.word hit.closes) stop k = true := by
  unfold pairWordAt? at h
  split at h
  · next hword =>
    cases h
    exact ⟨rfl, hword⟩
  · split at h
    · next hword =>
      cases h
      exact ⟨rfl, hword⟩
    · cases h

/-- No word starts right behind a character of a name. -/
theorem pairWordAt?_succ {pair : WordPair} {c : Char} (hc : t.chars[k]? = some c)
    (hname : isNameChar c = true) : t.pairWordAt? pair stop (k + 1) = none := by
  have hno : ∀ w : List Char, t.wordWithin w stop (k + 1) = false := by
    intro w
    simp [wordWithin, hc, hname]
  unfold pairWordAt?
  rw [hno, hno]
  rfl

/-- Inside a keyword no other one starts. -/
theorem wordsOfPair_inside {hit : KeywordHit}
    (h : t.wordWithin (pair.words.word hit.closes) stop k = true) :
    (List.range' (k + 1) ((pair.words.word hit.closes).length - 1)).filterMap
      (t.pairWordAt? pair.words stop) = [] := by
  rw [List.filterMap_eq_nil_iff]
  intro i hi
  rw [List.mem_range'_1] at hi
  unfold wordWithin at h
  simp only [Bool.and_eq_true] at h
  have hletters : ∀ c ∈ pair.words.word hit.closes, isNameChar c = true := by
    refine List.all_eq_true.mp ?_
    cases pair <;> cases hit.closes <;> decide
  obtain ⟨j, rfl⟩ : ∃ j, i = k + j + 1 := ⟨i - k - 1, by omega⟩
  have hj : j < (pair.words.word hit.closes).length := by omega
  have hget := holdsAt_iff.mp h.1.1.2 j hj
  rw [List.getElem?_eq_getElem hj] at hget
  exact pairWordAt?_succ hget (hletters _ (List.getElem_mem hj))

/-- Keywords do not overlap, so going on behind each of them misses none. -/
theorem pairWords_eq_wordsOfPair (t : Text) (pair : KeywordPair) (stop k : Nat) :
    t.pairWords pair.words stop k = t.wordsOfPair pair.words k stop := by
  unfold wordsOfPair
  fun_induction t.pairWords pair.words stop k with
  | case1 k hlt hit hhit ih =>
    obtain ⟨-, hword⟩ := wordWithin_of_pairWordAt? hhit
    have hinside := wordsOfPair_inside hword
    obtain ⟨c, w, hw, -, -⟩ := pair.word_letters hit.closes
    have hfits : k + (pair.words.word hit.closes).length ≤ stop := by
      unfold wordWithin at hword
      simp only [Bool.and_eq_true, decide_eq_true_eq] at hword
      exact hword.1.1.1
    generalize hn : (pair.words.word hit.closes).length = n at hinside hfits ih ⊢
    have hpos : 1 ≤ n := by
      rw [← hn, hw, List.length_cons]
      omega
    -- the places behind the first one: those inside the keyword, then the others
    have hrange : List.range' k (stop - k) =
        k :: (List.range' (k + 1) (n - 1) ++ List.range' (k + max 1 n) (stop - (k + max 1 n))) := by
      rw [show stop - k = (n - 1 + (stop - (k + max 1 n))) + 1
        by omega, List.range'_succ, ← List.range'_append_1,
        show k + 1 + (n - 1) = k + max 1 n by omega]
    rw [hrange, List.filterMap_cons, hhit, List.filterMap_append, hinside, ih]
    rfl
  | case2 k hlt hnone ih =>
    rw [show stop - k = (stop - (k + 1)) + 1
      by omega, List.range'_succ, List.filterMap_cons, hnone, ih]
  | case3 k hlt =>
    rw [show stop - k = 0 by omega]
    rfl

end Text

namespace Document

open Text

variable {d : Document} {skipEnded : Bool} {limit stop pos : Int}

/-! ## The words that count -/

/-- Whether nothing is open at a place for a scan from `start` on: no string, no comment and no
bracket. -/
def isOutside (d : Document) (start pos : Int) : Bool :=
  match d.nesting start pos with
  | .ok s => s.string?.isNone && s.comment?.isNone && s.openers.isEmpty
  | .error _ => false

/-- Whether a word counts in a search from `start` to `stop`: it stands outside, and is no ended
`let` where these are passed over. -/
def isEligible (d : Document) (skipEnded : Bool) (start stop : Int) (hit : KeywordHit) : Bool :=
  d.isOutside start hit.pos && !(skipEnded && (d.letEnded hit.pos stop).toOption == some true)

/-- What hides a word that starts no comment. -/
theorem keywordHidden_eq (skipEnded : Bool) (limit stop : Int) (h : d.commentAt pos = .ok false) :
    d.keywordHidden skipEnded limit stop pos = (do
      let s ← d.nesting limit pos
      if s.string?.isNone && s.comment?.isNone && s.openers.isEmpty then
        if skipEnded then d.letEnded pos stop else return false
      else return true) := by
  unfold keywordHidden openString? openComment? openBracket? Nesting.innermost?
  by_cases hle : pos ≤ limit
  · -- before the start of the search nothing is scanned
    have hempty : d.nesting limit pos = .ok {} := by
      unfold nesting Text.nesting
      rw [nestingFrom, if_neg (by omega)]
    rw [if_pos hle, hempty, h]
    rfl
  · rw [if_neg hle, h]
    cases hs : d.nesting limit pos with
    | error e => rfl
    | ok s =>
      obtain ⟨openers, string?, comment?, comments⟩ := s
      cases string? <;> cases comment? <;> cases openers <;> rfl

/-- A word that can be judged counts exactly when nothing hides it. -/
theorem isEligible_eq {hit : KeywordHit} {hidden : Bool}
    (hcomment : d.commentAt hit.pos = .ok false)
    (h : d.keywordHidden skipEnded limit stop hit.pos = .ok hidden) :
    d.isEligible skipEnded limit stop hit = !hidden := by
  rw [keywordHidden_eq skipEnded limit stop hcomment] at h
  obtain ⟨s, hs, h⟩ := bind_eq_ok.1 h
  unfold isEligible isOutside
  rw [hs]
  simp only
  split at h
  · next hout =>
    rw [hout, Bool.true_and]
    cases skipEnded with
    | false =>
      cases h
      rfl
    | true =>
      rw [if_pos rfl] at h
      rw [h]
      cases hidden <;> rfl
  · next hin =>
    rw [Bool.not_eq_true] at hin
    cases h
    rw [hin]
    rfl

/-- No comment starts with a keyword. -/
theorem commentAt_of_mem_pairWords {pair : KeywordPair} {k m : Nat} {hit : KeywordHit}
    (h : hit ∈ d.text.pairWords pair.words m k) : d.commentAt hit.pos = .ok false := by
  have hholds := holdsAt_of_mem_pairWords h
  obtain ⟨c, w, hword, hname, -⟩ := pair.word_letters hit.closes
  rw [hword, holdsAt, Bool.and_eq_true, beq_iff_eq] at hholds
  have hchar : d.text.charAt? hit.pos = some c := by
    rw [charAt?_eq (Int.natCast_nonneg _), Int.toNat_natCast]
    exact hholds.1
  refine commentAt_eq_false (Int.natCast_nonneg _) hchar ?_ ?_ _
  · rintro rfl
    revert hname
    decide
  · rintro rfl
    revert hname
    decide

/-! ## Counting backward and the stack -/

/-- With `depth + 1` closers waiting, the search through words, listed last to first, ends at entry
`depth` of the stack that the words leave. -/
theorem openerAmong?_eq {hits : List KeywordHit} {shown : KeywordHit → Bool} {depth : Nat}
    {found : Option Int}
    (hshown : ∀ hit ∈ hits, ∀ hidden, d.keywordHidden skipEnded limit stop hit.pos = .ok hidden →
      shown hit = !hidden)
    (h : d.openerAmong? skipEnded limit stop (depth + 1) hits = .ok found) :
    found = (KeywordHit.unclosed (hits.reverse.filter shown))[depth]? := by
  induction hits generalizing depth with
  | nil =>
    cases h
    rfl
  | cons hit rest ih =>
    have hrest : ∀ {depth : Nat}, d.openerAmong? skipEnded limit stop (depth + 1) rest = .ok found →
        found = (KeywordHit.unclosed (rest.reverse.filter shown))[depth]? :=
      ih fun hit' hmem => hshown hit' (List.mem_cons_of_mem hit hmem)
    unfold openerAmong? at h
    obtain ⟨hidden, hhidden, hnext⟩ := bind_eq_ok.1 h
    have hcounts := hshown hit List.mem_cons_self hidden hhidden
    rw [List.reverse_cons, List.filter_append]
    split at hnext
    · next hhid =>
      rw [hhid] at hcounts
      simp only [List.filter_singleton, hcounts, Bool.not_true, cond_false, List.append_nil]
      exact hrest hnext
    next hvisible =>
    rw [Bool.not_eq_true] at hvisible
    rw [hvisible] at hcounts
    simp only [List.filter_singleton, hcounts, Bool.not_false, cond_true]
    rw [KeywordHit.unclosed_concat, KeywordHit.read]
    split at hnext
    · -- one more closer waits, and the stack has lost its top
      next hcloses =>
      rw [if_pos hcloses, hrest hnext, List.getElem?_tail]
    next hopens =>
    rw [if_neg hopens]
    split at hnext
    · next deeper heq =>
      obtain rfl : depth = deeper + 1 := by omega
      rw [hrest hnext, List.getElem?_cons_succ]
    · next hlast =>
      obtain rfl : depth = 0 := by
        cases depth with
        | zero => rfl
        | succ deeper => exact absurd rfl (hlast deeper)
      cases hnext
      rw [List.getElem?_cons_zero]

/-- Where a search from `limit` to `pos` starts: behind the innermost bracket that is open at
`pos`. -/
def searchStart (d : Document) (limit pos : Int) : Except Fault Int := do
  match ← d.openBracket? limit pos with
  | some bracket => return bracket + 1
  | none => return limit

/-- A search that comes to an end has found the top of the stack that the words which count leave,
read from first to last; for two places of the text it always comes to an end. -/
theorem matchingOpener?_eq_top (d : Document) (pair : KeywordPair) (skipEnded : Bool)
    (limit pos : Int) :
    (∀ found, d.matchingOpener? pair.words skipEnded limit pos = .ok found →
      ∃ start, d.searchStart limit pos = .ok start ∧
        found = (KeywordHit.unclosed
          ((d.text.wordsOfPair pair.words (d.text.clamp start) (d.text.clamp pos)).filter
            (d.isEligible skipEnded start pos))).head?) ∧
    (0 ≤ limit → limit ≤ d.text.length → 0 ≤ pos → pos ≤ d.text.length →
      ∃ found, d.matchingOpener? pair.words skipEnded limit pos = .ok found) := by
  refine ⟨fun found h => ?_, fun h₀ h₁ h₂ h₃ => ?_⟩
  · have htop : ∀ start : Int,
        d.openerAmong? skipEnded start pos 1 (d.text.pairWordsBack pair.words start pos) =
          .ok found →
        found = (KeywordHit.unclosed
          ((d.text.wordsOfPair pair.words (d.text.clamp start) (d.text.clamp pos)).filter
            (d.isEligible skipEnded start pos))).head? := by
      intro start h
      have hshown : ∀ hit ∈ d.text.pairWordsBack pair.words start pos, ∀ hidden,
          d.keywordHidden skipEnded start pos hit.pos = .ok hidden →
          d.isEligible skipEnded start pos hit = !hidden :=
        fun hit hmem hidden hhidden =>
          isEligible_eq (commentAt_of_mem_pairWords (List.mem_reverse.mp hmem)) hhidden
      have heq : found = _[0]? := openerAmong?_eq hshown h
      rw [heq, pairWordsBack, List.reverse_reverse, pairWords_eq_wordsOfPair,
        List.head?_eq_getElem?]
    unfold matchingOpener? at h
    obtain ⟨bracket, hbracket, h⟩ := bind_eq_ok.1 h
    obtain ⟨_, -, h⟩ := bind_eq_ok.1 h
    obtain ⟨_, -, h⟩ := bind_eq_ok.1 h
    unfold searchStart
    rw [hbracket]
    cases bracket with
    | none => exact ⟨limit, rfl, htop limit h⟩
    | some bracket => exact ⟨bracket + 1, rfl, htop (bracket + 1) h⟩
  · obtain ⟨found, hfound, -⟩ := matchingOpener?_yields pair.words skipEnded h₀ h₁ h₂ h₃
    exact ⟨found, hfound⟩

/-- A surplus closer, a `let` ended by layout, three that a string, a comment and a bracket hide,
and one with its closer behind the one that the last line closes. -/
def nestedLets : Document :=
  .new (Text.ofString "in do\n let a\n b \"let\" {-let-} (let)\n let d let e in\n in") .plain 8

/-- The closer of the last line belongs to the first `let` of the line above. -/
theorem matchingOpener?_eq_top_nestedLets :
    nestedLets.matchingOpener? KeywordPair.letIn.words true 0 53 = .ok (some 37) ∧
      (∃ found, nestedLets.matchingOpener? KeywordPair.letIn.words true 0 53 = .ok found) ∧
      ∃ start, nestedLets.searchStart 0 53 = .ok start ∧
        some 37 = (KeywordHit.unclosed
          ((nestedLets.text.wordsOfPair KeywordPair.letIn.words (nestedLets.text.clamp start)
            (nestedLets.text.clamp 53)).filter (nestedLets.isEligible true start 53))).head? := by
  obtain ⟨htop, hfound⟩ := matchingOpener?_eq_top nestedLets .letIn true 0 53
  have hopener : nestedLets.matchingOpener? KeywordPair.letIn.words true 0 53 = .ok (some 37) := by
    decide +kernel
  exact ⟨hopener, hfound (Int.le_refl 0) (by decide +kernel) (by decide) (by decide +kernel),
    htop _ hopener⟩

end Document

end LayoutRule

import LayoutRule.Proofs.Parallel.Requests
import LayoutRule.Proofs.Request.Candidates

/-!
# Candidates in parallel documents

The requests for corresponding lines of parallel documents give the same diagnostics, and
corresponding candidates or the same fault (`Parallel.Line.candidates`).
-/

namespace LayoutRule

/-- Computations that take the same notes give the same diagnostics. -/
theorem Noted.Same.diagnostics_eq {α β : Type} {R : α → β → Prop} {x : Noted α} {y : Noted β}
    (h : Noted.Same R x y) : y.diagnostics = x.diagnostics := by
  unfold Noted.diagnostics
  rw [h.notes]

namespace Parallel

open Text Document

variable {s : Settings} {d e : Document} {C : Parallel s d e} {n : Nat} {pos pos' start : Int}

/-- The stretch from the definition to a line is ready when columns correspond above the line, and
at the start of the definition, and when nothing behind the line is looked at. -/
theorem Line.ready (h : C.Line n (d.text.lineStart pos) (e.text.lineStart pos'))
    (hfree : d.text.lineStart pos ≤ C.free)
    (hstart : d.definitionStart s (d.indentationPoint pos) = .ok start)
    (hbefore : d.text.lineStart pos < C.free ∨ start < d.text.lineStart pos)
    (hahead : C.Total ∨ d.commentAt (d.indentationPoint pos) = .ok false) :
    ∃ start', e.definitionStart s (e.indentationPoint pos') = .ok start' ∧
      C.Ready start start' (d.indentationPoint pos) (e.indentationPoint pos') := by
  have hpoint := h.point
  rw [indentationPoint_eq_of_lineStart_eq (d.text.lineStart_lineStart pos),
    indentationPoint_eq_of_lineStart_eq (e.text.lineStart_lineStart pos')] at hpoint
  have hline := d.lineStart_indentationPoint pos
  obtain ⟨i, start', hi, hstart', hplace, hle⟩ :=
    hpoint.definitionStart (by omega) fun _ hlt => by omega
  rw [hstart] at hi
  cases hi
  have hlen := d.indentationPoint_le_length pos
  refine ⟨start', hstart', hplace, hpoint, hle, ?_, ?_,
    .inr (d.indentationPoint_indentationPoint pos).symm, ?_⟩
  · rcases hbefore with hlt | hlt
    · have := lineStart_le_lineStart hplace.bounds.1 hle hlen
      omega
    · have := lineStart_le (t := d.text) hplace.bounds.1
      omega
  · intro p q hp hlt
    have hmono := lineStart_le_lineStart hp.bounds.1 (Int.le_of_lt hlt) hlen
    -- before the indentation point of its line there are no places
    have hne : d.text.lineStart p ≠ d.text.lineStart pos := by
      intro heq
      have hsame := indentationPoint_eq_of_lineStart_eq heq
      have hpoint_le := hp.point_le
      omega
    omega
  · refine hahead.imp_right fun hcomment => ?_
    exact clear_indentationPoint hplace.bounds.1 hcomment fun hlen c hc =>
      char_before_definitionStart hstart hlen hc

/-- Corresponding lines have the same diagnostics, and corresponding candidates or the same
fault. -/
theorem Line.candidates (h : C.Line n (d.text.lineStart pos) (e.text.lineStart pos'))
    (hfree : d.text.lineStart pos ≤ C.free)
    (hbefore : d.text.lineStart pos < C.free ∨
      ∀ {start}, d.definitionStart s (d.indentationPoint pos) = .ok start →
      start < d.text.lineStart pos)
    (hahead : C.Total ∨ d.commentAt (d.indentationPoint pos) = .ok false) :
    (e.candidates s pos').result =
        (d.candidates s pos).result.map (List.map (·.moveRight C.shift)) ∧
      (e.candidates s pos').diagnostics = (d.candidates s pos).diagnostics := by
  have hprose := C.prose h hfree
  rw [isProse_eq_of_lineStart_eq (d.text.lineStart_lineStart pos),
    isProse_eq_of_lineStart_eq (e.text.lineStart_lineStart pos')] at hprose
  cases hp : d.isProse pos with
  | true =>
    obtain ⟨hresult, hdiagnostics⟩ := candidates_of_prose (s := s) hp
    obtain ⟨hresult', hdiagnostics'⟩ := candidates_of_prose (s := s) (hprose.trans hp)
    rw [hresult, hresult', hdiagnostics, hdiagnostics']
    exact ⟨rfl, rfl⟩
  | false =>
    have hp' := hprose.trans hp
    obtain ⟨start, hstart, -⟩ := definitionStart_yields d s (d.indentationPoint pos)
    obtain ⟨start', hstart', hready⟩ :=
      h.ready hfree hstart (hbefore.imp_right fun hb => hb hstart) hahead
    have hsame := hready.candidatesWithin (s.levelsAt 0) false
    rw [candidates_result hp hstart, candidates_result hp' hstart',
      candidates_diagnostics hp hstart, candidates_diagnostics hp' hstart']
    refine ⟨?_, hsame.diagnostics_eq⟩
    rcases hsame.result with ⟨cs, cs', hcs, hcs', hrel⟩ | ⟨fault, hd, he⟩
    · rw [hcs, hcs', hrel.eq_map]
      rfl
    · rw [hd, he]
      rfl

end Parallel

end LayoutRule

import LayoutRule.Command.Run
import LayoutRule.Proofs.Command.Pressing
import LayoutRule.Proofs.Text.FileLines

/-!
# What the command saves

The command that applies a candidate to a line and saves the result gives the line a new indentation
and leaves its code and all other lines as they were read. What is written differs from what was
there in the line ends too: each of them is a newline now, so nothing but the indentation has
changed exactly when the file had no carriage return (`run_apply_write`).
-/

namespace LayoutRule

/-- What the file holds after a run that saved something. -/
def Outcome.written? (r : Outcome) : Option ByteArray := r.saved.map fun t => t.toString.toUTF8

/-- The bytes of a string are read as its characters, with the line ends made newlines. -/
theorem Text.ofBytes?_toUTF8 (s : String) :
    ofBytes? s.toUTF8 = some ⟨(newlines s.toList).toArray⟩ := by
  have hvalid : s.toUTF8.IsValidUTF8 := s.isValidUTF8
  unfold ofBytes? String.fromUTF8?
  rw [dif_pos hvalid]
  rfl

namespace Command

open Document Text

variable {α β : Type} {o : CommandOptions} {t t' : Terminal} {line : Int}

/-! ## Steps that did their part -/

/-- When a step and the rest are done, the step gave a value, and the rest was done with it. -/
theorem ok_of_run_bind {x : CommandM α} {f : α → CommandM β} {b : β}
    (h : (x >>= f).run.run t = (.ok b, t')) :
    ∃ a t₁, x.run.run t = (.ok a, t₁) ∧ (f a).run.run t₁ = (.ok b, t') := by
  rcases hx : x.run.run t with ⟨e | a, t₁⟩
  · simp only [ExceptT.run, StateT.run] at h hx
    simp [Bind.bind, ExceptT.bind, ExceptT.mk, StateT.bind, hx, ExceptT.bindCont] at h
    cases h
  · rw [run_bind hx] at h
    exact ⟨a, t₁, rfl, h⟩

/-- A computation that was performed gave the value, and all that changed on the terminal are the
reports. -/
theorem ok_of_run_perform {x : Noted α} {a : α} (h : (perform o x).run.run t = (.ok a, t')) :
    x.result = .ok a ∧ ∃ err, t' = { t with err := err } := by
  cases hx : x.result with
  | error e =>
    unfold perform at h
    rw [hx] at h
    cases h
  | ok b =>
    obtain ⟨err, hrun⟩ := run_perform o t hx
    cases hrun.symm.trans h
    exact ⟨rfl, err, rfl⟩

/-- A line that was found has a number of the document, and the position that was given is that of
its start. Looking it up changes nothing but the reports. -/
theorem ok_of_run_linePosition {pos : Int} (h : (linePosition o line).run.run t = (.ok pos, t')) :
    1 ≤ line ∧ line ≤ t.doc.text.lineCount ∧ t.doc.positionOf (line - 1) 0 = .ok pos ∧
      ∃ err, t' = { t with err := err } := by
  unfold linePosition at h
  rw [run_get_bind] at h
  simp only at h
  split at h
  · next hrange =>
    obtain ⟨hpos, hrest⟩ := ok_of_run_perform h
    exact ⟨hrange.1, hrange.2, hpos, hrest⟩
  · cases h

/-- Applying a candidate that there is. -/
theorem ok_of_run_applyOne [Platform] {pos index : Int}
    (h : (applyOne o pos index).run.run t = (.ok (), t')) :
    ∃ cs p, (t.doc.candidates o.settings pos).result = .ok cs ∧ 0 ≤ index ∧ index < cs.length ∧
      t.doc.applyEntry pos cs index 0 = .ok p ∧ t'.doc = p.1 := by
  unfold applyOne at h
  rw [run_get_bind] at h
  obtain ⟨cs, t₁, hcs, h⟩ := ok_of_run_bind h
  split at h
  · next hindex =>
    obtain ⟨p, t₂, hp, h⟩ := ok_of_run_bind h
    cases h
    exact ⟨cs, p, (ok_of_run_perform hcs).1, hindex.1, hindex.2, (ok_of_run_perform hp).1, rfl⟩
  · cases h

/-- Applying a candidate to a numbered line and saving the result. -/
theorem ok_of_run_act [Platform] {index : Int} (halign : o.align = none)
    (happly : o.apply = some index) (hwrite : o.write = true)
    (h : (act o line).run.run t = (.ok (), t')) :
    ∃ pos cs p, 1 ≤ line ∧ line ≤ t.doc.text.lineCount ∧ t.doc.positionOf (line - 1) 0 = .ok pos ∧
      (t.doc.candidates o.settings pos).result = .ok cs ∧ 0 ≤ index ∧ index < cs.length ∧
      t.doc.applyEntry pos cs index 0 = .ok p ∧ t'.saved = some p.1.text := by
  unfold act at h
  obtain ⟨pos, t₁, hposition, h⟩ := ok_of_run_bind h
  obtain ⟨hone, hle, hpos, err, rfl⟩ := ok_of_run_linePosition hposition
  rw [halign, happly] at h
  obtain ⟨⟨⟩, t₂, happlied, h⟩ := ok_of_run_bind h
  obtain ⟨cs, p, hcs, hindex, hlt, hp, hdoc⟩ := ok_of_run_applyOne happlied
  refine ⟨pos, cs, p, hone, hle, hpos, hcs, hindex, hlt, hp, ?_⟩
  obtain ⟨t₃, hdeliver, hgiven⟩ := run_deliver o t₂
  cases hdeliver.symm.trans h
  rw [(hgiven.saved hwrite).2, hdoc]

end Command

/-! ## The line -/

namespace Document

open Text

variable {d : Document} {s : Settings} {cs : List Candidate} {before line after : Text}

/-- What a candidate puts before the code of a line. -/
def leadOf (d : Document) (c : Candidate) : Text :=
  d.mark ++ d.blanksTo c.column ++ ofString (c.insert.getD "")

/-- A text of the rules has no carriage return. -/
theorem return_notMem_insert {text : String} (h : IsInsert text) : '\r' ∉ text.toList := by
  rcases h with rfl | ⟨name, ⟨c, rest, hname, hstart, hrest⟩, rfl⟩
  · decide
  · rw [String.toList_append, hname]
    simp only [List.cons_append, List.mem_cons, List.mem_append]
    rintro (rfl | hmem | hmem)
    · exact absurd hstart (by decide)
    · exact absurd (hrest _ hmem) (by decide)
    · exact absurd hmem (by decide)

/-- No candidate puts a carriage return before the code: its lead is a marker, blanks and a text of
the rules. -/
theorem return_notMem_leadOf {c : Candidate} (h : ∀ text ∈ c.insert, IsInsert text) :
    '\r' ∉ (d.leadOf c).chars.toList := by
  simp only [leadOf, chars_append, Array.toList_append, List.mem_append,
    Array.mem_toList_iff, not_or]
  refine ⟨⟨?_, fun hmem => absurd (mem_blanksTo hmem) (by decide)⟩, ?_⟩
  · unfold mark
    split <;> simp [ofString]
  · cases hc : c.insert with
    | none => simp [ofString]
    | some text => simpa [ofString] using return_notMem_insert (h text hc)

/-- An entry that can be applied is applied. -/
theorem eq_of_applyEntry [Platform] {pos index : Int} {p : Document × Int} (h₀ : 0 ≤ index)
    (h : d.applyEntry pos cs index 0 = .ok p) :
    ∃ c, cs[index.toNat]? = some c ∧ p = d.applyCandidate pos c 0 := by
  unfold applyEntry entry? at h
  rw [if_pos h₀] at h
  cases hc : cs[index.toNat]? with
  | none =>
    rw [hc] at h
    cases h
  | some c =>
    rw [hc] at h
    obtain ⟨-, -, h⟩ := bind_eq_ok.1 h
    cases h
    exact ⟨c, rfl, rfl⟩

/-- A line that has candidates is a marker or none, blanks and code, and a candidate puts its lead
before the code. -/
theorem applyCandidate_of_cut {k : Nat} {c : Candidate} (hcut : d.text.Cut before line after)
    (hcs : (d.candidates s before.length).result = .ok cs) (hc : cs[k]? = some c) :
    ∃ blanks code, line = d.mark ++ blanks ++ code ∧ (∀ x ∈ blanks.chars, isBlank x = true) ∧
      (∀ x, code.chars[0]? = some x → isBlank x = false) ∧ '\r' ∉ (d.leadOf c).chars.toList ∧
      (d.applyCandidate before.length c 0).1.text = before ++ d.leadOf c ++ code ++ after := by
  have hprose : d.isProse before.length = false := by
    cases hprose : d.isProse before.length with
    | false => rfl
    | true =>
      cases hcs.symm.trans (candidates_of_prose hprose).1
      cases hc
  have hinserts : ∀ text ∈ c.insert, IsInsert text := fun text htext =>
    (inserts_of_candidates hcs c (List.mem_of_getElem? hc) text htext).2
  obtain ⟨blanks, code, hline, hstanding⟩ := standing_of_cut hcut hcut.lineStart_eq hprose
  have htext := (hstanding.applyCandidate hcut.lineStart_eq hinserts).cut.eq
  rw [mark_eq_of_edited (Edited.applyCandidate ..)] at htext
  rw [append_ofString_empty] at hline
  refine ⟨blanks, code, hline, hstanding.blanks, hstanding.code, return_notMem_leadOf hinserts, ?_⟩
  rw [append_assoc before]
  exact htext

end Document

namespace Command

open Document Text

variable {args : List String} {folder : Folder} {input content : String} {o : CommandOptions}
  {n index : Int}

/-- A run that ends with the exit code zero has done all its steps. -/
theorem ok_of_exitCode [Platform] {r : Except Halt Unit × Terminal}
    (h : (Outcome.ofSteps r).ending.exitCode = 0) : r = (.ok (), r.2) := by
  obtain ⟨e | ⟨⟩, t⟩ := r
  · simp only [Outcome.ofSteps, Ending.exitCode] at h
    split at h <;> cases h
  · rfl

/-- What a run has saved is in the file, as the bytes of its characters. -/
theorem written?_ofSteps [Platform] {r : Except Halt Unit × Terminal} {text : Text}
    (h : r.2.saved = some text) :
    (Outcome.ofSteps r).written? = some (String.ofList text.chars.toList).toUTF8 := by
  unfold Outcome.written? Outcome.ofSteps
  rw [h]
  rfl

/-- Different characters are different bytes. -/
theorem toUTF8_ofList_inj {a b : List Char} :
    (String.ofList a).toUTF8 = (String.ofList b).toUTF8 ↔ a = b :=
  String.toByteArray_inj.trans String.ofList_inj

/-- A run that is asked about one line. -/
theorem run_eq_act [Platform] (hread : CommandOptions.read args = .ok o) (hline : o.line = some n)
    (hrepl : o.repl = false) (hfile : folder.read (Path.ofString o.file) = .ok content.toUTF8) :
    run args folder input = .ofSteps ((act o n).run.run
      { doc := .new ⟨(newlines content.toList).toArray⟩ o.styleOf 8 }) := by
  have hsteps : ∀ lines, steps o lines = act o n := by
    intro lines
    unfold steps
    rw [hline, hrepl]
    simp
  unfold run
  rw [hread]
  simp only [runOn, openDocument, hfile, ofBytes?_toUTF8, hsteps]

/-- The command that applies a candidate to the line with the number `n` and saves the result, and
ends as it was asked to, finds on this line of the file a marker or none, blanks, and code. It
writes the lines as it reads them, with the lead of the candidate before the code of the line. Apart
from that the file stays as it was exactly when it had no carriage return. -/
theorem run_apply_write [Platform] (hread : CommandOptions.read args = .ok o)
    (hline : o.line = some n) (happly : o.apply = some index) (hwrite : o.write = true)
    (halign : o.align = none) (hrepl : o.repl = false)
    (hfile : folder.read (Path.ofString o.file) = .ok content.toUTF8)
    (hexit : (run args folder input).ending.exitCode = 0) :
    let d := Document.new ⟨(newlines content.toList).toArray⟩ o.styleOf 8
    ∃ above line below blanks code cs c,
      FileLine.split content.toList = above ++ line :: below ∧ (above.length : Int) + 1 = n ∧
      line.chars = d.mark.chars.toList ++ blanks ++ code ∧ (∀ x ∈ blanks, isBlank x = true) ∧
      (∀ x, code.head? = some x → isBlank x = false) ∧
      (d.candidates o.settings (above.flatMap FileLine.read).length).result = .ok cs ∧
      0 ≤ index ∧ cs[index.toNat]? = some c ∧
      (run args folder input).written? = some (String.ofList (above.flatMap FileLine.read ++
        (d.leadOf c).chars.toList ++ code ++ line.ending.read ++
          below.flatMap FileLine.read)).toUTF8 ∧
      ((∃ lead, (run args folder input).written? =
          some (String.ofList (above.flatMap FileLine.written ++ lead ++ code ++
            line.ending.written ++ below.flatMap FileLine.written)).toUTF8) ↔
        '\r' ∉ content.toList) := by
  intro d
  rw [run_eq_act hread hline hrepl hfile] at hexit ⊢
  obtain ⟨pos, cs, p, hone, hle, hpos, hcs, hindex, -, hp, hsaved⟩ :=
    ok_of_run_act halign happly hwrite (ok_of_exitCode hexit)
  obtain ⟨c, hc, rfl⟩ := eq_of_applyEntry hindex hp
  obtain ⟨above, line, below, hsplit, hnumber⟩ := FileLine.exists_split hone hle
  obtain ⟨hcut, hcount⟩ := FileLine.cut_of_split hsplit
  -- the numbered line of the document is that of the file
  have hstart : pos = (⟨(above.flatMap FileLine.read).toArray⟩ : Text).length := by
    have hposition := positionOf_of_cut (d := d) hcut
    rw [List.count_toArray, hcount, show (above.length : Int) = n - 1 by omega] at hposition
    exact Except.ok.inj (hpos.symm.trans hposition)
  subst hstart
  obtain ⟨blanks, code, hparts, hblanks, hcode, hlead, htext⟩ := applyCandidate_of_cut hcut hcs hc
  have hchars : line.chars = d.mark.chars.toList ++ blanks.chars.toList ++ code.chars.toList := by
    simpa using congrArg (·.chars.toList) hparts
  have hwritten := written?_ofSteps (hsaved.trans (congrArg some htext))
  simp only [chars_append, Array.toList_append, ← List.append_assoc] at hwritten
  refine ⟨above, line, below, blanks.chars.toList, code.chars.toList, cs, c, hsplit, hnumber,
    hchars, by
    simpa using hblanks, by
      simpa [List.head?_eq_getElem?] using hcode, hcs, hindex, hc, hwritten, ?_⟩
  rw [← FileLine.rest_kept_iff hsplit hchars hlead]
  simp only [hwritten, Option.some.injEq, toUTF8_ofList_inj]

/-- A folder with one file. -/
def folderOf (content : String) : Folder := ⟨[(["a.hs"], content.toUTF8)]⟩

/-- Applies the second candidate of the second line of a marked script, and saves the script. -/
def markedArgs : List String :=
  ["a.hs", "--line", "2", "--apply", "1", "--write", "--literate", "bird"]

/-- The options that these arguments are. -/
def markedOptions : CommandOptions :=
  { file := "a.hs", line := some 2, apply := some 1, style := some .bird, write := true }

/-- On a marked line with blanks the name is put in, and the rest of the file stays as it was. -/
theorem run_apply_write_marked :
    (run markedArgs (folderOf "> f x = 1\n>\t \nend\n") "").ending.exitCode = 0 ∧
      ∃ above line below code lead,
        FileLine.split "> f x = 1\n>\t \nend\n".toList = above ++ line :: below ∧
        (above.length : Int) + 1 = 2 ∧
        (run markedArgs (folderOf "> f x = 1\n>\t \nend\n") "").written? = some (String.ofList
          (above.flatMap FileLine.written ++ lead ++ code ++ line.ending.written ++
            below.flatMap FileLine.written)).toUTF8 := by
  have hread : CommandOptions.read markedArgs = .ok markedOptions := by decide +kernel
  have hexit : (run markedArgs (folderOf "> f x = 1\n>\t \nend\n") "").ending.exitCode = 0 := by
    decide +kernel
  obtain ⟨above, line, below, blanks, code, cs, c, hsplit, hnumber, -, -, -, -, -, -, -, hkept⟩ :=
    run_apply_write hread rfl rfl rfl rfl rfl rfl hexit
  obtain ⟨lead, hwritten⟩ := hkept.mpr (by decide)
  exact ⟨hexit, above, line, below, code, lead, hsplit, hnumber, hwritten⟩

/-- Applies the first candidate of the second line, and saves the file. -/
def firstArgs : List String := ["a.hs", "--line", "2", "--apply", "0", "--write"]

/-- In a file with carriage returns before its newlines they are lost, also on the lines above and
below. -/
theorem returns_not_kept :
    (run firstArgs (folderOf "f x = 1\r\n  y\r\n") "").ending.exitCode = 0 ∧
      (run firstArgs (folderOf "f x = 1\r\n  y\r\n") "").written? = some "f x = 1\ny\n".toUTF8 ∧
      ¬∃ above line below code lead,
        FileLine.split "f x = 1\r\n  y\r\n".toList = above ++ line :: below ∧
        (above.length : Int) + 1 = 2 ∧
        (run firstArgs (folderOf "f x = 1\r\n  y\r\n") "").written? = some (String.ofList
          (above.flatMap FileLine.written ++ lead ++ code ++ line.ending.written ++
            below.flatMap FileLine.written)).toUTF8 := by
  have hwritten : (run firstArgs (folderOf "f x = 1\r\n  y\r\n") "").written? =
      some (String.ofList "f x = 1\ny\n".toList).toUTF8 := by decide +kernel
  refine ⟨by decide +kernel, hwritten, ?_⟩
  rintro ⟨above, line, below, code, lead, hsplit, hnumber, hkept⟩
  rw [hwritten, Option.some.injEq, toUTF8_ofList_inj] at hkept
  have hfirst : above = [⟨"f x = 1".toList, .both⟩] := by
    have hlength : above.length = 1 := by omega
    have htake : (FileLine.split "f x = 1\r\n  y\r\n".toList).take 1 = above := by
      rw [hsplit, ← hlength, List.take_left]
    exact htake.symm.trans (by decide)
  have hreturn : '\r' ∈ "f x = 1\ny\n".toList := by
    rw [hkept, hfirst]
    simp [FileLine.written, LineEnd.written]
  exact absurd hreturn (by decide)

end Command

end LayoutRule

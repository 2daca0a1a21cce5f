import LayoutRule.Editing.TabCycle
import LayoutRule.Proofs.Request.Candidates
import LayoutRule.Proofs.Text.Words
import Mathlib.Data.List.Infix

/-!
# The blocks of a LaTeX script

A LaTeX script is prose with blocks of code, each between a line that opens it and a line that
closes it. Whether a line is code is read off the text above it: the last opening line there must
come after the last closing line. The delimiter on the line itself does not count. So the line that
opens a block is prose, as it should be, but the line that closes it is code.

`Script` is such a script, given by its parts. `codeOpen_line` says what one line does to the block
that is open above it, and `inTurn_lines` that the lines of a script take turns as this asks for;
`isCodeLine_script` then says for every place of every script whether it is code, and that the key
does nothing where it is not.
-/

namespace LayoutRule

namespace Document

open Text

/-! ## Open blocks -/

/-- Whether the last opening line comes after the last closing one. -/
def opensLast : Option Int → Option Int → Bool
  | none, _ => false
  | some _, none => true
  | some opened, some closed => decide (closed < opened)

/-- Whether a block of code is open at the end of the text. -/
def codeOpen (t : Text) : Bool :=
  opensLast (t.lastWord? codeBegin t.length) (t.lastWord? codeEnd t.length)

/-- In a LaTeX script a line is code when, in the text above it, the last delimiter is one that
opens a block. Nothing on the line itself or below it counts. -/
theorem isCodeLine_latex {d : Document} (hstyle : d.style = .latex) (pos : Int) :
    d.isCodeLine pos =
      opensLast (d.text.lastWord? codeBegin (d.text.lineStart pos))
        (d.text.lastWord? codeEnd (d.text.lineStart pos)) := by
  unfold isCodeLine
  simp only [hstyle]
  rfl

/-- A line is code when a block is open above it. -/
theorem isCodeLine_eq {d : Document} {before line after : Text} {pos : Int}
    (hstyle : d.style = .latex) (h : d.text.Cut before line after)
    (hpos : d.text.lineStart pos = before.length) : d.isCodeLine pos = codeOpen before := by
  have hword : ∀ w, d.text.lastWord? w (d.text.lineStart pos) =
      before.lastWord? w before.length := by
    intro w
    rw [hpos, h.eq, append_assoc, lastWord?_append]
  rw [isCodeLine_latex hstyle, hword, hword, codeOpen]

/-! ## Scripts -/

/-- A line with no delimiter of a block in it. -/
structure PlainLine where
  /-- The characters of the line. -/
  chars : List Char
  /-- It is one line. -/
  one_line : '\n' ∉ chars
  /-- It opens no block. -/
  not_opening : ¬codeBegin <:+: chars
  /-- It closes no block. -/
  not_closing : ¬codeEnd <:+: chars

/-- A line of a script, by its part in it. -/
inductive ScriptLine where
  /-- Prose between the blocks. -/
  | prose (line : PlainLine)
  /-- The line above a block. -/
  | opening
  /-- Code in a block. -/
  | code (line : PlainLine)
  /-- The line below a block. -/
  | closing

namespace ScriptLine

/-- What is written on the line. -/
def text : ScriptLine → Text
  | prose line => ⟨line.chars.toArray⟩
  | opening => ⟨codeBegin.toArray⟩
  | code line => ⟨line.chars.toArray⟩
  | closing => ⟨codeEnd.toArray⟩

/-- Whether a block is open above the line. -/
def openAbove : ScriptLine → Bool
  | prose _ | opening => false
  | code _ | closing => true

/-- Whether a block is open below the line. -/
def openBelow : ScriptLine → Bool
  | prose _ | closing => false
  | opening | code _ => true

/-- The lines with a newline between each two of them. -/
def join : List ScriptLine → Text
  | [] => ofString ""
  | [line] => line.text
  | line :: next :: rest => line.text ++ ofString "\n" ++ join (next :: rest)

/-- The lines with a newline behind each. -/
def above : List ScriptLine → Text
  | [] => ofString ""
  | line :: rest => line.text ++ ofString "\n" ++ above rest

/-- Each line has the block open above it that the line before leaves open, the first one that of
`isOpen`. -/
def InTurn : Bool → List ScriptLine → Prop
  | _, [] => True
  | isOpen, line :: rest => line.openAbove = isOpen ∧ InTurn line.openBelow rest

end ScriptLine

/-- A part of a script: a line of prose, or a block of code. -/
inductive ScriptPart where
  /-- A line of prose. -/
  | prose (line : PlainLine)
  /-- A block with these lines of code. -/
  | block (code : List PlainLine)

/-- The lines of a part, a block with those that open and close it. -/
def ScriptPart.lines : ScriptPart → List ScriptLine
  | prose line => [.prose line]
  | block code => .opening :: (code.map .code ++ [.closing])

/-- A LaTeX script: prose and blocks of code, at least one line. -/
structure Script where
  /-- The parts in order. -/
  parts : List ScriptPart
  /-- There is one. -/
  nonempty : parts ≠ []

namespace Script

/-- The lines of the script. -/
def lines (script : Script) : List ScriptLine := script.parts.flatMap ScriptPart.lines

/-- The text of the script. -/
def text (script : Script) : Text := ScriptLine.join script.lines

end Script

/-- The delimiter that opens a block stands on one line. -/
theorem newline_notMem_codeBegin : '\n' ∉ codeBegin := by decide

/-- The delimiter that closes a block stands on one line. -/
theorem newline_notMem_codeEnd : '\n' ∉ codeEnd := by decide

/-! ## One line -/

section Step

variable {a line : Text}

/-- A line without delimiters leaves the block open or closed. -/
theorem codeOpen_plain (ha : ∀ c, a.chars.back? = some c → c = '\n')
    (hbegin : ¬codeBegin <:+: line.chars.toList) (hend : ¬codeEnd <:+: line.chars.toList) :
    codeOpen (a ++ line ++ ofString "\n") = codeOpen a := by
  unfold codeOpen
  rw [lastWord?_line ha newline_notMem_codeBegin nofun hbegin,
    lastWord?_line ha newline_notMem_codeEnd nofun hend]

/-- Below an opening line a block is open: the closing lines are all further up. -/
theorem codeOpen_opening (ha : ∀ c, a.chars.back? = some c → c = '\n') :
    codeOpen (a ++ ScriptLine.opening.text ++ ofString "\n") = true := by
  have hend : ¬codeEnd <:+: ScriptLine.opening.text.chars.toList := by decide
  unfold codeOpen
  rw [lastWord?_word ha newline_notMem_codeBegin nofun rfl,
    lastWord?_line ha newline_notMem_codeEnd nofun hend]
  cases hclosed : a.lastWord? codeEnd a.length with
  | none => rfl
  | some closed =>
    have hlength : (codeEnd.length : Int) = 10 := rfl
    have hbound : (a.bound a.length : Int) = a.length :=
      bound_of_mem a.length_nonneg (Int.le_refl _)
    obtain ⟨-, hle⟩ := mem_of_lastWord? hclosed
    exact decide_eq_true (by omega)

/-- Below a closing line no block is open: the opening lines are all further up. -/
theorem codeOpen_closing (ha : ∀ c, a.chars.back? = some c → c = '\n') :
    codeOpen (a ++ ScriptLine.closing.text ++ ofString "\n") = false := by
  have hbegin : ¬codeBegin <:+: ScriptLine.closing.text.chars.toList := by decide
  unfold codeOpen
  rw [lastWord?_word ha newline_notMem_codeEnd nofun rfl,
    lastWord?_line ha newline_notMem_codeBegin nofun hbegin]
  cases hopened : a.lastWord? codeBegin a.length with
  | none => rfl
  | some opened =>
    have hbound : (a.bound a.length : Int) = a.length :=
      bound_of_mem a.length_nonneg (Int.le_refl _)
    obtain ⟨-, hle⟩ := mem_of_lastWord? hopened
    exact decide_eq_false (by omega)

/-- When the text above a line of the script leaves a block open as the line has it, so does the
text with the line. -/
theorem codeOpen_line (l : ScriptLine) (ha : ∀ c, a.chars.back? = some c → c = '\n')
    (h : codeOpen a = l.openAbove) : codeOpen (a ++ l.text ++ ofString "\n") = l.openBelow := by
  cases l with
  | prose line => exact (codeOpen_plain ha line.not_opening line.not_closing).trans h
  | opening => exact codeOpen_opening ha
  | code line => exact (codeOpen_plain ha line.not_opening line.not_closing).trans h
  | closing => exact codeOpen_closing ha

end Step

/-! ## All lines -/

namespace ScriptLine

variable {a : Text} {ls : List ScriptLine} {l : ScriptLine} {pos : Int} {n : Nat}

/-- No line of a script holds a newline, whatever kind of line it is. -/
theorem newline_notMem_text (l : ScriptLine) : ∀ c ∈ l.text.chars, c ≠ '\n' := by
  rintro _ hc rfl
  cases l with
  | prose line => exact line.one_line (by simpa [text] using hc)
  | opening => exact newline_notMem_codeBegin (by simpa [text] using hc)
  | code line => exact line.one_line (by simpa [text] using hc)
  | closing => exact newline_notMem_codeEnd (by simpa [text] using hc)

/-- Above a line there are as many newlines as lines. -/
theorem count_above (ls : List ScriptLine) : (above ls).chars.count '\n' = ls.length := by
  induction ls with
  | nil => rfl
  | cons l ls ih =>
    have hline : l.text.chars.count '\n' = 0 :=
      Array.count_eq_zero.mpr fun h => l.newline_notMem_text _ h rfl
    have hnewline : (ofString "\n").chars.count '\n' = 1 := by decide
    rw [above, chars_append, chars_append, Array.count_append, Array.count_append, hline, hnewline,
      ih, List.length_cons]
    omega

/-- Above each line the block is open or not as the script has it. -/
theorem codeOpen_above (ha : ∀ c, a.chars.back? = some c → c = '\n') (h : InTurn (codeOpen a) ls)
    (hl : ls[n]? = some l) : codeOpen (a ++ above (ls.take n)) = l.openAbove := by
  induction ls generalizing a n with
  | nil => cases hl
  | cons first ls ih =>
    cases n with
    | zero =>
      cases hl
      rw [List.take_zero, above, append_ofString_empty]
      exact h.1.symm
    | succ n =>
      have hstep := codeOpen_line first ha h.1.symm
      rw [List.take_succ_cons, above, ← append_assoc, ← append_assoc]
      exact ih (back_newline _) (hstep ▸ h.2) hl

/-- In the text `t` the lines `ls` stand below `a`, and the one with the number `n`, which is `l`,
holds the place `pos`. -/
structure OnLine (t a : Text) (ls : List ScriptLine) (pos : Int) (n : Nat) (l : ScriptLine) :
    Prop where
  /-- The line has that number. -/
  getElem? : ls[n]? = some l
  /-- The text is cut around the line. -/
  cut : ∃ after, t.Cut (a ++ above (ls.take n)) l.text after
  /-- The line of the place starts where the line does. -/
  start : t.lineStart pos = (a ++ above (ls.take n)).length

/-- A place on the first line that is left lies on that line, with the number zero. -/
theorem onLine_first {t after : Text} (hcut : t.Cut a l.text after) (hpos : a.length ≤ pos)
    (hle : pos ≤ a.length + l.text.length) : OnLine t a (l :: ls) pos 0 l where
  getElem? := rfl
  cut := ⟨after, by rwa [List.take_zero, above, append_ofString_empty]⟩
  start := by rw [List.take_zero, above, append_ofString_empty, hcut.lineStart_of_between hpos hle]

/-- A place on a line below the first one lies on the same line with a number that is larger by
one. -/
theorem OnLine.below {t : Text} {line : ScriptLine}
    (h : OnLine t (a ++ line.text ++ ofString "\n") ls pos n l) :
    OnLine t a (line :: ls) pos (n + 1) l where
  getElem? := h.getElem?
  cut := by simpa only [List.take_succ_cons, above, append_assoc] using h.cut
  start := by simpa only [List.take_succ_cons, above, append_assoc] using h.start

/-- Every place of the text lies on one of the lines. -/
theorem exists_onLine (ha : ∀ c, a.chars.back? = some c → c = '\n') (hne : ls ≠ [])
    (hpos : a.length ≤ pos) (hlen : pos ≤ (a ++ join ls).length) :
    ∃ n l, OnLine (a ++ join ls) a ls pos n l := by
  fun_induction join ls generalizing a with
  | case1 => exact absurd rfl hne
  | case2 line =>
    have hcut : (a ++ line.text).Cut a line.text (ofString "") :=
      ⟨(append_ofString_empty _).symm, ha, line.newline_notMem_text, by simp [ofString]⟩
    exact ⟨0, line, onLine_first hcut hpos (by rwa [← length_append])⟩
  | case3 line next rest ih =>
    rw [← append_assoc, ← append_assoc] at hlen ⊢
    have hnewline : (ofString "\n").length = 1 := by decide
    rcases Int.lt_or_le (a.length + line.text.length) pos with hlt | hle
    · obtain ⟨n, l, h⟩ := ih (back_newline (a ++ line.text)) (List.cons_ne_nil next rest)
        (by simp only [length_append]; omega) hlen
      exact ⟨n + 1, l, h.below⟩
    · have hafter : ∀ c, (ofString "\n" ++ join (next :: rest)).chars[0]? = some c → c = '\n' := by
        intro c hc
        rw [getElem?_append_left _ _ (by decide)] at hc
        exact (Option.some.inj hc).symm
      have hcut : (a ++ line.text ++ ofString "\n" ++ join (next :: rest)).Cut a line.text _ :=
        ⟨append_assoc .., ha, line.newline_notMem_text, hafter⟩
      exact ⟨0, line, onLine_first hcut hpos hle⟩

end ScriptLine

/-! ## The lines of a script -/

/-- In a block the lines take turns up to the line that closes it. -/
theorem ScriptLine.inTurn_block (code : List PlainLine) {rest : List ScriptLine}
    (h : ScriptLine.InTurn false rest) :
    ScriptLine.InTurn true (code.map .code ++ .closing :: rest) := by
  induction code with
  | nil => exact ⟨rfl, h⟩
  | cons line code ih => exact ⟨rfl, ih⟩

/-- In the lines of a script, blocks are opened and closed in turn, beginning outside of a block. -/
theorem inTurn_lines (parts : List ScriptPart) :
    ScriptLine.InTurn false (parts.flatMap ScriptPart.lines) := by
  induction parts with
  | nil => trivial
  | cons part parts ih =>
    cases part with
    | prose line => exact ⟨rfl, ih⟩
    | block code =>
      simp only [List.flatMap_cons, ScriptPart.lines, List.cons_append, List.append_assoc,
        List.nil_append]
      exact ⟨rfl, ScriptLine.inTurn_block code ih⟩

/-- A script has at least one line, because it has at least one part and every part has a line. -/
theorem Script.lines_ne_nil (script : Script) : script.lines ≠ [] := by
  obtain ⟨parts, hparts⟩ := script
  cases parts with
  | nil => exact absurd rfl hparts
  | cons part parts => cases part <;> exact nofun

variable {d : Document} {script : Script} {pos : Int}

/-- A place of a script lies on the line of the script with its number, and is code when a block is
open above that line. -/
theorem exists_scriptLine (hstyle : d.style = .latex) (htext : d.text = script.text) (h₀ : 0 ≤ pos)
    (hlen : pos ≤ d.text.length) :
    ∃ line, script.lines[d.text.newlinesBefore pos]? = some line ∧
      d.isCodeLine pos = line.openAbove := by
  have hempty : ∀ c, (ofString "").chars.back? = some c → c = '\n' := by simp [ofString]
  have hopen : codeOpen (ofString "") = false := by decide
  have hjoin : d.text = ofString "" ++ ScriptLine.join script.lines := by
    rw [htext, ofString_empty_append, Script.text]
  obtain ⟨n, line, hline, ⟨after, hcut⟩, hstart⟩ :=
    ScriptLine.exists_onLine hempty script.lines_ne_nil h₀ (hjoin ▸ hlen)
  rw [← hjoin] at hcut hstart
  refine ⟨line, ?_, ?_⟩
  · have hn : n < script.lines.length := (List.getElem?_eq_some_iff.mp hline).1
    rw [hcut.newlinesBefore_eq h₀ hlen hstart, ofString_empty_append, ScriptLine.count_above,
      List.length_take, Nat.min_eq_left (Nat.le_of_lt hn), hline]
  · rw [isCodeLine_eq hstyle hcut hstart]
    exact ScriptLine.codeOpen_above hempty (hopen ▸ inTurn_lines script.parts) hline

/-- In a LaTeX script the lines of the blocks are code, and so are the lines that close them. On the
others, prose and the lines that open a block, there are no candidates, and pressing the key changes
nothing. -/
theorem isCodeLine_script [Platform] (d : Document) (script : Script) (pos : Int)
    (hstyle : d.style = .latex) (htext : d.text = script.text) (h₀ : 0 ≤ pos)
    (hlen : pos ≤ d.text.length) :
    ∃ line, script.lines[d.text.newlinesBefore pos]? = some line ∧
      (d.isCodeLine pos = true ↔ (∃ code, line = .code code) ∨ line = .closing) ∧
      ((∃ prose, line = .prose prose) ∨ line = .opening → ∀ s,
        ((d.candidates s pos).result = .ok [] ∧ (d.candidates s pos).diagnostics = []) ∧
        ∀ (k : TabKey) command,
          k.press s d pos command =
            ⟨d, { k with lastCommand := some command }, ⟨[], .ok ⟨[], none, pos⟩⟩⟩) := by
  obtain ⟨line, hline, hcode⟩ := exists_scriptLine hstyle htext h₀ hlen
  refine ⟨line, hline, ?_, ?_⟩
  · rw [hcode]
    cases line <;> simp [ScriptLine.openAbove]
  · intro houtside s
    have hprose : d.isProse pos = true := by
      unfold isProse
      rw [hstyle, hcode]
      rcases houtside with ⟨prose, rfl⟩ | rfl <;> rfl
    refine ⟨candidates_of_prose hprose, fun k command => ?_⟩
    unfold TabKey.press
    rw [hprose]
    rfl

/-- A script with a block between two lines of prose. -/
def framedBlock : Script where
  parts := [
    .prose ⟨"Intro".toList, by decide, by decide, by decide⟩,
    .block [⟨"f = 1".toList, by decide, by decide, by decide⟩],
    .prose ⟨"Outro".toList, by decide, by decide, by decide⟩]
  nonempty := nofun

/-- Its opening line, at 6, has no candidates; its closing line, at 25, is code. -/
theorem isCodeLine_script_framedBlock :
    framedBlock.text = ofString "Intro\n\\begin\x7bcode\x7d\nf = 1\n\\end\x7bcode\x7d\nOutro" ∧
      ((Document.new framedBlock.text .latex 8).candidates {} 6).result = .ok [] ∧
      (Document.new framedBlock.text .latex 8).isCodeLine 25 = true := by
  refine ⟨by decide +kernel, ?_, ?_⟩
  · obtain ⟨line, hline, -, hprose⟩ :=
      isCodeLine_script (.new framedBlock.text .latex 8) framedBlock 6 rfl rfl (by decide)
        (by decide +kernel)
    have hopening : framedBlock.lines[framedBlock.text.newlinesBefore 6]? = some .opening := rfl
    cases hopening.symm.trans hline
    exact (hprose (.inr rfl) {}).1.1
  · obtain ⟨line, hline, hcode, -⟩ :=
      isCodeLine_script (.new framedBlock.text .latex 8) framedBlock 25 rfl rfl (by decide)
        (by decide +kernel)
    have hclosing : framedBlock.lines[framedBlock.text.newlinesBefore 25]? = some .closing := rfl
    cases hclosing.symm.trans hline
    exact hcode.mpr (.inr rfl)

/-- So not only the lines between the delimiters are code. -/
theorem not_only_between_delimiters :
    ¬∀ (d : Document) (script : Script) (pos : Int), d.style = .latex →
      d.text = script.text → 0 ≤ pos → pos ≤ d.text.length →
      (d.isCodeLine pos = true ↔
        ∃ code, script.lines[d.text.newlinesBefore pos]? = some (.code code)) := by
  intro h
  have hcode : (Document.new framedBlock.text .latex 8).isCodeLine 25 = true := by decide +kernel
  have hclosing : framedBlock.lines[framedBlock.text.newlinesBefore 25]? = some .closing := rfl
  obtain ⟨code, hline⟩ :=
    (h (.new framedBlock.text .latex 8) framedBlock 25 rfl rfl (by decide) (by decide +kernel)).mp
      hcode
  cases hclosing.symm.trans hline

end Document

end LayoutRule

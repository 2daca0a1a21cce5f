import LayoutRule.Command.Folder
import LayoutRule.Proofs.Text.Splitting

/-!
# The lines of a file

A line of a file ends with a newline, with a carriage return, with both, or with the file.
`FileLine.split` takes the characters of a file apart into such lines, and nothing is lost
(`flatMap_written_split`). A file is read with a newline for each line end (`flatMap_read_split`),
so each of its lines is a line of the text that was read (`cut_of_split`), and what was read tells
nothing of the line ends. A file that is written as it was read, with one line changed, is therefore
the same in all the rest exactly when it had no carriage return (`rest_kept_iff`).
-/

namespace LayoutRule

/-- What ends a line of a file. -/
inductive LineEnd where
  | newline
  | carriageReturn
  /-- A carriage return with a newline. -/
  | both
  /-- The line is the last one, and nothing follows it. -/
  | file
deriving DecidableEq, Repr

namespace LineEnd

/-- The characters in the file. -/
def written : LineEnd → List Char
  | .newline => ['\n']
  | .carriageReturn => ['\r']
  | .both => ['\r', '\n']
  | .file => []

/-- What is read for them. -/
def read : LineEnd → List Char
  | .file => []
  | _ => ['\n']

/-- A line end without a carriage return is read as it is written. -/
theorem read_eq_written {e : LineEnd} (h : '\r' ∉ e.written) : e.read = e.written := by
  cases e with
  | newline => rfl
  | carriageReturn => exact absurd (List.mem_singleton_self _) h
  | both => exact absurd List.mem_cons_self h
  | file => rfl

/-- No line end is read as a carriage return. -/
theorem return_notMem_read (e : LineEnd) : '\r' ∉ e.read := by
  cases e <;> simp [read]

end LineEnd

/-- A line of a file. -/
structure FileLine where
  /-- The characters of the line. -/
  chars : List Char
  /-- What ends it. -/
  ending : LineEnd
deriving DecidableEq, Repr

namespace FileLine

/-- The characters in the file. -/
def written (l : FileLine) : List Char := l.chars ++ l.ending.written

/-- What is read for them. -/
def read (l : FileLine) : List Char := l.chars ++ l.ending.read

/-- Puts a character before the first of some lines. -/
def prepend (c : Char) : List FileLine → List FileLine
  | [] => []
  | l :: ls => ⟨c :: l.chars, l.ending⟩ :: ls

/-- The lines of a file. -/
def split : List Char → List FileLine
  | '\r' :: '\n' :: rest => ⟨[], .both⟩ :: split rest
  | '\r' :: rest => ⟨[], .carriageReturn⟩ :: split rest
  | '\n' :: rest => ⟨[], .newline⟩ :: split rest
  | c :: rest => prepend c (split rest)
  | [] => [⟨[], .file⟩]

variable {s : List Char} {l line : FileLine} {ls above below : List FileLine}

/-- A file has at least one line, be it an empty one. -/
theorem split_ne_nil (s : List Char) : split s ≠ [] := by
  fun_induction split s with
  | case4 c rest _ _ _ ih =>
    obtain ⟨l, ls, hsplit⟩ := List.exists_cons_of_ne_nil ih
    rw [hsplit]
    exact List.cons_ne_nil _ _
  | _ => exact List.cons_ne_nil _ _

/-- Put together, the lines are the file. -/
theorem flatMap_written_split (s : List Char) : (split s).flatMap written = s := by
  fun_induction split s with
  | case1 rest ih => simp [written, LineEnd.written, ih]
  | case2 rest _ ih => simp [written, LineEnd.written, ih]
  | case3 rest ih => simp [written, LineEnd.written, ih]
  | case4 c rest _ _ _ ih =>
    obtain ⟨l, ls, hsplit⟩ := List.exists_cons_of_ne_nil (split_ne_nil rest)
    rw [hsplit] at ih ⊢
    simpa [prepend, written] using ih
  | case5 => rfl

/-- Put together as they are read, they are the text that is read. -/
theorem flatMap_read_split (s : List Char) : (split s).flatMap read = Text.newlines s := by
  fun_induction split s with
  | case1 rest ih => simp [read, LineEnd.read, Text.newlines, ih]
  | case2 rest hone ih =>
    rw [Text.newlines.eq_2 rest hone, ← ih]
    rfl
  | case3 rest ih => simp [read, LineEnd.read, Text.newlines, ih]
  | case4 c rest htwo hone _ ih =>
    obtain ⟨l, ls, hsplit⟩ := List.exists_cons_of_ne_nil (split_ne_nil rest)
    rw [Text.newlines.eq_3 c rest htwo hone, ← ih, hsplit]
    rfl
  | case5 => rfl

/-! ## Lines of a file and lines of the text -/

/-- Lines as they make up a file: the characters of a line do not end it, and the last line alone
ends with the file. -/
inductive Lined : List FileLine → Prop
  | last {chars : List Char} (hplain : ∀ c ∈ chars, c ≠ '\n' ∧ c ≠ '\r') : Lined [⟨chars, .file⟩]
  | cons {l : FileLine} {ls : List FileLine} (hplain : ∀ c ∈ l.chars, c ≠ '\n' ∧ c ≠ '\r')
      (hend : l.ending ≠ .file) (hrest : Lined ls) : Lined (l :: ls)

/-- A character that ends no line can be put before the first line. -/
theorem Lined.prepend {c : Char} (hnewline : c ≠ '\n') (hreturn : c ≠ '\r') (h : Lined ls) :
    Lined (prepend c ls) := by
  have hplain : ∀ {chars : List Char}, (∀ x ∈ chars, x ≠ '\n' ∧ x ≠ '\r') →
      ∀ x ∈ c :: chars, x ≠ '\n' ∧ x ≠ '\r' :=
    fun h => List.forall_mem_cons.mpr ⟨⟨hnewline, hreturn⟩, h⟩
  cases h with
  | last h => exact .last (hplain h)
  | cons h hend hrest => exact .cons (hplain h) hend hrest

/-- Taking a file apart gives lines as they make up a file. -/
theorem lined_split (s : List Char) : Lined (split s) := by
  fun_induction split s with
  | case1 rest ih => exact .cons (by simp) (by simp) ih
  | case2 rest _ ih => exact .cons (by simp) (by simp) ih
  | case3 rest ih => exact .cons (by simp) (by simp) ih
  | case4 c rest _ hreturn hnewline ih => exact ih.prepend hnewline hreturn
  | case5 => exact .last (by simp)

namespace Lined

/-- No line of a file holds a character that would end it. -/
theorem plain (h : Lined ls) : ∀ l ∈ ls, ∀ c ∈ l.chars, c ≠ '\n' ∧ c ≠ '\r' := by
  induction h with
  | last hplain => simpa using hplain
  | cons hplain _ _ ih => exact List.forall_mem_cons.mpr ⟨hplain, ih⟩

/-- A line ends with the file exactly when there is none below it. -/
theorem ending_eq_file_iff (h : Lined (line :: below)) : line.ending = .file ↔ below = [] := by
  cases h with
  | last => simp
  | cons _ hend hrest =>
    refine iff_of_false hend ?_
    rintro rfl
    cases hrest

/-- Below a line that is not the last one, the other lines make up a file. -/
theorem tail (h : Lined (l :: ls)) (hne : ls ≠ []) : Lined ls := by
  cases h with
  | last => exact absurd rfl hne
  | cons _ _ hrest => exact hrest

/-- The lines above a line do not end with the file. -/
theorem of_append (h : Lined (above ++ line :: below)) :
    (∀ l ∈ above, l.ending ≠ .file) ∧ Lined (line :: below) := by
  induction above with
  | nil => exact ⟨by simp, h⟩
  | cons l above ih =>
    have hend : l.ending ≠ .file := mt h.ending_eq_file_iff.mp (by simp)
    obtain ⟨hends, hline⟩ := ih (h.tail (by simp))
    exact ⟨List.forall_mem_cons.mpr ⟨hend, hends⟩, hline⟩

end Lined

/-- A line that does not end with the file is read with a newline at its end. -/
theorem read_eq (h : l.ending ≠ .file) : l.read = l.chars ++ ['\n'] := by
  unfold read
  cases hend : l.ending with
  | file => exact absurd hend h
  | _ => rfl

/-- Lines that do not end with the file are read with one newline each. -/
theorem count_read_above (hplain : ∀ l ∈ above, ∀ c ∈ l.chars, c ≠ '\n')
    (hends : ∀ l ∈ above, l.ending ≠ .file) : (above.flatMap read).count '\n' = above.length := by
  induction above with
  | nil => rfl
  | cons l above ih =>
    obtain ⟨hline, hplain⟩ := List.forall_mem_cons.mp hplain
    obtain ⟨hend, hends⟩ := List.forall_mem_cons.mp hends
    have hzero : l.chars.count '\n' = 0 := List.count_eq_zero.mpr fun h => hline _ h rfl
    rw [List.flatMap_cons, List.count_append, ih hplain hends, read_eq hend, List.count_append,
      hzero, List.length_cons]
    simp [Nat.add_comm]

/-- What was read above a line ends with a newline. -/
theorem getLast?_read_above (hends : ∀ l ∈ above, l.ending ≠ .file) :
    ∀ c, (above.flatMap read).getLast? = some c → c = '\n' := by
  intro c hc
  rcases List.eq_nil_or_concat above with rfl | ⟨init, l, rfl⟩
  · cases hc
  · rw [List.concat_eq_append, List.flatMap_append, List.flatMap_singleton,
      read_eq (hends l (by simp)), ← List.append_assoc, List.getLast?_concat] at hc
    exact (Option.some.inj hc).symm

/-- What is read at the end of a line and below it starts with a newline, if there is anything. -/
theorem head?_read_below (h : Lined (line :: below)) :
    ∀ c, (line.ending.read ++ below.flatMap read).head? = some c → c = '\n' := by
  intro c hc
  cases hend : line.ending with
  | file =>
    rw [hend, h.ending_eq_file_iff.mp hend] at hc
    cases hc
  | _ =>
    rw [hend] at hc
    exact (Option.some.inj hc).symm

/-- A line of a file is a line of the text that is read, with as many lines above it. -/
theorem cut_of_split (h : split s = above ++ line :: below) :
    (⟨(Text.newlines s).toArray⟩ : Text).Cut ⟨(above.flatMap read).toArray⟩ ⟨line.chars.toArray⟩
      ⟨(line.ending.read ++ below.flatMap read).toArray⟩ ∧
      (above.flatMap read).count '\n' = above.length := by
  have hlined := h ▸ lined_split s
  obtain ⟨hends, hbelow⟩ := hlined.of_append
  have hplain : ∀ l ∈ above ++ line :: below, ∀ c ∈ l.chars, c ≠ '\n' :=
    fun l hl c hc => (hlined.plain l hl c hc).1
  refine ⟨⟨?_, ?_, ?_, ?_⟩, count_read_above (fun l hl => hplain l (by simp [hl])) hends⟩
  · rw [← flatMap_read_split, h]
    exact Text.ext_chars (by simp [read])
  · simpa using getLast?_read_above hends
  · simpa using hplain line (by simp)
  · simpa [List.head?_eq_getElem?] using head?_read_below hbelow

/-- A file has as many lines as the text that is read from it. -/
theorem length_split (s : List Char) :
    (split s).length = (⟨(Text.newlines s).toArray⟩ : Text).lineCount := by
  obtain ⟨init, last, hsplit⟩ := (List.eq_nil_or_concat (split s)).resolve_left (split_ne_nil s)
  rw [List.concat_eq_append] at hsplit
  obtain ⟨hcut, hcount⟩ := cut_of_split hsplit
  have hend : last.ending = .file := (hsplit ▸ lined_split s).of_append.2.ending_eq_file_iff.mpr rfl
  rw [hcut.lineCount_eq, hsplit, hend]
  simp [LineEnd.read, hcount]

/-- The line of a file with a given number, counted from one. -/
theorem exists_split {n : Int} (h₁ : 1 ≤ n)
    (h₂ : n ≤ (⟨(Text.newlines s).toArray⟩ : Text).lineCount) :
    ∃ above line below, split s = above ++ line :: below ∧ (above.length : Int) + 1 = n := by
  rw [← length_split] at h₂
  have hlt : (n - 1).toNat < (split s).length := by omega
  refine ⟨(split s).take (n - 1).toNat, (split s)[(n - 1).toNat],
    (split s).drop ((n - 1).toNat + 1), ?_, ?_⟩
  · rw [← List.drop_eq_getElem_cons, List.take_append_drop]
  · rw [List.length_take]
    omega

/-! ## Line ends that are not newlines -/

/-- A file is read without carriage returns. -/
theorem return_notMem_read (h : Lined (above ++ line :: below)) :
    '\r' ∉ (above ++ line :: below).flatMap read := by
  intro hmem
  obtain ⟨l, hl, hmem⟩ := List.mem_flatMap.mp hmem
  rcases List.mem_append.mp hmem with hmem | hmem
  · exact (h.plain l hl _ hmem).2 rfl
  · exact l.ending.return_notMem_read hmem

/-- Lines without a carriage return are read as they are written. -/
theorem flatMap_read_eq_written (h : '\r' ∉ ls.flatMap written) :
    ls.flatMap read = ls.flatMap written := by
  have heq : ∀ l ∈ ls, l.read = l.written := by
    intro l hl
    have hline : '\r' ∉ l.written := fun hmem => h (List.mem_flatMap.mpr ⟨l, hl, hmem⟩)
    unfold read
    rw [LineEnd.read_eq_written fun hmem => hline (List.mem_append_right _ hmem)]
    rfl
  rw [List.flatMap_def, List.flatMap_def, List.map_congr_left heq]

/-- When a file is written as it was read, with something new before some of the characters of a
line, all but these stays as it was exactly when the file had no carriage return. -/
theorem rest_kept_iff {old new code : List Char} (h : split s = above ++ line :: below)
    (hline : line.chars = old ++ code) (hnew : '\r' ∉ new) :
    (∃ lead, above.flatMap read ++ new ++ code ++ line.ending.read ++ below.flatMap read =
      above.flatMap written ++ lead ++ code ++ line.ending.written ++ below.flatMap written) ↔
        '\r' ∉ s := by
  have hs : s = above.flatMap written ++ (line.chars ++ line.ending.written) ++
      below.flatMap written := by
    rw [← flatMap_written_split s, h, List.flatMap_append, List.flatMap_cons, List.append_assoc]
    rfl
  have hread : '\r' ∉ above.flatMap read ++ (line.chars ++ line.ending.read) ++
      below.flatMap read := by
    have hnot := return_notMem_read (h ▸ lined_split s)
    rw [List.flatMap_append, List.flatMap_cons, ← List.append_assoc] at hnot
    exact hnot
  rw [hs]
  constructor
  · -- a carriage return of the old file stands outside the characters of the line, and so in the
    -- new one
    rintro ⟨lead, heq⟩ hmem
    have hnot : '\r' ∉ above.flatMap read ++ new ++ code ++ line.ending.read ++
        below.flatMap read := by
      simp only [hline, List.mem_append, not_or] at hread ⊢
      simp [hread, hnew]
    rw [heq] at hnot
    simp only [hline, List.mem_append, not_or] at hread hnot hmem
    simp [hread, hnot] at hmem
  · intro hnot
    simp only [List.mem_append, not_or] at hnot
    refine ⟨new, ?_⟩
    rw [flatMap_read_eq_written hnot.1.1, LineEnd.read_eq_written hnot.1.2.2,
      flatMap_read_eq_written hnot.2]

end FileLine

end LayoutRule

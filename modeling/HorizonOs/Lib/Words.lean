import HorizonOs.Lib.Text

/-!
# Words and lines

A text split at white space and at line ends, on its characters. A word is never empty
and has no white space in it; texts with a separator between them have the words of
both.
-/

namespace HorizonOs.Lib.Words

open HorizonOs.Lib.Text

set_option autoImplicit false

/-- No character is white space. -/
def Solid (chars : List Char) : Prop := ∀ c ∈ chars, isWhiteSpace c = false

instance (chars : List Char) : Decidable (Solid chars) := List.decidableBAll _ chars

/-- The words that follow where a word has been read so far. -/
def wordsFrom (word : List Char) : List Char → List (List Char)
  | [] => if word = [] then [] else [word]
  | c :: rest =>
      if isWhiteSpace c then
        if word = [] then wordsFrom [] rest else word :: wordsFrom [] rest
      else wordsFrom (word ++ [c]) rest

/-- `str::split_whitespace`. -/
def splitWhitespace (chars : List Char) : List (List Char) := wordsFrom [] chars

theorem words_from_solid (word chars : List Char) (solid : Solid chars) :
    wordsFrom word chars = if word ++ chars = [] then [] else [word ++ chars] := by
  induction chars generalizing word with
  | nil => rw [wordsFrom, List.append_nil]
  | cons c rest ih =>
      rw [wordsFrom, solid c List.mem_cons_self, if_neg Bool.false_ne_true,
        ih _ fun d member => solid d (List.mem_cons_of_mem c member), List.append_assoc,
        List.singleton_append]

theorem words_from_append (word first : List Char) (c : Char) (space : isWhiteSpace c = true)
    (rest : List Char) :
    wordsFrom word (first ++ c :: rest) = wordsFrom word first ++ splitWhitespace rest := by
  induction first generalizing word with
  | nil =>
      rw [List.nil_append, wordsFrom, wordsFrom, if_pos space, splitWhitespace]
      split_ifs <;> rfl
  | cons d first ih =>
      rw [List.cons_append, wordsFrom, wordsFrom]
      split_ifs
      · exact ih []
      · rw [ih, List.cons_append]
      · exact ih _

/-- Texts with white space between them. -/
theorem split_append (first : List Char) (c : Char) (space : isWhiteSpace c = true)
    (rest : List Char) :
    splitWhitespace (first ++ c :: rest) = splitWhitespace first ++ splitWhitespace rest :=
  words_from_append [] first c space rest

theorem split_solid (word : List Char) (solid : Solid word) (some : word ≠ []) :
    splitWhitespace word = [word] := by
  rw [splitWhitespace, words_from_solid [] word solid, List.nil_append, if_neg some]

theorem words_from_mem (chars : List Char) : ∀ word, Solid word → ∀ w ∈ wordsFrom word chars,
    w ≠ [] ∧ Solid w := by
  induction chars with
  | nil =>
      intro word solid w member
      rw [wordsFrom] at member
      split_ifs at member with none
      · cases member
      · rw [List.mem_singleton] at member
        exact member ▸ ⟨none, solid⟩
  | cons c rest ih =>
      intro word solid w member
      have empty : Solid [] := fun d inside => absurd inside List.not_mem_nil
      rw [wordsFrom] at member
      split_ifs at member with space none
      · exact ih [] empty w member
      · rcases List.mem_cons.mp member with rfl | later
        · exact ⟨none, solid⟩
        · exact ih [] empty w later
      · apply ih (word ++ [c]) _ w member
        intro d inside
        rcases List.mem_append.mp inside with before | last
        · exact solid d before
        · rw [List.mem_singleton.mp last]
          exact Bool.eq_false_of_not_eq_true space

theorem split_mem {chars word : List Char} (member : word ∈ splitWhitespace chars) :
    word ≠ [] ∧ Solid word :=
  words_from_mem chars [] (fun _ inside => absurd inside List.not_mem_nil) word member

/-! ## Lines -/

def newline : Char := Char.ofNat 0x0A

/-- A line without the carriage return that ends it. -/
def chompReturn (line : List Char) : List Char :=
  if line.getLast? = some (Char.ofNat 0x0D) then line.dropLast else line

/-- The lines of the parts between line ends; what follows the last end is a line where it
is not empty. -/
def linesOf : List (List Char) → List (List Char)
  | [] => []
  | [last] => if last = [] then [] else [last]
  | line :: next :: rest => chompReturn line :: linesOf (next :: rest)

/-- `str::lines`. -/
def lines (chars : List Char) : List (List Char) := linesOf (chars.splitOn newline)

theorem newline_space : isWhiteSpace newline = true := by decide

theorem solid_not_newline {chars : List Char} (solid : Solid chars) : newline ∉ chars := by
  intro member
  exact absurd newline_space (by rw [solid newline member]; exact Bool.false_ne_true)

/-- A line and what follows it. -/
theorem split_on_first (line rest : List Char) (whole : newline ∉ line) :
    (line ++ newline :: rest).splitOn newline = line :: rest.splitOn newline := by
  apply List.splitOnP_append_cons_of_forall_mem
  · intro c member
    rw [beq_eq_false_iff_ne]
    rintro rfl
    exact whole member
  · exact beq_self_eq_true newline

theorem lines_cons (line rest : List Char) (whole : newline ∉ line) :
    lines (line ++ newline :: rest) = chompReturn line :: lines rest := by
  rw [lines, lines, split_on_first line rest whole]
  cases parts : rest.splitOn newline with
  | nil => exact absurd parts (List.splitOn_ne_nil newline rest)
  | cons next more => rfl

theorem lines_nil : lines [] = [] := by decide

end HorizonOs.Lib.Words

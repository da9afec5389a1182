import HorizonOs.Lib.Text
import Mathlib.Data.List.TakeWhile

/-!
# Trimming

What `str::trim` takes off a text, and which further texts it takes off too.
-/

namespace HorizonOs.Lib.Text

set_option autoImplicit false

/-! ## White space at the end -/

theorem trim_end_white (front white : List Char) (blank : ∀ c ∈ white, isWhiteSpace c = true) :
    trimEnd (front ++ white) = trimEnd front := by
  have turned : ∀ c ∈ white.reverse, isWhiteSpace c = true := fun c member =>
    blank c (List.mem_reverse.mp member)
  rw [trimEnd, trimEnd, trimStart, trimStart, List.reverse_append, List.dropWhile_append_of_pos turned]

theorem trim_end_front (chars : List Char) : trimEnd chars <+: chars := by
  rw [trimEnd, ← List.reverse_suffix, List.reverse_reverse]
  exact List.dropWhile_suffix isWhiteSpace

theorem trim_end_solid {chars : List Char} (solid : ∀ c ∈ chars.getLast?, isWhiteSpace c = false) :
    trimEnd chars = chars := by
  rw [← List.head?_reverse] at solid
  rw [trimEnd, trim_start_of_head _ solid, List.reverse_reverse]

theorem last_of_trim_end (chars : List Char) :
    ∀ c ∈ (trimEnd chars).getLast?, isWhiteSpace c = false := by
  intro c last
  rw [trimEnd, List.getLast?_reverse, trimStart] at last
  have refused := List.head?_dropWhile_not isWhiteSpace chars.reverse
  rw [Option.mem_def.mp last] at refused
  simpa using refused

/-! ## White space at both ends -/

theorem trim_start_white (white rest : List Char) (blank : ∀ c ∈ white, isWhiteSpace c = true) :
    trimStart (white ++ rest) = trimStart rest := List.dropWhile_append_of_pos blank

theorem trim_chars_white_front (white rest : List Char)
    (blank : ∀ c ∈ white, isWhiteSpace c = true) : trimChars (white ++ rest) = trimChars rest := by
  rw [trimChars, trimChars, trim_start_white white rest blank]

theorem trim_chars_white_back (front white : List Char)
    (blank : ∀ c ∈ white, isWhiteSpace c = true) : trimChars (front ++ white) = trimChars front := by
  rw [trimChars, trimChars]
  by_cases empty : trimStart front = []
  · have all := List.dropWhile_eq_nil_iff.mp empty
    rw [trim_start_white front white all, empty, trimStart, List.dropWhile_eq_nil_iff.mpr blank]
  · have kept : trimStart (front ++ white) = trimStart front ++ white := by
      rw [trimStart, trimStart, List.dropWhile_append, if_neg]
      simpa [trimStart] using empty
    rw [kept, trim_end_white _ _ blank]

/-- A text is what is left of it between two white spaces. -/
theorem trim_parts (chars : List Char) : ∃ front back, chars = front ++ trimChars chars ++ back ∧
    (∀ c ∈ front, isWhiteSpace c = true) ∧ ∀ c ∈ back, isWhiteSpace c = true := by
  have front : chars.takeWhile isWhiteSpace ++ trimStart chars = chars :=
    List.takeWhile_append_dropWhile
  have back := List.takeWhile_append_dropWhile (p := isWhiteSpace) (l := (trimStart chars).reverse)
  refine ⟨chars.takeWhile isWhiteSpace, ((trimStart chars).reverse.takeWhile isWhiteSpace).reverse,
    ?_, fun c member => List.mem_takeWhile_imp member,
    fun c member => List.mem_takeWhile_imp (List.mem_reverse.mp member)⟩
  have turned := congrArg List.reverse back
  rw [List.reverse_append, List.reverse_reverse] at turned
  rw [List.append_assoc, trimChars, trimEnd, trimStart, turned, front]

theorem trim_head (chars : List Char) : ∀ c ∈ (trimChars chars).head?, isWhiteSpace c = false := by
  intro c first
  have start : trimChars chars <+: trimStart chars := trim_end_front _
  have whole : c ∈ (trimStart chars).head? := by
    obtain ⟨rest, same⟩ := start
    rw [← same, List.head?_append, first]
    rfl
  have refused := List.head?_dropWhile_not isWhiteSpace chars
  rw [trimStart] at whole
  rw [Option.mem_def.mp whole] at refused
  simpa using refused

/-- A text that is trimmed alike with more behind it has white space behind it. -/
theorem white_of_trim_back {chars more : List Char} (present : trimChars chars ≠ [])
    (same : trimChars (chars ++ more) = trimChars chars) : ∀ c ∈ more, isWhiteSpace c = true := by
  obtain ⟨front, back, parts, frontBlank, _⟩ := trim_parts chars
  obtain ⟨start, ending, whole, startBlank, endingBlank⟩ := trim_parts (chars ++ more)
  obtain ⟨c, rest, head⟩ := List.exists_cons_of_ne_nil present
  have solid : isWhiteSpace c = false := trim_head chars c (by rw [head]; rfl)
  have leading : ∀ white tail : List Char, (∀ d ∈ white, isWhiteSpace d = true) →
      (white ++ c :: tail).takeWhile isWhiteSpace = white := by
    intro white tail blank
    rw [List.takeWhile_append_of_pos blank, List.takeWhile_cons_of_neg (by rw [solid]; simp),
      List.append_nil]
  rw [same, head, List.append_assoc, List.cons_append] at whole
  have other := leading start (rest ++ ending) startBlank
  have here := leading front (rest ++ back ++ more) frontBlank
  have joined : chars ++ more = front ++ c :: (rest ++ back ++ more) := by
    rw [head] at parts
    rw [parts]
    simp
  rw [← joined] at here
  rw [← whole, here] at other
  rw [joined, other, List.append_cancel_left_eq, List.cons.injEq, List.append_assoc,
    List.append_cancel_left_eq] at whole
  intro d member
  apply endingBlank d
  rw [← whole.2]
  exact List.mem_append_right back member

/-- A text that is trimmed alike with more before it has white space before it. -/
theorem white_of_trim_front {more chars : List Char} (present : trimChars chars ≠ [])
    (same : trimChars (more ++ chars) = trimChars chars) : ∀ c ∈ more, isWhiteSpace c = true := by
  obtain ⟨front, back, parts, _, backBlank⟩ := trim_parts chars
  obtain ⟨start, ending, whole, startBlank, endingBlank⟩ := trim_parts (more ++ chars)
  have last := List.getLast?_eq_some_getLast present
  have solid : isWhiteSpace ((trimChars chars).getLast present) = false :=
    last_of_trim_end _ _ last
  obtain ⟨rest, split⟩ := List.getLast?_eq_some_iff.mp last
  generalize (trimChars chars).getLast present = c at solid split
  -- behind the last character that is no white space the two agree, so they do before it
  have trailing : ∀ head white : List Char, (∀ d ∈ white, isWhiteSpace d = true) →
      (head ++ c :: white).reverse.takeWhile isWhiteSpace = white.reverse := by
    intro head white blank
    have turned : ∀ d ∈ white.reverse, isWhiteSpace d = true := fun d member =>
      blank d (List.mem_reverse.mp member)
    rw [List.reverse_append, List.reverse_cons, List.append_assoc,
      List.takeWhile_append_of_pos turned, List.singleton_append,
      List.takeWhile_cons_of_neg (by rw [solid]; simp), List.append_nil]
  rw [same] at whole
  have other := trailing (start ++ rest) ending endingBlank
  have here := trailing (more ++ front ++ rest) back backBlank
  have joined : more ++ chars = more ++ front ++ rest ++ c :: back := by
    rw [split] at parts
    rw [parts]
    simp
  have rejoined : more ++ chars = start ++ rest ++ c :: ending := by
    rw [whole, split]
    simp
  rw [← joined] at here
  rw [← rejoined, here] at other
  rw [joined, List.reverse_injective other] at rejoined
  rw [List.append_cancel_right_eq, List.append_cancel_right_eq] at rejoined
  intro d member
  apply startBlank d
  rw [← rejoined]
  exact List.mem_append_left front member

end HorizonOs.Lib.Text

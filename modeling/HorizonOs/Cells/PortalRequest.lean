import HorizonOs.Cells.Portal
import HorizonOs.Lib.LossyText
import HorizonOs.Lib.Trim
import HorizonOs.Weave.ResourceText

/-!
# Portal requests on the wire

What the broker side makes of the line a confined principal sends: the line is read into a
buffer of fixed size, split at its first space and parsed word by word.
-/

namespace HorizonOs.Cells

open HorizonOs.Lib.ByteCodec HorizonOs.Lib.Text HorizonOs.Lib.LossyText HorizonOs.Lib.Runs
open HorizonOs.Lifestream HorizonOs.Weave

set_option autoImplicit false

/-! ## A request and what the handler gets of it -/

/-- The line `request` sends. -/
def requestLine (resource : Resource) (rights : Rights) : Bytes :=
  utf8 s!"{resource.display} {rights.display}\n"

/-- A handler that keeps what it is called with. -/
def recorder (resource : Resource) (rights : Rights) :
    EStateM Error (List (Resource × Rights)) Fd :=
  fun calls => .error (.confine "recorded") (calls ++ [(resource, rights)])

/-- The calls of the handler that serving a message makes. -/
def handlerCalls (line : Bytes) : List (Resource × Rights) :=
  (finalState (serveOnce ⟨.ok line, none⟩ recorder ⟨[], none⟩)).kept

/-- The text of a resource as it arrives: whole where the space behind it arrives too,
otherwise as far as the buffer reaches, and trimmed. -/
def arrivingText (resource : Resource) : List Char :=
  if size resource.displayChars < recvBuffer - 1 then resource.displayChars
  else trimEnd (cutChars recvBuffer resource.displayChars)

def arrivingWord (resource : Resource) : List Char := (arrivingText resource).takeWhile (· ≠ ' ')

/-- A resource without a space, a service without a slash in its name, in a line that fits the
buffer. Past the buffer, rights that are none may be lost, and no more of the resource than
the buffer's lossy reading puts back. -/
def Carried (resource : Resource) (rights : Rights) : Prop :=
  ' ' ∉ resource.displayChars ∧ resource.SlashFree ∧
    (size resource.displayChars + 1 + rights.display.length ≤ recvBuffer ∨
      rights = Rights.NONE ∧ (∀ c ∈ resource.displayChars.getLast?, isWhiteSpace c = false) ∧
        (size resource.displayChars ≤ recvBuffer ∨
          resource.displayChars.getLast? = some '\uFFFD' ∧
            size resource.displayChars < recvBuffer + 3))

/-! ## Reading a line -/

/-- The rights are what is behind the first space. -/
def rightsRead (chars : List Char) : Rights :=
  (Rights.parse (String.ofList (chars.dropWhile (· ≠ ' ')).tail)).getD Rights.NONE

/-- The resource and the rights are the words before and behind the first space. -/
theorem request_of_words (line : Bytes) (chars : List Char)
    (decoded : trim (fromUtf8Lossy line) = String.ofList chars) :
    requestOf line = (String.ofList chars, Resource.parse (String.ofList (chars.takeWhile (· ≠ ' '))),
      rightsRead chars) := by
  rw [requestOf, decoded, rightsRead]
  simp only [String.toList_ofList]
  cases split : splitOnce (· = ' ') chars with
  | some parts =>
      obtain ⟨c, whole, space, before⟩ := split_once_some split
      obtain rfl := of_decide_eq_true space
      have solid : ∀ d ∈ parts.1, decide (d ≠ ' ') = true := fun d member =>
        decide_eq_true (of_decide_eq_false (before d member))
      rw [whole, List.takeWhile_append_of_pos solid, List.dropWhile_append_of_pos solid]
      simp
  | none =>
      have solid : ∀ d ∈ chars, decide (d ≠ ' ') = true := by
        intro d member
        apply decide_eq_true
        rintro rfl
        obtain ⟨front, rest, whole, first⟩ := List.eq_append_cons_of_mem member
        rw [whole, split_once_append (· = ' ') front rest ' '
          (fun e inside => decide_eq_false fun same => first (same ▸ inside)) rfl] at split
        cases split
      rw [List.takeWhile_eq_self_iff.mpr solid, List.dropWhile_eq_nil_iff.mpr solid]
      rfl

/-- The handler is called where the first word names a resource, and nowhere else. -/
theorem handler_calls (line : Bytes) (chars : List Char)
    (decoded : trim (fromUtf8Lossy (line.take recvBuffer)) = String.ofList chars) :
    handlerCalls line = ((Resource.parse (String.ofList (chars.takeWhile (· ≠ ' ')))).map
      fun wanted => (wanted, rightsRead chars)).toList := by
  have received : recvFds ⟨.ok line, none⟩ = .ok (line.take recvBuffer) := rfl
  rw [handlerCalls, serveOnce, received]
  simp only [request_of_words _ chars decoded]
  cases Resource.parse (String.ofList (chars.takeWhile (· ≠ ' '))) with
  | none => rfl
  | some wanted => rfl

/-! ## Rights on the wire -/

theorem display_rights_sizes : ∀ rights : Rights,
    (∀ c ∈ rights.display.toList, c.utf8Size = 1 ∧ isWhiteSpace c = false) ∧
      1 ≤ rights.display.length ∧ rights.display.length ≤ 3 ∧
      Rights.parse rights.display = some rights := by
  intro rights
  have letters : ∀ rights : Rights, (rights.display.toList.all fun c =>
      c.utf8Size = 1 ∧ isWhiteSpace c = false) = true := by
    rintro ⟨low⟩
    revert low
    decide
  have sizes : ∀ rights : Rights, 1 ≤ rights.display.length ∧ rights.display.length ≤ 3 ∧
      Rights.parse rights.display = some rights := by
    rintro ⟨low⟩
    revert low
    decide
  refine ⟨fun c member => ?_, sizes rights⟩
  exact of_decide_eq_true (List.all_eq_true.mp (letters rights) c member)

theorem cut_rights : ∀ rights : Rights, ∀ count < 3, 1 ≤ count →
    ((Rights.parse (String.ofList (rights.display.toList.take count))).getD Rights.NONE = rights ↔
      rights.display.length ≤ count) := by
  rintro ⟨low⟩
  revert low
  decide

/-- Rights that are cut off are read as other rights. -/
theorem cut_rights_iff (rights : Rights) (count : Nat) (present : 1 ≤ count) :
    (Rights.parse (String.ofList (rights.display.toList.take count))).getD Rights.NONE = rights ↔
      rights.display.length ≤ count := by
  obtain ⟨_, _, short, parsed⟩ := display_rights_sizes rights
  by_cases small : count < 3
  · exact cut_rights rights count small present
  · have whole : rights.display.toList.take count = rights.display.toList :=
      List.take_of_length_le (by rw [String.length_toList]; omega)
    rw [whole, String.ofList_toList, parsed, Option.getD_some]
    exact ⟨fun _ => by omega, fun _ => rfl⟩

/-! ## What arrives of a line -/

/-- A text that goes along with a resource's display, or ends in a U+FFFD where it stops to. -/
def Follows (text display : List Char) : Prop :=
  text <+: display ∨ ∃ front c behind, display = front ++ c :: behind ∧ text = front ++ ['\uFFFD']

/-- A first word that names the resource is the resource's whole display, without a space. -/
theorem word_whole {resource : Resource} {text : List Char}
    (follows : Follows text resource.displayChars)
    (spelled : Spells (text.takeWhile (· ≠ ' ')) resource) :
    text = resource.displayChars ∧ ' ' ∉ resource.displayChars := by
  have start : text.takeWhile (· ≠ ' ') <+: text := List.takeWhile_prefix _
  have solid : ' ' ∉ text.takeWhile (· ≠ ' ') := by
    intro member
    have other := List.mem_takeWhile_imp member
    exact of_decide_eq_true other rfl
  have same : text.takeWhile (· ≠ ' ') = resource.displayChars := by
    rcases follows with inside | ⟨front, c, behind, display, marked⟩
    · exact spells_prefix spelled (start.trans inside)
    · rw [marked] at start spelled ⊢
      rcases List.prefix_concat_iff.mp start with whole | before
      · rw [whole] at spelled ⊢
        exact spells_ended spelled List.getLast?_concat (by decide)
      · exact spells_prefix spelled (before.trans (display ▸ List.prefix_append _ _))
  rw [same] at start solid
  refine ⟨?_, solid⟩
  rcases follows with inside | ⟨front, c, behind, display, marked⟩
  · exact inside.eq_of_length_le start.length_le
  · apply (start.eq_of_length_le _).symm
    rw [display, marked, List.length_append, List.length_append]
    simp

theorem display_head (resource : Resource) :
    ∃ c rest, resource.displayChars = c :: rest ∧ isWhiteSpace c = false ∧ c.utf8Size = 1 := by
  cases resource with
  | file path => exact ⟨_, _, rfl, by decide, by decide⟩
  | net host port => exact ⟨_, _, rfl, by decide, by decide⟩
  | device name => exact ⟨_, _, rfl, by decide, by decide⟩
  | service name action => exact ⟨_, _, rfl, by decide, by decide⟩

theorem received_line (resource : Resource) (rights : Rights) :
    fromUtf8Lossy ((requestLine resource rights).take recvBuffer) =
      String.ofList (cutChars recvBuffer
        (resource.displayChars ++ ' ' :: (rights.display.toList ++ ['\n']))) := by
  rw [← lossy_cut, ← display_chars]
  congr 2
  rw [requestLine, ← String.ofList_toList (s := s!"{resource.display} {rights.display}\n")]
  have parts : s!"{resource.display} {rights.display}\n" =
      resource.display ++ " " ++ rights.display ++ "\n" := rfl
  rw [parts, String.toList_append, String.toList_append, String.toList_append, List.append_assoc,
    List.append_assoc]
  rfl

/-- Where the space behind the resource arrives with one byte more, so does the resource. -/
theorem trimmed_short {resource : Resource} {rights : Rights}
    (short : size resource.displayChars < recvBuffer - 1) :
    trim (fromUtf8Lossy ((requestLine resource rights).take recvBuffer)) =
      String.ofList (resource.displayChars ++
        ' ' :: rights.display.toList.take (recvBuffer - 1 - size resource.displayChars)) := by
  obtain ⟨sizes, one, _, _⟩ := display_rights_sizes rights
  obtain ⟨c, rest, head, front, _⟩ := display_head resource
  have tailSizes : ∀ c ∈ ' ' :: (rights.display.toList ++ ['\n']), c.utf8Size = 1 := by
    intro c member
    simp only [List.mem_cons, List.mem_append, List.not_mem_nil, or_false] at member
    rcases member with rfl | member | rfl
    · rfl
    · exact (sizes c member).1
    · rfl
  obtain ⟨count, counted⟩ : ∃ count, recvBuffer - size resource.displayChars = count + 1 + 1 :=
    ⟨recvBuffer - size resource.displayChars - 2, by omega⟩
  have reach : recvBuffer - 1 - size resource.displayChars = count + 1 := by omega
  rw [received_line, cut_append _ _ _ (by omega), cut_take _ tailSizes, counted, reach,
    List.take_succ_cons, List.take_append, trim, String.toList_ofList, trimChars]
  congr 1
  rw [head, List.cons_append, trim_start_of_head _ (by simpa using front), ← List.cons_append,
    ← head, ← List.cons_append, ← List.append_assoc, trim_end_white]
  · -- the last of the rights that arrive is no white space
    apply trim_end_solid
    intro d last
    have present : rights.display.toList.take (count + 1) ≠ [] := by
      apply List.ne_nil_of_length_pos
      rw [List.length_take, String.length_toList]
      omega
    rw [List.getLast?_append, List.getLast?_cons, List.getLast?_eq_some_getLast present] at last
    cases last
    exact (sizes _ (List.mem_of_mem_take (List.getLast_mem present))).2
  · intro d member
    cases List.mem_singleton.mp (List.mem_of_mem_take member)
    decide

/-- Otherwise nothing but the resource arrives, as far as the buffer reaches. -/
theorem trimmed_long {resource : Resource} {rights : Rights}
    (long : recvBuffer - 1 ≤ size resource.displayChars) :
    trim (fromUtf8Lossy ((requestLine resource rights).take recvBuffer)) =
      String.ofList (trimEnd (cutChars recvBuffer resource.displayChars)) := by
  obtain ⟨c, rest, head, front, one⟩ := display_head resource
  have started : ∀ more, trimStart (cutChars recvBuffer (resource.displayChars ++ more)) =
      cutChars recvBuffer (resource.displayChars ++ more) := by
    intro more
    apply trim_start_of_head
    rw [head, List.cons_append, cutChars, one, if_pos (by decide)]
    simpa using front
  rw [received_line, trim, String.toList_ofList, trimChars, started]
  congr 1
  by_cases beyond : recvBuffer < size resource.displayChars
  · rw [cut_beyond _ _ _ beyond]
  · rw [cut_append _ _ _ (by omega), cut_all _ _ (Nat.le_of_not_lt beyond)]
    apply trim_end_white
    intro d member
    by_cases full : recvBuffer = size resource.displayChars
    · rw [full, Nat.sub_self, cut_zero] at member
      cases member
    · have left : recvBuffer - size resource.displayChars = 1 := by omega
      rw [left, cutChars, if_pos (by decide)] at member
      have none : (1 : Nat) - (' ').utf8Size = 0 := rfl
      rw [none, cut_zero] at member
      cases List.mem_singleton.mp member
      decide

/-- Where the buffer stops, what arrives follows the display. -/
theorem arriving_follows (resource : Resource) :
    Follows (arrivingText resource) resource.displayChars := by
  rw [arrivingText]
  split_ifs with short
  · exact .inl (List.prefix_refl _)
  · by_cases fits : size resource.displayChars ≤ recvBuffer
    · rw [cut_all _ _ fits]
      exact .inl (trim_end_front _)
    · obtain ⟨front, c, behind, parts, left⟩ := cut_before _ _ (Nat.lt_of_not_le fits)
      rcases left with left | left
      · rw [left]
        refine .inl ((trim_end_front front).trans ?_)
        rw [parts]
        exact List.prefix_append _ _
      · refine .inr ⟨front, c, behind, parts, ?_⟩
        rw [left]
        apply trim_end_solid
        intro d last
        rw [List.getLast?_concat] at last
        cases last
        decide

/-- A display that fills the buffer arrives whole where it ends in no white space and no
more of it is cut off than the reading puts back. -/
theorem arrives_whole_iff {resource : Resource}
    (long : recvBuffer - 1 ≤ size resource.displayChars) :
    arrivingText resource = resource.displayChars ↔
      (∀ c ∈ resource.displayChars.getLast?, isWhiteSpace c = false) ∧
        (size resource.displayChars ≤ recvBuffer ∨
          resource.displayChars.getLast? = some '\uFFFD' ∧
            size resource.displayChars < recvBuffer + 3) := by
  rw [← cut_whole_iff, arrivingText, if_neg (Nat.not_lt.mpr long)]
  constructor
  · intro whole
    refine ⟨by rw [← whole]; exact last_of_trim_end _, ?_⟩
    by_cases fits : size resource.displayChars ≤ recvBuffer
    · exact cut_all _ _ fits
    · have start := trim_end_front (cutChars recvBuffer resource.displayChars)
      rw [whole] at start
      obtain ⟨front, c, behind, parts, left⟩ := cut_before _ _ (Nat.lt_of_not_le fits)
      apply (start.eq_of_length_le _).symm
      rw [parts]
      rcases left with left | left <;> rw [parts] at left <;> rw [left]
      · simp
      · simp
  · rintro ⟨solid, whole⟩
    rw [whole, trim_end_solid solid]

/-! ## The round trip -/

theorem first_word {first : List Char} (rest : List Char) :
    (first ++ ' ' :: rest).takeWhile (· ≠ ' ') = first.takeWhile (· ≠ ' ') := by
  induction first with
  | nil => rfl
  | cons _ first ih => rw [List.cons_append, List.takeWhile_cons, List.takeWhile_cons, ih]

theorem solid_of_plain {chars : List Char} (plain : ' ' ∉ chars) :
    ∀ c ∈ chars, decide (c ≠ ' ') = true := fun _ member =>
  decide_eq_true fun same => plain (same ▸ member)

/-- What arrives of a line. -/
def receivedText (resource : Resource) (rights : Rights) : List Char :=
  if size resource.displayChars < recvBuffer - 1 then
    resource.displayChars ++
      ' ' :: rights.display.toList.take (recvBuffer - 1 - size resource.displayChars)
  else trimEnd (cutChars recvBuffer resource.displayChars)

theorem trimmed_line (resource : Resource) (rights : Rights) :
    trim (fromUtf8Lossy ((requestLine resource rights).take recvBuffer)) =
      String.ofList (receivedText resource rights) := by
  rw [receivedText]
  split_ifs with short
  · exact trimmed_short short
  · exact trimmed_long (Nat.le_of_not_lt short)

/-- What the handler is called with, if it is. -/
theorem request_calls (resource : Resource) (rights : Rights) :
    handlerCalls (requestLine resource rights) =
      ((Resource.parse (String.ofList (arrivingWord resource))).map fun wanted =>
        (wanted, rightsRead (receivedText resource rights))).toList := by
  have word : (receivedText resource rights).takeWhile (· ≠ ' ') = arrivingWord resource := by
    rw [receivedText, arrivingWord, arrivingText]
    split_ifs with short
    · exact first_word _
    · rfl
  rw [handler_calls _ _ (trimmed_line resource rights), word]

/-- Behind a resource that arrives whole, the rights do where they fit or are none. -/
theorem rights_read_iff {resource : Resource} (rights : Rights)
    (plain : ' ' ∉ resource.displayChars) (whole : arrivingText resource = resource.displayChars) :
    rightsRead (receivedText resource rights) = rights ↔
      size resource.displayChars + 1 + rights.display.length ≤ recvBuffer ∨ rights = Rights.NONE := by
  obtain ⟨_, present, _, _⟩ := display_rights_sizes rights
  have solid := solid_of_plain plain
  rw [receivedText, rightsRead]
  by_cases short : size resource.displayChars < recvBuffer - 1
  · rw [if_pos short, List.dropWhile_append_of_pos solid, List.dropWhile_cons_of_neg (by simp),
      List.tail_cons, cut_rights_iff rights _ (by omega)]
    constructor
    · exact fun fits => .inl (by omega)
    · rintro (fits | rfl)
      · omega
      · have one : Rights.NONE.display.length = 1 := rfl
        omega
  · rw [arrivingText, if_neg short] at whole
    rw [if_neg short, whole, List.dropWhile_eq_nil_iff.mpr solid]
    constructor
    · rintro rfl
      exact .inr rfl
    · rintro (fits | rfl)
      · omega
      · rfl

theorem arriving_short {resource : Resource}
    (short : size resource.displayChars < recvBuffer - 1) :
    arrivingText resource = resource.displayChars := if_pos short

/-- A request is carried where its resource arrives whole and parses, and its rights arrive. -/
theorem carried_iff (resource : Resource) (rights : Rights) :
    Carried resource rights ↔ ' ' ∉ resource.displayChars ∧ resource.SlashFree ∧
      arrivingText resource = resource.displayChars ∧
        rightsRead (receivedText resource rights) = rights := by
  obtain ⟨_, present, _, _⟩ := display_rights_sizes rights
  rw [Carried]
  constructor
  · rintro ⟨plain, free, fits⟩
    have whole : arrivingText resource = resource.displayChars := by
      by_cases short : size resource.displayChars < recvBuffer - 1
      · exact arriving_short short
      · rcases fits with fits | ⟨_, ends⟩
        · omega
        · exact (arrives_whole_iff (Nat.le_of_not_lt short)).mpr ends
    refine ⟨plain, free, whole, (rights_read_iff rights plain whole).mpr ?_⟩
    exact fits.imp id And.left
  · rintro ⟨plain, free, whole, read⟩
    refine ⟨plain, free, ?_⟩
    rcases (rights_read_iff rights plain whole).mp read with fits | rfl
    · exact .inl fits
    · by_cases short : size resource.displayChars < recvBuffer - 1
      · have one : Rights.NONE.display.length = 1 := rfl
        exact .inl (by omega)
      · exact .inr ⟨rfl, (arrives_whole_iff (Nat.le_of_not_lt short)).mp whole⟩

/-- A request is served as it was asked, or refused, exactly when what arrives of the
resource before its first space names no resource, or the request is carried whole. -/
theorem request_served_as_asked_iff (resource : Resource) (rights : Rights)
    (textual : resource.Utf8Path) :
    (∀ call ∈ handlerCalls (requestLine resource rights), call = (resource, rights)) ↔
      Resource.parse (String.ofList (arrivingWord resource)) = none ∨ Carried resource rights := by
  rw [request_calls, carried_iff]
  cases named : Resource.parse (String.ofList (arrivingWord resource)) with
  | none => simp
  | some wanted =>
      rw [parse_iff_spells] at named
      constructor
      · intro served
        obtain ⟨rfl, read⟩ := Prod.mk.inj (served _ (List.mem_singleton_self _))
        obtain ⟨whole, plain⟩ := word_whole (arriving_follows wanted) named
        exact .inr ⟨plain, slash_free_of_spells named, whole, read⟩
      · rintro (none | ⟨plain, free, whole, read⟩)
        · cases none
        · have spelled := (spells_display_iff resource textual).mpr free
          rw [arrivingWord, whole, List.takeWhile_eq_self_iff.mpr (solid_of_plain plain),
            ← parse_iff_spells, (parse_iff_spells _ _).mpr spelled] at named
          cases named
          intro call member
          rw [List.mem_singleton.mp member, read]

/-- A request to read a file. -/
theorem file_request_served :
    (samplePath "/data/x").Utf8Path ∧
      ∀ call ∈ handlerCalls (requestLine (samplePath "/data/x") Rights.READ),
        call = (samplePath "/data/x", Rights.READ) := by
  have textual : (samplePath "/data/x").Utf8Path := by decide
  have carried : Carried (samplePath "/data/x") Rights.READ :=
    ⟨by decide, trivial, .inl (by decide +kernel)⟩
  exact ⟨textual, (request_served_as_asked_iff _ _ textual).mpr (.inr carried)⟩

/-- A request for `/data/my notes` is served as one for `/data/my`, without rights. -/
theorem spaced_path_served_short :
    handlerCalls (requestLine (samplePath "/data/my notes") Rights.READ) =
        [(samplePath "/data/my", Rights.NONE)] ∧
      ¬ ∀ call ∈ handlerCalls (requestLine (samplePath "/data/my notes") Rights.READ),
        call = (samplePath "/data/my notes", Rights.READ) := by
  decide

end HorizonOs.Cells

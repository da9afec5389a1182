import HorizonOs.Weave.AuditLaws

/-!
# Resources as text

Which texts `Resource::parse` reads, and which of them the display of a resource is.
-/

namespace HorizonOs.Weave

open HorizonOs.Lib.ByteCodec HorizonOs.Lib.Text

set_option autoImplicit false

/-! ## Port numbers -/

theorem digit_iff (c : Char) : c.isDigit = true ↔ '0' ≤ c ∧ c ≤ '9' := by
  simp [Char.isDigit, Char.le_def]

theorem parse_digits_some (chars : List Char) (value number : Nat) :
    parseDigits chars value = some number ↔
      (∀ c ∈ chars, c.isDigit = true) ∧ Nat.ofDigitChars 10 chars value = number := by
  induction chars generalizing value with
  | nil => simp [parseDigits]
  | cons c rest ih =>
      have zero : '0'.toNat = 48 := rfl
      rw [parseDigits, List.forall_mem_cons, digit_iff, Nat.ofDigitChars_cons, zero]
      by_cases digit : '0' ≤ c ∧ c ≤ '9'
      · rw [if_pos digit, ih]
        simp [digit]
      · rw [if_neg digit]
        simp [digit]

/-- How a port is displayed. -/
def portDigits (port : UInt16) : List Char := Nat.toDigits 10 port.toNat

theorem port_digit {port : UInt16} {c : Char} (member : c ∈ portDigits port) : c.isDigit = true :=
  Nat.isDigit_of_mem_toDigits (by decide) (by decide) member

/-- Digits are read for the number they spell. -/
theorem parse_u16_some {chars : List Char} {port : UInt16} (digits : ∀ c ∈ chars, c.isDigit = true) :
    parseU16 chars = some port ↔ chars ≠ [] ∧ Nat.ofDigitChars 10 chars 0 = port.toNat := by
  have unsigned : ∀ rest, chars ≠ '+' :: rest := by
    rintro rest rfl
    exact absurd (digits '+' List.mem_cons_self) (by decide)
  have read : parseDigits chars 0 = some (Nat.ofDigitChars 10 chars 0) :=
    (parse_digits_some chars 0 _).mpr ⟨digits, rfl⟩
  have bound := port.toNat_lt
  unfold parseU16
  split
  · exact absurd rfl (unsigned _)
  by_cases empty : chars = []
  · simp [empty]
  · simp only [if_neg empty, read, Option.bind_eq_bind, Option.bind_some]
    constructor
    · intro parsed
      split_ifs at parsed with small
      cases parsed
      exact ⟨empty, by rw [UInt16.toNat_ofNat', Nat.mod_eq_of_lt small]⟩
    · rintro ⟨_, number⟩
      rw [if_pos (by omega), number, UInt16.ofNat_toNat]

theorem parse_port_digits (port : UInt16) : parseU16 (portDigits port) = some port := by
  apply (parse_u16_some fun c => port_digit).mpr
  exact ⟨Nat.toDigits_ne_nil, Nat.ofDigitChars_ten_toDigits⟩

/-- Less than all the digits of a port is another number, or none. -/
theorem port_digits_of_start {port : UInt16} {chars : List Char}
    (start : chars <+: portDigits port) (parsed : parseU16 chars = some port) :
    chars = portDigits port := by
  obtain ⟨rest, whole⟩ := start
  have digits : ∀ c ∈ chars, c.isDigit = true := by
    intro c member
    apply port_digit
    rw [← whole]
    exact List.mem_append_left rest member
  obtain ⟨present, number⟩ := (parse_u16_some digits).mp parsed
  have total : Nat.ofDigitChars 10 (chars ++ rest) 0 = port.toNat := by
    rw [whole]
    exact Nat.ofDigitChars_ten_toDigits
  rw [Nat.ofDigitChars_append, number, Nat.ofDigitChars_eq_ofDigitChars_zero] at total
  cases rest with
  | nil => rw [← whole, List.append_nil]
  | cons c rest =>
      -- a further digit multiplies by ten, so the number is zero, which is one digit
      have ten : 10 * port.toNat ≤ 10 ^ (c :: rest).length * port.toNat := by
        apply Nat.mul_le_mul_right
        exact Nat.le_self_pow (Nat.succ_ne_zero _) 10
      have zero : port.toNat = 0 := by omega
      rw [portDigits, zero, Nat.toDigits_zero] at whole
      have sizes := congrArg List.length whole
      have positive := List.length_pos_of_ne_nil present
      simp only [List.length_append, List.length_cons, List.length_nil] at sizes
      omega

/-! ## What parses -/

/-- The texts that spell a resource. -/
inductive Spells : List Char → Resource → Prop where
  | file (path : List Char) : Spells ("file:".toList ++ path) (.file (utf8 (String.ofList path)))
  | net (host number : List Char) (port : UInt16) (last : ':' ∉ number)
      (parsed : parseU16 number = some port) :
      Spells ("net:".toList ++ (host ++ ':' :: number)) (.net (String.ofList host) port)
  | device (name : List Char) : Spells ("dev:".toList ++ name) (.device (String.ofList name))
  | service (name action : List Char) (first : '/' ∉ name) :
      Spells ("svc:".toList ++ (name ++ '/' :: action))
        (.service (String.ofList name) (String.ofList action))

theorem parse_iff_spells (word : List Char) (resource : Resource) :
    Resource.parse (String.ofList word) = some resource ↔ Spells word resource := by
  have text : (String.ofList word).toList = word := String.toList_ofList
  constructor
  · intro parsed
    rw [Resource.parse, text] at parsed
    cases file : stripPrefix "file:".toList word with
    | some path =>
        rw [file] at parsed
        cases parsed
        rw [strip_prefix_some file]
        exact .file path
    | none =>
      rw [file] at parsed
      cases net : stripPrefix "net:".toList word with
      | some rest =>
          rw [net] at parsed
          obtain ⟨parts, split, tail⟩ := Option.bind_eq_some_iff.mp parsed
          obtain ⟨port, number, same⟩ := Option.bind_eq_some_iff.mp tail
          cases same
          obtain ⟨c, whole, colon, last⟩ := rsplit_once_some split
          obtain rfl := of_decide_eq_true colon
          rw [strip_prefix_some net, whole]
          refine .net parts.1 parts.2 port (fun member => ?_) number
          exact of_decide_eq_false (last _ member) rfl
      | none =>
        rw [net] at parsed
        cases device : stripPrefix "dev:".toList word with
        | some name =>
            rw [device] at parsed
            cases parsed
            rw [strip_prefix_some device]
            exact .device name
        | none =>
          rw [device] at parsed
          cases service : stripPrefix "svc:".toList word with
          | none =>
              rw [service] at parsed
              cases parsed
          | some rest =>
              rw [service] at parsed
              obtain ⟨parts, split, same⟩ := Option.bind_eq_some_iff.mp parsed
              cases same
              obtain ⟨c, whole, slash, first⟩ := split_once_some split
              obtain rfl := of_decide_eq_true slash
              rw [strip_prefix_some service, whole]
              refine .service parts.1 parts.2 fun member => ?_
              exact of_decide_eq_false (first _ member) rfl
  · rintro (⟨path⟩ | ⟨host, number, port, last, parsed⟩ | ⟨name⟩ | ⟨name, action, first⟩)
    · simp [Resource.parse, stripPrefix]
    · have split := rsplit_once_append (· = ':') host number ':'
        (fun d member => decide_eq_false fun same => last (same ▸ member)) rfl
      simp [Resource.parse, stripPrefix, split, parsed]
    · simp [Resource.parse, stripPrefix]
    · have split := split_once_append (· = '/') name action '/'
        (fun d member => decide_eq_false fun same => first (same ▸ member)) rfl
      simp [Resource.parse, stripPrefix, split]

/-! ## What a displayed resource parses as -/

/-- A service whose name has a slash is displayed as another service. -/
def Resource.SlashFree : Resource → Prop
  | .file _ => True
  | .net _ _ => True
  | .device _ => True
  | .service name _ => '/' ∉ name.toList

instance : DecidablePred Resource.SlashFree
  | .file _ => inferInstanceAs (Decidable True)
  | .net _ _ => inferInstanceAs (Decidable True)
  | .device _ => inferInstanceAs (Decidable True)
  | .service name _ => inferInstanceAs (Decidable ('/' ∉ name.toList))

/-- What is displayed of a resource whose text this is. -/
def Resource.displayChars : Resource → List Char
  | .file path => "file:".toList ++ (lossyPath path).toList
  | .net host port => "net:".toList ++ (host.toList ++ ':' :: portDigits port)
  | .device name => "dev:".toList ++ name.toList
  | .service name action => "svc:".toList ++ (name.toList ++ '/' :: action.toList)

theorem display_chars (resource : Resource) : resource.display.toList = resource.displayChars := by
  cases resource with
  | file path => exact String.toList_append
  | net host port =>
      have digits : (toString port).toList = portDigits port := String.toList_ofList
      have parts : (Resource.net host port).display = "net:" ++ host ++ ":" ++ toString port := rfl
      rw [parts, String.toList_append, String.toList_append, String.toList_append, digits,
        List.append_assoc, List.append_assoc]
      rfl
  | device name => exact String.toList_append
  | service name action =>
      have parts : (Resource.service name action).display = "svc:" ++ name ++ "/" ++ action := rfl
      rw [parts, String.toList_append, String.toList_append, String.toList_append,
        List.append_assoc, List.append_assoc]
      rfl

theorem utf8_lossy_path {path : Bytes} (textual : (Resource.file path).Utf8Path) :
    utf8 (lossyPath path) = path := by
  have same := persisted_of_utf8 (.file path) textual
  exact Resource.file.inj same

theorem slash_free_of_spells {word : List Char} {resource : Resource}
    (spelled : Spells word resource) : resource.SlashFree := by
  cases spelled with
  | file path => trivial
  | net host number port last parsed => trivial
  | device name => trivial
  | service name action first =>
      rw [Resource.SlashFree, String.toList_ofList (l := name)]
      exact first

/-- Only a port can be spelled in another way than it is displayed. -/
theorem spells_display {resource : Resource} {word : List Char} (spelled : Spells word resource) :
    word = resource.displayChars ∨ ∃ host number port, resource = .net (String.ofList host) port ∧
      word = "net:".toList ++ (host ++ ':' :: number) ∧ parseU16 number = some port := by
  cases spelled with
  | file path =>
      apply Or.inl
      rw [Resource.displayChars, lossyPath, from_utf8_lossy_utf8, String.toList_ofList (l := path)]
  | net host number port last parsed => exact .inr ⟨host, number, port, rfl, rfl, parsed⟩
  | device name => exact .inl (by rw [Resource.displayChars, String.toList_ofList (l := name)])
  | service name action first =>
      apply Or.inl
      rw [Resource.displayChars, String.toList_ofList (l := name), String.toList_ofList (l := action)]

/-- A text that spells a resource and is its display as far as it goes, is its display. -/
theorem spells_prefix {resource : Resource} {word : List Char} (spelled : Spells word resource)
    (start : word <+: resource.displayChars) : word = resource.displayChars := by
  rcases spells_display spelled with same | ⟨host, number, port, rfl, rfl, parsed⟩
  · exact same
  · rw [Resource.displayChars, String.toList_ofList (l := host)] at start ⊢
    have tail := (List.prefix_append_right_inj _).mp ((List.prefix_append_right_inj _).mp start)
    rw [port_digits_of_start (List.cons_prefix_cons.mp tail).2 parsed]

theorem last_of_parsed_port {chars : List Char} {port : UInt16} (parsed : parseU16 chars = some port) :
    ∃ c, chars.getLast? = some c ∧ c.isDigit = true := by
  have digits : ∀ list : List Char, list ≠ [] → ∀ number, parseDigits list 0 = some number →
      ∃ c, list.getLast? = some c ∧ c.isDigit = true := by
    intro list present number read
    refine ⟨list.getLast present, List.getLast?_eq_some_getLast present, ?_⟩
    exact ((parse_digits_some list 0 number).mp read).1 _ (List.getLast_mem present)
  unfold parseU16 at parsed
  split at parsed
  · rename_i rest
    by_cases empty : rest = []
    · simp [empty] at parsed
    · simp only [if_neg empty, Option.bind_eq_bind] at parsed
      obtain ⟨number, read, _⟩ := Option.bind_eq_some_iff.mp parsed
      obtain ⟨c, last, digit⟩ := digits rest empty number read
      exact ⟨c, by rw [List.getLast?_cons, last, Option.getD_some], digit⟩
  · by_cases empty : chars = []
    · simp [empty] at parsed
    · simp only [if_neg empty, Option.bind_eq_bind] at parsed
      obtain ⟨number, read, _⟩ := Option.bind_eq_some_iff.mp parsed
      exact digits chars empty number read

/-- So is one that ends in no digit. -/
theorem spells_ended {resource : Resource} {word : List Char} {c : Char}
    (spelled : Spells word resource) (last : word.getLast? = some c) (other : c.isDigit = false) :
    word = resource.displayChars := by
  rcases spells_display spelled with same | ⟨host, number, port, rfl, rfl, parsed⟩
  · exact same
  · obtain ⟨d, ending, digit⟩ := last_of_parsed_port parsed
    rw [← List.append_assoc, List.getLast?_append, List.getLast?_cons, ending] at last
    cases last
    rw [Option.getD_some, digit] at other
    cases other

/-- A resource whose path is text is displayed as a text that spells it, unless it is a
service with a slash in its name. -/
theorem spells_display_iff (resource : Resource) (textual : resource.Utf8Path) :
    Spells resource.displayChars resource ↔ resource.SlashFree := by
  refine ⟨slash_free_of_spells, fun free => ?_⟩
  cases resource with
  | file path =>
      have spelled := Spells.file (lossyPath path).toList
      rwa [String.ofList_toList, utf8_lossy_path textual] at spelled
  | net host port =>
      have spelled := Spells.net host.toList (portDigits port) port
        (fun member => absurd (port_digit member) (by decide)) (parse_port_digits port)
      rwa [String.ofList_toList] at spelled
  | device name =>
      have spelled := Spells.device name.toList
      rwa [String.ofList_toList] at spelled
  | service name action =>
      have spelled := Spells.service name.toList action.toList free
      rwa [String.ofList_toList, String.ofList_toList] at spelled

end HorizonOs.Weave

import HorizonOs.Lib.Words

/-!
# The kernel command line

Devices by label, UUID or path, the boot parameters with their defaults, and the tokens
that set them. A later token overrides an earlier one; anything else is the kernel's.
-/

namespace HorizonOs.Init

open HorizonOs.Lib.Text HorizonOs.Lib.Words

set_option autoImplicit false

/-- How a device is named. -/
inductive Spec where
  | label (label : String)
  | uuid (uuid : String)
  | path (path : String)
  deriving DecidableEq

def Spec.parse (chars : List Char) : Spec :=
  match stripPrefix "LABEL=".toList chars with
  | some rest => .label (String.ofList rest)
  | none =>
      match stripPrefix "UUID=".toList chars with
      | some rest => .uuid (String.ofList rest)
      | none => .path (String.ofList chars)

inductive ModeChoice where
  | auto
  | home
  | ghost
  deriving DecidableEq

def ModeChoice.parse (chars : List Char) : ModeChoice :=
  if chars = "home".toList then .home else if chars = "ghost".toList then .ghost else .auto

def baseLabel : String := "HORIZON-BASE"
def dataLabel : String := "HORIZON-DATA"
def homeLabel : String := "HORIZON-HOME"
def verityLabel : String := "HORIZON-VERITY"
def defaultInit : String := "/usr/bin/horizon"

/-- The boot parameters, with the defaults of a Key that carries the standard labels. -/
structure Params where
  base : Spec := .label baseLabel
  basefs : String := "squashfs"
  data : Spec := .label dataLabel
  datafs : String := "ext4"
  home : Spec := .label homeLabel
  homefs : String := "ext4"
  verity : Option String := none
  verityDev : Spec := .label verityLabel
  mode : ModeChoice := .auto
  fido2 : Bool := false
  token : Option String := none
  init : String := defaultInit
  initArgs : List String := ["boot"]
  deriving DecidableEq

/-- A key of the command line and what its value sets. -/
abbrev Setting := String × (Params → List Char → Params)

def settings : List Setting :=
  [("horizon.base=", fun p v => { p with base := .parse v }),
    ("horizon.basefs=", fun p v => { p with basefs := String.ofList v }),
    ("horizon.data=", fun p v => { p with data := .parse v }),
    ("horizon.datafs=", fun p v => { p with datafs := String.ofList v }),
    ("horizon.home=", fun p v => { p with home := .parse v }),
    ("horizon.homefs=", fun p v => { p with homefs := String.ofList v }),
    ("horizon.verity=", fun p v => { p with verity := some (String.ofList v) }),
    ("horizon.veritydev=", fun p v => { p with verityDev := .parse v }),
    ("horizon.mode=", fun p v => { p with mode := .parse v })]

def lateSettings : List Setting :=
  [("horizon.token=", fun p v => { p with token := some (String.ofList v) }),
    ("horizon.init=", fun p v => { p with init := String.ofList v })]

/-- The first setting whose key the token begins with. -/
def applySetting (p : Params) (tok : List Char) : List Setting → Option Params
  | [] => none
  | (key, set) :: rest =>
      match stripPrefix key.toList tok with
      | some value => some (set p value)
      | none => applySetting p tok rest

/-- One token of the loop. `horizon.fido2` is a flag and stands whole. -/
def applyToken (p : Params) (tok : List Char) : Params :=
  match applySetting p tok settings with
  | some p => p
  | none =>
      if tok = "horizon.fido2".toList then { p with fido2 := true }
      else (applySetting p tok lateSettings).getD p

def parseCmdline (cmdline : List Char) : Params :=
  (splitWhitespace cmdline).foldl applyToken {}

/-! ## What a token can set -/

/-- The start that every key of init shares. -/
def horizonKey : List Char := "horizon.".toList

/-- A token of the kernel's own sets nothing. -/
theorem apply_token_other (p : Params) (tok : List Char) (other : ¬horizonKey <+: tok) :
    applyToken p tok = p := by
  have missed : ∀ table : List Setting, (∀ setting ∈ table, horizonKey <+: setting.1.toList) →
      applySetting p tok table = none := by
    intro table
    induction table with
    | nil => exact fun _ => rfl
    | cons setting rest ih =>
        intro keyed
        have none : stripPrefix setting.1.toList tok = none := by
          cases found : stripPrefix setting.1.toList tok with
          | none => rfl
          | some value =>
              have whole := strip_prefix_some found
              exact absurd ((keyed setting List.mem_cons_self).trans ⟨value, whole.symm⟩) other
        obtain ⟨key, set⟩ := setting
        simp only [applySetting, none]
        exact ih fun later member => keyed later (List.mem_cons_of_mem _ member)
  have flag : tok ≠ "horizon.fido2".toList := by
    rintro rfl
    exact other (by decide)
  rw [applyToken, missed settings (by decide)]
  simp only [if_neg flag, missed lateSettings (by decide), Option.getD_none]

/-- Values without white space, in the fields that a Key's build chooses. -/
structure Params.Unspaced (p : Params) : Prop where
  base : ∀ label, p.base = .label label → Solid label.toList
  basefs : Solid p.basefs.toList
  data : ∀ label, p.data = .label label → Solid label.toList
  datafs : Solid p.datafs.toList
  verity : ∀ root, p.verity = some root → Solid root.toList

theorem parse_unspaced {value : List Char} (solid : Solid value) (label : String)
    (parsed : Spec.parse value = .label label) : Solid label.toList := by
  rw [Spec.parse] at parsed
  cases found : stripPrefix "LABEL=".toList value with
  | some rest =>
      simp only [found, Spec.label.injEq] at parsed
      rw [← parsed, String.toList_ofList]
      intro c member
      apply solid c
      rw [strip_prefix_some found]
      exact List.mem_append_right _ member
  | none =>
      simp only [found] at parsed
      split at parsed <;> cases parsed

theorem set_unspaced : ∀ setting ∈ settings ++ lateSettings, ∀ (p : Params) (value : List Char),
    p.Unspaced → Solid value → (setting.2 p value).Unspaced := by
  intro setting member p value keeps solid
  have whole : Solid (String.ofList value).toList := by rwa [String.toList_ofList]
  simp only [settings, lateSettings, List.cons_append, List.nil_append, List.mem_cons,
    List.not_mem_nil, or_false] at member
  rcases member with rfl | rfl | rfl | rfl | rfl | rfl | rfl | rfl | rfl | rfl | rfl
  · exact { keeps with base := fun label => parse_unspaced solid label }
  · exact { keeps with basefs := whole }
  · exact { keeps with data := fun label => parse_unspaced solid label }
  · exact { keeps with datafs := whole }
  · exact { keeps with }
  · exact { keeps with }
  · exact { keeps with verity := fun root same => Option.some.inj same ▸ whole }
  · exact { keeps with }
  · exact { keeps with }
  · exact { keeps with }
  · exact { keeps with }

theorem apply_setting_unspaced (p : Params) (tok : List Char) (keeps : p.Unspaced)
    (solid : Solid tok) : ∀ table : List Setting, table ⊆ settings ++ lateSettings →
      ∀ after, applySetting p tok table = some after → after.Unspaced := by
  intro table
  induction table with
  | nil =>
      intro _ after applied
      cases applied
  | cons setting rest ih =>
      intro known after applied
      obtain ⟨key, set⟩ := setting
      rw [applySetting] at applied
      cases found : stripPrefix key.toList tok with
      | some value =>
          simp only [found, Option.some.injEq] at applied
          rw [← applied]
          apply set_unspaced _ (known List.mem_cons_self) p value keeps
          intro c member
          apply solid c
          rw [strip_prefix_some found]
          exact List.mem_append_right _ member
      | none =>
          simp only [found] at applied
          exact ih (fun other member => known (List.mem_cons_of_mem _ member)) after applied

theorem apply_token_unspaced (p : Params) (tok : List Char) (keeps : p.Unspaced)
    (solid : Solid tok) : (applyToken p tok).Unspaced := by
  rw [applyToken]
  cases first : applySetting p tok settings with
  | some after =>
      exact apply_setting_unspaced p tok keeps solid settings (List.subset_append_left _ _) after first
  | none =>
      simp only
      split_ifs
      · exact { keeps with }
      · cases late : applySetting p tok lateSettings with
        | some after =>
            exact apply_setting_unspaced p tok keeps solid lateSettings
              (List.subset_append_right _ _) after late
        | none => exact keeps

/-- What the command line says has no white space in it. -/
theorem parse_cmdline_unspaced (cmdline : List Char) : (parseCmdline cmdline).Unspaced := by
  have each : ∀ (tokens : List (List Char)) (p : Params), p.Unspaced → (∀ tok ∈ tokens, Solid tok) →
      (tokens.foldl applyToken p).Unspaced := by
    intro tokens
    induction tokens with
    | nil => exact fun p keeps _ => keeps
    | cons tok tokens ih =>
        intro p keeps solid
        exact ih _ (apply_token_unspaced p tok keeps (solid tok List.mem_cons_self))
          fun later member => solid later (List.mem_cons_of_mem _ member)
  apply each _ _ _ fun tok member => (split_mem member).2
  constructor
  · rintro label same
    rw [← Spec.label.inj same]
    decide
  · decide
  · rintro label same
    rw [← Spec.label.inj same]
    decide
  · decide
  · rintro root same
    cases same

/-- The kernel's own tokens leave the parameters alone. -/
theorem fold_other (p : Params) (tokens : List (List Char))
    (other : ∀ tok ∈ tokens, ¬horizonKey <+: tok) : tokens.foldl applyToken p = p := by
  induction tokens with
  | nil => rfl
  | cons tok tokens ih =>
      rw [List.foldl_cons, apply_token_other p tok (other tok List.mem_cons_self)]
      exact ih fun later member => other later (List.mem_cons_of_mem _ member)

/-- Where neither text begins the other, none is a prefix of a longer one. -/
theorem strip_prefix_missed (key start rest : List Char) (longer : ¬key <+: start)
    (shorter : ¬start <+: key) : stripPrefix key (start ++ rest) = none := by
  cases found : stripPrefix key (start ++ rest) with
  | none => rfl
  | some value =>
      have whole := strip_prefix_some found
      rcases List.prefix_or_prefix_of_prefix (⟨rest, rfl⟩ : start <+: start ++ rest)
        ⟨value, whole.symm⟩ with first | second
      · exact absurd first shorter
      · exact absurd second longer

/-- A setting whose key no earlier one shares is the one a token with that key makes. -/
theorem apply_setting_hit (p : Params) (key : String) (set : Params → List Char → Params)
    (value : List Char) (after : List Setting) : ∀ before : List Setting,
    (∀ setting ∈ before, ¬setting.1.toList <+: key.toList ∧ ¬key.toList <+: setting.1.toList) →
      applySetting p (key.toList ++ value) (before ++ (key, set) :: after) = some (set p value) := by
  intro before
  induction before with
  | nil =>
      intro _
      rw [List.nil_append, applySetting]
      simp only [strip_prefix_append]
  | cons setting before ih =>
      intro apart
      obtain ⟨longer, shorter⟩ := apart setting List.mem_cons_self
      obtain ⟨other, change⟩ := setting
      rw [List.cons_append, applySetting]
      simp only [strip_prefix_missed other.toList key.toList value longer shorter]
      exact ih fun later member => apart later (List.mem_cons_of_mem _ member)

theorem apply_token_hit (p : Params) (key : String) (set : Params → List Char → Params)
    (value : List Char) (before after : List Setting)
    (table : settings = before ++ (key, set) :: after)
    (apart : ∀ setting ∈ before,
      ¬setting.1.toList <+: key.toList ∧ ¬key.toList <+: setting.1.toList) :
    applyToken p (key.toList ++ value) = set p value := by
  rw [applyToken, table, apply_setting_hit p key set value after before apart]

theorem spec_parse_label (label : List Char) :
    Spec.parse ("LABEL=".toList ++ label) = .label (String.ofList label) := by
  rw [Spec.parse, strip_prefix_append]

end HorizonOs.Init

import HorizonOs.Keybuild.Disk

/-!
# What a build says and what a boot finds

The options of the loader's entry are read back token by token, and the table of the disk
name by name. Both give the build's own values exactly where no label or value has white
space, both labels fit their field, and no two names are the same.
-/

namespace HorizonOs.Keybuild.Disk

open HorizonOs.Lib.ByteCodec HorizonOs.Lib.Buffer HorizonOs.Lib.Text HorizonOs.Lib.Words
open HorizonOs.Keybuild.Gpt HorizonOs.Init

set_option autoImplicit false

/-! ## The options line -/

/-- The tokens of the command line. -/
def bootTokens (spec : KeySpec) : List (List Char) :=
  ["horizon.base=LABEL=".toList ++ spec.baseLabel.toList,
    "horizon.basefs=".toList ++ spec.basefs.toList,
    "horizon.data=LABEL=".toList ++ spec.dataLabel.toList,
    "horizon.datafs=".toList ++ spec.datafs.toList,
    "horizon.mode=".toList ++ (modeName spec.mode).toList]

/-- The tokens that a spec's own values make. -/
def ownTokens (spec : KeySpec) : List (List Char) :=
  bootTokens spec ++
  match spec.verityRoot with
  | some root => ["horizon.verity=".toList ++ root.toList]
  | none => []

def space : Char := ' '

/-- The values of a spec that go through the command line. -/
structure Unspaced (spec : KeySpec) : Prop where
  base : Solid spec.baseLabel.toList
  basefs : Solid spec.basefs.toList
  data : Solid spec.dataLabel.toList
  datafs : Solid spec.datafs.toList
  verity : ∀ root, spec.verityRoot = some root → Solid root.toList

/-- Tokens with one space between them. -/
def joined : List (List Char) → List Char
  | [] => []
  | [tok] => tok
  | tok :: next :: rest => tok ++ space :: joined (next :: rest)

theorem joined_snoc (tok last : List Char) : ∀ tokens : List (List Char),
    joined (tok :: tokens ++ [last]) = joined (tok :: tokens) ++ space :: last
  | [] => rfl
  | next :: rest => by
      rw [List.cons_append, List.cons_append, joined, ← List.cons_append, joined_snoc next last rest,
        joined, List.append_assoc, List.cons_append]

theorem boot_cmdline_chars (spec : KeySpec) :
    (bootCmdline spec).toList = joined (bootTokens spec) := by
  have second : " horizon.basefs=".toList = [space] ++ "horizon.basefs=".toList := by
    decide
  have third : " horizon.data=LABEL=".toList = [space] ++ "horizon.data=LABEL=".toList := by
    decide +kernel
  have fourth : " horizon.datafs=".toList = [space] ++ "horizon.datafs=".toList := by
    decide +kernel
  have fifth : " horizon.mode=".toList = [space] ++ "horizon.mode=".toList := by
    decide +kernel
  unfold bootCmdline
  simp only [String.toList_append, second, third, fourth, fifth, List.append_assoc]
  rfl

theorem options_chars (spec : KeySpec) :
    (options spec).toList =
      joined (ownTokens spec) ++ spec.cmdlineExtra.flatMap (fun tok => space :: tok.toList) := by
  have extra : ∀ (toks : List String) (line : String),
      (toks.foldl (fun line tok => line ++ " " ++ tok) line).toList =
        line.toList ++ toks.flatMap (fun tok => space :: tok.toList) := by
    intro toks
    induction toks with
    | nil => exact fun line => (List.append_nil _).symm
    | cons tok toks ih =>
        intro line
        have one : " ".toList = [space] := by decide +kernel
        rw [List.foldl_cons, ih, List.flatMap_cons, String.toList_append, String.toList_append, one,
          List.append_assoc, List.append_assoc]
        rfl
  rewrite [options, extra]
  apply congrArg (· ++ _)
  cases root : spec.verityRoot with
  | none =>
      simp only [ownTokens, root, List.append_nil]
      exact boot_cmdline_chars spec
  | some text =>
      have sixth : " horizon.verity=".toList = [space] ++ "horizon.verity=".toList := by
        decide +kernel
      have more : joined (ownTokens spec) = joined (bootTokens spec) ++ space ::
          ("horizon.verity=".toList ++ text.toList) := by
        simp only [ownTokens, bootTokens, root]
        exact joined_snoc _ _ _
      rewrite [more]
      simp only [String.toList_append, boot_cmdline_chars]
      rewrite [sixth, List.append_assoc, List.append_assoc]
      rfl

theorem own_tokens_solid (spec : KeySpec) (unspaced : Unspaced spec) :
    ∀ tok ∈ ownTokens spec, tok ≠ [] ∧ Solid tok := by
  have whole : ∀ (key : String) (value : List Char), key.toList ≠ [] → Solid key.toList →
      Solid value → key.toList ++ value ≠ [] ∧ Solid (key.toList ++ value) := by
    intro key value some keySolid solid
    refine ⟨List.append_ne_nil_of_left_ne_nil some _, fun c member => ?_⟩
    rcases List.mem_append.mp member with first | second
    · exact keySolid c first
    · exact solid c second
  have mode : Solid (modeName spec.mode).toList := by cases spec.mode <;> decide
  intro tok member
  rw [ownTokens, List.mem_append] at member
  rcases member with first | last
  · simp only [bootTokens, List.mem_cons, List.not_mem_nil, or_false] at first
    rcases first with rfl | rfl | rfl | rfl | rfl
    · exact whole _ _ (by decide) (by decide) unspaced.base
    · exact whole _ _ (by decide) (by decide) unspaced.basefs
    · exact whole _ _ (by decide) (by decide) unspaced.data
    · exact whole _ _ (by decide) (by decide) unspaced.datafs
    · exact whole _ _ (by decide) (by decide) mode
  · cases root : spec.verityRoot with
    | none =>
        simp only [root] at last
        exact absurd last List.not_mem_nil
    | some text =>
        simp only [root, List.mem_singleton] at last
        exact last ▸ whole _ _ (by decide) (by decide) (unspaced.verity text root)

theorem split_joined : ∀ tokens : List (List Char), (∀ tok ∈ tokens, tok ≠ [] ∧ Solid tok) →
    splitWhitespace (joined tokens) = tokens
  | [], _ => rfl
  | [tok], solid => by
      obtain ⟨some, whole⟩ := solid tok List.mem_cons_self
      exact split_solid tok whole some
  | tok :: next :: rest, solid => by
      obtain ⟨some, whole⟩ := solid tok List.mem_cons_self
      rw [joined, split_append tok space (by decide), split_solid tok whole some,
        split_joined (next :: rest) fun later member => solid later (List.mem_cons_of_mem _ member)]
      rfl

theorem newline_not_joined : ∀ tokens : List (List Char), (∀ tok ∈ tokens, tok ≠ [] ∧ Solid tok) →
    newline ∉ joined tokens
  | [], _ => List.not_mem_nil
  | [tok], solid => solid_not_newline (solid tok List.mem_cons_self).2
  | tok :: next :: rest, solid => by
      rw [joined, List.mem_append, List.mem_cons, not_or, not_or]
      exact ⟨solid_not_newline (solid tok List.mem_cons_self).2, by decide,
        newline_not_joined (next :: rest) fun later member =>
          solid later (List.mem_cons_of_mem _ member)⟩

theorem drop_while_newline {chars after : List Char} {c : Char}
    (rest : chars.dropWhile (· ≠ newline) = c :: after) : c = newline := by
  have head := List.head?_dropWhile_not (· ≠ newline) chars
  rw [rest] at head
  simpa using head

/-- What is before a line's end has only words of the whole. -/
theorem split_first_line (chars : List Char) :
    ∀ word ∈ splitWhitespace (chars.takeWhile (· ≠ newline)), word ∈ splitWhitespace chars := by
  intro word member
  cases rest : chars.dropWhile (· ≠ newline) with
  | nil =>
      have whole := List.takeWhile_append_dropWhile (p := (· ≠ newline)) (l := chars)
      rw [rest, List.append_nil] at whole
      rwa [whole] at member
  | cons c after =>
      have stop := drop_while_newline rest
      rw [← List.takeWhile_append_dropWhile (p := (· ≠ newline)) (l := chars), rest, stop,
        split_append _ newline newline_space]
      exact List.mem_append_left _ member

/-- What an entry opens with, up to its options. -/
def leadLines : String :=
  "title   Horizon OS\nlinux   /" ++ espKernel ++ "\ninitrd  /" ++ espInitrd ++ "\noptions "

/-- An entry, line by line, the options up to their line's end. -/
theorem entry_chars (spec : KeySpec) : ∃ after,
    (loaderEntry spec).toList = "title   Horizon OS".toList ++ newline ::
      ("linux   /VMLINUZ".toList ++ newline :: ("initrd  /INITRD.IMG".toList ++ newline ::
        ("options ".toList ++ (options spec).toList.takeWhile (· ≠ newline) ++
          newline :: after))) := by
  have lead : leadLines.toList = "title   Horizon OS".toList ++ ([newline] ++
        ("linux   /VMLINUZ".toList ++ ([newline] ++ ("initrd  /INITRD.IMG".toList ++
          ([newline] ++ "options ".toList))))) := by
    decide +kernel
  have last : "\n".toList = [newline] := by decide +kernel
  have cut : ∃ after, (options spec).toList.dropWhile (· ≠ newline) ++ [newline] =
      newline :: after := by
    cases rest : (options spec).toList.dropWhile (· ≠ newline) with
    | nil => exact ⟨[], rfl⟩
    | cons c after =>
        exact ⟨after ++ [newline], by rw [drop_while_newline rest]; rfl⟩
  obtain ⟨after, cut⟩ := cut
  -- the literals stay variables here, so that none of them is unfolded
  have shape : ∀ t1 t2 t3 key text : List Char,
      text.dropWhile (· ≠ newline) ++ [newline] = newline :: after →
      t1 ++ ([newline] ++ (t2 ++ ([newline] ++ (t3 ++ ([newline] ++ key))))) ++ text ++ [newline] =
        t1 ++ newline :: (t2 ++ newline :: (t3 ++ newline ::
          (key ++ text.takeWhile (· ≠ newline) ++ newline :: after))) := by
    intro t1 t2 t3 key text ends
    have whole := List.takeWhile_append_dropWhile (p := (· ≠ newline)) (l := text)
    rw [← ends]
    conv_lhs => rw [← whole]
    simp only [List.append_assoc, List.cons_append, List.nil_append]
  refine ⟨after, ?_⟩
  have parts := (String.toList_append (s := leadLines ++ options spec) (t := "\n")).trans
    (congrArg (· ++ _) (String.toList_append (s := leadLines) (t := options spec)))
  exact parts.trans ((congrArg₂ (fun first ends => first ++ (options spec).toList ++ ends) lead
    last).trans (shape _ _ _ _ _ cut))

/-- The entry's options are the text up to the end of their line. -/
theorem options_line (spec : KeySpec) :
    optionsLine (loaderEntry spec).toList =
      some ((options spec).toList.takeWhile (· ≠ newline)) := by
  obtain ⟨after, entry⟩ := entry_chars spec
  have key : newline ∉ "options ".toList := by decide
  have line : newline ∉ "options ".toList ++ (options spec).toList.takeWhile (· ≠ newline) := by
    rewrite [List.mem_append, not_or]
    refine ⟨key, fun member => ?_⟩
    have kept := List.mem_takeWhile_imp member
    simp at kept
  have first : newline ∉ "title   Horizon OS".toList := by decide
  have second : newline ∉ "linux   /VMLINUZ".toList := by decide
  have third : newline ∉ "initrd  /INITRD.IMG".toList := by decide
  have missed : ∀ text ∈ ["title   Horizon OS", "linux   /VMLINUZ", "initrd  /INITRD.IMG"],
      stripPrefix "options ".toList text.toList = none := by
    decide
  have found := strip_prefix_append "options ".toList
    ((options spec).toList.takeWhile (· ≠ newline))
  rewrite [optionsLine, entry, split_on_first _ _ first, split_on_first _ _ second,
    split_on_first _ _ third, split_on_first _ _ line]
  simp only [List.findSome?_cons, missed _ (List.mem_cons_self ..),
    missed _ (List.mem_cons_of_mem _ List.mem_cons_self),
    missed _ (List.mem_cons_of_mem _ (List.mem_cons_of_mem _ List.mem_cons_self)), found]

/-! ## The command line read back -/

/-- The parameters are the spec's own. -/
structure Parsed (spec : KeySpec) (p : Params) : Prop where
  base : p.base = .label spec.baseLabel
  basefs : p.basefs = spec.basefs
  data : p.data = .label spec.dataLabel
  datafs : p.datafs = spec.datafs
  mode : p.mode = spec.mode
  verity : p.verity = spec.verityRoot

/-- The extra tokens set nothing of init's: no word of one begins with init's keys. -/
def ExtraApart (spec : KeySpec) : Prop :=
  ∀ tok ∈ spec.cmdlineExtra, ∀ word ∈ splitWhitespace tok.toList, ¬horizonKey <+: word

theorem split_space (chars : List Char) : splitWhitespace (space :: chars) = splitWhitespace chars :=
  split_append [] space (by decide) chars

theorem extra_words : ∀ toks : List String,
    splitWhitespace (toks.flatMap fun tok => space :: tok.toList) =
      toks.flatMap fun tok => splitWhitespace tok.toList
  | [] => rfl
  | [tok] => by
      rw [List.flatMap_singleton, List.flatMap_singleton, split_space]
  | tok :: next :: rest => by
      have later := extra_words (next :: rest)
      conv_rhs => rw [List.flatMap_cons, ← later]
      rw [List.flatMap_cons, List.flatMap_cons, List.cons_append, List.cons_append, split_space,
        split_append _ space (by decide), split_space]

/-- The words of the options line: the spec's own tokens, and none of init's after them. -/
theorem options_words (spec : KeySpec) (apart : ExtraApart spec) (unspaced : Unspaced spec) :
    ∃ others, splitWhitespace ((options spec).toList.takeWhile (· ≠ newline)) =
      ownTokens spec ++ others ∧ ∀ word ∈ others, ¬horizonKey <+: word := by
  have solid := own_tokens_solid spec unspaced
  have words := split_joined (ownTokens spec) solid
  have line : (options spec).toList.takeWhile (· ≠ newline) = joined (ownTokens spec) ++
      (spec.cmdlineExtra.flatMap fun tok => space :: tok.toList).takeWhile (· ≠ newline) := by
    rw [options_chars, List.takeWhile_append_of_pos]
    intro c member
    rw [decide_eq_true_eq]
    rintro rfl
    exact newline_not_joined (ownTokens spec) solid member
  rw [line]
  cases toks : spec.cmdlineExtra with
  | nil => exact ⟨[], by rw [List.flatMap_nil, List.takeWhile_nil, List.append_nil,
      List.append_nil, words], fun word member => absurd member List.not_mem_nil⟩
  | cons tok rest =>
      refine ⟨splitWhitespace ((tok.toList ++ rest.flatMap fun tok => space :: tok.toList).takeWhile
        (· ≠ newline)), ?_, fun word member => ?_⟩
      · rw [List.flatMap_cons, List.cons_append, List.takeWhile_cons, if_pos (by decide),
          split_append _ space (by decide), words]
      · have whole := split_first_line _ word member
        rw [← split_space, ← List.cons_append,
          ← List.flatMap_cons (f := fun tok : String => space :: tok.toList), extra_words,
          List.mem_flatMap] at whole
        obtain ⟨other, inside, read⟩ := whole
        exact apart other (toks ▸ inside) word read

theorem fold_own (spec : KeySpec) : Parsed spec ((ownTokens spec).foldl applyToken {}) := by
  have base : ∀ p, applyToken p ("horizon.base=LABEL=".toList ++ spec.baseLabel.toList) =
      { p with base := .label spec.baseLabel } := by
    intro p
    have key : "horizon.base=LABEL=".toList = "horizon.base=".toList ++ "LABEL=".toList := by
      decide
    rw [key, List.append_assoc, apply_token_hit p _ _ _ [] settings.tail rfl (by decide),
      spec_parse_label, String.ofList_toList]
  have basefs : ∀ p, applyToken p ("horizon.basefs=".toList ++ spec.basefs.toList) =
      { p with basefs := spec.basefs } := by
    intro p
    rw [apply_token_hit p _ _ _ (settings.take 1) (settings.drop 2) rfl (by decide +kernel),
      String.ofList_toList]
  have data : ∀ p, applyToken p ("horizon.data=LABEL=".toList ++ spec.dataLabel.toList) =
      { p with data := .label spec.dataLabel } := by
    intro p
    have key : "horizon.data=LABEL=".toList = "horizon.data=".toList ++ "LABEL=".toList := by
      decide +kernel
    rw [key, List.append_assoc, apply_token_hit p _ _ _ (settings.take 2) (settings.drop 3) rfl
      (by decide +kernel), spec_parse_label, String.ofList_toList]
  have datafs : ∀ p, applyToken p ("horizon.datafs=".toList ++ spec.datafs.toList) =
      { p with datafs := spec.datafs } := by
    intro p
    rw [apply_token_hit p _ _ _ (settings.take 3) (settings.drop 4) rfl (by decide +kernel),
      String.ofList_toList]
  have verity : ∀ p (root : String), applyToken p ("horizon.verity=".toList ++ root.toList) =
      { p with verity := some root } := by
    intro p root
    rw [apply_token_hit p _ _ _ (settings.take 6) (settings.drop 7) rfl (by decide +kernel),
      String.ofList_toList]
  have mode : ∀ p, applyToken p ("horizon.mode=".toList ++ (modeName spec.mode).toList) =
      { p with mode := spec.mode } := by
    intro p
    have parsed : ModeChoice.parse (modeName spec.mode).toList = spec.mode := by
      cases spec.mode <;> decide
    rw [apply_token_hit p _ _ _ (settings.take 8) (settings.drop 9) rfl (by decide +kernel), parsed]
  cases root : spec.verityRoot with
  | none =>
      simp only [ownTokens, bootTokens, root, List.append_nil, List.foldl_cons, List.foldl_nil, base,
        basefs, data, datafs, mode]
      exact ⟨rfl, rfl, rfl, rfl, rfl, root.symm⟩
  | some text =>
      simp only [ownTokens, bootTokens, root, List.foldl_append, List.foldl_cons, List.foldl_nil,
        base, basefs, data, datafs, mode, verity]
      exact ⟨rfl, rfl, rfl, rfl, rfl, root.symm⟩

/-- The options line says what the spec says exactly where none of its values has white
space. -/
theorem parsed_iff (spec : KeySpec) (apart : ExtraApart spec) :
    (∃ line, optionsLine (loaderEntry spec).toList = some line ∧
      Parsed spec (parseCmdline line)) ↔ Unspaced spec := by
  constructor
  · rintro ⟨line, _, parsed⟩
    have keeps := parse_cmdline_unspaced line
    exact
      { base := keeps.base _ parsed.base
        basefs := parsed.basefs ▸ keeps.basefs
        data := keeps.data _ parsed.data
        datafs := parsed.datafs ▸ keeps.datafs
        verity := fun root same => keeps.verity root (parsed.verity.trans same) }
  · intro unspaced
    obtain ⟨others, words, other⟩ := options_words spec apart unspaced
    refine ⟨_, options_line spec, ?_⟩
    rw [parseCmdline, words, List.foldl_append, fold_other _ others other]
    exact fold_own spec

/-! ## The partitions found again -/

/-- The labels a boot looks up, each with the image that should carry it. -/
def lookups (spec : KeySpec) : List (String × String) :=
  [(spec.baseLabel, baseImage), (verityLabel, verityImage), (spec.dataLabel, dataImage),
    (homeLabel, homeImage)]

/-- Over the disk's table every label finds the partition that holds its image, and none where
no partition does. -/
def Resolves (files : Files) (spec : KeySpec) (run : DiskRun) : Prop :=
  ∃ parts table, diskParts files spec = some parts ∧
    readDiskGpt (imageOf run) sector = some table ∧
    ∀ lookup ∈ lookups spec, findLabel table lookup.1 = holding parts (join spec.out lookup.2)

/-- The names of a Key's partitions, the hash device's too where it is not built. -/
def partitionNames (spec : KeySpec) : List String :=
  [espLabel, spec.baseLabel, verityLabel, spec.dataLabel, homeLabel]

/-- Labels that the table carries whole and apart. -/
structure Labelled (spec : KeySpec) : Prop where
  base : LabelFits spec.baseLabel
  data : LabelFits spec.dataLabel
  apart : (partitionNames spec).Nodup

theorem join_injective (dir left right : String) (same : join dir left = join dir right) :
    left = right := by
  unfold join at same
  split_ifs at same
  · exact String.append_right_inj dir |>.mp same
  · exact String.append_right_inj _ |>.mp same

theorem disk_parts_typed (files : Files) (spec : KeySpec) : ∃ linux esp : Guid,
    (∃ b ∈ linux.bytes, b ≠ 0) ∧ (∃ b ∈ esp.bytes, b ≠ 0) ∧
      diskParts files spec = some ([⟨join spec.out espImage, esp, espLabel⟩,
          ⟨join spec.out baseImage, linux, spec.baseLabel⟩] ++
        (if (files (join spec.out verityImage)).isSome then
          [⟨join spec.out verityImage, linux, verityLabel⟩] else []) ++
        [⟨join spec.out dataImage, linux, spec.dataLabel⟩,
          ⟨join spec.out homeImage, linux, homeLabel⟩]) := by
  have linux : ∃ guid, parseGuid linuxFsType = some guid ∧ ∃ b ∈ guid.bytes, b ≠ 0 := by
    refine ⟨_, rfl, ?_⟩
    decide +kernel
  have esp : ∃ guid, parseGuid espType = some guid ∧ ∃ b ∈ guid.bytes, b ≠ 0 := by
    refine ⟨_, rfl, ?_⟩
    decide
  obtain ⟨linux, linuxParsed, linuxTyped⟩ := linux
  obtain ⟨esp, espParsed, espTyped⟩ := esp
  refine ⟨linux, esp, linuxTyped, espTyped, ?_⟩
  rw [diskParts, linuxParsed, espParsed]
  rfl

theorem find_label_cons (part : GptPart) (rest : List GptPart) (label : String) :
    findLabel (part :: rest) label =
      if part.name = label then some part.number else findLabel rest label := by
  rw [findLabel, List.find?_cons]
  split_ifs with same
  · simp only [same, decide_true, Option.map_some]
  · simp only [same, decide_false]
    rfl

theorem shown_constants : shownLabel espLabel = espLabel ∧ shownLabel verityLabel = verityLabel ∧
    shownLabel homeLabel = homeLabel := by
  refine ⟨(shown_label_iff _).mpr ?_, (shown_label_iff _).mpr ?_, (shown_label_iff _).mpr ?_⟩ <;>
    decide

theorem resolves_lookups {files : Files} {spec : KeySpec} {run : DiskRun} {parts : List DiskPart}
    (laid : diskParts files spec = some parts)
    (read : readDiskGpt (imageOf run) sector =
      some (parts.zipIdx.map fun p => ⟨p.2 + 1, shownLabel p.1.name⟩)) :
    Resolves files spec run ↔ ∀ lookup ∈ lookups spec,
      findLabel (parts.zipIdx.map fun p => ⟨p.2 + 1, shownLabel p.1.name⟩) lookup.1 =
        holding parts (join spec.out lookup.2) := by
  constructor
  · rintro ⟨again, table, found, listed, resolved⟩
    cases laid.symm.trans found
    cases read.symm.trans listed
    exact resolved
  · exact fun resolved => ⟨_, _, laid, read, resolved⟩

/-- The lookups find their images exactly where both labels are carried whole and no two
names are the same. -/
theorem resolves_iff {sha256 : Bytes → FixedBytes 32} {files : Files} {spec : KeySpec}
    {run : DiskRun} (built : buildDisk sha256 files spec = .ok run) :
    Resolves files spec run ↔ Labelled spec := by
  obtain ⟨linux, esp, linuxTyped, espTyped, laid⟩ := disk_parts_typed files spec
  rw [buildDisk, laid] at built
  have read := read_written built (by split_ifs <;> simp [entryCount]) (by
    intro p member
    split_ifs at member <;> simp at member <;> rcases member with rfl | rfl | rfl | rfl | rfl <;>
      first | exact espTyped | exact linuxTyped)
  obtain ⟨espShown, verityShown, homeShown⟩ := shown_constants
  have same : ∀ left right, join spec.out left = join spec.out right ↔ left = right :=
    fun left right => ⟨join_injective spec.out left right, congrArg _⟩
  have labelled : Labelled spec ↔ (shownLabel spec.baseLabel = spec.baseLabel ∧
      shownLabel spec.dataLabel = spec.dataLabel) ∧ (partitionNames spec).Nodup := by
    rw [shown_label_iff, shown_label_iff]
    exact ⟨fun all => ⟨⟨all.base, all.data⟩, all.apart⟩, fun all => ⟨all.1.1, all.1.2, all.2⟩⟩
  have constants : espLabel ≠ verityLabel ∧ espLabel ≠ homeLabel ∧ verityLabel ≠ homeLabel := by
    decide
  rw [resolves_lookups laid read, labelled]
  by_cases verity : (files (join spec.out verityImage)).isSome = true
  · simp only [if_pos verity]
    simp only [lookups, List.forall_mem_cons, List.zipIdx_cons, List.cons_append, List.nil_append,
      List.zipIdx_nil, List.map_cons, List.map_nil, find_label_cons, espShown, verityShown, homeShown]
    simp [holding, same, espImage, baseImage, verityImage, dataImage, homeImage, findLabel,
      partitionNames]
    generalize shownLabel spec.baseLabel = shownBase, shownLabel spec.dataLabel = shownData
    by_cases base : shownBase = spec.baseLabel
    · by_cases data : shownData = spec.dataLabel
      · subst base data
        grind
      · grind
    · grind
  · simp only [if_neg verity]
    simp only [lookups, List.forall_mem_cons, List.zipIdx_cons, List.cons_append, List.nil_append,
      List.append_nil, List.zipIdx_nil, List.map_cons, List.map_nil, find_label_cons, espShown,
      homeShown]
    simp [holding, same, espImage, baseImage, verityImage, dataImage, homeImage, findLabel,
      partitionNames]
    generalize shownLabel spec.baseLabel = shownBase, shownLabel spec.dataLabel = shownData
    by_cases base : shownBase = spec.baseLabel
    · by_cases data : shownData = spec.dataLabel
      · subst base data
        grind
      · grind
    · grind

/-! ## The agreement -/

/-- A boot reads the spec's own values and finds its images. -/
def Agrees (files : Files) (spec : KeySpec) (run : DiskRun) : Prop :=
  (∃ line, optionsLine (loaderEntry spec).toList = some line ∧ Parsed spec (parseCmdline line)) ∧
    Resolves files spec run

/-- Nothing is refused: a build agrees with its boot exactly where no value has white space,
both labels fit their field and the names are apart. -/
theorem build_boot_agree_iff (sha256 : Bytes → FixedBytes 32) (files : Files) (spec : KeySpec)
    (run : DiskRun) (apart : ExtraApart spec) (built : buildDisk sha256 files spec = .ok run) :
    Agrees files spec run ↔ Unspaced spec ∧ Labelled spec :=
  and_congr (parsed_iff spec apart) (resolves_iff built)

/-- With every image built, the disk is laid whatever the labels. -/
theorem build_disk_ok (sha256 : Bytes → FixedBytes 32) (content : Bytes) (some : content ≠ [])
    (spec : KeySpec) : ∃ run, buildDisk sha256 (fun _ => Option.some content) spec = .ok run := by
  obtain ⟨linux, esp, _, _, laid⟩ := disk_parts_typed (fun _ => Option.some content) spec
  rw [buildDisk, laid]
  exact write_disk_ok sha256 _ (fun _ => ⟨content, rfl, some⟩) _ _ (by simp [entryCount])

/-- A spec of the standard labels. -/
def standardSpec : KeySpec where
  out := "out"
  baseLabel := "HORIZON-BASE"
  dataLabel := "HORIZON-DATA"
  basefs := "squashfs"
  datafs := "ext4"
  mode := .auto
  verityRoot := some "00ff"
  cmdlineExtra := ["console=ttyAMA0"]

theorem build_boot_agree_sample : ∃ run,
    buildDisk (fun _ => FixedBytes.ofBytes 32 []) (fun _ => some [1]) standardSpec = .ok run ∧
      (Agrees (fun _ => some [1]) standardSpec run ↔
        Unspaced standardSpec ∧ Labelled standardSpec) := by
  obtain ⟨run, built⟩ := build_disk_ok (fun _ => FixedBytes.ofBytes 32 []) [1] (by simp) standardSpec
  exact ⟨run, built, build_boot_agree_iff (fun _ => FixedBytes.ofBytes 32 []) (fun _ => some [1])
    standardSpec run (by unfold ExtraApart; decide) built⟩

/-- A base label with a space is built without an error, and the boot looks for its first
word. -/
theorem spaced_label_drifts :
    ¬∀ (files : Files) (spec : KeySpec) (run : DiskRun), ExtraApart spec →
      buildDisk (fun _ => FixedBytes.ofBytes 32 []) files spec = .ok run → Agrees files spec run := by
  intro always
  obtain ⟨run, built⟩ := build_disk_ok (fun _ => FixedBytes.ofBytes 32 []) [1] (by simp)
    { standardSpec with baseLabel := "HORIZON BASE" }
  have agrees := always _ _ run (by unfold ExtraApart; decide +kernel) built
  have unspaced := (parsed_iff _ (by unfold ExtraApart; decide +kernel)).mp agrees.1
  exact absurd unspaced.base (by decide)

end HorizonOs.Keybuild.Disk

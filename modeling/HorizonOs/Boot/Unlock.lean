import HorizonOs.Boot.Discover
import HorizonOs.Identity.Keyslots

/-!
# Unlocking a store at boot

The master from a keyslot that a present authenticator opens, or else from the passphrase, and
the proof that it opens the store: HEAD decrypts. The passphrase is asked for only when no
keyslot opens; what a keyslot gives is not proved before that choice is made.
-/

namespace HorizonOs.Boot

open HorizonOs.Lib.ByteCodec HorizonOs.Lib.Runs
open HorizonOs.Lifestream (Crypto Device Key ObjectId headRef)
open HorizonOs.Identity (Authenticator Keyslots Keyslot unlockAny)

set_option autoImplicit false

/-! ## A store on disk -/

inductive Error where
  | discover (message : String)
  | notAStore (path : String)
  | keyslots (message : String)
  | passphrase (message : String)
  | keyMismatch
  | lifestream (error : Lifestream.Error)
  | io (message : String)
  /-- The salt is one that Argon2 refuses: `derive` panics. -/
  | panicked
  deriving DecidableEq

/-- A file, as far as reading it goes; one that is unreadable is there. -/
inductive File where
  | missing
  | unreadable (message : String)
  | holds (content : Bytes)
  deriving DecidableEq

/-- The directory of a store: its salt, its keyslots and its objects. -/
structure StoreDir where
  path : String
  salt : File
  keyslots : File
  objects : Bool
  device : Device
  /-- Objects lie in the directory for them. -/
  tier : objects = false → device.objects.keys = []

/-- Whether `is_store` finds both of its marks. -/
def StoreDir.marks (dir : StoreDir) : Marks := ⟨dir.salt ≠ .missing, dir.objects⟩

inductive Method where
  | keyslot
  | passphrase
  deriving DecidableEq

structure Booted where
  store : String
  master : Key
  method : Method
  head : Option ObjectId
  objects : Nat

/-! ## The steps of a boot -/

section Steps

variable {State : Type}

/-- The libraries below: the store's, and Argon2id with its default parameters. -/
structure Libraries where
  crypto : Crypto
  derive : String → Bytes → Option Key

def passphraseMaster (lib : Libraries) (dir : StoreDir) (passphrase : String) :
    Except Error Key :=
  match dir.salt with
  | .holds salt =>
      match lib.derive passphrase salt with
      | some master => .ok master
      | none => .error .panicked
  | .missing => .error (.notAStore s!"{dir.path}: No such file or directory (os error 2)")
  | .unreadable message => .error (.notAStore s!"{dir.path}: {message}")

def loadKeyslots (dir : StoreDir) : Except Error Keyslots :=
  match dir.keyslots with
  | .missing => .ok []
  | .unreadable message => .error (.io message)
  | .holds bytes =>
      match Identity.decode bytes with
      | .ok slots => .ok slots
      | .error error => .error (.keyslots error.display)

/-- The passphrase is asked for where it is needed. -/
def typed (lib : Libraries) (dir : StoreDir) (passphrase : Except Error String) :
    Except Error (Key × Method) := do
  let pass ← passphrase
  let master ← passphraseMaster lib dir pass
  .ok (master, .passphrase)

def unlock (lib : Libraries) (dir : StoreDir) (auth : Option (Authenticator State × State))
    (passphrase : Except Error String) : Except Error (Key × Method) :=
  match auth with
  | none => typed lib dir passphrase
  | some (device, state) => do
      let slots ← loadKeyslots dir
      if slots.isEmpty then typed lib dir passphrase
      else
        match unlockAny lib.crypto device slots state with
        | .ok master _ => .ok (master, .keyslot)
        | .error _ _ => typed lib dir passphrase

def fromLifestream {α : Type} : Except Lifestream.Error α → Except Error α
  | .ok value => .ok value
  | .error error => .error (.lifestream error)

def prove (lib : Libraries) (dir : StoreDir) (master : Key) :
    Except Error (Option ObjectId × Nat) := do
  let ls ← fromLifestream (Lifestream.openStore lib.crypto dir.device master)
  let head ← fromLifestream (dir.device.getRef headRef)
  match head with
  | none => .ok (none, dir.device.listIds.length)
  | some id =>
      match ls.get dir.device id with
      | .ok _ => .ok (some id, dir.device.listIds.length)
      | .error _ => .error .keyMismatch

def boot (lib : Libraries) (dir : StoreDir) (auth : Option (Authenticator State × State))
    (passphrase : Except Error String) : Except Error Booted :=
  if isStore dir.marks then do
    let (master, method) ← unlock lib dir auth passphrase
    let (head, objects) ← prove lib dir master
    .ok { store := dir.path, master, method, head, objects }
  else .error (.notAStore dir.path)

end Steps

/-! ## Locked out -/

section LockedOut

variable {State : Type} {lib : Libraries} {dir : StoreDir}

/-- The master opens the store: it decrypts HEAD. -/
def DecryptsHead (lib : Libraries) (dir : StoreDir) (master : Key) : Prop :=
  ∃ ls id object, Lifestream.openStore lib.crypto dir.device master = .ok ls ∧
    dir.device.getRef headRef = .ok (some id) ∧ ls.get dir.device id = .ok object

/-- The first of the slots that the device opens, and what that slot gives. -/
inductive FirstOpened (crypto : Crypto) (device : Authenticator State) :
    State → Keyslots → Key → Prop
  | here (state after : State) (slot : Keyslot) (rest : Keyslots) (master : Key)
      (opens : slot.unlock crypto device state = .ok master after) :
      FirstOpened crypto device state (slot :: rest) master
  | later (state after : State) (slot : Keyslot) (rest : Keyslots) (master : Key)
      (error : Identity.Error) (skipped : slot.unlock crypto device state = .error error after)
      (opened : FirstOpened crypto device after rest master) :
      FirstOpened crypto device state (slot :: rest) master

theorem unlock_any_ok {crypto : Crypto} {device : Authenticator State} (slots : Keyslots)
    (state : State) (master : Key) :
    (∃ after, unlockAny crypto device slots state = .ok master after) ↔
      FirstOpened crypto device state slots master := by
  induction slots generalizing state with
  | nil =>
      constructor
      · rintro ⟨after, opened⟩
        cases opened
      · intro opened
        cases opened
  | cons slot rest ih =>
      cases outcome : slot.unlock crypto device state with
      | ok given between =>
          have first : unlockAny crypto device (slot :: rest) state = .ok given between := by
            simp only [unlockAny, outcome]
          rw [first]
          constructor
          · rintro ⟨after, same⟩
            cases same
            exact .here state between slot rest master outcome
          · intro opened
            cases opened with
            | here _ after _ _ _ opens =>
                rw [outcome] at opens
                cases opens
                exact ⟨_, rfl⟩
            | later _ after _ _ _ error skipped _ =>
                rw [outcome] at skipped
                cases skipped
      | error error between =>
          have skips : unlockAny crypto device (slot :: rest) state =
              unlockAny crypto device rest between := by
            simp only [unlockAny, outcome]
          rw [skips, ih between]
          constructor
          · exact fun opened => .later state between slot rest master error outcome opened
          · intro opened
            cases opened with
            | here _ after _ _ _ opens =>
                rw [outcome] at opens
                cases opens
            | later _ after _ _ _ other skipped opened =>
                rw [outcome] at skipped
                cases skipped
                exact opened

theorem first_opened_unique {crypto : Crypto} {device : Authenticator State} {slots : Keyslots}
    {state : State} {one other : Key} (first : FirstOpened crypto device state slots one)
    (opened : FirstOpened crypto device state slots other) : one = other := by
  obtain ⟨after, left⟩ := (unlock_any_ok slots state one).mpr first
  obtain ⟨between, right⟩ := (unlock_any_ok slots state other).mpr opened
  rw [left] at right
  cases right
  rfl

theorem some_slot {crypto : Crypto} {device : Authenticator State} {slots : Keyslots}
    {state : State} {master : Key} (first : FirstOpened crypto device state slots master) :
    ¬slots.isEmpty = true := by
  cases first with
  | here => exact Bool.false_ne_true
  | later => exact Bool.false_ne_true

/-- What the keyslots have to be for the passphrase to count: not looked at, not there, or read
well and opened by the device to no other key than one that decrypts HEAD. -/
def KeyslotsSpare (lib : Libraries) (dir : StoreDir) :
    Option (Authenticator State × State) → Prop
  | none => True
  | some (device, state) => dir.keyslots = .missing ∨ ∃ bytes slots,
      dir.keyslots = .holds bytes ∧ Identity.decode bytes = .ok slots ∧
        ∀ given, FirstOpened lib.crypto device state slots given → DecryptsHead lib dir given

theorem prove_decrypts {master : Key} (decrypts : DecryptsHead lib dir master) :
    ∃ proof, prove lib dir master = .ok proof := by
  obtain ⟨ls, id, object, opened, head, got⟩ := decrypts
  refine ⟨(some id, dir.device.listIds.length), ?_⟩
  simp only [prove, opened, head, got, fromLifestream, bind, Except.bind]

/-- Where HEAD can be read, its object is there: the directory is a store. -/
theorem is_store_of_decrypts {master : Key} {pass : String}
    (derived : passphraseMaster lib dir pass = .ok master)
    (decrypts : DecryptsHead lib dir master) : isStore dir.marks = true := by
  obtain ⟨ls, id, object, _, _, got⟩ := decrypts
  have salted : dir.salt ≠ .missing := by
    intro missing
    rw [passphraseMaster, missing] at derived
    cases derived
  have tiered : dir.objects = true := by
    cases objects : dir.objects with
    | true => rfl
    | false =>
        obtain ⟨plaintext, read, _⟩ := of_bind_ok got
        obtain ⟨record, raw, _⟩ := of_bind_ok read
        have absent : dir.device.objects.lookup id = none := by
          apply AList.lookup_eq_none.mpr
          intro member
          have key := AList.mem_keys.mp member
          rw [dir.tier objects] at key
          cases key
        rw [Device.readRecord, absent] at raw
        cases raw
  rw [isStore, StoreDir.marks, tiered, Bool.and_true]
  exact decide_eq_true salted

/-- A boot with a key that decrypts HEAD is one that hands that key over. -/
theorem boot_of_unlock {auth : Option (Authenticator State × State)} {pass : Except Error String}
    {master : Key} {method : Method} (store : isStore dir.marks = true)
    (unlocked : unlock lib dir auth pass = .ok (master, method)) :
    (∃ booted, boot lib dir auth pass = .ok booted ∧ DecryptsHead lib dir booted.master) ↔
      DecryptsHead lib dir master := by
  rw [boot, if_pos store]
  constructor
  · rintro ⟨booted, ended, decrypts⟩
    obtain ⟨⟨given, way⟩, opened, rest⟩ := of_bind_ok ended
    rw [unlocked] at opened
    cases opened
    obtain ⟨proof, _, same⟩ := of_bind_ok rest
    cases same
    exact decrypts
  · intro decrypts
    obtain ⟨⟨head, count⟩, proof⟩ := prove_decrypts decrypts
    exact ⟨_, bind_ok unlocked (bind_ok proof rfl), decrypts⟩

theorem no_boot_of_error {auth : Option (Authenticator State × State)} {pass : Except Error String}
    {error : Error} (failed : unlock lib dir auth pass = .error error) :
    ¬∃ booted, boot lib dir auth pass = .ok booted ∧ DecryptsHead lib dir booted.master := by
  rintro ⟨booted, ended, _⟩
  rw [boot] at ended
  split_ifs at ended
  obtain ⟨given, opened, _⟩ := of_bind_ok ended
  rw [failed] at opened
  cases opened

theorem typed_ok {pass : String} {master : Key}
    (derived : passphraseMaster lib dir pass = .ok master) :
    typed lib dir (.ok pass) = .ok (master, .passphrase) :=
  bind_ok rfl (bind_ok derived rfl)

/-- Whoever has the passphrase gets in exactly where the keyslots spare them. -/
theorem passphrase_boots_iff (lib : Libraries) (dir : StoreDir)
    (auth : Option (Authenticator State × State)) (pass : String) (master : Key)
    (derived : passphraseMaster lib dir pass = .ok master)
    (decrypts : DecryptsHead lib dir master) :
    (∃ booted, boot lib dir auth (.ok pass) = .ok booted ∧ DecryptsHead lib dir booted.master) ↔
      KeyslotsSpare lib dir auth := by
  have store := is_store_of_decrypts derived decrypts
  have by_passphrase := typed_ok derived
  cases auth with
  | none =>
      have unlocked : unlock lib dir (none : Option (Authenticator State × State)) (.ok pass) =
          .ok (master, .passphrase) := by_passphrase
      rw [boot_of_unlock store unlocked]
      exact iff_of_true decrypts trivial
  | some pair =>
      obtain ⟨device, state⟩ := pair
      cases file : dir.keyslots with
      | missing =>
          have unlocked : unlock lib dir (some (device, state)) (.ok pass) =
              .ok (master, .passphrase) := by
            rw [unlock, loadKeyslots, file]
            exact by_passphrase
          rw [boot_of_unlock store unlocked]
          exact iff_of_true decrypts (.inl file)
      | unreadable message =>
          have failed : unlock lib dir (some (device, state)) (.ok pass) = .error (.io message) := by
            rw [unlock, loadKeyslots, file]
            rfl
          refine iff_of_false (no_boot_of_error failed) ?_
          rintro (missing | ⟨bytes, slots, holds, _⟩)
          · rw [file] at missing
            cases missing
          · rw [file] at holds
            cases holds
      | holds bytes =>
          cases read : Identity.decode bytes with
          | error error =>
              have failed : unlock lib dir (some (device, state)) (.ok pass) =
                  .error (.keyslots error.display) := by
                rw [unlock, loadKeyslots, file]
                simp only [read]
                rfl
              refine iff_of_false (no_boot_of_error failed) ?_
              rintro (missing | ⟨bytes', slots, holds, decoded, _⟩)
              · rw [file] at missing
                cases missing
              · rw [file] at holds
                cases holds
                rw [read] at decoded
                cases decoded
          | ok slots =>
              have spare : KeyslotsSpare lib dir (some (device, state)) ↔
                  ∀ given, FirstOpened lib.crypto device state slots given →
                    DecryptsHead lib dir given := by
                constructor
                · rintro (missing | ⟨bytes', slots', holds, decoded, each⟩)
                  · rw [file] at missing
                    cases missing
                  · rw [file] at holds
                    cases holds
                    rw [read] at decoded
                    cases decoded
                    exact each
                · exact fun each => .inr ⟨bytes, slots, file, read, each⟩
              have loaded : loadKeyslots dir = .ok slots := by
                rw [loadKeyslots, file]
                simp only [read]
              rw [spare]
              cases outcome : unlockAny lib.crypto device slots state with
              | ok given after =>
                  have first : FirstOpened lib.crypto device state slots given :=
                    (unlock_any_ok slots state given).mp ⟨after, outcome⟩
                  have unlocked : unlock lib dir (some (device, state)) (.ok pass) =
                      .ok (given, .keyslot) := by
                    apply bind_ok loaded
                    rw [if_neg (some_slot first), outcome]
                  rw [boot_of_unlock store unlocked]
                  constructor
                  · intro decrypts other opened
                    rw [first_opened_unique first opened] at decrypts
                    exact decrypts
                  · exact fun each => each given first
              | error error after =>
                  have unlocked : unlock lib dir (some (device, state)) (.ok pass) =
                      .ok (master, .passphrase) := by
                    apply bind_ok loaded
                    split_ifs
                    · exact by_passphrase
                    · rw [outcome]
                      exact by_passphrase
                  rw [boot_of_unlock store unlocked]
                  refine iff_of_true decrypts fun given opened => ?_
                  obtain ⟨_, opens⟩ := (unlock_any_ok slots state given).mpr opened
                  rw [outcome] at opens
                  cases opens

end LockedOut

/-! ### A store of one commit -/

open HorizonOs.Lifestream (sampleCrypto sampleMaster committedId committedGeneration)

/-- One passphrase for the master of the sample store, and another for every other one. -/
def sampleLibraries : Libraries where
  crypto := sampleCrypto
  derive passphrase _ :=
    some (if passphrase = "open sesame" then sampleMaster 9 else sampleMaster 1)

def sampleDir (keyslots : File) : StoreDir where
  path := "/key/store"
  salt := .holds (List.replicate 16 3)
  keyslots := keyslots
  objects := true
  device := Device.committed ["one"]
  tier := nofun

theorem sample_decrypts (keyslots : File) :
    DecryptsHead sampleLibraries (sampleDir keyslots) (sampleMaster 9) := by
  refine ⟨Lifestream.sampleStore, committedId "one" [], committedGeneration "one" [], ?_, ?_, ?_⟩
  · have marked : (Device.committed ["one"]).marker = true := by decide +kernel
    simp only [sampleDir, Lifestream.openStore, Lifestream.ObjectStore.openStore, marked]
    rfl
  · dsimp only [sampleDir]
    decide +kernel
  · dsimp only [sampleDir]
    decide +kernel

theorem sample_derived (keyslots : File) :
    passphraseMaster sampleLibraries (sampleDir keyslots) "open sesame" = .ok (sampleMaster 9) :=
  rfl

theorem sample_passphrase_boots :
    (∃ booted, boot sampleLibraries (sampleDir .missing)
        (some (Identity.lengthy 16, ())) (.ok "open sesame") = .ok booted ∧
      DecryptsHead sampleLibraries (sampleDir .missing) booted.master) ↔
      KeyslotsSpare sampleLibraries (sampleDir .missing) (some (Identity.lengthy 16, ())) :=
  passphrase_boots_iff sampleLibraries (sampleDir .missing) (some (Identity.lengthy 16, ()))
    "open sesame" (sampleMaster 9) (sample_derived .missing) (sample_decrypts .missing)

/-- A keyslots file of one byte, beside a device that holds no slot of it. -/
theorem corrupt_keyslots_lock_out : ¬∀ (lib : Libraries) (dir : StoreDir)
    (auth : Option (Authenticator Unit × Unit)) (pass : String) (master : Key),
      passphraseMaster lib dir pass = .ok master → DecryptsHead lib dir master →
        ∃ booted, boot lib dir auth (.ok pass) = .ok booted ∧
          DecryptsHead lib dir booted.master := by
  intro boots
  have failed : unlock sampleLibraries (sampleDir (.holds [1])) (some (Identity.lengthy 16, ()))
      (.ok "open sesame") = .error (.keyslots (Identity.Error.malformed "too short").display) := rfl
  exact no_boot_of_error failed (boots sampleLibraries (sampleDir (.holds [1]))
    (some (Identity.lengthy 16, ())) "open sesame" (sampleMaster 9) (sample_derived _)
    (sample_decrypts _))

end HorizonOs.Boot

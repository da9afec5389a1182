import HorizonOs.Lib.LexicalPath
import HorizonOs.Lib.Text
import HorizonOs.Lifestream.Crypto

/-!
# Rights, resources and capabilities

What a capability names and carries, and when a grant for one resource covers
a request for another.
-/

namespace HorizonOs.Weave

open HorizonOs.Lib.ByteCodec HorizonOs.Lib.Text HorizonOs.Lib.LexicalPath

set_option autoImplicit false

abbrev PrincipalId := String

/-! ## Rights -/

/-- The source's `u32`, of which only the low three bits are ever set. -/
@[ext]
structure Rights where
  low : BitVec 3
  deriving DecidableEq, Repr

namespace Rights

def NONE : Rights := ⟨0⟩
def READ : Rights := ⟨1⟩
def WRITE : Rights := ⟨2⟩
def EXEC : Rights := ⟨4⟩

def bits (rights : Rights) : UInt32 := UInt32.ofNat rights.low.toNat

/-- `b & 0b111`. -/
def fromBits (b : UInt32) : Rights := ⟨BitVec.ofNat 3 b.toNat⟩

def isEmpty (rights : Rights) : Bool := rights.low = 0

/-- Whether `self` carries at least the requested rights. -/
def contains (self other : Rights) : Bool := self.low &&& other.low = other.low

def intersect (self other : Rights) : Rights := ⟨self.low &&& other.low⟩

def union (self other : Rights) : Rights := ⟨self.low ||| other.low⟩

def parseChars : List Char → Rights → Option Rights
  | [], parsed => some parsed
  | 'r' :: rest, parsed => parseChars rest (parsed.union READ)
  | 'w' :: rest, parsed => parseChars rest (parsed.union WRITE)
  | 'x' :: rest, parsed => parseChars rest (parsed.union EXEC)
  | '-' :: rest, parsed => parseChars rest (parsed.union NONE)
  | _ :: _, _ => none

def parse (text : String) : Option Rights := parseChars text.toList NONE

/-- How rights are displayed. -/
def display (rights : Rights) : String :=
  if rights.isEmpty then "-"
  else (if rights.contains READ then "r" else "") ++ (if rights.contains WRITE then "w" else "") ++
    (if rights.contains EXEC then "x" else "")

theorem from_bits_bits (rights : Rights) : fromBits rights.bits = rights := by
  obtain ⟨low⟩ := rights
  revert low
  decide

theorem contains_iff (self other : Rights) : self.contains other = true ↔
    ∀ i : Fin 3, other.low[i] = true → self.low[i] = true := by
  obtain ⟨self⟩ := self
  obtain ⟨other⟩ := other
  revert self other
  decide

theorem contains_trans (wide middle narrow : Rights) (outer : wide.contains middle = true)
    (inner : middle.contains narrow = true) : wide.contains narrow = true := by
  rw [contains_iff] at outer inner ⊢
  intro i held
  exact outer i (inner i held)

end Rights

/-! ## Resources -/

/-- What a capability names. A file's path is the bytes of a `PathBuf`. -/
inductive Resource where
  | file (path : Bytes)
  | net (host : String) (port : UInt16)
  | device (name : String)
  | service (name action : String)
  deriving DecidableEq

/-- `Path::starts_with`; `Path` equality is the case of equal components. -/
def pathStartsWith (path base : Bytes) : Bool := (components base).isPrefixOf (components path)

/-- `Resource::covers`: a file grant covers a path and its descendants, anything
else must match exactly. -/
def Resource.covers : Resource → Resource → Bool
  | .file a, .file b => components b = components a || pathStartsWith b a
  | .net h1 p1, .net h2 p2 => h1 = h2 && p1 = p2
  | .device a, .device b => a = b
  | .service n1 a1, .service n2 a2 => n1 = n2 && a1 = a2
  | _, _ => false

theorem covers_file_iff (a b : Bytes) :
    (Resource.file a).covers (.file b) = true ↔ components a <+: components b := by
  simp only [Resource.covers, pathStartsWith, Bool.or_eq_true, decide_eq_true_eq,
    List.isPrefixOf_iff_prefix]
  constructor
  · rintro (same | inside)
    · rw [same]
    · exact inside
  · exact Or.inr

theorem covers_refl (resource : Resource) : resource.covers resource = true := by
  cases resource <;> simp [Resource.covers]

theorem covers_trans (wide middle narrow : Resource) (outer : wide.covers middle = true)
    (inner : middle.covers narrow = true) : wide.covers narrow = true := by
  cases wide with
  | file a =>
      cases middle with
      | file b =>
          cases narrow with
          | file c =>
              rw [covers_file_iff] at outer inner ⊢
              exact outer.trans inner
          | _ => simp [Resource.covers] at inner
      | _ => simp [Resource.covers] at outer
  | _ =>
      -- the other kinds cover their equals only
      cases middle <;> simp [Resource.covers] at outer
      simpa only [outer] using inner

/-- The digits of `str::parse` for an unsigned integer. -/
def parseDigits : List Char → Nat → Option Nat
  | [], value => some value
  | c :: rest, value =>
      if '0' ≤ c ∧ c ≤ '9' then parseDigits rest (10 * value + (c.toNat - 48)) else none

/-- `str::parse::<u16>`: an optional plus sign and at least one digit. -/
def parseU16 (chars : List Char) : Option UInt16 := do
  let digits := match chars with
    | '+' :: rest => rest
    | other => other
  let value ← if digits = [] then none else parseDigits digits 0
  if value < 2 ^ 16 then some (UInt16.ofNat value) else none

/-- `Resource::parse`: `file:/p`, `net:host:port`, `dev:name`, `svc:name/action`. -/
def Resource.parse (text : String) : Option Resource :=
  match stripPrefix "file:".toList text.toList with
  | some path => some (.file (utf8 (String.ofList path)))
  | none =>
    match stripPrefix "net:".toList text.toList with
    | some rest => do
        let (host, port) ← rsplitOnce (· = ':') rest
        let port ← parseU16 port
        some (.net (String.ofList host) port)
    | none =>
      match stripPrefix "dev:".toList text.toList with
      | some name => some (.device (String.ofList name))
      | none =>
        match stripPrefix "svc:".toList text.toList with
        | some rest => do
            let (name, action) ← splitOnce (· = '/') rest
            some (.service (String.ofList name) (String.ofList action))
        | none => none

/-- `Path::to_string_lossy` and `Path::display`. -/
def lossyPath (path : Bytes) : String := fromUtf8Lossy path

def Resource.display : Resource → String
  | .file path => s!"file:{lossyPath path}"
  | .net host port => s!"net:{host}:{port}"
  | .device name => s!"dev:{name}"
  | .service name action => s!"svc:{name}/{action}"

/-! ## Grants and handles -/

abbrev GrantId := FixedBytes 16
abbrev Secret := FixedBytes 32

structure Limits where
  expiresUnix : Option UInt64
  maxUses : Option UInt32
  deriving DecidableEq

def Limits.none : Limits := ⟨.none, .none⟩

/-- The persisted policy decision. -/
structure Grant where
  id : GrantId
  principal : PrincipalId
  resource : Resource
  rights : Rights
  grantedUnix : UInt64
  expiresUnix : Option UInt64
  maxUses : Option UInt32
  deriving DecidableEq

/-- The live handle; its secret is never written to the log. -/
structure Capability where
  grant : GrantId
  secret : Secret
  deriving DecidableEq

/-- What an authorized and audited access hands back. -/
structure Lease where
  grant : GrantId
  resource : Resource
  rights : Rights
  deriving DecidableEq

inductive Status where
  | active
  | revoked
  | expired
  deriving DecidableEq, Repr

/-- A read-only view of a grant. -/
structure GrantInfo where
  id : GrantId
  principal : PrincipalId
  resource : Resource
  rights : Rights
  grantedUnix : UInt64
  expiresUnix : Option UInt64
  maxUses : Option UInt32
  uses : UInt32
  status : Status
  deriving DecidableEq

end HorizonOs.Weave

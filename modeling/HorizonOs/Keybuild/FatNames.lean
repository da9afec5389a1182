import HorizonOs.Lib.Buffer
import HorizonOs.Lib.Text
import HorizonOs.Lib.Utf16

/-!
# Names on a FAT volume

A name that fits an 8.3 short name is written as one, in upper case; a longer one
gets a generated short alias and the long-name slots before it. Names are read here
as the characters they are made of.
-/

namespace HorizonOs.Keybuild.Fat

open HorizonOs.Lib.ByteCodec HorizonOs.Lib.Buffer HorizonOs.Lib.Utf16

set_option autoImplicit false

def attrVolumeId : UInt8 := 0x08
def attrDirectory : UInt8 := 0x10
def attrArchive : UInt8 := 0x20
def attrLongName : UInt8 := 0x0F

def fixedDate : Nat := 33
def fixedTime : Nat := 0

/-- `to_ascii_uppercase`. -/
def upper (name : String) : List Char := name.toList.map Char.toUpper

/-- `rsplit_once('.')`, with the whole name as the base when there is no dot. -/
def rsplitDot (name : List Char) : List Char × List Char :=
  if '.' ∈ name then
    ((name.reverse.dropWhile (· ≠ '.')).tail.reverse, (name.reverse.takeWhile (· ≠ '.')).reverse)
  else (name, [])

/-- The conservative short-name set: letters, digits, and three marks. -/
def shortChar (c : Char) : Bool := c.isUpper || c.isDigit || "-_~".toList.contains c

/-- The canonical 8.3 form of a name, when it has one. -/
def canon83 (name : String) : Option (List Char) :=
  let (base, ext) := rsplitDot (upper name)
  if base = [] ∨ 8 < base.length ∨ 3 < ext.length ∨ ¬base.all shortChar ∨ ¬ext.all shortChar then
    none
  else some (if ext = [] then base else base ++ '.' :: ext)

def asciiBytes (chars : List Char) : Bytes := chars.map fun c => UInt8.ofNat c.toNat

/-- Eleven bytes: the base in the first eight and the extension in the last three, padded
with spaces. -/
def nameField (base ext : Bytes) : Bytes :=
  base.take 8 ++ List.replicate (8 - base.length) 0x20 ++
    ext.take 3 ++ List.replicate (3 - ext.length) 0x20

/-- The field of a canonical name, split at its dot. -/
def toField (canon : List Char) : Bytes :=
  nameField (asciiBytes (canon.takeWhile (· ≠ '.')))
    (asciiBytes (canon.dropWhile (· ≠ '.')).tail)

def fits83 (name : String) : Option Bytes := (canon83 name).map toField

/-- A usable long name: 1 to 255 units, every character one unit, none of them reserved,
and nothing at the end that FAT would strip. -/
def isLongName (name : String) : Bool :=
  let units := (encodeUtf16 name).length
  1 ≤ units && units ≤ 255 && name ≠ "." && name ≠ ".." &&
    name.toList.getLast? ≠ some '.' && name.toList.getLast? ≠ some ' ' &&
    name.toList.all fun c => 0x20 ≤ c.toNat && c.toNat < 0xFFFF &&
      !"/\\:*?\"<>|".toList.contains c

def validateName (name : String) : Bool := (fits83 name).isSome || isLongName name

/-- The slots before a child's short entry: one for each 13 units and one for the NUL. -/
def lfnSlots (name : String) : Nat :=
  if (fits83 name).isSome then 0 else (encodeUtf16 name).length / 13 + 1

/-- The characters of a part of a long name as an alias may carry them. -/
def clean (part : List Char) (count : Nat) : Bytes :=
  ((part.filter fun c => c ≠ ' ' && c ≠ '.').map
    fun c => if shortChar c then UInt8.ofNat c.toNat else 0x5F).take count

/-- The `i`-th alias of a long name. -/
def aliasField (long : String) (i : Nat) : Bytes :=
  let (base, ext) := rsplitDot (upper long)
  let tail := asciiBytes ('~' :: Nat.toDigits 10 i)
  nameField ((clean base (8 - tail.length) ++ tail).take 8) (clean ext 3)

/-- The first free alias from `i` on, for as many numbers as the fuel allows. -/
def aliasFrom (long : String) (taken : List Bytes) : Nat → Nat → Option Bytes
  | 0, _ => none
  | fuel + 1, i =>
      if aliasField long i ∈ taken then aliasFrom long taken fuel (i + 1)
      else some (aliasField long i)

/-- `short_alias`: numbers 1 to `u32::MAX`; none when they run out, which panics. -/
def shortAlias (long : String) (taken : List Bytes) : Option Bytes :=
  aliasFrom long taken (2 ^ 32 - 1) 1

/-- The rotate-right-and-add checksum of a short field. -/
def lfnChecksum (field : Bytes) : UInt8 :=
  field.foldl (fun sum b => ((sum >>> 1) ||| ((sum &&& 1) <<< 7)) + b) 0

def encodeUnits (units : List UInt16) : Bytes := units.flatMap fun u => encodeLE 2 u.toNat

/-- The units of a long name with its NUL, padded to whole slots. -/
def lfnUnits (long : String) : List UInt16 :=
  let units := encodeUtf16 long
  units ++ 0x0000 :: List.replicate ((units.length / 13 + 1) * 13 - (units.length + 1)) 0xFFFF

/-- One long-name slot: 13 units split 5, 6 and 2. -/
def lfnSlot (units : List UInt16) (nslots : Nat) (cksum : UInt8) (seq : Nat) : Bytes :=
  let chars := slice units ((seq - 1) * 13) 13
  let e := List.replicate 32 0
  let e := put e 0 [UInt8.ofNat seq ||| if seq = nslots then 0x40 else 0]
  let e := put e 11 [attrLongName]
  let e := put e 13 [cksum]
  let e := put e 1 (encodeUnits (slice chars 0 5))
  let e := put e 14 (encodeUnits (slice chars 5 6))
  put e 28 (encodeUnits (slice chars 11 2))

/-- The slots of a long name, the last part first. -/
def lfnEntries (long : String) (shortField : Bytes) : Bytes :=
  let nslots := (encodeUtf16 long).length / 13 + 1
  (List.range nslots).reverse.flatMap fun i =>
    lfnSlot (lfnUnits long) nslots (lfnChecksum shortField) (i + 1)

/-- A 32-byte directory entry with the fixed timestamps. -/
def entry (name : Bytes) (firstCluster size : Nat) (attr : UInt8) : Bytes :=
  let e := List.replicate 32 0
  let e := put e 0 name
  let e := put e 11 [attr]
  let e := put e 14 (encodeLE 2 fixedTime)
  let e := put e 16 (encodeLE 2 fixedDate)
  let e := put e 18 (encodeLE 2 fixedDate)
  let e := put e 20 (encodeLE 2 (firstCluster / 2 ^ 16))
  let e := put e 22 (encodeLE 2 fixedTime)
  let e := put e 24 (encodeLE 2 fixedDate)
  let e := put e 26 (encodeLE 2 firstCluster)
  put e 28 (encodeLE 4 size)

/-- The field of `.` and `..`. -/
def dotName (dots : String) : Bytes :=
  asciiBytes dots.toList ++ List.replicate (11 - dots.length) 0x20

end HorizonOs.Keybuild.Fat

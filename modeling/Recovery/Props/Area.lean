/-
# The legacy property area (legacy_property_service.c)

A shared area of 32768 bytes: the number of properties, a table of contents whose words pack
the length of a name with the offset of its `prop_info`, and a serial that packs the length
of the value with a version. Every access is checked. A string is shorter than 2^31 bytes;
waking other processes is left out.
-/
import Recovery.Text
import Recovery.Lib.Memory

namespace Recovery
namespace Props

open Memory (Mem)

/-! ### The layout -/

def propNameMax : ℕ := 32

def propValueMax : ℕ := 92

def paCountMax : ℕ := 247

def paInfoStart : ℕ := 1024

def paSize : ℕ := 32768

/-- `prop_area`: `count`, `serial`, `magic`, `version` and `toc`. -/
def countAt : ℕ := 0

def serialAt : ℕ := 4

def magicAt : ℕ := 8

def versionAt : ℕ := 12

def tocAt (i : ℕ) : ℕ := 32 + 4 * i

/-- `sizeof(prop_info)`, and where its `serial` and `value` are. -/
def infoSize : ℕ := 128

def infoSerial (pi : ℕ) : ℕ := pi + propNameMax

def infoValue (pi : ℕ) : ℕ := pi + propNameMax + 4

def infoAt (i : ℕ) : ℕ := paInfoStart + infoSize * i

def tocNameLen (entry : ℕ) : ℕ := entry >>> 24

def tocToInfo (entry : ℕ) : ℕ := entry &&& 0xffffff

def serialValueLen (serial : ℕ) : ℕ := serial >>> 24

/-! ### Accesses -/

def load (m : Mem) (a n : ℕ) : Except Stop Bytes := Memory.load paSize Stop.fault m a n

def store (m : Mem) (a : ℕ) (bs : Bytes) : Except Stop Mem := Memory.store paSize Stop.fault m a bs

def loadWord (m : Mem) (a : ℕ) : Except Stop ℕ := LittleEndian.ofBytes <$> load m a 4

def storeWord (m : Mem) (a v : ℕ) : Except Stop Mem := store m a (LittleEndian.toBytes 4 v)

def increment (m : Mem) (a : ℕ) : Except Stop Mem := do
  let v ← loadWord m a
  storeWord m a (v + 1)

/-! ### The functions -/

def propAreaMagic : ℕ := 0x504f5250

def propAreaVersion : ℕ := 0x45434f76

/-- `init_property_area`, for an area that could be mapped. -/
def initPropertyArea (m : Mem) : Except Stop Mem := do
  let m ← store m 0 (List.replicate paSize 0)
  let m ← storeWord m magicAt propAreaMagic
  storeWord m versionAt propAreaVersion

def updatePropInfo (m : Mem) (pi : ℕ) (value : CString) : Except Stop Mem := do
  let serial ← loadWord m (infoSerial pi)
  let m ← storeWord m (infoSerial pi) (serial ||| 1)
  let m ← store m (infoValue pi) (value.bytes ++ [0])
  let serial ← loadWord m (infoSerial pi)
  storeWord m (infoSerial pi) ((value.bytes.length <<< 24) ||| ((serial + 1) &&& 0xffffff))

/-- The loop of `__legacy_property_find`, from an entry of the table of contents on. -/
def findLoop (m : Mem) (name : Bytes) : ℕ → ℕ → Except Stop (Option ℕ)
  | 0, _ => .ok none
  | count + 1, i => do
    let entry ← loadWord m (tocAt i)
    if tocNameLen entry ≠ name.length then findLoop m name count (i + 1)
    else
      let s ← load m (tocToInfo entry) name.length
      if s ≠ name then findLoop m name count (i + 1) else .ok (some (tocToInfo entry))

def legacyPropertyFind (m : Mem) (name : CString) : Except Stop (Option ℕ) := do
  let count ← loadWord m countAt
  findLoop m name.bytes count 0

def isRo (name : CString) : Bool := (lit "ro.").isPrefixOf name.bytes

def updateProperty (m : Mem) (pi : ℕ) (value : CString) : Except Stop Mem := do
  let m ← updatePropInfo m pi value
  increment m serialAt

def addProperty (m : Mem) (count : ℕ) (name value : CString) : Except Stop Mem := do
  let m ← storeWord m (infoSerial (infoAt count)) (value.bytes.length <<< 24)
  let m ← store m (infoAt count) (name.bytes ++ [0])
  let m ← store m (infoValue (infoAt count)) (value.bytes ++ [0])
  let m ← storeWord m (tocAt count) ((name.bytes.length <<< 24) ||| infoAt count)
  let m ← increment m countAt
  increment m serialAt

def legacyPropertySet (m : Mem) (name value : CString) : Except Stop (ℤ × Mem) :=
  if propNameMax ≤ name.bytes.length then .ok (-1, m)
  else if propValueMax ≤ value.bytes.length then .ok (-1, m)
  else if name.bytes.length < 1 then .ok (-1, m)
  else do
    let pi ← legacyPropertyFind m name
    match pi with
    | some pi =>
      if isRo name then .ok (-1, m)
      else
        let m ← updateProperty m pi value
        .ok (0, m)
    | none =>
      let count ← loadWord m countAt
      if count = paCountMax then .ok (-1, m)
      else
        let m ← addProperty m count name value
        .ok (0, m)

abbrev Property := CString × CString

def sets : List Property → Mem → Except Stop (List ℤ × Mem)
  | [], m => .ok ([], m)
  | p :: ps, m => do
    let (ret, m) ← legacyPropertySet m p.1 p.2
    let (rets, m) ← sets ps m
    .ok (ret :: rets, m)

end Props
end Recovery

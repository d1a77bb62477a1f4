/-
# What `dedupe c` stores (dedupe.c)

A line of the manifest for each entry, and the contents of files in the blob directory under
their hash. A directory is the list of its entries in the order of `readdir`. The hash is
any function to 32 bytes; writing the manifest does not fail.
-/
import Recovery.Scanf
import Recovery.Paths

namespace Recovery
namespace Dedupe

open Zip (cstr pathMax)

abbrev dedupeVersion : ℤ := 2

abbrev tab : UInt8 := 0x09

def tabbed (fields : List Bytes) : Bytes := fields.flatMap (· ++ [tab])

/-! ### What is stored -/

structure Stat where
  mode : ℕ
  uid : UInt32
  gid : UInt32
  atime : UInt32
  mtime : UInt32
  ctime : UInt32
  mode_lt : mode < 0o10000
  deriving DecidableEq

/-- The entries of a directory. The label is what `lgetfilecon` gives, or `unlabel`. -/
inductive Dir
  | nil
  | file (name : Name) (st : Stat) (label : CString) (content : Bytes) (rest : Dir)
  | link (name : Name) (st : Stat) (label : CString) (target : CString) (rest : Dir)
  | dir (name : Name) (st : Stat) (label : CString) (entries rest : Dir)
  /-- a device, a pipe or a socket -/
  | special (name : Name) (rest : Dir)

/-! ### Copying a file -/

/-- A turn of the loop of `copy_file`: what `read` gets and what `write` takes. -/
structure CopyStep where
  got : Option ℕ
  put : ℕ

/-! ### Storing -/

/-- What the calls do. The errors are 0 for calls that work. -/
structure StoreCalls where
  opendir : Bytes → Bool
  lstat : Bytes → Bool
  fopen : Bytes → Bool
  rename : Bytes → Bool
  readlink : Bytes → ℤ
  copyOpen : Bytes → ℤ
  copySteps : Bytes → List CopyStep

/-- `DEDUPE_STORE_CONTEXT`, with the calls and the hash function. -/
structure Context where
  blobDir : CString
  excludes : List Bytes
  calls : StoreCalls
  sha256 : Bytes → Bytes

def keyOf (digest : Bytes) : Bytes :=
  let psum := digest.flatMap hexByte
  psum.take 3 ++ slashChar :: psum.drop 3

/-- `S_IRWXU | S_IRWXG | S_IRWXO | S_ISUID | S_ISGID`. -/
def statMask : ℕ := 0o6777

def printStat (type : String) (st : Stat) (label : CString) (f : Bytes) : Bytes :=
  tabbed [lit type, printNat 8 (st.mode &&& statMask), printNat 10 st.uid.toNat, printNat 10 st.gid.toNat, label.bytes,
    printNat 10 st.atime.toNat, printNat 10 st.mtime.toNat, printNat 10 st.ctime.toNat, f]

def printBlob (key content : Bytes) : Bytes := tabbed [key, dec (s32 content.length)] ++ [0x0a]

variable (ctx : Context)

/-- The path of an entry, in an array of `PATH_MAX` bytes. -/
def fullPath (d : Bytes) (name : Name) : Except Stop Bytes :=
  let path := d ++ slashChar :: name.bytes
  if path.length < pathMax then .ok path else .error .fault

/-! ### Keys -/

theorem mem_keyOf {digest : Bytes} {c : UInt8} (h : c ∈ keyOf digest) : c = slashChar ∨ ∃ b ∈ digest, c ∈ hexByte b := by
  rw [keyOf, List.mem_append, List.mem_cons] at h
  obtain h | h | h := h
  · exact .inr (List.mem_flatMap.mp (List.mem_of_mem_take h))
  · exact .inl h
  · exact .inr (List.mem_flatMap.mp (List.mem_of_mem_drop h))

end Dedupe
end Recovery

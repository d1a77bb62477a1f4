/-
# The functions of the updater (updater/install.c)

What a function does to the system goes through `System`: each call answers and changes the
world, so that any behaviour of the calls is covered. Messages to `stdout` and `stderr` and
the texts of `strerror` are left out.
-/
import Recovery.Edify.Expr
import Recovery.Paths

namespace Recovery
namespace Edify

/-- What `stat` tells of a file. -/
inductive FileKind
  | regular
  | directory
  | link
  | other
  deriving DecidableEq

/-- A file that `nftw` comes to. -/
structure Visit where
  path : Bytes
  kind : FileKind
  /-- the flag is `FTW_DNR` or `FTW_NS`: the directory cannot be read, or there is nothing known of the file -/
  incomplete : Bool
  deriving DecidableEq

def eNoent : ℤ := 2
def eExist : ℤ := 17
def eNodata : ℤ := 61
def eNotsup : ℤ := 95

/-- `struct perm_parsed_args`: the members that are set. -/
structure PermParsedArgs where
  uid : Option ℤ
  gid : Option ℤ
  mode : Option ℤ
  fmode : Option ℤ
  dmode : Option ℤ
  selabel : Option CString
  capabilities : Option ℤ

/-- A call: its answer and the world after it. -/
abbrev Syscall (σ α : Type) := σ → α × σ

/-- The calls. One that may fail answers with its `errno`, or `none`. -/
structure System (σ : Type) where
  unlink : Bytes → Syscall σ (Option ℤ)
  dirUnlinkHierarchy : Bytes → Syscall σ (Option ℤ)
  mkdir : Bytes → Syscall σ (Option ℤ)
  symlink : Bytes → Bytes → Syscall σ (Option ℤ)
  chown : Bytes → ℤ → ℤ → Syscall σ (Option ℤ)
  chmod : Bytes → ℤ → Syscall σ (Option ℤ)
  lstat : Bytes → Syscall σ (Option FileKind)
  /-- the names that the directory stream holds -/
  opendir : Bytes → Syscall σ (Option (List Bytes))
  /-- whether `readdir` fails -/
  readdir : Syscall σ Bool
  closedir : Syscall σ (Option ℤ)
  /-- the files that `nftw` comes to, or `none` if it fails -/
  walk : Bytes → Syscall σ (Option (List Visit))
  lsetfilecon : Bytes → Bytes → Syscall σ (Option ℤ)
  removeCapabilities : Bytes → Syscall σ (Option ℤ)
  setCapabilities : Bytes → ℤ → Syscall σ (Option ℤ)
  extractRecursive : Bytes → Bytes → Syscall σ Bool
  /-- the uncompressed size of an entry of the package -/
  findZipEntry : Bytes → Syscall σ (Option ℤ)
  openForWrite : Bytes → Syscall σ Bool
  extractToFile : Bytes → Bytes → Syscall σ Bool
  malloc : ℤ → Syscall σ Bool
  extractToBuffer : Bytes → Syscall σ (Option Bytes)
  /-- the size of a file -/
  statSize : Bytes → Syscall σ (Option ℤ)
  openForRead : Bytes → Syscall σ Bool
  /-- what is in the file, up to a length -/
  readFile : Bytes → ℕ → Syscall σ Bytes
  restoreRawPartition : Bytes → Option Bytes → Syscall σ Bool
  applypatch : Bytes → Bytes → Bytes → ℤ → List (CString × Option Bytes) → Syscall σ ℤ
  /-- `none` is an array that is not there -/
  applypatchCheck : Bytes → Option (List CString) → Syscall σ ℤ
  /-- the table of files that are skipped -/
  bakfiles : σ → List Bytes
  pushBakfile : Bytes → Syscall σ Unit
  /-- to the command pipe -/
  print : Bytes → Syscall σ Unit

variable {σ : Type}

def sys {α : Type} (f : Syscall σ α) : M σ α := fun s => .ok ((f s.cookie).1, { s with cookie := (f s.cookie).2 })

def ofExcept {α : Type} (x : Except Stop α) : M σ α := fun s => x.map fun a => (a, s)

def quoted (s : Bytes) : Bytes := lit "\"" ++ s ++ lit "\""

def expectsArgs (name : String) (what : String) (argc : ℕ) : Bytes :=
  lit name ++ lit "() expects " ++ lit what ++ lit ", got " ++ dec argc

variable (S : System σ)

/-! ### delete -/

/-- The clean-up loop of `DeleteFn` frees the path `j` as long as `j < i`, but counts up `i`. -/
def deleteCleanUp : ℕ → List Bool → ℕ → ℕ → Except Stop Unit
  | 0, _, _, _ => .error .hang
  | n + 1, allocated, i, j =>
    if j < i then
      -- memory that is freed twice
      if allocated[j]? = some true then deleteCleanUp n (allocated.set j false) (i + 1) j else .error .fault
    else .ok ()

/-- The loop of `DeleteFn` that evaluates the paths. -/
def deletePaths : List CString → List (Arg σ) → M σ (Option (List CString))
  | paths, [] => pure (some paths)
  | paths, a :: argv => do
    let path ← evaluate a
    match path with
    | none => do
      ofExcept (deleteCleanUp (2 ^ 31) (paths.map fun _ => true) paths.length 0)
      pure none
    | some path => deletePaths (paths ++ [path]) argv

def deleteLoop (recursive : Bool) : ℤ → List CString → M σ ℤ
  | success, [] => pure success
  | success, path :: paths => do
    let failed ← sys (if recursive then S.dirUnlinkHierarchy path.bytes else S.unlink path.bytes)
    deleteLoop recursive (if failed = none then success + 1 else success) paths

def deleteFn (recursive : Bool) (argv : List (Arg σ)) : M σ (Option Value) := do
  let paths ← deletePaths [] argv
  match paths with
  | none => pure none
  | some paths => do
    let success ← deleteLoop S recursive 0 paths
    pure (stringValue (.of (dec success)))

/-! ### symlink -/

/-- The last slash of a path that is not its first byte. -/
def lastSlash (path : Bytes) : Option ℕ := ((List.range path.length).filter fun p => 0 < p ∧ path[p]? = some 0x2f).getLast?

def makeParents : ℕ → Bytes → M σ (Bool × Bytes)
  | 0, name => pure (true, name)
  | n + 1, name =>
    match lastSlash (Zip.cstr name) with
    | none => pure (true, name)
    | some p => do
      let (ok, name) ← makeParents n (name.set p 0)
      if ok then do
        let failed ← sys (S.mkdir (Zip.cstr name))
        pure (failed = none ∨ failed = some eExist, name.set p 0x2f)
      else pure (false, name)

/-- The loop of `SymlinkFn`: how many failed. -/
def symlinkLoop (target : CString) : ℤ → List CString → M σ ℤ
  | bad, [] => pure bad
  | bad, src :: srcs => do
    let failed ← sys (S.unlink src.bytes)
    let bad := if failed = none ∨ failed = some eNoent then bad else bad + 1
    let (ok, path) ← makeParents S src.bytes.length src.bytes
    let bad := if ok then bad else bad + 1
    let failed ← sys (S.symlink target.bytes (Zip.cstr path))
    symlinkLoop target (if failed = none then bad else bad + 1) srcs

def symlinkFn (argv : List (Arg σ)) : M σ (Option Value) :=
  match argv with
  | [] => errorAbort (expectsArgs "symlink" "1+ args" 0)
  | first :: rest => do
    let target ← evaluate first
    match target with
    | none => pure none
    | some target => do
      let srcs ← readVarArgs rest
      match srcs with
      | none => pure none
      | some srcs => do
        let bad ← symlinkLoop S target 0 srcs
        if bad ≠ 0 then errorAbort (lit "symlink: some symlinks failed") else pure (stringValue .empty)

/-! ### set_perm -/

def setPermName (recursive : Bool) : String := if recursive then "set_perm_recursive" else "set_perm"

/-- A number that is all of a string, as an `int` holds it. -/
def parseUInt (s : CString) : Option ℤ :=
  if (strtoul s.bytes).2 ≠ [] ∨ s.bytes = [] then none else some (s32 (strtoul s.bytes).1)

/-- A number for a field, or the error that it is not one. -/
def orInvalid {α : Type} (name : String) (s : CString) (field : String) (f : ℤ → M σ (Option α)) : M σ (Option α) :=
  match parseUInt s with
  | none => errorAbort (lit name ++ lit ": " ++ quoted s.bytes ++ lit " not a valid " ++ lit field)
  | some n => f n

/-- The loop over the entries: whether `errno` is 0 behind it. -/
def setHierarchyEntries (setChild : Bytes → M σ Bool) (path : Bytes) : List Bytes → M σ Bool
  | [] => do
    let failed ← sys S.readdir
    pure !failed
  | name :: names => do
    let failed ← sys S.readdir
    if failed then pure false
    else if name = lit ".." ∨ name = lit "." then setHierarchyEntries setChild path names
    else do
      let done ← setChild (childPath path name)
      if done then setHierarchyEntries setChild path names else pure false

/-- `chown` and, if it succeeds, `chmod`: whether both do. -/
def chownChmod (uid gid mode : ℤ) (path : Bytes) : M σ Bool := do
  let chowned ← sys (S.chown path uid gid)
  if chowned = none then do
    let chmoded ← sys (S.chmod path mode)
    pure (decide (chmoded = none))
  else pure false

/-- Whether it returns 0. The stack has room for `k` calls. -/
def dirSetHierarchyPermissions (uid gid dirMode fileMode : ℤ) : ℕ → Bytes → M σ Bool
  | 0, _ => ofExcept (.error .hang)
  | k + 1, path => do
    let st ← sys (S.lstat path)
    match st with
    | none => pure false
    | some kind =>
      if kind = .link then pure true
      else do
        let changed ← chownChmod S uid gid (if kind = .directory then dirMode else fileMode) path
        if changed then
          if kind = .directory then do
            let dir ← sys (S.opendir path)
            match dir with
            | none => pure false
            | some names => do
              let done ← setHierarchyEntries S (dirSetHierarchyPermissions uid gid dirMode fileMode k) path names
              let closed ← sys S.closedir
              pure (done && decide (closed = none))
          else pure true
        else pure false

/-- The loop over the paths. The result of `dirSetHierarchyPermissions` is not looked at. -/
def setHierarchyLoop (uid gid dirMode fileMode : ℤ) : List CString → M σ Unit
  | [] => pure ()
  | path :: paths => do
    let _ ← dirSetHierarchyPermissions S uid gid dirMode fileMode Zip.pathMax path.bytes
    setHierarchyLoop uid gid dirMode fileMode paths

/-- The loop over the paths that are not searched: how many calls failed. -/
def setPermLoop (uid gid mode : ℤ) : ℤ → List CString → M σ ℤ
  | bad, [] => pure bad
  | bad, path :: paths => do
    let chowned ← sys (S.chown path.bytes uid gid)
    let bad := if chowned = none then bad else bad + 1
    let chmoded ← sys (S.chmod path.bytes mode)
    setPermLoop uid gid mode (if chmoded = none then bad else bad + 1) paths

def setPermFn (recursive : Bool) (argv : List (Arg σ)) : M σ (Option Value) :=
  let name := setPermName recursive
  let minArgs := if recursive then 5 else 4
  if argv.length < minArgs then errorAbort (lit name ++ lit "() expects " ++ dec minArgs ++ lit "+ args, got " ++ dec argv.length)
  else do
    let args ← readVarArgs argv
    match args with
    | some (uid :: gid :: mode :: rest) =>
      orInvalid name uid "uid" fun uid =>
      orInvalid name gid "gid" fun gid =>
      if recursive then
        match rest with
        | [] => fault
        | fileMode :: paths =>
          orInvalid name mode "dirmode" fun dirMode =>
          orInvalid name fileMode "filemode" fun fileMode => do
            setHierarchyLoop S uid gid dirMode fileMode paths
            pure (stringValue .empty)
      else
        orInvalid name mode "mode" fun mode => do
          let bad ← setPermLoop S uid gid mode 0 rest
          if bad ≠ 0 then errorAbort (lit name ++ lit ": some changes failed") else pure (stringValue .empty)
    | some _ => fault
    | none => pure none

/-! ### set_metadata -/

def scanDecimal (s : CString) : Option ℤ :=
  let (minus, rest) := skipSign s.bytes
  let digits := rest.takeWhile (isDigit 10)
  if digits = [] then none else some (if minus then -(number 10 digits : ℤ) else number 10 digits)

/-- `sscanf` of a number in any of the three bases. -/
def scanInteger (s : CString) : Option ℤ :=
  let (minus, rest) := skipSign s.bytes
  let (base, rest) := detectBase rest
  let digits := rest.takeWhile (isDigit base)
  if digits = [] then none else some (if minus then -(number base digits : ℤ) else number base digits)

/-- A key and its value. Unknown keys and values change nothing. -/
def PermParsedArgs.set (parsed : PermParsedArgs) (key value : CString) : PermParsedArgs :=
  if key = str "uid" then { parsed with uid := scanDecimal value <|> parsed.uid }
  else if key = str "gid" then { parsed with gid := scanDecimal value <|> parsed.gid }
  else if key = str "mode" then { parsed with mode := scanInteger value <|> parsed.mode }
  else if key = str "dmode" then { parsed with dmode := scanInteger value <|> parsed.dmode }
  else if key = str "fmode" then { parsed with fmode := scanInteger value <|> parsed.fmode }
  else if key = str "capabilities" then { parsed with capabilities := scanInteger value <|> parsed.capabilities }
  else if key = str "selabel" then
    { parsed with selabel := if value.bytes = [] then parsed.selabel else some value }
  else parsed

/-- `ParsePermArgs` on the arguments behind the first. -/
def parsePermArgs : PermParsedArgs → List CString → Except Stop PermParsedArgs
  | parsed, [] => .ok parsed
  | _, [_] => .error .fault
  | parsed, key :: value :: rest => parsePermArgs (parsed.set key value) rest

/-- A change, if its member is set: 1 if it fails with an error that is not ignored. -/
def applyOne {α : Type} (member : Option α) (relevant : Bool) (ignored : Option ℤ) (f : α → Syscall σ (Option ℤ)) : M σ ℤ :=
  match member with
  | none => pure 0
  | some a =>
    if relevant then do
      let failed ← sys (f a)
      pure (if failed = none ∨ failed = ignored then 0 else 1)
    else pure 0

/-- The changes of capabilities: 0 removes them. -/
def changeCapabilities (filename : Bytes) (capabilities : ℤ) : Syscall σ (Option ℤ) := fun w =>
  if capabilities = 0 then
    let (failed, w) := S.removeCapabilities filename w
    (if failed = some eNodata then none else failed, w)
  else S.setCapabilities filename capabilities w

def applyParsedPerms (filename : Bytes) (kind : FileKind) (parsed : PermParsedArgs) : M σ ℤ :=
  if kind = .link then pure 0
  else do
    let uid ← applyOne parsed.uid true none fun uid => S.chown filename uid (-1)
    let gid ← applyOne parsed.gid true none fun gid => S.chown filename (-1) gid
    let mode ← applyOne parsed.mode true none fun mode => S.chmod filename mode
    let dmode ← applyOne parsed.dmode (kind = .directory) none fun mode => S.chmod filename mode
    let fmode ← applyOne parsed.fmode (kind = .regular) none fun mode => S.chmod filename mode
    let selabel ← applyOne parsed.selabel true (some eNotsup) fun label => S.lsetfilecon filename label.bytes
    let capabilities ← applyOne parsed.capabilities (kind = .regular) none fun caps => changeCapabilities S filename caps
    pure (uid + gid + mode + dmode + fmode + selabel + capabilities)

/-- `nftw` with `do_SetMetadataRecursive`. The flag is not looked at. -/
def walkLoop (parsed : PermParsedArgs) : List Visit → M σ ℤ
  | [] => pure 0
  | visit :: rest => do
    let bad ← applyParsedPerms S visit.path visit.kind parsed
    if bad ≠ 0 then pure bad else walkLoop parsed rest

def setMetadataName (recursive : Bool) : String := if recursive then "set_metadata_recursive" else "set_metadata"

/-- The change of one file or of all that `nftw` comes to. -/
def changeMetadata (recursive : Bool) (file : CString) (kind : FileKind) (parsed : PermParsedArgs) : M σ ℤ :=
  if recursive then do
    let files ← sys (S.walk file.bytes)
    match files with
    | none => pure (-1)
    | some files => walkLoop S parsed files
  else applyParsedPerms S file.bytes kind parsed

def setMetadataFn (recursive : Bool) (argv : List (Arg σ)) : M σ (Option Value) :=
  let name := setMetadataName recursive
  if argv.length % 2 ≠ 1 then errorAbort (expectsArgs name "an odd number of arguments" argv.length)
  else do
    let args ← readVarArgs argv
    match args with
    | none => pure none
    | some [] => fault
    | some (file :: rest) => do
      let stat ← sys (S.lstat file.bytes)
      match stat with
      | none => do
        -- the `NULL` that `ErrorAbort` returns is taken for no result
        let _ ← (errorAbort (lit name ++ lit ": Error on lstat of " ++ quoted file.bytes) : M σ (Option Value))
        pure (stringValue .empty)
      | some kind => do
        let parsed ← ofExcept (parsePermArgs ⟨none, none, none, none, none, none, none⟩ rest)
        let bad ← changeMetadata S recursive file kind parsed
        if bad > 0 then errorAbort (lit name ++ lit ": some changes failed") else pure (stringValue .empty)

/-! ### package_extract_dir and package_extract_file -/

def packageExtractDirFn (argv : List (Arg σ)) : M σ (Option Value) :=
  if argv.length ≠ 2 then errorAbort (expectsArgs "package_extract_dir" "2 args" argv.length)
  else do
    let args ← readArgs argv 2
    match args with
    | some [zipPath, destPath] => do
      let success ← sys (S.extractRecursive zipPath.bytes destPath.bytes)
      pure (boolValue success)
    | _ => pure none

def extractTo (zipPath destPath : CString) : M σ Bool := do
  let entry ← sys (S.findZipEntry zipPath.bytes)
  match entry with
  | none => pure false
  | some _ => do
    let opened ← sys (S.openForWrite destPath.bytes)
    if opened then sys (S.extractToFile zipPath.bytes destPath.bytes) else pure false

def extractBlob (zipPath : CString) : M σ (Option Bytes) := do
  let entry ← sys (S.findZipEntry zipPath.bytes)
  match entry with
  | none => pure none
  | some size => do
    let allocated ← sys (S.malloc size)
    if allocated then sys (S.extractToBuffer zipPath.bytes) else pure none

def packageExtractFileFn (argv : List (Arg σ)) : M σ (Option Value) :=
  if argv.length ≠ 1 ∧ argv.length ≠ 2 then errorAbort (expectsArgs "package_extract_file" "1 or 2 args" argv.length)
  else do
    let args ← readArgs argv argv.length
    match args with
    | some [zipPath, destPath] => do
      let success ← extractTo S zipPath destPath
      pure (boolValue success)
    | some [zipPath] => do
      let data ← extractBlob S zipPath
      pure (some (.blob data))
    | _ => pure none

/-! ### file_getprop -/

def lines (buffer : Bytes) : List Bytes := (buffer.splitOn 0x0a).filter (· ≠ [])

def trimStart (s : Bytes) : Bytes := s.dropWhile isspace

/-- White space is cut off the end, up to the first byte. -/
def trimEnd (s : Bytes) : Bytes := s.take 1 ++ ((s.drop 1).reverse.dropWhile isspace).reverse

/-- The loop over the lines: the value, or the line that is no definition. -/
def getProp (key : Bytes) : List Bytes → Except Bytes (Option Bytes)
  | [] => .ok none
  | line :: rest =>
    let line := trimStart line
    if line = [] ∨ line.head? = some 0x23 then getProp key rest
    else if 0x3d ∈ line then
      if strcmp key (trimEnd (line.takeWhile (· ≠ 0x3d))) ≠ 0 then getProp key rest
      else .ok (some (trimEnd (trimStart ((line.dropWhile (· ≠ 0x3d)).drop 1))))
    else .error line

def maxFileGetpropSize : ℤ := 65536

def searchProps (filename key : CString) (buffer : Bytes) : M σ (Option Value) :=
  match lines (Zip.cstr buffer) with
  -- the first line is used before it is looked at
  | [] => fault
  | first :: rest =>
    match getProp key.bytes (first :: rest) with
    | .ok value => pure (stringValue (.of (value.getD [])))
    | .error line =>
      errorAbort (lit "file_getprop: malformed line " ++ quoted line ++ lit ": " ++ filename.bytes ++ lit " not a prop file?")

def fileGetPropFn (argv : List (Arg σ)) : M σ (Option Value) := do
  let args ← readArgs argv 2
  match args with
  | some [filename, key] => do
    let stat ← sys (S.statSize filename.bytes)
    match stat with
    | none => errorAbort (lit "file_getprop: failed to stat " ++ quoted filename.bytes)
    | some size =>
      if size > maxFileGetpropSize then
        errorAbort (filename.bytes ++ lit " too large for file_getprop (max " ++ dec maxFileGetpropSize ++ lit ")")
      else do
        let allocated ← sys (S.malloc (size + 1))
        if allocated then do
          let opened ← sys (S.openForRead filename.bytes)
          if opened then do
            let buffer ← sys (S.readFile filename.bytes size.toNat)
            if (buffer.length : ℤ) ≠ size then
              errorAbort (lit "file_getprop: failed to read " ++ dec (size + 1) ++ lit " bytes from " ++ filename.bytes)
            else searchProps filename key buffer
          else errorAbort (lit "file_getprop: failed to open " ++ filename.bytes)
        else errorAbort (lit "file_getprop: failed to alloc " ++ dec (size + 1) ++ lit " bytes")
  | _ => pure none

/-! ### write_raw_image -/

def Value.data : Value → Option Bytes
  | .string s => some s.bytes
  | .blob data => data

def writeRawImageFn (argv : List (Arg σ)) : M σ (Option Value) := do
  let args ← readValueArgs argv 2
  match args with
  | some [contents, partitionValue] =>
    match partitionValue with
    | .blob _ => errorAbort (lit "partition argument to write_raw_image must be string")
    | .string partition =>
      if partition.bytes = [] then errorAbort (lit "partition argument to write_raw_image can't be empty")
      else if contents = .string .empty then errorAbort (lit "file argument to write_raw_image can't be empty")
      else do
        let restored ← sys (S.restoreRawPartition partition.bytes contents.data)
        pure (stringValue (if restored then partition else .empty))
  | _ => pure none

/-! ### apply_patch and apply_patch_check -/

/-- The file is in the table of files that are skipped. -/
def isBakfile (filename : CString) : M σ Bool := fun s =>
  .ok ((S.bakfiles s.cookie).any fun bak => Zip.strncmp filename.bytes bak Zip.pathMax = 0, s)

/-- The loop that checks the types of the patches: the patches, or the message. -/
def checkPatches : ℕ → List Value → Except Bytes (List (CString × Option Bytes))
  | _, [] => .ok []
  | _, [_] => .ok []
  | i, sha :: patch :: rest =>
    match sha, patch with
    | .blob _, _ => .error (lit "apply_patch(): sha-1 #" ++ dec i ++ lit " is not string")
    | .string _, .string _ => .error (lit "apply_patch(): patch #" ++ dec i ++ lit " is not blob")
    | .string s, .blob data =>
      match checkPatches (i + 1) rest with
      | .error msg => .error msg
      | .ok patches => .ok ((s, data) :: patches)

def applyPatches (source target sha1 : CString) (size : ℤ) (argv : List (Arg σ)) : M σ (Option Value) := do
  let patches ← readValueVarArgs argv
  match patches with
  | none => fault
  | some patches =>
    match checkPatches 0 patches with
    | .error msg => errorAbort msg
    | .ok patches => do
      let result ← sys (S.applypatch source.bytes target.bytes sha1.bytes size patches)
      pure (boolValue (result = 0))

def applyPatchFn (argv : List (Arg σ)) : M σ (Option Value) :=
  if argv.length < 6 ∨ argv.length % 2 = 1 then
    errorAbort (lit "apply_patch(): expected at least 6 args and an even number, got " ++ dec argv.length)
  else do
    let args ← readArgs argv 4
    match args with
    | some [source, target, sha1, sizeStr] => do
      let skipped ← isBakfile S source
      if skipped then do
        sys (S.print (lit "ui_print Skipping update of modified file " ++ source.bytes ++ [0x0a]))
        sys (S.print (lit "ui_print" ++ [0x0a]))
        pure (boolValue true)
      else
        let (size, endptr) := strtol sizeStr.bytes
        if size = 0 ∧ endptr = sizeStr.bytes then
          errorAbort (lit "apply_patch(): can't parse " ++ quoted sizeStr.bytes ++ lit " as byte count")
        else applyPatches S source target sha1 (u32 size) (argv.drop 4)
    | _ => pure none

/-- `ApplyPatchCheckFn` from the checksums on. -/
def checkSha1s (filename : CString) (argv : List (Arg σ)) : M σ (Option Value) := do
  let sha1s ← readVarArgs argv
  let result ← sys (S.applypatchCheck filename.bytes sha1s)
  match sha1s with
  | none => fault
  | some _ => fun s =>
    if result = -eNoent ∧ S.bakfiles s.cookie ≠ [] then
      (do
        sys (S.pushBakfile filename.bytes)
        pure (boolValue true) : M σ (Option Value)) s
    else (pure (boolValue (result = 0)) : M σ (Option Value)) s

def applyPatchCheckFn (argv : List (Arg σ)) : M σ (Option Value) :=
  if argv.length < 1 then errorAbort (lit "apply_patch_check(): expected at least 1 arg, got " ++ dec argv.length)
  else do
    let args ← readArgs argv 1
    match args with
    | some [filename] => do
      let skipped ← isBakfile S filename
      if skipped then pure (boolValue true) else checkSha1s S filename (argv.drop 1)
    | _ => pure none

/-! ### ui_print -/

def printLines : List Bytes → M σ Unit
  | [] => sys (S.print (lit "ui_print" ++ [0x0a]))
  | line :: rest => do
    sys (S.print (lit "ui_print " ++ line ++ [0x0a]))
    printLines rest

/-- What `strtok` leaves of the buffer: it ends behind its first line. -/
def cutAtLine (buffer : Bytes) : Bytes :=
  buffer.takeWhile (· = 0x0a) ++ (buffer.dropWhile (· = 0x0a)).takeWhile (· ≠ 0x0a)

def uiPrintFn (argv : List (Arg σ)) : M σ (Option Value) := do
  let args ← readVarArgs argv
  match args with
  | none => pure none
  | some args => do
    let buffer := (CString.join args).bytes
    printLines S (lines buffer)
    pure (stringValue (.of (cutAtLine buffer)))

/-! ### Names -/

inductive UpdaterFn
  | delete
  | deleteRecursive
  | symlink
  | setPerm
  | setPermRecursive
  | setMetadata
  | setMetadataRecursive
  | packageExtractDir
  | packageExtractFile
  | fileGetprop
  | writeRawImage
  | applyPatch
  | applyPatchCheck
  | uiPrint
  deriving DecidableEq

def UpdaterFn.name : UpdaterFn → String
  | .delete => "delete"
  | .deleteRecursive => "delete_recursive"
  | .symlink => "symlink"
  | .setPerm => "set_perm"
  | .setPermRecursive => "set_perm_recursive"
  | .setMetadata => "set_metadata"
  | .setMetadataRecursive => "set_metadata_recursive"
  | .packageExtractDir => "package_extract_dir"
  | .packageExtractFile => "package_extract_file"
  | .fileGetprop => "file_getprop"
  | .writeRawImage => "write_raw_image"
  | .applyPatch => "apply_patch"
  | .applyPatchCheck => "apply_patch_check"
  | .uiPrint => "ui_print"

def UpdaterFn.call (argv : List (Arg σ)) : UpdaterFn → M σ (Option Value)
  | .delete => deleteFn S false argv
  | .deleteRecursive => deleteFn S true argv
  | .symlink => symlinkFn S argv
  | .setPerm => setPermFn S false argv
  | .setPermRecursive => setPermFn S true argv
  | .setMetadata => setMetadataFn S false argv
  | .setMetadataRecursive => setMetadataFn S true argv
  | .packageExtractDir => packageExtractDirFn S argv
  | .packageExtractFile => packageExtractFileFn S argv
  | .fileGetprop => fileGetPropFn S argv
  | .writeRawImage => writeRawImageFn S argv
  | .applyPatch => applyPatchFn S argv
  | .applyPatchCheck => applyPatchCheckFn S argv
  | .uiPrint => uiPrintFn S argv

end Edify
end Recovery

/-
# Making room on the cache partition (freecache.c)

applypatch may delete regular files of `/cache` and `/cache/recovery/otatest`
that no process has open, but never its own saved copy.
-/
import Recovery.Patch.Load

namespace Recovery
namespace Patch

/-- The free bytes as a `size_t`, all ones if `statfs` fails. -/
def freeSpaceForFile (filename : Path) : Run ℕ := do
  let sf ← statfs filename
  match sf with
  | none => pure (2 ^ 32 - 1)
  | some (bsize, bfree) => pure (bsize * bfree % 2 ^ 32)

/-- What `FreeSpaceForFile` answers. -/
def Ev.reported (e : Ev) : ℕ := if e.fails then 2 ^ 32 - 1 else e.bsize * e.bfree % 2 ^ 32

/-- The files of one directory that may be deleted. -/
def expendableIn (dir : Path) : List Bytes → Run (List Path)
  | [] => pure []
  | name :: rest => do
    let path := dir ++ lit "/" ++ name
    if path = cacheTempSource then expendableIn dir rest
    else do
      let regular ← isRegular path
      let found ← expendableIn dir rest
      pure (if regular then path :: found else found)

/-- The open files of one process: every file behind one of its links leaves the list. -/
def eliminateLinks (path : Path) : List Bytes → List (Option Path) → Run (List (Option Path))
  | [], files => pure files
  | name :: rest, files => do
    let link ← readlink (path ++ name)
    match link with
    | none => eliminateLinks path rest files
    | some link =>
      eliminateLinks path rest
        (if (lit "/cache/").isPrefixOf link then files.map fun f => if f = some link then none else f else files)

def eliminateProcesses : List Bytes → List (Option Path) → Run (List (Option Path))
  | [], files => pure files
  | name :: rest, files =>
    if name.all fun c => 0x30 ≤ c ∧ c ≤ 0x39 then do
      let path := lit "/proc/" ++ name ++ lit "/fd/"
      let fds ← readdir path
      match fds with
      | none => eliminateProcesses rest files
      | some fds => do
        let files ← eliminateLinks path fds files
        eliminateProcesses rest files
    else eliminateProcesses rest files

/-- `EliminateOpenFiles`: `none` if `/proc` cannot be read. -/
def eliminateOpenFiles (files : List Path) : Run (Option (List (Option Path))) := do
  let procs ← readdir (lit "/proc")
  match procs with
  | none => pure none
  | some names => do
    let files ← eliminateProcesses names (files.map some)
    pure (some files)

/-- The files of the directories, one directory after the other. -/
def expendableDirs : List Path → Run (List Path)
  | [] => pure []
  | dir :: rest => do
    let names ← readdir dir
    let found ← expendableIn dir (names.getD [])
    let others ← expendableDirs rest
    pure (found ++ others)

def findExpendableFiles : Run (Option (List (Option Path))) := do
  let files ← expendableDirs [lit "/cache", lit "/cache/recovery/otatest"]
  eliminateOpenFiles files

/-- The loop that deletes files until there is room: the free space at its end. -/
def deleteUntil (bytesNeeded : ℕ) : List (Option Path) → ℕ → Run ℕ
  | [], freeNow => pure freeNow
  | none :: rest, freeNow => if freeNow < bytesNeeded then deleteUntil bytesNeeded rest freeNow else pure freeNow
  | some name :: rest, freeNow =>
    if freeNow < bytesNeeded then do
      let _ ← unlink name
      let freeNow ← freeSpaceForFile (lit "/cache")
      deleteUntil bytesNeeded rest freeNow
    else pure freeNow

def makeFreeSpaceOnCache (bytesNeeded : ℕ) : Run Bool := do
  let freeNow ← freeSpaceForFile (lit "/cache")
  if bytesNeeded ≤ freeNow then pure true
  else do
    let names ← findExpendableFiles
    match names with
    | none => pure false
    | some [] => pure false
    | some names => do
      let freeNow ← deleteUntil bytesNeeded names freeNow
      pure (bytesNeeded ≤ freeNow)

end Patch
end Recovery

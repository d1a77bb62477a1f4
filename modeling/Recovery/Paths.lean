/-
# Path names

What a directory entry may be called (`Name`), and the path of an entry as the code puts it
together (`childPath`).
-/
import Recovery.Text

namespace Recovery

abbrev slashChar : UInt8 := 0x2f

/-- The name of a directory entry. -/
structure Name where
  bytes : Bytes
  ne_nil : bytes ≠ []
  no_slash : slashChar ∉ bytes
  not_dot : bytes ≠ lit "."
  not_dots : bytes ≠ lit ".."
  no_nul : 0 ∉ bytes

/-- `snprintf(dn, PATH_MAX, "%s/%s", path, name)`. -/
def childPath (path name : Bytes) : Bytes := (path ++ slashChar :: name).take (Zip.pathMax - 1)

end Recovery

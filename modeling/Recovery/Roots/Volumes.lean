/-
# The volume table (roots.c)

The volumes of a device come from `/etc/recovery.fstab`. `fs_mgr` finds the entry
for a path, and what it finds is left open: every table and every lookup is
covered.
-/
import Recovery.Text

namespace Recovery
namespace Roots

/-- `Volume`. -/
structure Volume where
  mountPoint : CString
  fsType : CString
  blkDevice : CString
  blkDevice2 : Option CString
  /-- `fs_mgr_is_voldmanaged` -/
  voldmanaged : Bool
  deriving DecidableEq

/-- The table, and the entry that `fs_mgr_get_entry_for_mount_point` finds for a path. -/
structure Fstab where
  recs : List Volume
  entryFor : CString → Option Volume

variable (fstab : Fstab)

def volumeForPath (path : CString) : Option Volume := fstab.entryFor path

def isDataMediaLoop : List Volume → Bool → Bool
  | [], hasSdcard => ! hasSdcard
  | vol :: rest, hasSdcard =>
    if vol.fsType = str "datamedia" then true
    else isDataMediaLoop rest (hasSdcard || vol.mountPoint = str "/sdcard" ||
      (vol.voldmanaged && vol.mountPoint = str "/storage/sdcard0"))

def isDataMedia : Bool := isDataMediaLoop fstab.recs false

/-- Whether a string begins with another: `strstr` gives its start. -/
def startsWith (s start : CString) : Bool := start.bytes.isPrefixOf s.bytes

def isDataMediaVolumePath (path : CString) : Bool :=
  match volumeForPath fstab path with
  | some v => v.fsType = str "datamedia"
  | none => isDataMedia fstab && (path = str "/sdcard" || startsWith path (str "/sdcard/"))

end Roots
end Recovery

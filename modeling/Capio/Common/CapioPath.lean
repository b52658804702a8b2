import Capio.Common.StdPath

/-! The tests of `capio/filesystem.hpp` on paths. `capioDir` is the real path of
`CAPIO_DIR`. -/
namespace Capio

def isPrefix (path1 path2 : CString) : Bool :=
  let relpath := StdPath.lexicallyRelative path2 path1
  relpath ≠ [] && !StdPath.dotdot.isPrefixOf relpath

def isCapioPath (capioDir path : CString) : Bool := isPrefix capioDir path

/-- Relative paths are outside an absolute CAPIO directory. -/
theorem isCapioPath_relative {capioDir path : CString} (hdir : StdPath.isAbsolute capioDir = true)
    (hpath : StdPath.isAbsolute path = false) : isCapioPath capioDir path = false := by
  unfold isCapioPath isPrefix StdPath.lexicallyRelative
  rw [hdir, hpath, if_pos Bool.false_ne_true]
  rfl

theorem isAbsolute_of_isCapioPath {capioDir path : CString} (hdir : StdPath.isAbsolute capioDir = true)
    (hin : isCapioPath capioDir path = true) : StdPath.isAbsolute path = true := by
  by_contra hrel
  rw [isCapioPath_relative hdir (Bool.eq_false_iff.mpr hrel)] at hin
  cases hin

def isForbiddenPath (path : CString) : Bool :=
  capioDirForbiddenPaths.any (fun forbiddenPath => forbiddenPath.isPrefixOf path)

end Capio

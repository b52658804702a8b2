import Mathlib.Data.List.Basic

/-! Character strings and the constants of `constants.hpp` that the modelled
functions use. A C string or `std::string` is the list of its characters. -/
namespace Capio

abbrev CString := List Char

/-- Unsigned 64-bit file offsets. -/
def ullongMax : Nat := 0xffffffffffffffff

def capioReqMaxSize : Nat := 256
def capioReqBuffCnt : Nat := 512
/-- `PATH_MAX` of the Linux headers. -/
def pathMax : Nat := 4096

def capioDirForbiddenPaths : List CString := ["/proc/".toList, "/sys/".toList]

def capioFileModeNoUpdate : CString := "no_update".toList
def capioFileModeUpdate : CString := "update".toList
def capioFileCommittedOnClose : CString := "on_close".toList
def capioFileCommittedOnFile : CString := "on_file".toList
def capioFileCommittedOnTermination : CString := "on_termination".toList
def capioDefaultAppName : CString := "default_app".toList
def shmFirstElem : CString := "_first_elem_".toList
def shmLastElem : CString := "_last_elem_".toList
def shmMutexPrefix : CString := "_mutex_".toList
def shmSemElems : CString := "_sem_num_elems_".toList
def shmSemEmpty : CString := "_sem_num_empty_".toList
def shmCommChanNameResp : CString := "response_buffer_".toList

end Capio

import Mathlib.Logic.Basic

/-! # Return codes

The library reports failures as negated error numbers. Its own numbers start at
`ERRNO_COMMON`; the others are the host's. A call that fails one of its
`os_assert` checks aborts the process, so it is told apart from a call that
returns the code.
-/

namespace Trunk

/-- `ERRNO_COMMON`, the first of the library's own error numbers. -/
def errnoCommon : Int := 1000

def EINVAL0 : Int := errnoCommon
def EINVAL1 : Int := errnoCommon + 1
def EINVAL2 : Int := errnoCommon + 2
def EINVAL3 : Int := errnoCommon + 3
def EINVAL4 : Int := errnoCommon + 4
def EINVAL5 : Int := errnoCommon + 5
def EINVAL9 : Int := errnoCommon + 9
def ENOEXIST : Int := errnoCommon + 10
def EKEYNULL : Int := errnoCommon + 11
def EKEYBAD : Int := errnoCommon + 12
def EFORMAT : Int := errnoCommon + 15
def ETOOBIG : Int := errnoCommon + 16
def ELIMIT : Int := errnoCommon + 17
def EINLIST : Int := errnoCommon + 18
def EBADCRC : Int := errnoCommon + 19
def ENOSUPPORT : Int := errnoCommon + 21
def ENOEMPTY : Int := errnoCommon + 23

def ENOMEM : Int := 12
def EEXIST : Int := 17
def EINVAL : Int := 22
def ESPIPE : Int := 29

/-- What a library call ends with: a return code, or the failure of an
`os_assert` on the way to returning that code. -/
inductive Ret where
  | code (value : Int)
  | assert (value : Int)
  deriving DecidableEq, Repr

/-- The call returned zero. -/
def Ret.Ok (ret : Ret) : Prop := ret = .code 0

instance (ret : Ret) : Decidable ret.Ok := inferInstanceAs (Decidable (ret = .code 0))

end Trunk

/-!
# Error numbers

The values of `lib/errno.h` that the modelled functions return.  A system call
returns a negative error or a result that is not negative.
-/

namespace Unixlite

def EPERM : Int := -1
def ENOENT : Int := -2
def ESRCH : Int := -3
def EINTR : Int := -4
def EIO : Int := -5
def E2BIG : Int := -7
def ENOEXEC : Int := -8
def EBADF : Int := -9
def ECHILD : Int := -10
def ENOMEM : Int := -12
def EACCES : Int := -13
def EFAULT : Int := -14
def EBUSY : Int := -16
def EEXIST : Int := -17
def EXDEV : Int := -18
def ENODEV : Int := -19
def ENOTDIR : Int := -20
def EISDIR : Int := -21
def EINVAL : Int := -22
def ENFILE : Int := -23
def EMFILE : Int := -24
def ENOSPC : Int := -28
def EMLINK : Int := -31
def EPIPE : Int := -32
def ERANGE : Int := -34
def ENAMETOOLONG : Int := -36
def ENOSYS : Int := -38
def ENOTEMPTY : Int := -39
def EADDRINUSE : Int := -98
def ENETUNREACH : Int := -101
def ENOTCONN : Int := -107

end Unixlite

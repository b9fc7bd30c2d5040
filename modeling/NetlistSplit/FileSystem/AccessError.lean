/-!
# Why a file or directory cannot be used

The operating system answers a failed call with a number.  This file names the
numbers that the splitter meets, holds the wording of all of them, and adds the
failures that the system knows nothing about.
-/

namespace NetlistSplit

/-- An error number of the operating system. -/
structure SystemError where
  code : Int
  deriving DecidableEq, Repr

namespace SystemError

/-! ## The numbers that the splitter meets -/

def noSuchEntry : SystemError := ⟨2⟩
def entryExists : SystemError := ⟨17⟩
def notDirectory : SystemError := ⟨20⟩
def isDirectory : SystemError := ⟨21⟩
def invalidArgument : SystemError := ⟨22⟩
def nameTooLong : SystemError := ⟨36⟩
def directoryNotEmpty : SystemError := ⟨39⟩
def tooManyLinks : SystemError := ⟨40⟩

/-! ## Their wording -/

/-- The wording of the numbers from 0 on. -/
def descriptions : List String :=
  ["Success", "Operation not permitted", "No such file or directory", "No such process",
    "Interrupted system call", "Input/output error", "No such device or address",
    "Argument list too long", "Exec format error", "Bad file descriptor", "No child processes",
    "Resource temporarily unavailable", "Cannot allocate memory", "Permission denied",
    "Bad address", "Block device required", "Device or resource busy", "File exists",
    "Invalid cross-device link", "No such device", "Not a directory", "Is a directory",
    "Invalid argument", "Too many open files in system", "Too many open files",
    "Inappropriate ioctl for device", "Text file busy", "File too large", "No space left on device",
    "Illegal seek", "Read-only file system", "Too many links", "Broken pipe",
    "Numerical argument out of domain", "Numerical result out of range",
    "Resource deadlock avoided", "File name too long", "No locks available",
    "Function not implemented", "Directory not empty", "Too many levels of symbolic links",
    "Unknown error 41", "No message of desired type", "Identifier removed",
    "Channel number out of range", "Level 2 not synchronized", "Level 3 halted", "Level 3 reset",
    "Link number out of range", "Protocol driver not attached", "No CSI structure available",
    "Level 2 halted", "Invalid exchange", "Invalid request descriptor", "Exchange full", "No anode",
    "Invalid request code", "Invalid slot", "Unknown error 58", "Bad font file format",
    "Device not a stream", "No data available", "Timer expired", "Out of streams resources",
    "Machine is not on the network", "Package not installed", "Object is remote",
    "Link has been severed", "Advertise error", "Srmount error", "Communication error on send",
    "Protocol error", "Multihop attempted", "RFS specific error", "Bad message",
    "Value too large for defined data type", "Name not unique on network",
    "File descriptor in bad state", "Remote address changed",
    "Can not access a needed shared library", "Accessing a corrupted shared library",
    ".lib section in a.out corrupted", "Attempting to link in too many shared libraries",
    "Cannot exec a shared library directly", "Invalid or incomplete multibyte or wide character",
    "Interrupted system call should be restarted", "Streams pipe error", "Too many users",
    "Socket operation on non-socket", "Destination address required", "Message too long",
    "Protocol wrong type for socket", "Protocol not available", "Protocol not supported",
    "Socket type not supported", "Operation not supported", "Protocol family not supported",
    "Address family not supported by protocol", "Address already in use",
    "Cannot assign requested address", "Network is down", "Network is unreachable",
    "Network dropped connection on reset", "Software caused connection abort",
    "Connection reset by peer", "No buffer space available",
    "Transport endpoint is already connected", "Transport endpoint is not connected",
    "Cannot send after transport endpoint shutdown", "Too many references: cannot splice",
    "Connection timed out", "Connection refused", "Host is down", "No route to host",
    "Operation already in progress", "Operation now in progress", "Stale file handle",
    "Structure needs cleaning", "Not a XENIX named type file", "No XENIX semaphores available",
    "Is a named type file", "Remote I/O error", "Disk quota exceeded", "No medium found",
    "Wrong medium type", "Operation canceled", "Required key not available", "Key has expired",
    "Key has been revoked", "Key was rejected by service", "Owner died", "State not recoverable",
    "Operation not possible due to RF-kill", "Memory page has hardware error"]

/-- The wording of one number. -/
def description (e : SystemError) : String :=
  match e.code with
  | .ofNat code => descriptions[code]?.getD s!"Unknown error {code}"
  | .negSucc code => s!"Unknown error -{code + 1}"

/-- The wording together with the number. -/
def message (e : SystemError) : String :=
  s!"{e.description} (os error {e.code})"

end SystemError

/-- The reason why a file or directory cannot be used. -/
inductive AccessError where
  /-- The operating system refuses. -/
  | system (e : SystemError)
  /-- The path holds a NUL character, which no name can hold. -/
  | nulInPath
  /-- The file was read, but is not UTF-8. -/
  | notUtf8
  /-- A reason given in words. -/
  | other (reason : String)
  deriving DecidableEq, Repr

/-- The message for the user. -/
def AccessError.message : AccessError → String
  | system e => e.message
  | nulInPath => "file name contained an unexpected NUL byte"
  | notUtf8 => "stream did not contain valid UTF-8"
  | other reason => reason

end NetlistSplit

import RdmaPaging.UmmCore

/-!
The system calls of the sandboxed application, `trap.c` of the sandbox. A call first has its
pointers checked, then goes to the monitor, and is then emulated or handed to the host.
-/

namespace RdmaPaging

abbrev Word := BitVec 64

/-- The number, or the result, and the arguments of a system call. -/
structure DuneTf where
  rax : Word
  rdi : Word
  rsi : Word
  rdx : Word
  rcx : Word
  r8 : Word

abbrev AppMem := VirtAddr → BitVec 8

/-- A number of `bytes` bytes, the lowest first. -/
def AppMem.load (mem : AppMem) : Nat → VirtAddr → Nat
  | 0, _ => 0
  | bytes + 1, ptr => (mem ptr).toNat + 2 ^ 8 * mem.load bytes (ptr + 1)

/-- The calls that the sandbox knows by name. -/
inductive Syscall
  | read | write | «open» | close | stat | fstat | lstat | lseek | mmap | mprotect | munmap | brk
  | rtSigaction | rtSigprocmask | rtSigreturn | ioctl | readv | writev | access | mremap | shmat
  | dup2 | getpid | sendfile | socket | connect | accept | shutdown | bind | listen | setsockopt
  | clone | execve | exit | uname | fcntl | getdents | getcwd | unlink | getrlimit | getuid
  | getgid | setuid | setgid | setgroups | rtSigpending | rtSigtimedwait | rtSigqueueinfo
  | rtSigsuspend | sigaltstack | statfs | archPrctl | time | epollCreate | exitGroup | epollWait
  | epollCtl | openat | signalfd | signalfd4
  | other
  deriving DecidableEq

def Syscall.ofNumber : Nat → Syscall
  | 0 => read
  | 1 => write
  | 2 => «open»
  | 3 => close
  | 4 => stat
  | 5 => fstat
  | 6 => lstat
  | 8 => lseek
  | 9 => mmap
  | 10 => mprotect
  | 11 => munmap
  | 12 => brk
  | 13 => rtSigaction
  | 14 => rtSigprocmask
  | 15 => rtSigreturn
  | 16 => ioctl
  | 19 => readv
  | 20 => writev
  | 21 => access
  | 25 => mremap
  | 30 => shmat
  | 33 => dup2
  | 39 => getpid
  | 40 => sendfile
  | 41 => socket
  | 42 => connect
  | 43 => accept
  | 48 => shutdown
  | 49 => bind
  | 50 => listen
  | 54 => setsockopt
  | 56 => clone
  | 59 => execve
  | 60 => exit
  | 63 => uname
  | 72 => fcntl
  | 78 => getdents
  | 79 => getcwd
  | 87 => unlink
  | 97 => getrlimit
  | 102 => getuid
  | 104 => getgid
  | 105 => setuid
  | 106 => setgid
  | 116 => setgroups
  | 127 => rtSigpending
  | 128 => rtSigtimedwait
  | 129 => rtSigqueueinfo
  | 130 => rtSigsuspend
  | 131 => sigaltstack
  | 137 => statfs
  | 158 => archPrctl
  | 201 => time
  | 213 => epollCreate
  | 231 => exitGroup
  | 232 => epollWait
  | 233 => epollCtl
  | 257 => openat
  | 282 => signalfd
  | 289 => signalfd4
  | _ => other

def DuneTf.call (tf : DuneTf) : Syscall := Syscall.ofNumber tf.rax.toNat

def negEperm : Word := -1#64
def negEfault : Word := -14#64

def archSetFs : Word := 0x1002#64
def archGetFs : Word := 0x1003#64

/-! The checks of a pointer. They return whether the application may pass it. -/

def checkExtent (ptr : VirtAddr) (len : Size) : Bool := memRefIsSafe ptr len

/-- `memchr(ptr, 0, maxlen)` finds a byte. -/
def endsWithin (mem : AppMem) (ptr : VirtAddr) (maxlen : Nat) : Bool :=
  decide (∃ offset < maxlen, mem (ptr + BitVec.ofNat 64 offset) = 0)

def checkString (mem : AppMem) (ptr : VirtAddr) : Bool :=
  if ptr < appMaxElfVaddr then endsWithin mem ptr (appMaxElfVaddr - ptr).toNat
  else if ummAddrStart ≤ ptr then
    if ummAddrEnd ≤ ptr then false else endsWithin mem ptr (ummAddrEnd - ptr).toNat
  else false

def checkIovecLoop (mem : AppMem) : Nat → VirtAddr → Bool
  | 0, _ => true
  | num + 1, iov =>
      if checkExtent (BitVec.ofNat 64 (mem.load 8 iov)) (BitVec.ofNat 64 (mem.load 8 (iov + 8))) then
        checkIovecLoop mem num (iov + 16)
      else false

/-- `check_iovec`. The `int` counter is widened with its sign for the extent, and counted
down to zero. -/
def checkIovec (mem : AppMem) (iov : VirtAddr) (num : BitVec 32) : Bool :=
  if checkExtent iov (16 * num.signExtend 64) then checkIovecLoop mem num.toNat iov else false

/-- The locals of `syscall_check_params` after its switch. -/
structure Params where
  ptr : VirtAddr := 0
  len : Size := 0
  str : VirtAddr := 0
  err : Word := 0

inductive ParamsResult
  | checked (params : Params)
  | returned (rax : Word)
  | aborted

/-- The switch of `syscall_check_params`, with the sizes of the x86-64 structures. -/
def syscallParams (mem : AppMem) (tf : DuneTf) : Syscall → ParamsResult
  | .uname => .checked { ptr := tf.rdi, len := 390 }
  | .archPrctl => .checked (if tf.rdi = archGetFs then { ptr := tf.rsi, len := 8 } else {})
  | .access | .open | .unlink => .checked { str := tf.rdi }
  | .openat => .checked { str := tf.rsi }
  | .getdents | .read | .write | .connect | .bind => .checked { ptr := tf.rsi, len := tf.rdx }
  | .writev | .readv =>
      .checked { err := if checkIovec mem tf.rsi (tf.rdx.setWidth 32) then 0 else negEfault }
  | .stat | .lstat => .checked { str := tf.rdi, ptr := tf.rsi, len := 144 }
  | .fstat => .checked { ptr := tf.rsi, len := 144 }
  | .statfs => .checked { str := tf.rdi, ptr := tf.rsi, len := 120 }
  | .time => .checked { ptr := tf.rdi, len := 8 }
  | .epollCtl => .checked { ptr := tf.rcx, len := 12 }
  | .epollWait => .checked { ptr := tf.rsi, len := tf.rdx * 12 }
  | .setsockopt => .checked { ptr := tf.rcx, len := tf.r8 }
  | .accept =>
      if tf.rdx = 0 then .checked {}
      else if ¬ checkExtent tf.rdx 4 then .checked { err := negEfault }
      else if tf.rsi = 0 then .aborted
      else .checked { ptr := tf.rsi, len := BitVec.ofNat 64 (mem.load 4 tf.rdx) }
  | .fcntl =>
      match tf.rsi.toNat with
      | 0 | 1 | 2 | 3 | 4 | 8 | 9 | 1030 => .checked {}
      | 5 | 6 | 7 => .checked { ptr := tf.rdx, len := 32 }
      | _ => .checked { err := negEfault }
  | .ioctl =>
      .checked (if (tf.rsi >>> 30) &&& 3 ≠ 0 then { ptr := tf.rdx, len := (tf.rsi >>> 16) &&& 0x3fff }
        else {})
  | .setgroups => .checked { ptr := tf.rsi, len := 4 * tf.rdi }
  | .rtSigaction =>
      if tf.rdx ≠ 0 ∧ ¬ checkExtent tf.rdx 152 then .returned negEfault
      else .checked { ptr := tf.rsi, len := 152 }
  | .sigaltstack | .signalfd | .signalfd4 => .checked { ptr := tf.rsi, len := 128 }
  | .rtSigpending | .rtSigsuspend => .checked { ptr := tf.rdi, len := 128 }
  | .rtSigprocmask =>
      if tf.rdx ≠ 0 ∧ ¬ checkExtent tf.rdx 128 then .returned negEfault
      else .checked (if tf.rsi ≠ 0 then { ptr := tf.rsi, len := 128 } else {})
  | .rtSigqueueinfo => .checked { ptr := tf.rsi, len := 128 }
  | .rtSigtimedwait =>
      if ¬ checkExtent tf.rdi 128 ∨ ¬ checkExtent tf.rsi 128 then .returned negEfault
      else if tf.rdx ≠ 0 ∧ ¬ checkExtent tf.rdx 16 then .returned negEfault
      else .checked {}
  | .getcwd => .checked { ptr := tf.rdi, len := tf.rsi }
  | .getrlimit => .checked { ptr := tf.rsi, len := 16 }
  | .sendfile => .checked { ptr := tf.rdx, len := 8 }
  | .close => if tf.rdi < 3 then .returned 0 else .checked {}
  | .execve => .checked { err := if checkString mem tf.rdi then 0 else negEfault }
  | _ => .checked {}

/-- The checks of `syscall_check_params` after its switch: the error. -/
def paramsError (mem : AppMem) (params : Params) : Word :=
  let err := if params.ptr ≠ 0 ∧ params.len ≠ 0 ∧ ¬ checkExtent params.ptr params.len then negEfault
    else params.err
  if params.str ≠ 0 ∧ ¬ checkString mem params.str then negEfault else err

inductive CheckResult
  | passed
  | refused (tf : DuneTf)
  | aborted

def syscallCheckParams (mem : AppMem) (tf : DuneTf) : CheckResult :=
  match syscallParams mem tf tf.call with
  | .aborted => .aborted
  | .returned rax => .refused { tf with rax := rax }
  | .checked params =>
      if paramsError mem params ≠ 0 then .refused { tf with rax := paramsError mem params }
      else .passed

/-- A monitor returns whether the call is allowed, and may change the frame. -/
abbrev SyscallMonitor := AppMem → DuneTf → Bool × DuneTf

def syscallAllow (monitor : Option SyscallMonitor) (mem : AppMem) (tf : DuneTf) : Bool × DuneTf :=
  match monitor with
  | none => (false, { tf with rax := negEperm })
  | some monitor => monitor mem tf

/-- What becomes of a call. A call that the sandbox emulates never reaches the host as it is. -/
inductive Handled
  | refused (tf : DuneTf)
  | emulated (tf : DuneTf)
  | passedThrough (tf : DuneTf)
  | aborted

/-- The cases of `syscall_do_foreal`. -/
def syscallDo (tf : DuneTf) : Handled :=
  match tf.call with
  | .archPrctl | .brk | .mmap | .mprotect | .munmap | .mremap | .shmat | .clone | .execve
  | .rtSigaction | .rtSigprocmask | .sigaltstack | .signalfd | .signalfd4 | .rtSigpending
  | .rtSigreturn | .rtSigsuspend | .rtSigqueueinfo | .rtSigtimedwait | .exitGroup | .exit =>
      .emulated tf
  | _ => .passedThrough tf

def syscallHandler (monitor : Option SyscallMonitor) (mem : AppMem) (tf : DuneTf) : Handled :=
  match syscallCheckParams mem tf with
  | .aborted => .aborted
  | .refused tf => .refused tf
  | .passed =>
      match syscallAllow monitor mem tf with
      | (false, tf) => .refused tf
      | (true, tf) => syscallDo tf

end RdmaPaging

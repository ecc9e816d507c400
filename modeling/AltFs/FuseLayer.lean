import AltFs.InterfaceLayer

/-!
# The FUSE callbacks

`fuse_layer.c`: the operations registered with FUSE and what they hand on to
the interface layer.  `fuse_main` calls them one at a time; the logging and the
arguments that no callback looks at (`uid`, `gid`, times, `dev`) are left out.
-/

namespace AltFs

open Prog

/-- The callbacks of `my_ops`, with the arguments they use. -/
inductive Request
  | access (path : CString)
  | chown (path : CString)
  | chmod (path : CString) (mode : UInt32)
  | create (path : CString) (mode : UInt32) (flags : Int64)
  | getattr (path : CString)
  | openFile (path : CString) (flags : Int64)
  | read (path : CString) (size : Nat) (offset : Int64)
  | readdir (path : CString)
  | rmdir (path : CString)
  | mkdir (path : CString) (mode : UInt32)
  | mknod (path : CString) (mode : UInt32)
  | utimens (path : CString)
  | truncate (path : CString) (offset : Int64)
  | unlink (path : CString)
  | write (path : CString) (buff : List UInt8) (offset : Int64)
  | rename (fromPath toPath : CString)

/-- What a callback returns, with its output parameters. -/
inductive Reply
  | status (code : Int)
  | attr (code : Int) (st : Stat)
  | data (code : Int) (buff : List UInt8)
  | entries (code : Int) (items : List DirItem)

/-- A `ssize_t` returned as an `int`. -/
def asInt (result : Int) : Int := result.bmod (2 ^ 32)

/-- A `bool` of the interface layer as a return code. -/
def statusOf (done : Bool) : Reply := .status (if !done then -1 else 0)

variable [Config]

def myAccess (path : CString) : Fs Reply := do
  pure (.status (asInt (← altfsAccess path)))

def myChown : Fs Reply := pure (.status 0)

def myChmod (path : CString) (mode : UInt32) : Fs Reply := do
  pure (.status (asInt (← altfsChmod path mode)))

def myCreate (path : CString) (mode : UInt32) (flags : Int64) : Fs Reply := do
  let mode := if hasFlag flags oCreat then mode else 0x1FD
  pure (statusOf (← altfsMknod path (sIfreg ||| mode)))

def myGetattr (path : CString) : Fs Reply := do
  let (code, st) ← altfsGetattr path
  pure (.attr (asInt code) st)

def myOpen (path : CString) (flags : Int64) : Fs Reply := do
  let inum ← altfsOpen path flags
  pure (.status (if inum ≤ -1 then asInt inum else 0))

def myRead (path : CString) (size : Nat) (offset : Int64) : Fs Reply := do
  let (nbytes, buff) ← altfsRead path size offset
  pure (.data (asInt nbytes) buff)

def myReaddir (path : CString) : Fs Reply := do
  let (code, items) ← altfsReaddir path
  pure (.entries (asInt code) items)

def myRmdir (path : CString) : Fs Reply := do
  pure (.status (asInt (← altfsUnlink path)))

def myMkdir (path : CString) (mode : UInt32) : Fs Reply := do
  pure (statusOf (← altfsMkdir path mode))

def myMknod (path : CString) (mode : UInt32) : Fs Reply := do
  pure (statusOf (← altfsMknod path mode))

def myUtimens : Fs Reply := pure (.status 0)

def myTruncate (path : CString) (offset : Int64) : Fs Reply := do
  pure (.status (asInt (← altfsTruncate path offset)))

def myUnlink (path : CString) : Fs Reply := do
  pure (.status (asInt (← altfsUnlink path)))

def myWrite (path : CString) (buff : List UInt8) (offset : Int64) : Fs Reply := do
  pure (.status (asInt (← altfsWrite path buff offset)))

def myRename (fromPath toPath : CString) : Fs Reply := do
  pure (.status (asInt (← altfsRename fromPath toPath)))

def myDestroy : Fs Unit := altfsDestroy

/-- The table `my_ops`. -/
def Request.serve : Request → Fs Reply
  | access path => myAccess path
  | chown _ => myChown
  | chmod path mode => myChmod path mode
  | create path mode flags => myCreate path mode flags
  | getattr path => myGetattr path
  | openFile path flags => myOpen path flags
  | read path size offset => myRead path size offset
  | readdir path => myReaddir path
  | rmdir path => myRmdir path
  | mkdir path mode => myMkdir path mode
  | mknod path mode => myMknod path mode
  | utimens _ => myUtimens
  | truncate path offset => myTruncate path offset
  | unlink path => myUnlink path
  | write path buff offset => myWrite path buff offset
  | rename fromPath toPath => myRename fromPath toPath

def serveAll : List Request → Fs (List Reply)
  | [] => pure []
  | request :: requests => do
      let reply ← request.serve
      let replies ← serveAll requests
      pure (reply :: replies)

/-- `main` with the requests of one mount. -/
def fuseMain (requests : List Request) : Fs (Option (List Reply)) := do
  if !(← altfsInit) then pure none else do
  let replies ← serveAll requests
  myDestroy
  pure (some replies)

end AltFs

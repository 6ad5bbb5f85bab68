import Xv6.FsSystem

/-!
# The file system calls

The functions of fs.c, file.c, pipe.c, sysfile.c, exec.c and proc.c that work on inodes,
open files and current directories, as programs of operations. A pointer that may be zero
is an option. A string argument that cannot be fetched is `none`.
-/
namespace Xv6.FsCalls

open FsImage Directory FsSystem
open Interleave (Prog perform)

abbrev P := Prog Op Resp

def ino (o : InoOp) : P (InoResp o) := perform (Op.ino o)
def file (o : FileOp) : P (FileResp o) := perform (Op.file o)
def proc (o : ProcOp) : P (ProcResp o) := perform (Op.proc o)
def beginOp : P Unit := perform Op.beginOp
def endOp : P Unit := perform Op.endOp
def choose : P Nat := perform Op.choose
def kpanic {α : Type} (msg : String) : P α := .op (.panic msg) fun x => nomatch x

/-! ## fs.c -/

def ilock (ip : Entry) : P Unit := do
  ino (.checkRef ip)
  ino (.acquire ip)
  ino (.load ip)

def iunlock (ip : Entry) : P Unit := ino (.iunlock ip)

def iput (ip : Entry) : P Unit := do
  ino (.acquire ip)
  if ← ino (.lastLink ip) then ino (.ifree ip)
  ino (.release ip)
  ino (.unref ip)

def iunlockput (ip : Entry) : P Unit := do
  iunlock ip
  iput ip

/-- The loop of `ialloc`, from inode number `i` on. -/
def iallocFrom (type : Int16) : Nat → Nat → P Entry
  | 0, _ => kpanic "ialloc: no inodes"
  | fuel + 1, i => do
    if ← ino (.iallocAt type i) then ino (.iget .ialloc i) else iallocFrom type fuel (i + 1)

def ialloc (sb : Superblock) (type : Int16) : P Entry := iallocFrom type (sb.ninodes - 1) 1

def dirlookup (site : Site) (dp : Entry) (name : Name) : P (Option (Entry × Nat)) := do
  match ← ino (.dirlookup dp name) with
  | none => pure none
  | some (inum, off) =>
    let ip ← ino (.iget site inum)
    pure (some (ip, off))

/-- What a read puts into the caller's buffer: the bytes of a file, or so many bytes of a pipe
or of the console. -/
inductive Input where
  | bytes : (l : List UInt8) → Input
  | count : (k : Nat) → Input

def Input.length : Input → Nat
  | .bytes l => l.length
  | .count k => k

/-- A read of a pipe or of the console, which fails or gives some bytes. -/
def stream : P (Option Input) := do
  if (← choose) = 0 then pure none else pure (some (.count (← choose)))

/-- `readi`, for devices `consoleread`, which gives up the lock meanwhile. -/
def readi (ip : Entry) (off n : UInt32) : P (Option Input) := do
  let node ← ino (.inode ip)
  if node.type = tDev then
    if node.major = 1 then do
      iunlock ip
      ilock ip
      stream
    else pure none
  else do
    let r ← ino (.readi ip off n)
    pure (r.map .bytes)

/-- `writei`, for devices `consolewrite`. -/
def writei (ip : Entry) (src : Bytes.Buf) (off n : UInt32) : P (Option UInt32) := do
  let node ← ino (.inode ip)
  if node.type = tDev then
    if node.major = 1 then do
      iunlock ip
      ilock ip
      pure (some n)
    else pure none
  else ino (.writei ip src off n)

def dirlink (dp : Entry) (name : Name) (inum : Nat) : P Int := do
  match ← dirlookup .dirlink dp name with
  | some (ip, _) => do
    iput ip
    pure (-1)
  | none => do
    let off ← ino (.emptySlot dp)
    let r ← ino (.dirent dp off ⟨UInt16.ofNat inum, name⟩)
    if r ≠ some 16 then kpanic "dirlink" else pure 0

/-- The loop of `namex` over the elements of the path; `parent` is `nameiparent`. -/
def namexFrom (parent : Bool) : List Name → Name → Entry → P (Option (Entry × Name))
  | [], name, ip =>
    if parent then do
      iput ip
      pure none
    else pure (some (ip, name))
  | name :: rest, _, ip => do
    ilock ip
    if (← ino (.inode ip)).type ≠ tDir then do
      iunlockput ip
      pure none
    else if parent && rest.isEmpty then do
      iunlock ip
      pure (some (ip, name))
    else do
      match ← dirlookup .namex ip name with
      | none => do
        iunlockput ip
        pure none
      | some (next, _) => do
        iunlockput ip
        namexFrom parent rest name next

/-- `idup(myproc()->cwd)`. -/
def idupCwd : P Entry := do
  match ← proc .cwd with
  | some ip => do
    ino (.idup ip)
    pure ip
  | none => kpanic "no current directory"

def namex (path : Path) (parent : Bool) : P (Option (Entry × Name)) := do
  let ip ← if path.head? = some slash then ino (.iget .namex 1) else idupCwd
  namexFrom parent (elems path) [] ip

def namei (path : Path) : P (Option Entry) := do
  match ← namex path false with
  | some (ip, _) => pure (some ip)
  | none => pure none

def nameiparent (path : Path) : P (Option (Entry × Name)) := namex path true

/-! ## file.c and pipe.c -/

def fileclose (f : File) : P Unit := do
  match ← file (.filedrop f) with
  | none => pure ()
  | some ff =>
    match ff.type with
    | .none => pure ()
    | .pipe p => file (.pipeclose p ff.writable)
    | .inode ip => do
      beginOp
      iput ip
      endOp

def filestat (f : File) : P Int := do
  match (← file (.file f)).type with
  | .inode ip => do
    ilock ip
    discard (ino (.inode ip))
    iunlock ip
    pure 0
  | _ => pure (-1)

def fileread (f : File) (n : UInt32) : P (Option Input) := do
  let ff ← file (.file f)
  if !ff.readable then pure none
  else match ff.type with
    | .pipe _ => stream
    | .inode ip => do
      ilock ip
      let off := (← file (.file f)).off
      let r ← readi ip off n
      match r with
      | some l => if 0 < l.length then file (.setOff f (off + UInt32.ofNat l.length)) else pure ()
      | none => pure ()
      iunlock ip
      pure r
    | .none => kpanic "fileread"

/-- The loop of `filewrite`, with `i` bytes written; a chunk has at most 1536 bytes. -/
def filewriteFrom (f : File) (ip : Entry) (src : Bytes.Buf) (n : Nat) : Nat → Nat → P Int
  | 0, _ => pure (-1)
  | fuel + 1, i =>
    if i < n then do
      let n1 := min (n - i) 1536
      beginOp
      ilock ip
      let off := (← file (.file f)).off
      let r ← writei ip (fun k => src (i + k)) off (UInt32.ofNat n1)
      match r with
      | some k => if 0 < k then file (.setOff f (off + k)) else pure ()
      | none => pure ()
      iunlock ip
      endOp
      match r with
      | none => pure (-1)
      | some k =>
        if k ≠ UInt32.ofNat n1 then kpanic "short filewrite"
        else filewriteFrom f ip src n fuel (i + n1)
    else pure n

def filewrite (f : File) (src : Bytes.Buf) (n : Nat) : P Int := do
  let ff ← file (.file f)
  if !ff.writable then pure (-1)
  else match ff.type with
    | .pipe _ => do pure (← choose)
    | .inode ip => filewriteFrom f ip src n (n / 1536 + 2) 0
    | .none => kpanic "filewrite"

/-- `pipealloc`: the files for the two ends. -/
def pipealloc : P (Option (File × File)) := do
  match ← file .filealloc with
  | none => pure none
  | some f0 => do
    match ← file .filealloc with
    | none => do
      fileclose f0
      pure none
    | some f1 => do
      if ← file (.pipeInit f0 f1) then pure (some (f0, f1))
      else do
        fileclose f0
        fileclose f1
        pure none

/-! ## sysfile.c -/

def sysDup (fd : Fd) : P Int := do
  match ← proc (.ofile fd) with
  | none => pure (-1)
  | some f => do
    match ← proc (.fdalloc f) with
    | none => pure (-1)
    | some fd' => do
      file (.filedup f)
      pure fd'.val

def sysRead (fd : Fd) (n : UInt32) : P (Option Input) := do
  match ← proc (.ofile fd) with
  | none => pure none
  | some f => fileread f n

def sysWrite (fd : Fd) (src : Bytes.Buf) (n : Nat) : P Int := do
  match ← proc (.ofile fd) with
  | none => pure (-1)
  | some f => filewrite f src n

def sysClose (fd : Fd) : P Int := do
  match ← proc (.ofile fd) with
  | none => pure (-1)
  | some f => do
    discard (proc (.clearFd fd))
    fileclose f
    pure 0

def sysFstat (fd : Fd) : P Int := do
  match ← proc (.ofile fd) with
  | none => pure (-1)
  | some f => filestat f

/-- The exit `bad:` of `sys_link`. -/
def linkBad (ip : Entry) : P Int := do
  ilock ip
  ino (.addLink ip (-1))
  ino (.iupdate ip)
  iunlockput ip
  endOp
  pure (-1)

/-- `sys_link` once it has the directory for the new name. -/
def linkInto (ip dp : Entry) (name : Name) : P Int := do
  ilock dp
  if (← dirlink dp name (← ino (.inum ip))) < 0 then do
    iunlockput dp
    linkBad ip
  else do
    iunlockput dp
    iput ip
    endOp
    pure 0

def sysLink (old new : Option Path) : P Int := do
  match old, new with
  | some old, some new => do
    beginOp
    match ← namei old with
    | none => do
      endOp
      pure (-1)
    | some ip => do
      ilock ip
      if (← ino (.inode ip)).type = tDir then do
        iunlockput ip
        endOp
        pure (-1)
      else do
        ino (.addLink ip 1)
        ino (.iupdate ip)
        iunlock ip
        match ← nameiparent new with
        | none => linkBad ip
        | some (dp, name) => linkInto ip dp name
  | _, _ => pure (-1)

/-- The exit `bad:` of `sys_unlink`. -/
def unlinkBad (dp : Entry) : P Int := do
  iunlockput dp
  endOp
  pure (-1)

/-- `sys_unlink` from the removal of the entry on, for an inode of type `type`. -/
def unlinkEntry (dp ip : Entry) (type : Int16) (off : Nat) : P Int := do
  let r ← ino (.dirent dp off ⟨0, []⟩)
  if r ≠ some 16 then kpanic "unlink: writei"
  else do
    if type = tDir then do
      ino (.addLink dp (-1))
      ino (.iupdate dp)
    iunlockput dp
    ino (.addLink ip (-1))
    ino (.iupdate ip)
    iunlockput ip
    endOp
    pure 0

/-- `sys_unlink` from the test of the link count on. -/
def unlinkFound (dp ip : Entry) (off : Nat) : P Int := do
  let node ← ino (.inode ip)
  if node.nlink < 1 then kpanic "unlink: nlink < 1"
  else if (← if node.type = tDir then do pure (!(← ino (.isdirempty ip))) else pure false) then do
    iunlockput ip
    unlinkBad dp
  else unlinkEntry dp ip node.type off

def sysUnlink (path : Option Path) : P Int := do
  match path with
  | none => pure (-1)
  | some path => do
    beginOp
    match ← nameiparent path with
    | none => do
      endOp
      pure (-1)
    | some (dp, name) => do
      ilock dp
      if name = dot ∨ name = dotdot then unlinkBad dp
      else do
        match ← dirlookup .unlink dp name with
        | none => unlinkBad dp
        | some (ip, off) => do
          ilock ip
          unlinkFound dp ip off

/-- The entries `.` and `..` of a new directory, with the link for `..`. -/
def createDots (dp ip : Entry) : P Unit := do
  ino (.addLink dp 1)
  ino (.iupdate dp)
  if (← dirlink ip dot (← ino (.inum ip))) < 0 then kpanic "create dots"
  else if (← dirlink ip dotdot (← ino (.inum dp))) < 0 then kpanic "create dots"
  else pure ()

variable (sb : Superblock)

/-- The part of `create` that makes a new inode. -/
def createNew (dp : Entry) (name : Name) (type major minor : Int16) : P Entry := do
  let ip ← ialloc sb type
  ilock ip
  ino (.setNums ip major minor 1)
  ino (.iupdate ip)
  if type = tDir then createDots dp ip
  if (← dirlink dp name (← ino (.inum ip))) < 0 then kpanic "create: dirlink"
  else do
    iunlockput dp
    pure ip

def create (path : Path) (type major minor : Int16) : P (Option Entry) := do
  match ← nameiparent path with
  | none => pure none
  | some (dp, name) => do
    ilock dp
    match ← dirlookup .create dp name with
    | some (ip, _) => do
      iunlockput dp
      ilock ip
      if type = tFile ∧ (← ino (.inode ip)).type = tFile then pure (some ip)
      else do
        iunlockput ip
        pure none
    | none => do
      let ip ← createNew sb dp name type major minor
      pure (some ip)

/-- The argument `omode` of `open`. -/
structure OMode where
  omode : UInt32

namespace OMode

def create (m : OMode) : Bool := m.omode &&& 0x200 != 0
def wronly (m : OMode) : Bool := m.omode &&& 0x001 != 0
def rdwr (m : OMode) : Bool := m.omode &&& 0x002 != 0
def isRdonly (m : OMode) : Bool := m.omode == 0

end OMode

/-- The inode that `sys_open` opens, locked. -/
def openInode (path : Path) (m : OMode) : P (Option Entry) := do
  if m.create then create sb path tFile 0 0
  else do
    match ← namei path with
    | none => pure none
    | some ip => do
      ilock ip
      if (← ino (.inode ip)).type = tDir ∧ !m.isRdonly then do
        iunlockput ip
        pure none
      else pure (some ip)

/-- `sys_open` once it has its inode. -/
def openFile (ip : Entry) (m : OMode) : P Int := do
  match ← file .filealloc with
  | none => do
    iunlockput ip
    endOp
    pure (-1)
  | some f => do
    match ← proc (.fdalloc f) with
    | none => do
      fileclose f
      iunlockput ip
      endOp
      pure (-1)
    | some fd => do
      iunlock ip
      endOp
      file (.setInode f ip (!m.wronly) (m.wronly || m.rdwr))
      pure fd.val

def sysOpen (path : Option Path) (m : OMode) : P Int := do
  match path with
  | none => pure (-1)
  | some path => do
    beginOp
    match ← openInode sb path m with
    | none => do
      endOp
      pure (-1)
    | some ip => openFile ip m

/-- `sys_mkdir` and `sys_mknod`, which fetch their arguments inside the transaction. -/
def mkInode (path : Option Path) (type major minor : Int16) : P Int := do
  beginOp
  match path with
  | none => do
    endOp
    pure (-1)
  | some path => do
    match ← create sb path type major minor with
    | none => do
      endOp
      pure (-1)
    | some ip => do
      iunlockput ip
      endOp
      pure 0

def sysMkdir (path : Option Path) : P Int := mkInode sb path tDir 0 0

def sysMknod (path : Option Path) (major minor : Int16) : P Int := mkInode sb path tDev major minor

/-- `iput(curproc->cwd)`. -/
def iputCwd : P Unit := do
  match ← proc .cwd with
  | some old => iput old
  | none => kpanic "no current directory"

def sysChdir (path : Option Path) : P Int := do
  beginOp
  match path with
  | none => do
    endOp
    pure (-1)
  | some path => do
    match ← namei path with
    | none => do
      endOp
      pure (-1)
    | some ip => do
      ilock ip
      if (← ino (.inode ip)).type ≠ tDir then do
        iunlockput ip
        endOp
        pure (-1)
      else do
        iunlock ip
        iputCwd
        endOp
        proc (.setCwd (some ip))
        pure 0

def sysPipe : P Int := do
  match ← pipealloc with
  | none => pure (-1)
  | some (rf, wf) => do
    match ← proc (.fdalloc rf) with
    | none => do
      fileclose rf
      fileclose wf
      pure (-1)
    | some fd0 => do
      match ← proc (.fdalloc wf) with
      | none => do
        discard (proc (.clearFd fd0))
        fileclose rf
        fileclose wf
        pure (-1)
      | some _ => pure 0

/-! ## exec.c and proc.c -/

/-- The reads of `exec` and `loaduvm`, which depend on what the headers say; each may be
followed by a failure. -/
def execReads (ip : Entry) : List (UInt32 × UInt32) → P Bool
  | [] => pure true
  | (off, n) :: rest => do
    discard (readi ip off n)
    if (← choose) = 0 then pure false else execReads ip rest

def exec (path : Path) (reads : List (UInt32 × UInt32)) : P Int := do
  beginOp
  match ← namei path with
  | none => do
    endOp
    pure (-1)
  | some ip => do
    ilock ip
    let ok ← execReads ip reads
    iunlockput ip
    endOp
    if ok then pure 0 else pure (-1)

def forkFiles (np : Proc) : List Fd → P Unit
  | [] => pure ()
  | fd :: rest => do
    match ← proc (.ofile fd) with
    | none => pure ()
    | some f => do
      file (.filedup f)
      proc (.childFd np fd f)
    forkFiles np rest

def fork : P Int := do
  match ← proc .allocproc with
  | none => pure (-1)
  | some np => do
    if (← choose) = 0 then do
      proc (.freeproc np)
      pure (-1)
    else do
      forkFiles np (List.finRange 16)
      let e ← idupCwd
      proc (.childCwd np e)
      proc (.runChild np)
      pure 1

def exitFiles : List Fd → P Unit
  | [] => pure ()
  | fd :: rest => do
    match ← proc (.ofile fd) with
    | none => pure ()
    | some f => do
      fileclose f
      discard (proc (.clearFd fd))
    exitFiles rest

def exit : P Int := do
  if ← proc .isInit then kpanic "init exiting"
  else do
    exitFiles (List.finRange 16)
    beginOp
    iputCwd
    endOp
    proc (.setCwd none)
    proc .zombie
    pure 0

inductive Call where
  | link (old new : Option Path)
  | unlink (path : Option Path)
  | open_ (path : Option Path) (m : OMode)
  | mkdir (path : Option Path)
  | mknod (path : Option Path) (major minor : Int16)
  | chdir (path : Option Path)
  | close (fd : Fd)
  | dup (fd : Fd)
  | pipe
  | read (fd : Fd) (n : UInt32)
  | write (fd : Fd) (src : Bytes.Buf) (n : Nat)
  | fstat (fd : Fd)
  | exec (path : Path) (reads : List (UInt32 × UInt32))
  | fork
  | exit
  | wait (q : Proc)

def prog : Call → P Int
  | .link old new => sysLink old new
  | .unlink path => sysUnlink path
  | .open_ path m => sysOpen sb path m
  | .mkdir path => sysMkdir sb path
  | .mknod path major minor => sysMknod sb path major minor
  | .chdir path => sysChdir path
  | .close fd => sysClose fd
  | .dup fd => sysDup fd
  | .pipe => sysPipe
  | .read fd n => do
    match ← sysRead fd n with
    | some l => pure l.length
    | none => pure (-1)
  | .write fd src n => sysWrite fd src n
  | .fstat fd => sysFstat fd
  | .exec path reads => exec path reads
  | .fork => fork
  | .exit => exit
  | .wait q => do
    proc (.reap q)
    pure 0

/-- Processes that make file system calls. -/
def machine : Interleave.Machine Sys Proc Call Op Resp Int where
  exec := Sys.exec sb
  live := Sys.live
  prog := prog sb

abbrev Config := Interleave.Config Sys Proc Call Op Resp Int

abbrev Action := Interleave.Action Proc Call

def next : Config → Action → Option Config := Interleave.next (machine sb)

def boot (fs : Fs) : Config := ⟨Sys.boot fs, fun _ => none, none⟩

end Xv6.FsCalls

import Xv6.Directory
import Xv6.Interleave
import Xv6.Truncate

/-!
# The state behind the file system calls

The inode cache, the table of open files, pipes, the descriptors and the current directory
of each process, and the disk; with the operations of which the system calls are made. An
operation is a section under a spin lock, a wait for a sleep lock, or work on an inode
that is done under its sleep lock. There is one device, so `dev` is left out.
-/
namespace Xv6.FsSystem

open Function (update)
open Bytes FsImage Directory
open Interleave (Outcome)

abbrev Proc := Fin 64
abbrev Entry := Fin 50
abbrev File := Fin 100
abbrev Fd := Fin 16

/-- `struct inode`: `holder` is the process that has the sleep lock, and `copy` are the
fields that are also on disk. -/
structure Inode where
  inum : Nat
  ref : Int
  valid : Bool
  holder : Option Proc
  copy : Dinode

/-- `FD_NONE`, `FD_PIPE` with the pipe, `FD_INODE` with the cache entry. -/
inductive FdType where
  | none
  | pipe (p : Nat)
  | inode (e : Entry)
  deriving DecidableEq

/-- `struct file`. -/
structure FileS where
  type : FdType
  ref : Int
  readable : Bool
  writable : Bool
  off : UInt32

/-- `struct pipe`, with how often its page has been freed. -/
structure Pipe where
  readopen : Bool
  writeopen : Bool
  freed : Nat

inductive PState where
  | unused
  | embryo
  | live
  | zombie
  deriving DecidableEq

structure ProcS where
  state : PState
  ofile : Fd → Option File
  cwd : Option Entry

/-- The first `npipe` numbers are pipes that have been allocated; `depth` counts how many
more times a process has called `begin_op` than `end_op`. -/
structure Sys where
  fs : Fs
  icache : Entry → Inode
  ftable : File → FileS
  pipes : Nat → Pipe
  npipe : Nat
  procs : Proc → ProcS
  depth : Proc → Int

/-- Where an inode is asked for: in `namex`, in `dirlookup` called by `dirlink`,
`sys_unlink` or `create`, or in `ialloc`. -/
inductive Site where
  | namex
  | dirlink
  | unlink
  | create
  | ialloc
  deriving DecidableEq

/-- Operations on the inode cache and on inodes; `dirent` is a `writei` of one directory entry. -/
inductive InoOp where
  | iget (site : Site) (i : Nat)
  | idup (e : Entry)
  | checkRef (e : Entry)
  | acquire (e : Entry)
  | load (e : Entry)
  | iunlock (e : Entry)
  | release (e : Entry)
  | unref (e : Entry)
  | lastLink (e : Entry)
  | ifree (e : Entry)
  | inum (e : Entry)
  | inode (e : Entry)
  | setNums (e : Entry) (major minor nlink : Int16)
  | addLink (e : Entry) (d : Int16)
  | iupdate (e : Entry)
  | iallocAt (type : Int16) (i : Nat)
  | dirlookup (e : Entry) (name : Name)
  | emptySlot (e : Entry)
  | isdirempty (e : Entry)
  | readi (e : Entry) (off n : UInt32)
  | writei (e : Entry) (src : Buf) (off n : UInt32)
  | dirent (e : Entry) (off : Nat) (de : Dirent)

@[reducible] def InoResp : InoOp → Type
  | .iget _ _ => Entry
  | .lastLink _ => Bool
  | .inum _ => Nat
  | .inode _ => Dinode
  | .iallocAt _ _ => Bool
  | .dirlookup _ _ => Option (Nat × Nat)
  | .emptySlot _ => Nat
  | .isdirempty _ => Bool
  | .readi _ _ _ => Option (List UInt8)
  | .writei _ _ _ _ => Option UInt32
  | .dirent _ _ _ => Option UInt32
  | _ => Unit

/-- Operations on open files and pipes. -/
inductive FileOp where
  | filealloc
  | filedup (f : File)
  | filedrop (f : File)
  | file (f : File)
  | setInode (f : File) (e : Entry) (readable writable : Bool)
  | setOff (f : File) (off : UInt32)
  | pipeInit (f0 f1 : File)
  | pipeclose (p : Nat) (writable : Bool)

@[reducible] def FileResp : FileOp → Type
  | .filealloc => Option File
  | .filedrop _ => Option FileS
  | .file _ => FileS
  | .pipeInit _ _ => Bool
  | _ => Unit

/-- Operations on the fields of processes. -/
inductive ProcOp where
  | ofile (fd : Fd)
  | fdalloc (f : File)
  | clearFd (fd : Fd)
  | cwd
  | setCwd (e : Option Entry)
  | isInit
  | allocproc
  | freeproc (np : Proc)
  | childFd (np : Proc) (fd : Fd) (f : File)
  | childCwd (np : Proc) (e : Entry)
  | runChild (np : Proc)
  | zombie
  | reap (q : Proc)

@[reducible] def ProcResp : ProcOp → Type
  | .ofile _ => Option File
  | .fdalloc _ => Option Fd
  | .clearFd _ => Option File
  | .cwd => Option Entry
  | .isInit => Bool
  | .allocproc => Option Proc
  | _ => Unit

/-- `choose` stands for what depends on memory, on a device or on other data that is not
modelled. -/
inductive Op where
  | beginOp
  | endOp
  | ino (o : InoOp)
  | file (o : FileOp)
  | proc (o : ProcOp)
  | choose
  | panic (msg : String)

@[reducible] def Resp : Op → Type
  | .beginOp => Unit
  | .endOp => Unit
  | .ino o => InoResp o
  | .file o => FileResp o
  | .proc o => ProcResp o
  | .choose => Nat
  | .panic _ => Empty

/-! ## What operations do -/

variable (sb : Superblock)

/-- The part of the state that inode operations work on. -/
structure InoState where
  fs : Fs
  icache : Entry → Inode

namespace InoState

def set (s : InoState) (e : Entry) (n : Inode) : InoState :=
  { s with icache := update s.icache e n }

/-- The entry in use for an inode number. -/
def cached (s : InoState) (i : Nat) : Option Entry :=
  (List.finRange 50).find? fun e => decide (0 < (s.icache e).ref) && (s.icache e).inum == i

def empty (s : InoState) : Option Entry := (List.finRange 50).find? fun e => (s.icache e).ref == 0

/-- Code on the inode in an entry, which may change the copy in memory. -/
def onCopy {α : Type} (s : InoState) (e : Entry) (code : Dinode → FsM (Dinode × α)) :
    Outcome InoState α :=
  match code (s.icache e).copy s.fs with
  | .ok ((ip, a), fs) => .done a ⟨fs, update s.icache e { s.icache e with copy := ip }⟩
  | .error msg => .panic msg

/-- Code on the disk alone. -/
def onDisk {α : Type} (s : InoState) (code : FsM α) : Outcome InoState α :=
  match code s.fs with
  | .ok (a, fs) => .done a { s with fs }
  | .error msg => .panic msg

def iget (s : InoState) (i : Nat) : Outcome InoState Entry :=
  match s.cached i with
  | some e => .done e (s.set e { s.icache e with ref := (s.icache e).ref + 1 })
  | none =>
    match s.empty with
    | some e => .done e (s.set e { s.icache e with inum := i, ref := 1, valid := false })
    | none => .panic "iget: no inodes"

def load (s : InoState) (e : Entry) : Outcome InoState Unit :=
  if (s.icache e).valid then .done () s
  else
    let n := dinode sb s.fs.disk (s.icache e).inum
    if n.type = 0 then .panic "ilock: no type"
    else .done () (s.set e { s.icache e with copy := n, valid := true })

/-- `itrunc(ip); ip->type = 0; iupdate(ip);` -/
def freeCode (i : Nat) (ip : Dinode) : FsM (Dinode × Unit) := do
  let ip ← Truncate.itrunc sb i ip
  let ip := { ip with type := 0 }
  FsImage.iupdate sb i ip
  pure (ip, ())

def ifree (s : InoState) (e : Entry) : Outcome InoState Unit :=
  match s.onCopy e (freeCode sb (s.icache e).inum) with
  | .done _ s' => .done () (s'.set e { s'.icache e with valid := false })
  | .blocked => .blocked
  | .panic msg => .panic msg

def exec (s : InoState) (t : Proc) : (o : InoOp) → Outcome InoState (InoResp o)
  | .iget _ i => s.iget i
  | .idup e => .done () (s.set e { s.icache e with ref := (s.icache e).ref + 1 })
  | .checkRef e => if (s.icache e).ref < 1 then .panic "ilock" else .done () s
  | .acquire e =>
    if (s.icache e).holder.isSome then .blocked
    else .done () (s.set e { s.icache e with holder := some t })
  | .load e => s.load sb e
  | .iunlock e =>
    if (s.icache e).holder ≠ some t ∨ (s.icache e).ref < 1 then .panic "iunlock"
    else .done () (s.set e { s.icache e with holder := none })
  | .release e => .done () (s.set e { s.icache e with holder := none })
  | .unref e => .done () (s.set e { s.icache e with ref := (s.icache e).ref - 1 })
  | .lastLink e =>
    .done ((s.icache e).valid && (s.icache e).copy.nlink == 0 && (s.icache e).ref == 1) s
  | .ifree e => s.ifree sb e
  | .inum e => .done (s.icache e).inum s
  | .inode e => .done (s.icache e).copy s
  | .setNums e major minor nlink =>
    .done () (s.set e { s.icache e with copy := { (s.icache e).copy with major, minor, nlink } })
  | .addLink e d => .done () (s.set e
      { s.icache e with copy := { (s.icache e).copy with nlink := (s.icache e).copy.nlink + d } })
  | .iupdate e => s.onDisk (FsImage.iupdate sb (s.icache e).inum (s.icache e).copy)
  | .iallocAt type i => s.onDisk (FsImage.iallocAt sb type i)
  | .dirlookup e name => s.onCopy e fun ip => Directory.dirlookup sb ip name
  | .emptySlot e => s.onCopy e fun ip => Directory.emptySlot sb ip
  | .isdirempty e => s.onCopy e fun ip => Directory.isdirempty sb ip
  | .readi e off n => s.onCopy e fun ip => FileData.readi sb ip off n
  | .writei e src off n => s.onCopy e fun ip => FileData.writei sb (s.icache e).inum ip src off n
  | .dirent e off de => s.onCopy e fun ip =>
    FileData.writei sb (s.icache e).inum ip de.bytes (UInt32.ofNat off) 16

end InoState

structure FileState where
  ftable : File → FileS
  pipes : Nat → Pipe
  npipe : Nat

namespace FileState

def set (s : FileState) (f : File) (v : FileS) : FileState :=
  { s with ftable := update s.ftable f v }

/-- The last part of `fileclose` under `ftable.lock`: the file if this was its last reference. -/
def filedrop (s : FileState) (f : File) : Outcome FileState (Option FileS) :=
  if (s.ftable f).ref < 1 then .panic "fileclose"
  else if (s.ftable f).ref - 1 > 0 then
    .done none (s.set f { s.ftable f with ref := (s.ftable f).ref - 1 })
  else .done (some (s.ftable f)) (s.set f { s.ftable f with ref := 0, type := .none })

/-- `kalloc` of a pipe, and filling in both files. -/
def pipeInit (s : FileState) (f0 f1 : File) : FileState where
  ftable := update (update s.ftable f0
      { s.ftable f0 with type := .pipe s.npipe, readable := true, writable := false })
    f1 { s.ftable f1 with type := .pipe s.npipe, readable := false, writable := true }
  pipes := update s.pipes s.npipe ⟨true, true, 0⟩
  npipe := s.npipe + 1

def pipeclose (s : FileState) (p : Nat) (writable : Bool) : FileState :=
  let q := s.pipes p
  let q := if writable then { q with writeopen := false } else { q with readopen := false }
  let q := if !q.readopen && !q.writeopen then { q with freed := q.freed + 1 } else q
  { s with pipes := update s.pipes p q }

def exec (s : FileState) (n : Nat) : (o : FileOp) → Outcome FileState (FileResp o)
  | .filealloc =>
    match (List.finRange 100).find? fun f => (s.ftable f).ref == 0 with
    | some f => .done (some f) (s.set f { s.ftable f with ref := 1 })
    | none => .done none s
  | .filedup f =>
    if (s.ftable f).ref < 1 then .panic "filedup"
    else .done () (s.set f { s.ftable f with ref := (s.ftable f).ref + 1 })
  | .filedrop f => s.filedrop f
  | .file f => .done (s.ftable f) s
  | .setInode f e readable writable =>
    .done () (s.set f { s.ftable f with type := .inode e, off := 0, readable, writable })
  | .setOff f off => .done () (s.set f { s.ftable f with off })
  | .pipeInit f0 f1 => if n = 0 then .done false s else .done true (s.pipeInit f0 f1)
  | .pipeclose p writable => .done () (s.pipeclose p writable)

end FileState

abbrev Procs := Proc → ProcS

namespace Procs

def setFd (P : Procs) (p : Proc) (fd : Fd) (f : Option File) : Procs :=
  update P p { P p with ofile := update (P p).ofile fd f }

def setState (P : Procs) (p : Proc) (st : PState) : Procs := update P p { P p with state := st }

def setCwd (P : Procs) (p : Proc) (e : Option Entry) : Procs := update P p { P p with cwd := e }

def exec (P : Procs) (busy : Proc → Bool) (t : Proc) (n : Nat) :
    (o : ProcOp) → Outcome Procs (ProcResp o)
  | .ofile fd => .done ((P t).ofile fd) P
  | .fdalloc f =>
    match (List.finRange 16).find? fun fd => (P t).ofile fd == none with
    | some fd => .done (some fd) (P.setFd t fd (some f))
    | none => .done none P
  | .clearFd fd => .done ((P t).ofile fd) (P.setFd t fd none)
  | .cwd => .done (P t).cwd P
  | .setCwd e => .done () (P.setCwd t e)
  | .isInit => .done (t == 0) P
  | .allocproc =>
    match (List.finRange 64).find? fun p => (P p).state == .unused with
    | some np => if n = 0 then .done none P else .done (some np) (P.setState np .embryo)
    | none => .done none P
  | .freeproc np => .done () (P.setState np .unused)
  | .childFd np fd f => .done () (P.setFd np fd (some f))
  | .childCwd np e => .done () (P.setCwd np (some e))
  | .runChild np => .done () (P.setState np .live)
  | .zombie => .done () (P.setState t .zombie)
  | .reap q =>
    if (P q).state = .zombie ∧ busy q = false then .done () (P.setState q .unused) else .blocked

end Procs

namespace Sys

def inoState (s : Sys) : InoState := ⟨s.fs, s.icache⟩

def withIno (s : Sys) (i : InoState) : Sys := { s with fs := i.fs, icache := i.icache }

def fileState (s : Sys) : FileState := ⟨s.ftable, s.pipes, s.npipe⟩

def withFile (s : Sys) (f : FileState) : Sys :=
  { s with ftable := f.ftable, pipes := f.pipes, npipe := f.npipe }

/-- The same outcome on a larger state. -/
def lift {σ ρ : Type} (put : σ → Sys) : Outcome σ ρ → Outcome Sys ρ
  | .done r s => .done r (put s)
  | .blocked => .blocked
  | .panic msg => .panic msg

def exec (s : Sys) (busy : Proc → Bool) (t : Proc) : (o : Op) → Nat → Outcome Sys (Resp o)
  | .beginOp, _ => .done () { s with depth := update s.depth t (s.depth t + 1) }
  | .endOp, _ => .done () { s with depth := update s.depth t (s.depth t - 1) }
  | .ino o, _ => lift s.withIno (s.inoState.exec sb t o)
  | .file o, n => lift s.withFile (s.fileState.exec n o)
  | .proc o, n => lift (fun P => { s with procs := P }) (Procs.exec s.procs busy t n o)
  | .choose, n => .done n s
  | .panic msg, _ => .panic msg

def live (s : Sys) (t : Proc) : Bool := (s.procs t).state == .live

/-- The state in which the first process starts: its current directory is the root. -/
def boot (fs : Fs) : Sys where
  fs := fs
  icache := update (fun _ => ⟨0, 0, false, none, .zero⟩) 0 ⟨1, 1, false, none, .zero⟩
  ftable := fun _ => ⟨.none, 0, false, false, 0⟩
  pipes := fun _ => ⟨false, false, 0⟩
  npipe := 0
  procs := update (fun _ => ⟨.unused, fun _ => none, none⟩) 0 ⟨.live, fun _ => none, some 0⟩
  depth := fun _ => 0

end Sys

end Xv6.FsSystem

import Xv6.Directory

/-!
# mkfs

mkfs.c as a program on the image file. The file is its sectors, with how many of them
there are; `rsect` past the end fails. The host's files are given with the pieces in which
`read` returns them. A failed `assert` or system call ends the program.
-/
namespace Xv6.Mkfs

open Function (update)
open Bytes FsImage Directory

abbrev fssize : Nat := 1000
abbrev ninodes : Nat := 200

/-- LOGSIZE. -/
abbrev nlog : Nat := 30

abbrev nbitmap : Nat := fssize / (512 * 8) + 1
abbrev ninodeblocks : Nat := ninodes / 8 + 1
abbrev nmeta : Nat := 2 + nlog + ninodeblocks + nbitmap

def sb : Superblock where
  size := fssize
  ninodes := ninodes
  inodestart := 2 + nlog
  bmapstart := 2 + nlog + ninodeblocks
  start := by decide
  inodes_fit := by decide
  bitmap_fits := by decide
  int_blocks := by decide

theorem fssize_eq : fssize = 1000 := rfl

theorem nmeta_eq : nmeta = 59 := rfl

theorem bmapstart_eq : sb.bmapstart = 58 := rfl

/-- The words of `struct superblock`. -/
structure SuperWords where
  size : UInt32
  nblocks : UInt32
  ninodes : UInt32
  nlog : UInt32
  logstart : UInt32
  inodestart : UInt32
  bmapstart : UInt32
  deriving DecidableEq

/-- `readsb`. -/
def SuperWords.ofBytes (b : Buf) : SuperWords where
  size := Dinode.uintAt b 0
  nblocks := Dinode.uintAt b 4
  ninodes := Dinode.uintAt b 8
  nlog := Dinode.uintAt b 12
  logstart := Dinode.uintAt b 16
  inodestart := Dinode.uintAt b 20
  bmapstart := Dinode.uintAt b 24

def superWords : SuperWords where
  size := UInt32.ofNat fssize
  nblocks := UInt32.ofNat (fssize - nmeta)
  ninodes := UInt32.ofNat ninodes
  nlog := UInt32.ofNat nlog
  logstart := 2
  inodestart := UInt32.ofNat (2 + nlog)
  bmapstart := UInt32.ofNat (2 + nlog + ninodeblocks)

/-- The contents of the super block. -/
def SuperWords.bytes (w : SuperWords) : Buf :=
  let words := [w.size, w.nblocks, w.ninodes, w.nlog, w.logstart, w.inodestart, w.bmapstart]
  fun j => byteOf (words.getD (j / 4) 0).toNat (j % 4)

theorem superWords_ofBytes : SuperWords.ofBytes superWords.bytes = superWords := by decide

/-! ## The program -/

/-- The image file and the globals `freeinode` and `freeblock`. -/
structure Img where
  disk : Disk
  nsect : Nat
  freeinode : Nat
  freeblock : Nat

abbrev MkM := StateT Img (Except String)

def assert (p : Prop) [Decidable p] (text : String) : MkM Unit :=
  if p then pure () else throw text

/-- The sector at the offset `sec * BSIZE`, which is a `uint`. -/
def seek (sec : Nat) : Nat := sec * 512 % 2 ^ 32 / 512

def wsect (sec : Nat) (buf : Buf) : MkM Unit := modify fun s =>
  { s with disk := update s.disk (seek sec) buf, nsect := max s.nsect (seek sec + 1) }

def rsect (sec : Nat) : MkM Buf := do
  let s ← get
  if seek sec < s.nsect then pure (s.disk (seek sec)) else throw "read"

/-- `freeinode++`. -/
def newInode : MkM Nat := modifyGet fun s => (s.freeinode, { s with freeinode := s.freeinode + 1 })

/-- `freeblock++`. -/
def newBlock : MkM Nat := modifyGet fun s => (s.freeblock, { s with freeblock := s.freeblock + 1 })

def winode (inum : Nat) (ip : Dinode) : MkM Unit := do
  let bn := sb.iblock inum
  let buf ← rsect bn
  wsect bn (memmove buf (inum % 8 * 64) ip.bytes 64)

def rinode (inum : Nat) : MkM Dinode := do
  let buf ← rsect (sb.iblock inum)
  pure (.ofBytes buf (inum % 8 * 64))

def ialloc (type : Int16) : MkM Nat := do
  let inum ← newInode
  winode inum { Dinode.zero with type := type, nlink := 1 }
  pure inum

/-- The block in which the bits before `i` are set, one after the other. -/
def bitmap : Nat → Buf
  | 0 => fun _ => 0
  | i + 1 => setBit (bitmap i) i

def balloc (used : Nat) : MkM Unit := do
  assert (used < 512 * 8) "used < BSIZE*8"
  wsect sb.bmapstart (bitmap used)

/-- `if(din.addrs[k] == 0) din.addrs[k] = freeblock++;` -/
def addrAppend (din : Dinode) (k : Fin 13) : MkM Dinode :=
  if din.addrs k = 0 then do
    let b ← newBlock
    pure (BlockMap.setAddr din k b)
  else pure din

/-- The block for block `fbn` of the file, in the loop of `iappend`. -/
def blockAppend (din : Dinode) (fbn : Nat) : MkM (Dinode × Nat) :=
  if h : fbn < 12 then do
    let din ← addrAppend din ⟨fbn, lt_ndirect h⟩
    pure (din, (din.addrs ⟨fbn, lt_ndirect h⟩).toNat)
  else do
    let din ← addrAppend din 12
    let indirect ← rsect (din.addrs 12).toNat
    if getLE indirect (4 * (fbn - 12)) 4 = 0 then do
      let b ← newBlock
      let indirect := putLE indirect (4 * (fbn - 12)) 4 b
      wsect (din.addrs 12).toNat indirect
      pure (din, getLE indirect (4 * (fbn - 12)) 4)
    else pure (din, getLE indirect (4 * (fbn - 12)) 4)

/-- The loop of `iappend`, for `n` more bytes at `off`. -/
def appendLoop : Nat → Dinode → Buf → Nat → Nat → MkM Dinode
  | 0, din, _, _, _ => pure din
  | fuel + 1, din, p, off, n =>
    if n = 0 then pure din else do
      let fbn := off / 512
      assert (fbn < 140) "fbn < MAXFILE"
      let (din, x) ← blockAppend din fbn
      let n1 := min n ((fbn + 1) * 512 - off)
      let buf ← rsect x
      wsect x (memmove buf (off - fbn * 512) p n1)
      appendLoop fuel din (fun k => p (n1 + k)) (off + n1) (n - n1)

def iappend (inum : Nat) (p : Buf) (n : Nat) : MkM Unit := do
  let din ← rinode inum
  let off := din.size.toNat
  let din ← appendLoop n din p off n
  winode inum { din with size := UInt32.ofNat (off + n) }

/-- A file of the host: its name on the command line, and what `read` returns of it, at
most BSIZE bytes at a time. -/
structure HostFile where
  arg : List UInt8
  chunks : List (List UInt8)
  string : 0 ∉ arg
  reads : ∀ c ∈ chunks, 0 < c.length ∧ c.length ≤ 512

theorem reads_nil : ∀ c ∈ ([] : List (List UInt8)), 0 < c.length ∧ c.length ≤ 512 := nofun

/-- The name without a leading `_`, as far as `strncpy` copies it. -/
def HostFile.stored (f : HostFile) : Name :=
  (if f.arg.head? = some 95 then f.arg.tail else f.arg).take 14

def HostFile.data (f : HostFile) : List UInt8 := f.chunks.flatten

/-- The bytes of a list, from offset zero on. -/
def ofList (l : List UInt8) : Buf := fun k => l.getD k 0

def addFile (rootino : Nat) (f : HostFile) : MkM Unit := do
  assert (slash ∉ f.arg) "index(argv[i], '/') == 0"
  let inum ← ialloc tFile
  iappend rootino (Dirent.bytes ⟨UInt16.ofNat inum, f.stored⟩) 16
  f.chunks.forM fun c => iappend inum (ofList c) c.length

/-- The end of `main`: the size of the root directory is rounded, and the bitmap written. -/
def finish (rootino : Nat) : MkM Unit := do
  let din ← rinode rootino
  let off := (din.size.toNat / 512 + 1) * 512
  winode rootino { din with size := UInt32.ofNat off }
  let s ← get
  balloc s.freeblock

def main (files : List HostFile) : MkM Unit := do
  (List.range fssize).forM fun i => wsect i fun _ => 0
  wsect 1 superWords.bytes
  let rootino ← ialloc tDir
  assert (rootino = 1) "rootino == ROOTINO"
  iappend rootino (Dirent.bytes ⟨UInt16.ofNat rootino, dot⟩) 16
  iappend rootino (Dirent.bytes ⟨UInt16.ofNat rootino, dotdot⟩) 16
  files.forM (addFile rootino)
  finish rootino

/-- The image that is made of the files, from a new image file. -/
def mkfs (files : List HostFile) : Except String Img :=
  (main files ⟨fun _ _ => 0, 0, 1, nmeta⟩).map Prod.snd

end Xv6.Mkfs

import Xv6.LockOrder
import Xv6.Runs
import Xv6.Scheduler

/-!
# The spin locks of the kernel

The functions of the kernel that take a spin lock, or call one that does, as
lock programs. What a function does between its lock operations is left out, and
so are the conditions of its branches; a `panic` ends the kernel and is left out
too. A buffer, inode or pipe that a function works on is picked by its caller.
The set-up before the schedulers start runs on one CPU and is not part of it.
-/
namespace Xv6.KernelLocks

open LockOrder LockOrder.Code
open Scheduler (Build)

/-- The sleep locks, each with a spin lock inside. -/
inductive SleepLock where
  | buf : Nat → SleepLock
  | inode : Nat → SleepLock
  deriving DecidableEq, Repr

inductive Lock where
  | ptable | cons | tickslock | idelock | bcache | log | icache | ftable | kmem
  | pipe : Nat → Lock
  | sleeplk : SleepLock → Lock
  deriving DecidableEq, Repr

/-- The functions, by file: kalloc.c, vm.c, proc.c, console.c, sleeplock.c, ide.c and
bio.c, log.c, fs.c, file.c, pipe.c, exec.c, sysfile.c, sysproc.c, and trap.c with
syscall.c. -/
inductive Fn where
  | kalloc | kfree
  | walkpgdir | mappages | setupkvm | allocuvm | deallocuvm | freevm | copyuvm
  | loaduvm : (ip : Nat) → Fn
  | allocproc | growproc | fork | exit | wait | waitx | scheduler | sched | yield | forkret
  | defaultScheduler | priorityScheduler | fcfsScheduler | mlfqScheduler
  | sleep : (lk : Lock) → Fn
  | wakeup | kill | chprty | updatestatistics | procdump | cps
  | cprintf | consoleintr
  | consoleread : (ip : Nat) → Fn
  | consolewrite : (ip : Nat) → Fn
  | acquiresleep : SleepLock → Fn
  | releasesleep : SleepLock → Fn
  | holdingsleep : SleepLock → Fn
  | ideintr
  | iderw : (b : Nat) → Fn
  | bget : (b : Nat) → Fn
  | bread : (b : Nat) → Fn
  | bwrite : (b : Nat) → Fn
  | brelse : (b : Nat) → Fn
  | initlog | installTrans | readHead | writeHead | recoverFromLog | beginOp | endOp | writeLog
  | commit | logWrite
  | readsb | bzero | balloc | bfree | iinit | ialloc | iupdate | iget | idup | bmap | itrunc
  | ilock : (ip : Nat) → Fn
  | iunlock : (ip : Nat) → Fn
  | iput : (ip : Nat) → Fn
  | iunlockput : (ip : Nat) → Fn
  | readi : (ip : Nat) → Fn
  | writei : (ip : Nat) → Fn
  | dirlookup : (dp : Nat) → Fn
  | dirlink : (dp : Nat) → Fn
  | namex
  | filealloc | filedup | fileclose | filestat | fileread | filewrite
  | pipealloc
  | pipeclose : (p : Nat) → Fn
  | pipewrite : (p : Nat) → Fn
  | piperead : (p : Nat) → Fn
  | exec
  | isdirempty : (dp : Nat) → Fn
  | sysLink | sysUnlink | create | sysOpen | sysMkdir | sysMknod | sysChdir | sysPipe
  | sysSleep | sysUptime
  | timer | irq | syscall | trapSyscall | trapUser | trapKernel

abbrev KCode := Code Lock Fn

/-- The scheduler that a build calls. -/
def schedulerOf : Build → Fn
  | .dflt => .defaultScheduler
  | .pbs => .priorityScheduler
  | .fcfs => .fcfsScheduler
  | .mlfq => .mlfqScheduler

/-- A scheduler that prints nothing. -/
def scanAndSwitch : KCode := block [.acquire .ptable, .loop .swtch, .release .ptable]

/-- A buffer between `bread` and `brelse`. -/
def withBuf (k : Nat → KCode) : KCode :=
  .pick fun b => block [.call (.bread b), k b, .call (.brelse b)]

/-- The `bad` label of `sys_link`. -/
def linkBad (ip : Nat) : KCode :=
  block [.call (.ilock ip), .call .iupdate, .call (.iunlockput ip), .call .endOp]

/-- The loop of `exec` over the program headers. -/
def loadSegments (ip : Nat) : KCode :=
  .loop (block [.call (.readi ip), opt (block [.call .allocuvm, opt (.call (.loaduvm ip))])])

/-- The bodies of `sys_mkdir` and `sys_mknod`. -/
def createPut : KCode :=
  block [.call .beginOp, opt (.call .create), opt (.pick fun ip => .call (.iunlockput ip)),
    .call .endOp]

/-- The code of each function. -/
def body (b : Build) : Fn → KCode
  | .kalloc => crit .kmem
  | .kfree => crit .kmem
  | .walkpgdir => opt (.call .kalloc)
  | .mappages => .loop (.call .walkpgdir)
  | .setupkvm => block [.call .kalloc, .loop (.call .mappages), opt (.call .freevm)]
  | .allocuvm =>
    block [.loop (block [.call .kalloc, .call .mappages]),
      -- out of memory, for the page or for the page table
      alts [block [.call .kalloc, .call .cprintf, .call .deallocuvm],
        block [.call .kalloc, .call .mappages, .call .cprintf, .call .deallocuvm, .call .kfree]]]
  | .deallocuvm => .loop (.call .kfree)
  | .freevm => block [.call .deallocuvm, .loop (.call .kfree), .call .kfree]
  | .copyuvm =>
    block [.call .setupkvm, .loop (block [.call .kalloc, .call .mappages]),
      alts [block [.call .kalloc, .call .freevm],
        block [.call .kalloc, .call .mappages, .call .kfree, .call .freevm]]]
  | .loaduvm ip => .loop (.call (.readi ip))
  | .allocproc => block [crit .ptable, opt (.call .kalloc)]
  | .growproc => alts [.call .allocuvm, .call .deallocuvm]
  | .fork =>
    block [.call .allocproc,
      opt (block [.call .copyuvm,
        .alt (.call .kfree)
          (block [.loop (.call .filedup), .call .idup,
            .acquire .ptable, .spawn .forkret, .release .ptable])])]
  | .exit =>
    block [.loop (.call .fileclose), .call .beginOp, .pick fun ip => .call (.iput ip), .call .endOp,
      .acquire .ptable, .quit]
  | .wait =>
    block [.acquire .ptable, .loop (.call (.sleep .ptable)),
      opt (block [.call .kfree, .call .freevm]), .release .ptable]
  | .waitx =>
    block [.acquire .ptable, .loop (.call (.sleep .ptable)),
      opt (block [.call .kfree, .call .freevm]), .release .ptable]
  | .defaultScheduler => scanAndSwitch
  | .priorityScheduler => scanAndSwitch
  | .fcfsScheduler =>
    block [.acquire .ptable, .loop (block [opt (.call .cprintf), .swtch]), .release .ptable]
  | .mlfqScheduler => scanAndSwitch
  | .scheduler => block [opt (.call .cprintf), .call (schedulerOf b), .call .scheduler]
  | .sched => .swtch
  | .yield => block [.acquire .ptable, .call .sched, .release .ptable]
  | .forkret => block [.release .ptable, opt (block [.call .iinit, .call .initlog])]
  | .sleep lk =>
    if lk = .ptable then .call .sched
    else block [.acquire .ptable, .release lk, .call .sched, .release .ptable, .acquire lk]
  | .wakeup => crit .ptable
  | .kill => crit .ptable
  | .chprty => crit .ptable
  | .updatestatistics => crit .ptable
  | .procdump => .loop (.call .cprintf)
  | .cps => block [.acquire .ptable, .call .cprintf, .loop (.call .cprintf), .release .ptable]
  -- `cons.locking` is set by `consoleinit` and cleared by `panic`
  | .cprintf => crit .cons
  | .consoleintr =>
    block [.acquire .cons, .loop (opt (.call .wakeup)), .release .cons, opt (.call .procdump)]
  | .consoleread ip =>
    block [.call (.iunlock ip), .acquire .cons, .loop (.call (.sleep .cons)), .release .cons,
      .call (.ilock ip)]
  | .consolewrite ip => block [.call (.iunlock ip), crit .cons, .call (.ilock ip)]
  | .acquiresleep m =>
    block [.acquire (.sleeplk m), .loop (.call (.sleep (.sleeplk m))), .release (.sleeplk m)]
  | .releasesleep m => block [.acquire (.sleeplk m), .call .wakeup, .release (.sleeplk m)]
  | .holdingsleep m => crit (.sleeplk m)
  | .ideintr => block [.acquire .idelock, opt (.call .wakeup), .release .idelock]
  | .iderw j =>
    block [.call (.holdingsleep (.buf j)), .acquire .idelock, .loop (.call (.sleep .idelock)),
      .release .idelock]
  | .bget j => block [crit .bcache, .call (.acquiresleep (.buf j))]
  | .bread j => block [.call (.bget j), opt (.call (.iderw j))]
  | .bwrite j => block [.call (.holdingsleep (.buf j)), .call (.iderw j)]
  | .brelse j =>
    block [.call (.holdingsleep (.buf j)), .call (.releasesleep (.buf j)), crit .bcache]
  | .initlog => block [.call .readsb, .call .recoverFromLog]
  | .installTrans =>
    .loop (.pick fun lbuf => .pick fun dbuf => block [.call (.bread lbuf), .call (.bread dbuf),
      .call (.bwrite dbuf), .call (.brelse lbuf), .call (.brelse dbuf)])
  | .readHead => withBuf fun _ => .skip
  | .writeHead => withBuf fun buf => .call (.bwrite buf)
  | .recoverFromLog => block [.call .readHead, .call .installTrans, .call .writeHead]
  | .beginOp => block [.acquire .log, .loop (.call (.sleep .log)), .release .log]
  | .endOp =>
    block [.acquire .log, opt (.call .wakeup), .release .log,
      opt (block [.call .commit, .acquire .log, .call .wakeup, .release .log])]
  | .writeLog =>
    .loop (withBuf fun tbuf => withBuf fun _ => .call (.bwrite tbuf))
  | .commit =>
    opt (block [.call .writeLog, .call .writeHead, .call .installTrans, .call .writeHead])
  | .logWrite => crit .log
  | .readsb => withBuf fun _ => .skip
  | .bzero => withBuf fun _ => .call .logWrite
  | .balloc =>
    block [.loop (withBuf fun _ => .skip), withBuf fun _ => .call .logWrite, .call .bzero]
  | .bfree => withBuf fun _ => .call .logWrite
  | .iinit => block [.call .readsb, .call .cprintf]
  | .ialloc =>
    block [.loop (withBuf fun _ => .skip), withBuf fun _ => .call .logWrite, .call .iget]
  | .iupdate => withBuf fun _ => .call .logWrite
  | .iget => crit .icache
  | .idup => crit .icache
  | .ilock ip => block [.call (.acquiresleep (.inode ip)), opt (withBuf fun _ => .skip)]
  | .iunlock ip =>
    block [.call (.holdingsleep (.inode ip)), .call (.releasesleep (.inode ip))]
  | .iput ip =>
    block [.call (.acquiresleep (.inode ip)),
      opt (block [crit .icache, opt (block [.call .itrunc, .call .iupdate])]),
      .call (.releasesleep (.inode ip)), crit .icache]
  | .iunlockput ip => block [.call (.iunlock ip), .call (.iput ip)]
  | .bmap =>
    alts [.call .balloc,
      block [opt (.call .balloc), withBuf fun _ => opt (block [.call .balloc, .call .logWrite])]]
  | .itrunc =>
    block [.loop (.call .bfree),
      opt (block [withBuf fun _ => .loop (.call .bfree), .call .bfree]), .call .iupdate]
  | .readi ip =>
    alts [.call (.consoleread ip), .loop (block [.call .bmap, withBuf fun _ => .skip])]
  | .writei ip =>
    alts [.call (.consolewrite ip),
      block [.loop (block [.call .bmap, withBuf fun _ => .call .logWrite]), opt (.call .iupdate)]]
  | .dirlookup dp => block [.loop (.call (.readi dp)), opt (.call .iget)]
  | .dirlink dp =>
    block [.call (.dirlookup dp),
      .alt (.pick fun ip => .call (.iput ip))
        (block [.loop (.call (.readi dp)), .call (.writei dp)])]
  | .namex =>
    block [.alt (.call .iget) (.call .idup),
      .loop (.pick fun ip =>
        block [.call (.ilock ip), .call (.dirlookup ip), .call (.iunlockput ip)]),
      .pick fun ip =>
        alts [block [.call (.ilock ip), .call (.iunlockput ip)],
          block [.call (.ilock ip), .call (.iunlock ip)],
          block [.call (.ilock ip), .call (.dirlookup ip), .call (.iunlockput ip)],
          .call (.iput ip)]]
  | .filealloc => crit .ftable
  | .filedup => crit .ftable
  | .fileclose =>
    block [crit .ftable,
      alts [.pick fun p => .call (.pipeclose p),
        block [.call .beginOp, .pick fun ip => .call (.iput ip), .call .endOp]]]
  | .filestat => opt (.pick fun ip => block [.call (.ilock ip), .call (.iunlock ip)])
  | .fileread =>
    alts [.pick fun p => .call (.piperead p),
      .pick fun ip => block [.call (.ilock ip), .call (.readi ip), .call (.iunlock ip)]]
  | .filewrite =>
    alts [.pick fun p => .call (.pipewrite p),
      .pick fun ip => .loop (block [.call .beginOp, .call (.ilock ip), .call (.writei ip),
        .call (.iunlock ip), .call .endOp])]
  | .pipealloc =>
    block [.call .filealloc, opt (.call .filealloc), opt (.call .kalloc),
      opt (block [opt (.call .kfree), opt (.call .fileclose), opt (.call .fileclose)])]
  | .pipeclose p =>
    block [.acquire (.pipe p), .call .wakeup, .release (.pipe p), opt (.call .kfree)]
  | .pipewrite p =>
    block [.acquire (.pipe p), .loop (block [.call .wakeup, .call (.sleep (.pipe p))]),
      opt (.call .wakeup), .release (.pipe p)]
  | .piperead p =>
    block [.acquire (.pipe p), .loop (.call (.sleep (.pipe p))), opt (.call .wakeup),
      .release (.pipe p)]
  | .exec =>
    block [.call .beginOp, .call .namex,
      .alt (block [.call .endOp, .call .cprintf])
        (.pick fun ip => block [.call (.ilock ip), .call (.readi ip),
          .alt
            -- `bad` while the program is being read
            (block [opt (block [.call .setupkvm, loadSegments ip, opt (.call .freevm)]),
              .call (.iunlockput ip), .call .endOp])
            (block [.call .setupkvm, loadSegments ip, .call (.iunlockput ip), .call .endOp,
              .call .allocuvm, .call .freevm])])]
  | .isdirempty dp => .loop (.call (.readi dp))
  | .sysLink =>
    block [.call .beginOp, .call .namex,
      .alt (.call .endOp)
        (.pick fun ip => block [.call (.ilock ip),
          .alt (block [.call (.iunlockput ip), .call .endOp])
            (block [.call .iupdate, .call (.iunlock ip), .call .namex,
              .alt (linkBad ip)
                (.pick fun dp => block [.call (.ilock dp), opt (.call (.dirlink dp)),
                  .call (.iunlockput dp),
                  .alt (block [.call (.iput ip), .call .endOp]) (linkBad ip)])])])]
  | .sysUnlink =>
    block [.call .beginOp, .call .namex,
      .alt (.call .endOp)
        (.pick fun dp => block [.call (.ilock dp),
          .pick fun ip =>
            .alt
              (block [opt (block [.call (.dirlookup dp),
                opt (block [.call (.ilock ip), .call (.isdirempty ip), .call (.iunlockput ip)])]),
                .call (.iunlockput dp), .call .endOp])
              (block [.call (.dirlookup dp), .call (.ilock ip), opt (.call (.isdirempty ip)),
                .call (.writei dp), opt (.call .iupdate), .call (.iunlockput dp),
                .call .iupdate, .call (.iunlockput ip), .call .endOp])])]
  | .create =>
    block [.call .namex,
      opt (.pick fun dp => .pick fun ip => block [.call (.ilock dp), .call (.dirlookup dp),
        .alt (block [.call (.iunlockput dp), .call (.ilock ip), opt (.call (.iunlockput ip))])
          (block [.call .ialloc, .call (.ilock ip), .call .iupdate,
            opt (block [.call .iupdate, .call (.dirlink ip), .call (.dirlink ip)]),
            .call (.dirlink dp), .call (.iunlockput dp)])])]
  | .sysOpen =>
    block [.call .beginOp, .alt (.call .create) (.call .namex),
      .alt (.call .endOp)
        (.pick fun ip => block [opt (.call (.ilock ip)),
          .alt (block [opt (block [.call .filealloc, opt (.call .fileclose)]),
              .call (.iunlockput ip), .call .endOp])
            (block [.call .filealloc, .call (.iunlock ip), .call .endOp])])]
  | .sysMkdir => createPut
  | .sysMknod => createPut
  | .sysChdir =>
    block [.call .beginOp, opt (.call .namex),
      .alt (.call .endOp)
        (.pick fun ip => block [.call (.ilock ip),
          .alt (block [.call (.iunlockput ip), .call .endOp])
            (block [.call (.iunlock ip), .pick fun cwd => .call (.iput cwd), .call .endOp])])]
  | .sysPipe => block [.call .pipealloc, opt (block [.call .fileclose, .call .fileclose])]
  | .sysSleep =>
    block [.acquire .tickslock, .loop (.call (.sleep .tickslock)), .release .tickslock]
  | .sysUptime => crit .tickslock
  | .timer =>
    block [.acquire .tickslock, .call .updatestatistics, .call .wakeup, .release .tickslock]
  | .irq => alts [.call .timer, .call .ideintr, .call .consoleintr, .call .cprintf]
  | .syscall =>
    alts [.call .fork, .call .exit, .call .chprty, .call .waitx, .call .wait, .call .sysPipe,
      .call .fileread, .call .kill, .call .exec, .call .filestat, .call .sysChdir, .call .filedup,
      .call .growproc, .call .sysSleep, .call .sysUptime, .call .sysOpen, .call .filewrite,
      .call .sysMknod, .call .sysUnlink, .call .sysLink, .call .sysMkdir, .call .fileclose,
      .call .cps, .call .cprintf]
  | .trapSyscall => block [opt (.call .exit), .call .syscall, opt (.call .exit)]
  | .trapUser =>
    block [.call .irq, opt (.call .exit), opt (.call .yield), opt (.call .exit)]
  | .trapKernel => block [.call .irq, opt (.call .yield)]

def kernel (b : Build) : Program Lock Fn where
  body := body b
  entry
    | .trapSyscall | .trapUser => true
    | _ => false
  handler
    | .trapKernel => true
    | _ => false

abbrev Machine (n : Nat) := State Lock Fn n

/-- Every CPU calls `scheduler`, and the first process waits to be run. -/
def boot (n : Nat) : Machine n where
  cpu := fun _ => ⟨[], [.call .scheduler]⟩
  parked := [[.call .forkret]]

/-- No CPU that holds `ptable.lock` calls `cprintf`. -/
def QuietUnderPtable {n : Nat} (s : Machine n) (a : Fin n × Act Fn) : Prop :=
  match (s.cpu a.1).work with
  | .call .cprintf :: _ => .ptable ∉ (s.cpu a.1).held
  | _ => True

instance {n : Nat} (s : Machine n) (a : Fin n × Act Fn) : Decidable (QuietUnderPtable s a) := by
  unfold QuietUnderPtable
  split
  · infer_instance
  · infer_instance

/-- The order of the locks: `ptable.lock` may be taken with any lock but itself and
`kmem.lock` held, and `kmem.lock` with any other; all others are taken first. -/
def rank : Lock → Nat
  | .ptable => 1
  | .kmem => 2
  | _ => 0

/-- Memory is freed with `ptable.lock` held, and `wakeup` is called with the lock of
the thing waited for; a function that may sleep is called with no lock. -/
def pre : Fn → List Lock → Prop
  | .kalloc, held | .kfree, held | .walkpgdir, held | .mappages, held | .setupkvm, held
  | .deallocuvm, held | .freevm, held | .copyuvm, held => Below rank .kmem held
  | .wakeup, held | .kill, held | .chprty, held | .updatestatistics, held =>
    Below rank .ptable held
  | .sleep lk, held => held = [lk] ∧ lk ≠ .kmem
  | .sched, held | .forkret, held => held = [.ptable]
  | _, held => held = []

def post : Fn → List Lock → List Lock
  | .forkret, _ => []
  | _, held => held

def contract : Contract Lock Fn where
  rank := rank
  guard := .ptable
  allowed f held := f = .cprintf → .ptable ∉ held
  pre := pre
  post := post

@[simp] theorem contract_rank : contract.rank = rank := rfl
@[simp] theorem contract_guard : contract.guard = .ptable := rfl
@[simp] theorem contract_pre : contract.pre = pre := rfl
@[simp] theorem contract_post : contract.post = post := rfl
@[simp] theorem contract_allowed (f : Fn) (held : List Lock) :
    contract.allowed f held ↔ (f = .cprintf → .ptable ∉ held) := Iff.rfl

/-- `sleep` takes `ptable.lock` over the lock it is given, and leaves with that one. -/
theorem sleep_keeps (b : Build) (lk : Lock) (hlk : lk ≠ .kmem) :
    wp contract (body b (.sleep lk)) (fun t => t = [lk]) [lk] := by
  by_cases hp : lk = .ptable
  · subst hp
    simp [body, pre, post]
  · have hrank : rank lk < rank .ptable := by
      cases lk <;> simp_all [rank]
    have herase : [Lock.ptable, lk].erase lk = [Lock.ptable] := by
      rw [List.erase_cons_tail (by simpa using Ne.symm hp)]
      simp
    simp [body, hp, hrank, herase, pre, post]

/-- Every function keeps its contract. -/
theorem body_keeps (b : Build) (f : Fn) (held : List Lock) (h : pre f held) :
    wp contract (body b f) (fun t => t = post f held) held := by
  cases f
  case sleep lk =>
    obtain ⟨rfl, hlk⟩ := h
    exact sleep_keeps b lk hlk
  case scheduler =>
    obtain rfl : held = [] := h
    cases b <;> simp [body, schedulerOf, pre, post]
  -- the code of each of the others is run through
  all_goals
    simp_all [pre, post, body, withBuf, linkBad, loadSegments, createPut, scanAndSwitch, rank]

theorem kernel_keeps (b : Build) : (kernel b).Keeps contract where
  body := body_keeps b
  entry f hf := by
    cases f <;> simp_all [kernel, pre, post]
  handler f hf := by
    cases f <;> simp_all [kernel, pre, post]

theorem boot_ordered (n : Nat) : Ordered contract (boot n) := by
  apply ordered_start
  · rfl
  · rfl
  · simp [Safe, pre, post]

/-- Locks are taken in order along every run in which nothing is printed under
`ptable.lock`. -/
theorem ordered_reaches {b : Build} {n : Nat} {s : Machine n}
    (h : Runs.Reaches (step (kernel b)) QuietUnderPtable (boot n) s) : Ordered contract s := by
  apply h.invariant (boot_ordered n)
  intro t a u ht hok hs
  apply ht.step (kernel_keeps b) _ hs
  intro f w hw hf
  subst hf
  simpa [QuietUnderPtable, hw] using hok

/-- As long as nothing is printed with `ptable.lock` held, the CPUs never wait for
each other in a cycle. -/
theorem spin_locks_never_cyclic (b : Build) (n : Nat) (s : Machine n)
    (h : Runs.Reaches (step (kernel b)) QuietUnderPtable (boot n) s) :
    ¬ CyclicWait s ∧
      ¬ ∃ c d, .ptable ∈ (s.cpu c).held ∧ Spins s c .cons ∧
        .cons ∈ (s.cpu d).held ∧ Spins s d .ptable := by
  have hacyclic := (ordered_reaches h).not_cyclicWait
  constructor
  · exact hacyclic
  · rintro ⟨c, d, hc, hsc, hd, hsd⟩
    apply hacyclic
    have hcd : WaitsFor s c d := ⟨.cons, hsc, hd⟩
    have hdc : WaitsFor s d c := ⟨.ptable, hsd, hc⟩
    exact ⟨c, .tail (.single hcd) hdc⟩

/-- CPU 0 takes `ptable.lock` in its scheduler and switches to the first process. -/
def dispatchFirst (b : Build) : List (Fin 2 × Act Fn) :=
  [(0, .go), (0, .go), (0, .right), (0, .go), (0, .go), (0, .go), (0, .go), (0, .go), (0, .go),
    (0, .left)] ++
  (if b = .fcfs then [(0, .go), (0, .right), (0, .go), (0, .go)] else []) ++
  [(0, .resume 0)]

/-- The lock is passed on to the process, and CPU 1 spins for it. -/
theorem spin_locks_never_cyclic_handover : ∃ s : Machine 2,
    (s.cpu 0).held = [.ptable] ∧ Spins s 1 .ptable ∧ ¬ CyclicWait s := by
  have h : Runs.Reaches (step (kernel .dflt)) QuietUnderPtable (boot 2) _ :=
    Runs.reaches_of_execIf (l := dispatchFirst .dflt ++
      [(1, .go), (1, .go), (1, .right), (1, .go), (1, .go), (1, .go), (1, .go)]) rfl
  exact ⟨_, rfl, ⟨_, rfl⟩, (spin_locks_never_cyclic .dflt 2 _ h).1⟩

/-- The process on CPU 0 calls `cps`, up to the `acquire` in its first `cprintf`. -/
def callCps : List (Fin 2 × Act Fn) :=
  [(0, .go), (0, .go), (0, .go), (0, .go), (0, .right), (0, .go), (0, .go),
    (0, .enter .trapSyscall), (0, .go), (0, .go), (0, .right), (0, .go), (0, .go), (0, .go)] ++
  List.replicate 22 (0, .right) ++
  [(0, .left), (0, .go), (0, .go), (0, .go), (0, .go), (0, .go), (0, .go)]

/-- A key is pressed on CPU 1, up to the `acquire` in `wakeup`. -/
def pressKey : List (Fin 2 × Act Fn) :=
  [(1, .interrupt .trapKernel), (1, .go), (1, .go), (1, .go), (1, .right), (1, .right), (1, .left),
    (1, .go), (1, .go), (1, .go), (1, .go), (1, .left), (1, .left), (1, .go), (1, .go)]

/-- In every build they come to hold one lock each and to spin for the other's. -/
theorem exec_cps_pressKey (b : Build) : ∃ s : Machine 2,
    Runs.exec (step (kernel b)) (dispatchFirst b ++ callCps ++ pressKey) (boot 2) = some s ∧
      .ptable ∈ (s.cpu 0).held ∧ Spins s 0 .cons ∧ .cons ∈ (s.cpu 1).held ∧ Spins s 1 .ptable := by
  cases b <;> exact ⟨_, rfl, .head _, ⟨_, rfl⟩, .head _, ⟨_, rfl⟩⟩

/-- `cps` on one CPU and a key press on another wait for each other. -/
theorem cps_key_press_deadlock : ∃ s : Machine 2,
    Runs.Reachable (step (kernel .dflt)) (boot 2) s ∧ CyclicWait s ∧
      .ptable ∈ (s.cpu 0).held ∧ Spins s 0 .cons ∧ .cons ∈ (s.cpu 1).held ∧ Spins s 1 .ptable := by
  obtain ⟨s, hrun, hp, hsc, hc, hsp⟩ := exec_cps_pressKey .dflt
  have h01 : WaitsFor s 0 1 := ⟨.cons, hsc, hc⟩
  have h10 : WaitsFor s 1 0 := ⟨.ptable, hsp, hp⟩
  exact ⟨s, Runs.reachable_of_exec hrun, ⟨0, .tail (.single h01) h10⟩, hp, hsc, hc, hsp⟩

end Xv6.KernelLocks

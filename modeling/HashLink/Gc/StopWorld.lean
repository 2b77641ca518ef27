import Mathlib.Logic.Function.Basic

/-!
Stopping the world: `gc_stop_world`, the global lock, and the sections in which the collector does not wait for a
thread. A step is one access to the words that the threads share, and the threads take theirs in any order, as a
sequentially consistent memory would have it. `GC_NO_THREADS` is not set.
-/

namespace HashLink.Gc

/-- A section of a thread that is still open: one of `hl_blocking`, or one of `gc_global_lock`. -/
inductive Hold where
  | region
  | lock
  deriving DecidableEq

/-- Where a thread is. A `brief` lock is given back at once, and `exclusive` tells `hl_gc_exclusive_begin` from a
collection. -/
inductive WorldPoint where
  /-- In the code of the program. -/
  | own
  /-- `hl_blocking(true)`, with no section open. -/
  | blockSave
  | blockCount
  /-- `hl_blocking(false)` after `t->gc_blocking--`. -/
  | unblockTest
  /-- `hl_gc_safepoint` after its test. -/
  | safeSave
  /-- `gc_global_lock(true)`, up to `hl_mutex_try_acquire`. -/
  | lockTry (brief : Bool)
  | lockSave (brief : Bool)
  | lockCount (brief : Bool)
  /-- `hl_mutex_acquire`. -/
  | lockWait (brief : Bool)
  /-- The mutex is taken, and `t->gc_blocking++` is next. -/
  | lockHeld (brief : Bool)
  | unlockCount
  /-- `hl_mutex_release`. -/
  | unlockRelease
  | stopSave (exclusive : Bool)
  | stopSet (exclusive : Bool)
  /-- The loop over the threads. -/
  | spin (exclusive : Bool) (i : Nat)
  /-- Behind `gc_stop_world(true)`, up to `gc_stop_world(false)`. -/
  | stopped
  deriving DecidableEq

/-- `hl_thread_info`. `holds` and `saved` are no words of the runtime: the sections that are open, and whether the
thread has run nothing outside of them since `gc_save_context`. -/
structure WorldThread where
  gcBlocking : Nat
  point : WorldPoint
  holds : List Hold
  saved : Bool

/-- `gc_threads`, with the owner of `global_lock` and how often it has taken it. -/
structure World where
  info : Nat → WorldThread
  threads : List Nat
  owner : Option Nat
  depth : Nat
  stoppingWorld : Bool
  exclusiveDepth : Nat

/-- What the code of a thread calls. -/
inductive WorldCall where
  /-- `hl_blocking(true)`. -/
  | blocking
  /-- `hl_blocking(false)`. -/
  | unblocking
  | safepoint
  | lock
  /-- `hl_gc_threads_try_lock`. -/
  | tryLock
  | unlock
  /-- A collection: `gc_stop_world(true)`, the mark, `gc_stop_world(false)`. -/
  | collect
  | exclusiveBegin
  | exclusiveEnd
  /-- The entry into the list in `hl_register_thread`. -/
  | register
  /-- `hl_unregister_thread` under the lock. -/
  | unregister
  deriving DecidableEq

/-- A thread calls, or goes on in a call. -/
inductive WorldEvent where
  | call (t : Nat) (call : WorldCall)
  | go (t : Nat)
  deriving DecidableEq

namespace WorldThread

/-- The thread goes on with code of the program. -/
def resume (w : WorldThread) : WorldThread :=
  { w with point := .own, saved := w.saved && w.gcBlocking != 0 }

/-- The end of `gc_global_lock(true)`. -/
def locked (w : WorldThread) (brief : Bool) : WorldThread :=
  if brief then { w with point := .unlockCount } else { w with holds := .lock :: w.holds, point := .own }

end WorldThread

namespace World

def start : World where
  info := fun _ => ⟨0, .own, [], false⟩
  threads := []
  owner := none
  depth := 0
  stoppingWorld := false
  exclusiveDepth := 0

def set (s : World) (t : Nat) (w : WorldThread) : World := { s with info := Function.update s.info t w }

/-- Whether the thread can take `global_lock`, which is recursive. -/
def free (s : World) (t : Nat) : Bool := s.owner = none ∨ s.owner = some t

def acquire (s : World) (t : Nat) : World := { s with owner := some t, depth := s.depth + 1 }

def release (s : World) : World :=
  { s with owner := if s.depth = 1 then none else s.owner, depth := s.depth - 1 }

/-- A call, up to its first access to a word that the threads share. The sections of a thread are nested, and an
exclusive section keeps the lock that it began with. -/
def call (s : World) (t : Nat) : WorldCall → World
  | .blocking =>
    if (s.info t).gcBlocking = 0 then s.set t { s.info t with point := .blockSave }
    else s.set t { s.info t with point := .blockCount }
  | .unblocking =>
    match (s.info t).holds with
    | .region :: holds =>
      s.set t { s.info t with gcBlocking := (s.info t).gcBlocking - 1, holds, point := .unblockTest }
    | _ => s
  | .safepoint =>
    if (s.info t).gcBlocking = 0 ∧ s.stoppingWorld = true then s.set t { s.info t with point := .safeSave } else s
  | .lock => s.set t { s.info t with point := .lockTry false }
  | .tryLock => if s.free t then (s.acquire t).set t { s.info t with point := .lockHeld false } else s
  | .unlock =>
    match (s.info t).holds with
    | .lock :: holds =>
      if s.exclusiveDepth < s.depth then
        s.set t { s.info t with gcBlocking := (s.info t).gcBlocking - 1, holds, point := .unlockRelease }
      else s
    | _ => s
  | .collect => if s.owner = some t then s.set t { s.info t with point := .stopSave false } else s
  | .exclusiveBegin =>
    if s.owner = some t ∧ s.exclusiveDepth < s.depth then s.set t { s.info t with point := .stopSave true } else s
  | .exclusiveEnd =>
    if s.owner = some t ∧ 0 < s.exclusiveDepth then
      ({ s with exclusiveDepth := s.exclusiveDepth - 1 } : World).set t { s.info t with point := .stopped }
    else s
  | .register => if s.owner = some t ∧ t ∉ s.threads then { s with threads := s.threads ++ [t] } else s
  | .unregister =>
    if (s.info t).holds = [.lock] ∧ s.exclusiveDepth = 0 then
      ({ s with threads := s.threads.erase t } : World).set t ⟨0, .unlockRelease, [], false⟩
    else s

/-- The next step in a call. -/
def go (s : World) (t : Nat) : World :=
  match (s.info t).point with
  | .own => s
  | .blockSave => s.set t { s.info t with saved := true, point := .blockCount }
  | .blockCount =>
    s.set t { s.info t with
      gcBlocking := (s.info t).gcBlocking + 1, holds := .region :: (s.info t).holds, point := .own }
  | .unblockTest =>
    if (s.info t).gcBlocking = 0 ∧ s.stoppingWorld = true then
      s.set t { s.info t with point := .lockTry true }
    else s.set t (s.info t).resume
  | .safeSave => s.set t { s.info t with saved := true, point := .lockTry true }
  | .lockTry brief =>
    if s.free t then (s.acquire t).set t { s.info t with point := .lockHeld brief }
    else s.set t { s.info t with point := .lockSave brief }
  | .lockSave brief => s.set t { s.info t with saved := true, point := .lockCount brief }
  | .lockCount brief =>
    s.set t { s.info t with gcBlocking := (s.info t).gcBlocking + 1, point := .lockWait brief }
  | .lockWait brief => if s.free t then (s.acquire t).set t ((s.info t).locked brief) else s
  | .lockHeld brief =>
    s.set t (({ s.info t with gcBlocking := (s.info t).gcBlocking + 1 } : WorldThread).locked brief)
  | .unlockCount =>
    s.set t { s.info t with gcBlocking := (s.info t).gcBlocking - 1, point := .unlockRelease }
  | .unlockRelease => s.release.set t (s.info t).resume
  | .stopSave exclusive => s.set t { s.info t with saved := true, point := .stopSet exclusive }
  | .stopSet exclusive =>
    ({ s with stoppingWorld := true } : World).set t { s.info t with point := .spin exclusive 0 }
  | .spin exclusive i =>
    match s.threads[i]? with
    | some u =>
      if (s.info u).gcBlocking = 0 then s else s.set t { s.info t with point := .spin exclusive (i + 1) }
    | none =>
      if exclusive then
        ({ s with exclusiveDepth := s.exclusiveDepth + 1 } : World).set t { s.info t with point := .own }
      else s.set t { s.info t with point := .stopped }
  | .stopped =>
    ({ s with stoppingWorld := s.stoppingWorld && s.exclusiveDepth != 0 } : World).set t (s.info t).resume

def step (s : World) : WorldEvent → World
  | .call t c => if (s.info t).point = .own then s.call t c else s
  | .go t => s.go t

def run (events : List WorldEvent) : World := events.foldl step start

/-- The thread runs code that may use the heap. -/
def Runs (s : World) (t : Nat) : Prop :=
  (s.info t).point = .own ∧ ((s.info t).gcBlocking = 0 ∨ s.owner = some t)

/-- The thread has stopped the others: it collects, or is in an exclusive section. -/
def Stopped (s : World) (t : Nat) : Prop :=
  s.owner = some t ∧ ((s.info t).point = .stopped ∨ 0 < s.exclusiveDepth)

end World

end HashLink.Gc

import Mathlib.Data.Fintype.Card
import Miqs.Threads

/-! The thread pool. Workers `ι` take jobs from a queue that clients `κ` add to. A step is what a
thread does under one mutex, or one access of a shared variable. Pausing is left out. -/
namespace Miqs.ThPool
open Miqs.Threads
variable {J ι κ : Type}

structure Job (J : Type) where
  number : Nat
  work : J

inductive Worker (J : Type) where
  /-- Before `while (threads_keepalive)`. -/
  | loop
  /-- In `bsem_wait`, before it looks at the semaphore. -/
  | waiting
  /-- In `pthread_cond_wait` of `bsem_wait`. -/
  | parked
  /-- After `bsem_wait`. -/
  | woken
  /-- Before `num_threads_working++`. -/
  | starting
  /-- Before `jobqueue_pull`. -/
  | pulling
  /-- In `jobqueue_pull`, before `bsem_post`. -/
  | posting (job : Job J)
  /-- With what was pulled, NULL if there was no job. -/
  | running (job : Option (Job J))
  /-- Before `num_threads_working--`. -/
  | finishing
  /-- After the loop, before `num_threads_alive--`. -/
  | leaving
  /-- Counted out, with `thcount_lock` still to be unlocked. -/
  | unlocking
  | gone

/-- Where a client is. `mark` is the number of jobs that had been added when `thpool_wait` was called. -/
inductive Client where
  | idle
  /-- In `jobqueue_push`, before `bsem_post`. -/
  | pushing
  /-- In `thpool_wait`, before it has `thcount_lock`. -/
  | locking (mark : Nat)
  /-- Before it reads `len`. -/
  | checking (mark : Nat)
  /-- `len` was zero, before it reads `num_threads_working`. -/
  | counting (mark : Nat)
  /-- In `pthread_cond_wait` of `thpool_wait`. -/
  | asleep (mark : Nat)
  /-- After `thpool_wait`. -/
  | returned (mark : Nat)
  /-- In the loops of `thpool_destroy`, before it reads `num_threads_alive`. -/
  | destroying
  /-- Before `bsem_post_all`. -/
  | postingAll
  /-- After these loops, when the pool is freed. -/
  | destroyed

structure Pool (J ι κ : Type) where
  queue : List (Job J)
  hasJobs : Bool
  /-- Held while a job was queued or pulled and the semaphore is yet to be posted. -/
  rwmutex : Bool
  /-- Held while a client reads `len` and `num_threads_working`, and by a worker that was counted out. -/
  thcountLock : Bool
  numThreadsWorking : Nat
  numThreadsAlive : Nat
  threadsKeepalive : Bool
  worker : ι → Worker J
  client : κ → Client
  /-- All jobs that were added, those that were pulled and those that were run. -/
  added : List (Job J)
  pulled : List (Job J)
  finished : List (Job J)

def thpoolInit [Fintype ι] : Pool J ι κ where
  queue := []
  hasJobs := false
  rwmutex := false
  thcountLock := false
  numThreadsWorking := 0
  numThreadsAlive := Fintype.card ι
  threadsKeepalive := true
  worker := fun _ => .loop
  client := fun _ => .idle
  added := []
  pulled := []
  finished := []

def Worker.wake : Worker J → Worker J
  | .parked => .waiting
  | w => w

def SignalJobs (w w' : ι → Worker J) : Prop := Wakes (· = .parked) Worker.wake w w'

def Client.Asleep : Client → Prop
  | .asleep _ => True
  | _ => False

def Client.wake : Client → Client
  | .asleep mark => .locking mark
  | c => c

def SignalIdle (c c' : κ → Client) : Prop := Wakes Client.Asleep Client.wake c c'

inductive Worker.Move (keepalive : Bool) : Worker J → Worker J → Prop where
  | enter : keepalive = true → Move keepalive .loop .waiting
  | leave : keepalive = false → Move keepalive .loop .leaving
  | wake : Move keepalive .parked .waiting
  | start : keepalive = true → Move keepalive .woken .starting
  | again : keepalive = false → Move keepalive .woken .loop
  | nothing : Move keepalive (.running none) .finishing

inductive Client.Move (mayWait : Prop) (added : Nat) : Client → Client → Prop where
  | wait : mayWait → Move mayWait added .idle (.locking added)
  | wake {mark : Nat} : Move mayWait added (.asleep mark) (.locking mark)
  | back {mark : Nat} : Move mayWait added (.returned mark) .idle

variable [DecidableEq ι] [DecidableEq κ]

inductive Step (mayWait : κ → Prop) : Pool J ι κ → Pool J ι κ → Prop where
  | move {p : Pool J ι κ} {i : ι} {w : Worker J} : (p.worker i).Move p.threadsKeepalive w →
      Step mayWait p { p with worker := Function.update p.worker i w }
  | park {p : Pool J ι κ} {i : ι} : p.worker i = .waiting → p.hasJobs = false →
      Step mayWait p { p with worker := Function.update p.worker i .parked }
  | take {p : Pool J ι κ} {i : ι} : p.worker i = .waiting → p.hasJobs = true →
      Step mayWait p { p with worker := Function.update p.worker i .woken, hasJobs := false }
  | count {p : Pool J ι κ} {i : ι} : p.worker i = .starting → p.thcountLock = false →
      Step mayWait p { p with
        worker := Function.update p.worker i .pulling, numThreadsWorking := p.numThreadsWorking + 1 }
  | pullNone {p : Pool J ι κ} {i : ι} : p.worker i = .pulling → p.rwmutex = false → p.queue = [] →
      Step mayWait p { p with worker := Function.update p.worker i (.running none) }
  | pullLast {p : Pool J ι κ} {i : ι} {job : Job J} : p.worker i = .pulling → p.rwmutex = false →
      p.queue = [job] →
      Step mayWait p { p with
        worker := Function.update p.worker i (.running (some job)), queue := [], pulled := p.pulled ++ [job] }
  | pullMore {p : Pool J ι κ} {i : ι} {job next : Job J} {queue : List (Job J)} : p.worker i = .pulling →
      p.rwmutex = false → p.queue = job :: next :: queue →
      Step mayWait p { p with
        worker := Function.update p.worker i (.posting job), queue := next :: queue, pulled := p.pulled ++ [job]
        rwmutex := true }
  | post {p : Pool J ι κ} {i : ι} {job : Job J} {w : ι → Worker J} : p.worker i = .posting job →
      SignalJobs (Function.update p.worker i (.running (some job))) w →
      Step mayWait p { p with worker := w, hasJobs := true, rwmutex := false }
  | run {p : Pool J ι κ} {i : ι} {job : Job J} : p.worker i = .running (some job) →
      Step mayWait p { p with worker := Function.update p.worker i .finishing, finished := p.finished ++ [job] }
  | finish {p : Pool J ι κ} {i : ι} {clients : κ → Client} : p.worker i = .finishing → p.thcountLock = false →
      (if p.numThreadsWorking - 1 = 0 then SignalIdle p.client clients else clients = p.client) →
      Step mayWait p { p with
        worker := Function.update p.worker i .loop, numThreadsWorking := p.numThreadsWorking - 1, client := clients }
  | exit {p : Pool J ι κ} {i : ι} : p.worker i = .leaving → p.thcountLock = false →
      Step mayWait p { p with
        worker := Function.update p.worker i .unlocking, numThreadsAlive := p.numThreadsAlive - 1
        thcountLock := true }
  | unlock {p : Pool J ι κ} {i : ι} : p.worker i = .unlocking →
      Step mayWait p { p with worker := Function.update p.worker i .gone, thcountLock := false }
  | call {p : Pool J ι κ} {c : κ} {a : Client} : (p.client c).Move (mayWait c) p.added.length a →
      Step mayWait p { p with client := Function.update p.client c a }
  | addWork {p : Pool J ι κ} {c : κ} (work : J) : p.client c = .idle → p.rwmutex = false →
      Step mayWait p { p with
        client := Function.update p.client c .pushing, queue := p.queue ++ [⟨p.added.length, work⟩]
        added := p.added ++ [⟨p.added.length, work⟩], rwmutex := true }
  | pushed {p : Pool J ι κ} {c : κ} {w : ι → Worker J} : p.client c = .pushing → SignalJobs p.worker w →
      Step mayWait p { p with
        client := Function.update p.client c .idle, worker := w, hasJobs := true, rwmutex := false }
  | lock {p : Pool J ι κ} {c : κ} {mark : Nat} : p.client c = .locking mark → p.thcountLock = false →
      Step mayWait p { p with client := Function.update p.client c (.checking mark), thcountLock := true }
  | noJobs {p : Pool J ι κ} {c : κ} {mark : Nat} : p.client c = .checking mark → p.queue = [] →
      Step mayWait p { p with client := Function.update p.client c (.counting mark) }
  | sleep {p : Pool J ι κ} {c : κ} {mark : Nat} :
      p.client c = .checking mark ∧ p.queue ≠ [] ∨ p.client c = .counting mark ∧ p.numThreadsWorking ≠ 0 →
      Step mayWait p { p with client := Function.update p.client c (.asleep mark), thcountLock := false }
  | allIdle {p : Pool J ι κ} {c : κ} {mark : Nat} : p.client c = .counting mark → p.numThreadsWorking = 0 →
      Step mayWait p { p with client := Function.update p.client c (.returned mark), thcountLock := false }
  | destroy {p : Pool J ι κ} {c : κ} : p.client c = .idle →
      Step mayWait p { p with client := Function.update p.client c .destroying, threadsKeepalive := false }
  -- `thcount_lock` is not held for these reads
  | stillAlive {p : Pool J ι κ} {c : κ} : p.client c = .destroying → p.numThreadsAlive ≠ 0 →
      Step mayWait p { p with client := Function.update p.client c .postingAll }
  | postAll {p : Pool J ι κ} {c : κ} : p.client c = .postingAll →
      Step mayWait p { p with
        client := Function.update p.client c .destroying, worker := fun i => (p.worker i).wake, hasJobs := true }
  | destroyed {p : Pool J ι κ} {c : κ} : p.client c = .destroying → p.numThreadsAlive = 0 →
      Step mayWait p { p with client := Function.update p.client c .destroyed }

def Reachable [Fintype ι] (mayWait : κ → Prop) (p : Pool J ι κ) : Prop :=
  Relation.ReflTransGen (Step mayWait) thpoolInit p

end Miqs.ThPool

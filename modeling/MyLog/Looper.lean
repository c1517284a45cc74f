import MyLog.Buffer
import MyLog.Lib.Pipeline

/-! `AsyncLooper` of `looper.hpp` as interleaved steps of the threads in `push`,
of the worker in `threadEntry` and of one caller of `stop`. The test of a wait
predicate and the release-and-sleep after it are two steps. -/

namespace MyLog

open Transition

inductive AsyncType
  | asyncSafe
  | asyncUnsafe
  deriving DecidableEq

/-- A call of `push`: the calling thread, how many calls that thread made before
it, its bytes, and whether it was entered before `stop` was called. -/
structure Call (ι : Type) where
  thread : ι
  seq : Nat
  data : Bytes
  beforeStop : Bool
  deriving DecidableEq

inductive Agent (ι : Type)
  | worker
  | producer (i : ι)
  deriving DecidableEq

inductive ProducerPc (ι : Type)
  | idle
  | lock (c : Call ι)
  | test (c : Call ι)
  | sleep (c : Call ι)
  | asleep (c : Call ι)
  | relock (c : Call ι)
  | write (c : Call ι)
  | notify (c : Call ι)
  | unlock (c : Call ι)

inductive WorkerPc
  | lock
  | check
  | test
  | sleep
  | asleep
  | relock
  | swap
  | notify
  | unlock
  | call
  | callback
  | reset
  | leave
  | exited
  deriving DecidableEq

inductive StopPc
  | idle
  | flag
  | notify
  | join
  | returned
  deriving DecidableEq

/-- A notified sleeper has to take the mutex again. -/
def ProducerPc.wake {ι : Type} : ProducerPc ι → ProducerPc ι
  | .asleep c => .relock c
  | p => p

def WorkerPc.wake : WorkerPc → WorkerPc
  | .asleep => .relock
  | p => p

/-- The members of the looper, the positions of its threads and, from `entered`
on, a history of the calls and of the batches given to `_callBack`. -/
structure Looper (ι : Type) where
  stop : Bool
  proBuf : Buffer
  conBuf : Buffer
  mutex : Option (Agent ι)
  producer : ι → ProducerPc ι
  worker : WorkerPc
  stopper : StopPc
  entered : List (Call ι)
  returned : List (Call ι)
  handed : List Bytes
  flow : Pipeline (Call ι)

namespace Looper

variable {ι : Type}

inductive Action (ι : Type)
  | call (i : ι) (data : Bytes)
  | append (i : ι)
  | producer (i : ι)
  | worker
  | callBack
  | callBackReturns
  | stopCall
  | stopFlag
  | stopNotify
  | stopReturn

def init : Looper ι where
  stop := false
  proBuf := Buffer.init
  conBuf := Buffer.init
  mutex := none
  producer _ := .idle
  worker := .lock
  stopper := .idle
  entered := []
  returned := []
  handed := []
  flow := .empty

section Steps

variable [DecidableEq ι]

def byThread (i : ι) (cs : List (Call ι)) : List (Call ι) :=
  cs.filter fun c => c.thread = i

def nextCall (s : Looper ι) (i : ι) (data : Bytes) : Call ι :=
  ⟨i, (byThread i s.entered).length, data, s.stopper = .idle⟩

inductive Step (ty : AsyncType) : Looper ι → Action ι → Looper ι → Prop
  | call (s : Looper ι) (i : ι) (data : Bytes) (h : s.producer i = .idle) :
      Step ty s (.call i data) { s with
        producer := Function.update s.producer i (.lock (s.nextCall i data))
        entered := s.entered ++ [s.nextCall i data] }
  | producerLock (s : Looper ι) (i : ι) (c : Call ι) (h : s.producer i = .lock c)
      (hm : s.mutex = none) :
      -- only the safe mode waits for room
      Step ty s (.producer i) { s with
        mutex := some (.producer i)
        producer := Function.update s.producer i
          (if ty = .asyncSafe then .test c else .write c) }
  | producerTest (s : Looper ι) (i : ι) (c : Call ι) (h : s.producer i = .test c) :
      Step ty s (.producer i) { s with
        producer := Function.update s.producer i
          (if c.data.length ≤ s.proBuf.writeAbleSize then .write c else .sleep c) }
  | producerSleep (s : Looper ι) (i : ι) (c : Call ι) (h : s.producer i = .sleep c) :
      Step ty s (.producer i) { s with
        mutex := none
        producer := Function.update s.producer i (.asleep c) }
  | producerSpurious (s : Looper ι) (i : ι) (c : Call ι) (h : s.producer i = .asleep c) :
      Step ty s (.producer i) { s with
        producer := Function.update s.producer i (.relock c) }
  | producerRelock (s : Looper ι) (i : ι) (c : Call ι) (h : s.producer i = .relock c)
      (hm : s.mutex = none) :
      Step ty s (.producer i) { s with
        mutex := some (.producer i)
        producer := Function.update s.producer i (.test c) }
  | append (s : Looper ι) (i : ι) (c : Call ι) (b : Buffer) (h : s.producer i = .write c)
      (hb : s.proBuf.push c.data = some b) :
      Step ty s (.append i) { s with
        proBuf := b
        producer := Function.update s.producer i (.notify c)
        flow := s.flow.accept c }
  | notifyOne (s : Looper ι) (i : ι) (c : Call ι) (h : s.producer i = .notify c) :
      Step ty s (.producer i) { s with
        worker := s.worker.wake
        producer := Function.update s.producer i (.unlock c) }
  | producerReturn (s : Looper ι) (i : ι) (c : Call ι) (h : s.producer i = .unlock c) :
      Step ty s (.producer i) { s with
        mutex := none
        producer := Function.update s.producer i .idle
        returned := s.returned ++ [c] }
  | workerLock (s : Looper ι) (h : s.worker = .lock) (hm : s.mutex = none) :
      Step ty s .worker { s with mutex := some .worker, worker := .check }
  | workerCheck (s : Looper ι) (h : s.worker = .check) :
      Step ty s .worker { s with
        worker := if s.stop && s.proBuf.empty then .leave else .test }
  | workerTest (s : Looper ι) (h : s.worker = .test) :
      Step ty s .worker { s with
        worker := if s.stop || !s.proBuf.empty then .swap else .sleep }
  | workerSleep (s : Looper ι) (h : s.worker = .sleep) :
      Step ty s .worker { s with mutex := none, worker := .asleep }
  | workerSpurious (s : Looper ι) (h : s.worker = .asleep) :
      Step ty s .worker { s with worker := .relock }
  | workerRelock (s : Looper ι) (h : s.worker = .relock) (hm : s.mutex = none) :
      Step ty s .worker { s with mutex := some .worker, worker := .test }
  | swap (s : Looper ι) (h : s.worker = .swap) :
      Step ty s .worker { s with
        proBuf := s.conBuf
        conBuf := s.proBuf
        worker := if ty = .asyncSafe then .notify else .unlock
        flow := s.flow.exchange }
  | notifyAll (s : Looper ι) (h : s.worker = .notify) :
      Step ty s .worker { s with
        producer := fun i => (s.producer i).wake
        worker := .unlock }
  | workerUnlock (s : Looper ι) (h : s.worker = .unlock) :
      Step ty s .worker { s with mutex := none, worker := .call }
  | callBack (s : Looper ι) (h : s.worker = .call) :
      -- the callback reads `begin()` and `readAbleSize()` of its buffer, no more
      Step ty s .callBack { s with
        worker := .callback
        handed := s.handed ++ [s.conBuf.readable]
        flow := s.flow.deliver }
  | callBackReturns (s : Looper ι) (h : s.worker = .callback) :
      Step ty s .callBackReturns { s with worker := .reset }
  | reset (s : Looper ι) (h : s.worker = .reset) :
      Step ty s .worker { s with conBuf := s.conBuf.reset, worker := .lock }
  | leave (s : Looper ι) (h : s.worker = .leave) :
      Step ty s .worker { s with mutex := none, worker := .exited }
  | stopCall (s : Looper ι) (h : s.stopper = .idle) :
      Step ty s .stopCall { s with stopper := .flag }
  | stopFlag (s : Looper ι) (h : s.stopper = .flag) :
      -- `_stop` is written without the mutex
      Step ty s .stopFlag { s with stop := true, stopper := .notify }
  | stopNotify (s : Looper ι) (h : s.stopper = .notify) :
      Step ty s .stopNotify { s with worker := s.worker.wake, stopper := .join }
  | stopReturn (s : Looper ι) (h : s.stopper = .join) (hw : s.worker = .exited) :
      Step ty s .stopReturn { s with stopper := .returned }

/-- The looper with any number of producers; a run calls `stop` at most once. -/
def system (ι : Type) [DecidableEq ι] (ty : AsyncType) : System (Looper ι) (Action ι) where
  init s := s = init
  step := Step ty

end Steps

end Looper

end MyLog

import MyLog.Builder
import MyLog.Lib.Linearization
import MyLog.Lib.Mutex
import MyLog.Lib.System

/-! `LoggerManager` and `GlobalLoggerBuilder::build` of `logger.hpp`, called by any number
of threads after the singleton has been constructed. Each step is one critical section,
or what a thread does between two of them. -/

namespace MyLog

open Transition Linearizability

/-- A logger object and where it is. The object never changes. -/
structure LoggerPtr where
  address : Nat
  object : BuiltLogger

def LoggerPtr.getName (l : LoggerPtr) : Bytes := l.object.logger.loggerName

/-- `_loggers` -/
abbrev Loggers := Bytes → Option LoggerPtr

namespace Loggers

/-- `insert` of an `unordered_map`, which leaves an entry that is there. -/
def insert (m : Loggers) (name : Bytes) (l : LoggerPtr) : Loggers :=
  if (m name).isSome then m else Function.update m name (some l)

def hasLogger (m : Loggers) (name : Bytes) : Bool := (m name).isSome

def getLogger (m : Loggers) (name : Bytes) : Option LoggerPtr := m name

end Loggers

inductive ManagerCall
  | addLogger (l : LoggerPtr)
  | hasLogger (name : Bytes)
  | getLogger (name : Bytes)
  | build (b : LoggerBuilder)

inductive ManagerResult
  | done
  | has (b : Bool)
  | got (l : Option LoggerPtr)
  | built (l : LoggerPtr)

/-- A critical section. The two of `addLogger` carry what its caller returns in the end:
nothing, or the logger that `build` has made. -/
inductive CriticalSection
  | addHas (l : LoggerPtr) (r : ManagerResult)
  | addInsert (l : LoggerPtr) (r : ManagerResult)
  | hasLogger (name : Bytes)
  | getLogger (name : Bytes)

inductive ManagerPc
  | idle
  | build (b : LoggerBuilder)
  | lock (k : CriticalSection)
  | locked (k : CriticalSection)
  | ret (r : ManagerResult)

def ManagerPc.holds : ManagerPc → Bool
  | .locked _ => true
  | _ => false

def ManagerCall.enter : ManagerCall → ManagerPc
  | .addLogger l => .lock (.addHas l .done)
  | .hasLogger name => .lock (.hasLogger name)
  | .getLogger name => .lock (.getLogger name)
  | .build b => .build b

def CriticalSection.run (m : Loggers) : CriticalSection → Loggers × ManagerPc
  | .addHas l r => (m, if m.hasLogger l.getName then .ret r else .lock (.addInsert l r))
  | .addInsert l r => (m.insert l.getName l, .ret r)
  | .hasLogger name => (m, .ret (.has (m.hasLogger name)))
  | .getLogger name => (m, .ret (.got (m.getLogger name)))

/-- The members of the manager, the logger objects, the positions of the threads with
the number of calls each has finished, and a history of the calls. -/
structure LoggerManager (ι : Type) where
  mutex : Option ι
  rootLogger : LoggerPtr
  loggers : Loggers
  objects : List LoggerPtr
  pc : ι → ManagerPc
  calls : ι → Nat
  history : List (Event (ι × Nat) ManagerCall ManagerResult)

namespace LoggerManager

variable {ι : Type}

def rooted (l : LoggerPtr) : Loggers := Loggers.insert (fun _ => none) (utf8 "root") l

/-- The manager after its constructor, which has built `x`. -/
def init (x : BuiltLogger) : LoggerManager ι where
  mutex := none
  rootLogger := ⟨0, x⟩
  loggers := rooted ⟨0, x⟩
  objects := [⟨0, x⟩]
  pc _ := .idle
  calls _ := 0
  history := []

def make (w : LoggerManager ι) (x : BuiltLogger) : LoggerPtr := ⟨w.objects.length, x⟩

inductive Action (ι : Type)
  | construct (x : BuiltLogger)
  | call (i : ι) (op : ManagerCall)
  | build (i : ι)
  | lock (i : ι)
  | run (i : ι)
  | ret (i : ι)

variable [DecidableEq ι]

inductive Step : LoggerManager ι → Action ι → LoggerManager ι → Prop
  /-- A logger is made outside the manager. -/
  | construct (w : LoggerManager ι) (x : BuiltLogger) :
      Step w (.construct x) { w with objects := w.objects ++ [w.make x] }
  | call (w : LoggerManager ι) (i : ι) (op : ManagerCall) (h : w.pc i = .idle)
      (hl : ∀ l, op = .addLogger l → l ∈ w.objects) :
      Step w (.call i op) { w with
        pc := Function.update w.pc i op.enter
        history := w.history ++ [.invoke (i, w.calls i) op] }
  | build (w : LoggerManager ι) (i : ι) (b b' : LoggerBuilder) (psink : SinkId)
      (x : BuiltLogger) (h : w.pc i = .build b) (hb : b.build psink = some (b', x)) :
      -- up to `addLogger` the global builder does what the local one does
      Step w (.build i) { w with
        objects := w.objects ++ [w.make x]
        pc := Function.update w.pc i (.lock (.addHas (w.make x) (.built (w.make x)))) }
  | lock (w : LoggerManager ι) (i : ι) (k : CriticalSection) (h : w.pc i = .lock k)
      (hm : w.mutex = none) :
      Step w (.lock i) { w with
        mutex := some i
        pc := Function.update w.pc i (.locked k) }
  | run (w : LoggerManager ι) (i : ι) (k : CriticalSection) (h : w.pc i = .locked k) :
      Step w (.run i) { w with
        mutex := none
        loggers := (k.run w.loggers).1
        pc := Function.update w.pc i (k.run w.loggers).2 }
  | ret (w : LoggerManager ι) (i : ι) (r : ManagerResult) (h : w.pc i = .ret r) :
      Step w (.ret i) { w with
        pc := Function.update w.pc i .idle
        calls := Function.update w.calls i (w.calls i + 1)
        history := w.history ++ [.respond (i, w.calls i) r] }

variable (ι) in
def system : System (LoggerManager ι) (Action ι) where
  init w := ∃ psink b x,
    (LoggerBuilder.init.buildLoggerName (utf8 "root")).build psink = some (b, x) ∧ w = init x
  step := Step

/-- The operations as they would be if nothing could come between their steps. -/
inductive Atomic : Loggers → ManagerCall → ManagerResult → Loggers → Prop
  | addLogger (m : Loggers) (l : LoggerPtr) :
      Atomic m (.addLogger l) .done (m.insert l.getName l)
  | hasLogger (m : Loggers) (name : Bytes) : Atomic m (.hasLogger name) (.has (m name).isSome) m
  | getLogger (m : Loggers) (name : Bytes) : Atomic m (.getLogger name) (.got (m name)) m
  | build (m : Loggers) (l : LoggerPtr) (b b' : LoggerBuilder) (psink : SinkId)
      (h : b.build psink = some (b', l.object)) :
      Atomic m (.build b) (.built l) (m.insert l.getName l)

section Reachable

variable {w w' : LoggerManager ι} {a : Action ι}

theorem exclusive (hr : (system ι).Reachable w) :
    Mutex.Exclusive w.mutex (ManagerPc.holds ∘ w.pc) := by
  apply hr.invariant
  · rintro w ⟨psink, b, x, -, rfl⟩ i
    simp [init, ManagerPc.holds]
  · rintro s a t - ih hs
    apply ih.move
    cases hs with
    | construct => exact .keep _ _
    | call i op hpc =>
      rw [Function.comp_update]
      have hi : (ManagerPc.holds ∘ s.pc) i = op.enter.holds := by
        cases op <;> simp [hpc, ManagerCall.enter, ManagerPc.holds]
      exact .stay _ hi
    | build i b b' psink x hpc | ret i r hpc =>
      rw [Function.comp_update]
      exact .stay _ (by simp [hpc, ManagerPc.holds])
    | lock i k hpc hm =>
      rw [Function.comp_update, hm]
      exact .acquire i _
    | run i k hpc =>
      have hout : (k.run s.loggers).2.holds = false := by
        cases k with
        | addHas =>
          simp only [CriticalSection.run]
          split <;> rfl
        | _ => rfl
      rw [Function.comp_update, hout]
      exact .release _ i _ (by simp [hpc, ManagerPc.holds])

theorem addresses (hr : (system ι).Reachable w) :
    w.objects.map LoggerPtr.address = List.range w.objects.length := by
  apply hr.invariant
  · rintro w ⟨psink, b, x, -, rfl⟩
    rfl
  · rintro s a t - ih hs
    cases hs with
    | construct | build =>
      simp only [List.map_append, ih, List.length_append, List.length_singleton, List.range_succ]
      rfl
    | _ => exact ih

theorem same_object (hr : (system ι).Reachable w) {l l' : LoggerPtr} (hl : l ∈ w.objects)
    (hl' : l' ∈ w.objects) (h : l.address = l'.address) : l = l' :=
  List.inj_on_of_nodup_map (addresses hr ▸ List.nodup_range) hl hl' h

end Reachable

end LoggerManager

end MyLog

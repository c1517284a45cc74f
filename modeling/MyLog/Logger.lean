import MyLog.Formatter
import MyLog.Looper

/-! `Logger` of `logger.hpp`: what `debug`, `info`, `warn`, `error` and `fatal` hand
to `log`, and the steps that the two kinds of logger take. -/

namespace MyLog

abbrev SinkId := Nat

structure Logger where
  loggerName : Bytes
  limitLevel : LogLevel
  formatter : Formatter
  sinks : List SinkId

/-- What a call hands to `log`. Where `vasprintf` fails, the call reads and frees a
pointer that nothing has set. -/
inductive Handed
  | nothing
  | text (data : Bytes)
  | undefined

namespace Logger

variable (P : Platform) (l : Logger)

/-- The arguments of a call other than its format, the time and thread that
`LogMsg` reads, and the text that `vasprintf` stores, if it does not fail. -/
structure Args where
  file : Bytes
  line : Nat
  time : Int
  tid : Nat
  res : Option Bytes

/-- `LogMsg msg(level, file, line, str, _logger_name);` -/
def logMsg (level : LogLevel) (a : Args) (str : Bytes) : LogMsg :=
  { ctime := a.time
    level := level
    file := a.file
    line := a.line
    tid := a.tid
    payload := cString str
    logger := l.loggerName }

def serialize (level : LogLevel) (a : Args) (str : Bytes) : Bytes :=
  l.formatter.format P (l.logMsg level a str)

def logAt (level : LogLevel) (a : Args) : Handed :=
  if level < l.limitLevel then .nothing
  else match a.res with
    | none => .undefined
    | some str => .text (l.serialize P level a str)

def debug : Args → Handed := l.logAt P .debug
def info : Args → Handed := l.logAt P .info
def warn : Args → Handed := l.logAt P .warn
def error : Args → Handed := l.logAt P .error
def fatal : Args → Handed := l.logAt P .fatal

end Logger

inductive Severity
  | debug
  | info
  | warn
  | error
  | fatal
  deriving DecidableEq

def Severity.level : Severity → LogLevel
  | debug => .debug
  | info => .info
  | warn => .warn
  | error => .error
  | fatal => .fatal

/-- A call of one of the five functions whose `vasprintf` succeeds with a text that
has no NUL. -/
structure Request where
  severity : Severity
  file : Bytes
  line : Nat
  time : Int
  tid : Nat
  text : Bytes
  nulFree : 0 ∉ text

namespace Logger

variable (P : Platform) (l : Logger)

def args (r : Request) : Args := ⟨r.file, r.line, r.time, r.tid, some r.text⟩

def handed (r : Request) : Handed :=
  match r.severity with
  | .debug => l.debug P (args r)
  | .info => l.info P (args r)
  | .warn => l.warn P (args r)
  | .error => l.error P (args r)
  | .fatal => l.fatal P (args r)

def message (r : Request) : LogMsg :=
  { ctime := r.time
    level := r.severity.level
    file := r.file
    line := r.line
    tid := r.tid
    payload := r.text
    logger := l.loggerName }

def textOf (r : Request) : Bytes := l.formatter.format P (l.message r)

def enabled (r : Request) : Bool := ¬ r.severity.level < l.limitLevel

theorem handed_eq (r : Request) :
    l.handed P r = if l.enabled r then .text (l.textOf P r) else .nothing := by
  have hat : l.handed P r = l.logAt P r.severity.level (args r) := by
    rw [handed]
    cases r.severity <;> rfl
  by_cases h : r.severity.level < l.limitLevel
  · simp [hat, logAt, enabled, h]
  · simp [hat, logAt, enabled, h, args, serialize, logMsg, textOf, message,
      cString_of_nulFree r.nulFree]

theorem handed_nothing {r : Request} (h : l.handed P r = .nothing) : l.enabled r = false := by
  by_contra he
  rw [handed_eq, if_pos (by simpa using he)] at h
  cases h

theorem handed_text {r : Request} {data : Bytes} (h : l.handed P r = .text data) :
    l.enabled r = true ∧ data = l.textOf P r := by
  by_cases he : l.enabled r = true
  · rw [handed_eq, if_pos he] at h
    exact ⟨he, (Handed.text.inj h).symm⟩
  · rw [handed_eq, if_neg he] at h
    cases h

end Logger

/-- Where a loop over `_sinks` stands: about to call the `k`-th sink, or in it. -/
inductive SinkPc
  | next (k : Nat)
  | within (k : Nat)
  deriving DecidableEq

def SinkPc.reached : SinkPc → Nat
  | next k => k
  | within k => k + 1

/-- The steps of a logger. A synchronous one acquires its mutex, enters and exits
each sink and releases the mutex on the calling thread; an asynchronous one takes
the steps of its looper, whose callback enters and exits each sink. -/
inductive LoggerAction (ι : Type)
  | call (i : ι) (r : Request)
  | acquire (i : ι)
  | enter (i : ι)
  | exit (i : ι)
  | release (i : ι)
  | looper (a : Looper.Action ι)
  | workerEnter
  | workerExit

section Order

variable {ι : Type} [DecidableEq ι]

def ofThread (i : ι) (order : List (ι × Request)) : List Request :=
  (order.filter fun c => c.1 = i).map Prod.snd

@[simp] theorem ofThread_append (i : ι) (xs ys : List (ι × Request)) :
    ofThread i (xs ++ ys) = ofThread i xs ++ ofThread i ys := by
  simp [ofThread]

theorem ofThread_self (i : ι) (rs : List Request) : ofThread i (rs.map (i, ·)) = rs := by
  simp [ofThread, List.filter_map, Function.comp_def]

theorem ofThread_ne {i j : ι} (h : i ≠ j) (rs : List Request) :
    ofThread j (rs.map (i, ·)) = [] := by
  simp [ofThread, List.filter_map, Function.comp_def, h]

/-- Each thread's enabled calls are those in the order, in the thread's own order,
and then the call it has still to bring into the order. -/
def InOrder (l : Logger) (issued : ι → List Request) (order : List (ι × Request))
    (pending : ι → List Request) : Prop :=
  ∀ i, (issued i).filter l.enabled = ofThread i order ++ pending i

section InOrder

variable {l : Logger} {issued pending : ι → List Request} {order : List (ι × Request)} {i : ι}
  {r : Request}

theorem InOrder.filtered (h : InOrder l issued order pending) (hr : l.enabled r = false) :
    InOrder l (Function.update issued i (issued i ++ [r])) order pending := by
  intro j
  by_cases hj : j = i
  · subst hj
    simpa [hr] using h j
  · simpa [hj] using h j

theorem InOrder.call (h : InOrder l issued order pending) (hr : l.enabled r = true)
    (hp : pending i = []) : InOrder l (Function.update issued i (issued i ++ [r])) order
      (Function.update pending i [r]) := by
  intro j
  by_cases hj : j = i
  · subst hj
    have := h j
    rw [hp, List.append_nil] at this
    simp [hr, this]
  · simpa [hj] using h j

theorem InOrder.place (h : InOrder l issued order pending) (i : ι) :
    InOrder l issued (order ++ (pending i).map (i, ·)) (Function.update pending i []) := by
  intro j
  by_cases hj : j = i
  · subst hj
    simpa [ofThread_self] using h j
  · simpa [hj, ofThread_ne (Ne.symm hj)] using h j

end InOrder

end Order

end MyLog

import MyLog.Lib.Delimited
import MyLog.Registry

/-! Programs that call builders of both kinds from one thread. A logger has the settings that
were made last on its builder, and the manager has the first logger of each name. -/

namespace MyLog

inductive BuilderOp
  | buildLoggerType (type : LoggerType)
  | buildEnableUnSafeAsync
  | buildLoggerName (name : Bytes)
  | buildLoggerLevel (level : LogLevel)
  | buildFormatter (patten : Bytes)
  | buildSink (psink : SinkId)
  | build (psink : SinkId)

inductive BuilderKind
  | localBuilder
  | globalBuilder
  deriving DecidableEq

namespace LoggerBuilder

def buildLoggerLevel (b : LoggerBuilder) (level : LogLevel) : LoggerBuilder :=
  { b with limitLevel := level }

/-- `none` where the assertion of the new formatter fails. -/
def buildFormatter (b : LoggerBuilder) (patten : Bytes) : Option LoggerBuilder :=
  (Formatter.make patten).map fun f => { b with formatter := some f }

/-- The builder after a call, and the logger that the call returns. -/
def apply (b : LoggerBuilder) : BuilderOp → Option (LoggerBuilder × Option BuiltLogger)
  | .buildLoggerType type => some (b.buildLoggerType type, none)
  | .buildEnableUnSafeAsync => some (b.buildEnableUnSafeAsync, none)
  | .buildLoggerName name => some (b.buildLoggerName name, none)
  | .buildLoggerLevel level => some (b.buildLoggerLevel level, none)
  | .buildFormatter patten => (b.buildFormatter patten).map fun b' => (b', none)
  | .buildSink psink => some (b.buildSink psink, none)
  | .build psink => (b.build psink).map fun r => (r.1, some r.2)

end LoggerBuilder

def Loggers.addLogger (m : Loggers) (l : LoggerPtr) : Loggers :=
  if m.hasLogger l.getName then m else m.insert l.getName l

/-- The map has the first of the loggers of each name. -/
def Loggers.FirstOf (m : Loggers) (ls : List LoggerPtr) : Prop :=
  ∀ name, m name = ls.find? fun l => l.getName = name

theorem Loggers.FirstOf.addLogger {m : Loggers} {ls : List LoggerPtr} (h : m.FirstOf ls)
    (l : LoggerPtr) : (m.addLogger l).FirstOf (ls ++ [l]) := by
  intro name
  rw [List.find?_append, ← h name, Loggers.addLogger, Loggers.hasLogger]
  by_cases hl : (m l.getName).isSome = true
  · rw [if_pos hl]
    by_cases hn : l.getName = name
    · subst hn
      obtain ⟨x, hx⟩ := Option.isSome_iff_exists.mp hl
      rw [hx, Option.some_or]
    · simp [hn]
  · rw [if_neg hl, Loggers.insert, if_neg hl]
    by_cases hn : l.getName = name
    · subst hn
      have hnone : m l.getName = none := by simpa using hl
      simp [hnone]
    · rw [Function.update_of_ne (Ne.symm hn)]
      simp [hn]

namespace BuilderOp

def type : BuilderOp → Option LoggerType
  | buildLoggerType type => some type
  | _ => none

def looperType : BuilderOp → Option AsyncType
  | buildEnableUnSafeAsync => some .asyncUnsafe
  | _ => none

def name : BuilderOp → Option Bytes
  | buildLoggerName name => some name
  | _ => none

def level : BuilderOp → Option LogLevel
  | buildLoggerLevel level => some level
  | _ => none

def patten : BuilderOp → Option Bytes
  | buildFormatter patten => some patten
  | _ => none

def sink : BuilderOp → Option SinkId
  | buildSink psink => some psink
  | _ => none

/-- The `StdoutSink` that a `build` has ready. -/
def standard : BuilderOp → Option SinkId
  | build psink => some psink
  | _ => none

variable {α : Type}

def last (f : BuilderOp → Option α) (ops : List BuilderOp) : Option α :=
  (ops.filterMap f).getLast?

/-- The standard output comes first where a `build` came before every sink. -/
def sinks (ops : List BuilderOp) : List SinkId :=
  ((ops.find? fun op => op.sink.isSome || op.standard.isSome).bind standard).toList ++
    ops.filterMap sink

theorem last_append (f : BuilderOp → Option α) (ops : List BuilderOp) (op : BuilderOp) :
    last f (ops ++ [op]) = (f op).or (last f ops) := by
  rw [last, List.filterMap_append, List.getLast?_append]
  cases hf : f op <;> simp [last, hf]

theorem last_other {f : BuilderOp → Option α} {op : BuilderOp} (h : f op = none)
    (ops : List BuilderOp) : last f (ops ++ [op]) = last f ops := by
  rw [last_append, h, Option.none_or]

theorem last_getD (f : BuilderOp → Option α) (ops : List BuilderOp) (op : BuilderOp) (d : α) :
    (last f (ops ++ [op])).getD d = (f op).getD ((last f ops).getD d) := by
  rw [last_append]
  cases f op <;> rfl

theorem sinks_other {ops : List BuilderOp} {op : BuilderOp} (hs : op.sink = none)
    (hb : op.standard = none) : sinks (ops ++ [op]) = sinks ops := by
  simp [sinks, List.find?_append, hs, hb]

theorem sinks_buildSink (ops : List BuilderOp) (psink : SinkId) :
    sinks (ops ++ [buildSink psink]) = sinks ops ++ [psink] := by
  rw [sinks, List.find?_append, List.filterMap_append, sinks]
  cases ops.find? fun op => op.sink.isSome || op.standard.isSome with
  | none => simp [sink, standard]
  | some op => simp [sink]

theorem sinks_eq_nil_iff (ops : List BuilderOp) : sinks ops = [] ↔
    ops.find? (fun op => op.sink.isSome || op.standard.isSome) = none := by
  constructor
  · intro h
    by_contra hfind
    obtain ⟨op, hop⟩ := Option.ne_none_iff_exists'.mp hfind
    have hsome := List.find?_some hop
    have hmem := List.mem_of_find?_eq_some hop
    rw [sinks, List.append_eq_nil_iff, hop] at h
    cases op with
    | buildSink psink =>
      have hnil := List.filterMap_eq_nil_iff.mp h.2 _ hmem
      cases hnil
    | build psink => cases h.1
    | _ => cases hsome
  · intro h
    rw [sinks, h, List.append_eq_nil_iff]
    refine ⟨rfl, List.filterMap_eq_nil_iff.mpr fun op hop => ?_⟩
    have hno := List.find?_eq_none.mp h op hop
    cases hs : op.sink with
    | none => rfl
    | some psink => simp [hs] at hno

theorem sinks_build (ops : List BuilderOp) (psink : SinkId) :
    sinks (ops ++ [build psink]) = if sinks ops = [] then [psink] else sinks ops := by
  by_cases h : sinks ops = []
  · have hfind := (sinks_eq_nil_iff ops).mp h
    have hnil : ops.filterMap sink = [] := (List.append_eq_nil_iff.mp h).2
    rw [if_pos h, sinks, List.find?_append, List.filterMap_append, hfind, hnil]
    rfl
  · obtain ⟨op, hop⟩ := Option.ne_none_iff_exists'.mp (mt (sinks_eq_nil_iff ops).mpr h)
    rw [if_neg h, sinks, List.find?_append, List.filterMap_append, sinks, hop]
    simp [sink]

/-- What the calls on a builder have made of it. -/
structure Described (ops : List BuilderOp) (b : LoggerBuilder) : Prop where
  type : b.loggerType = (last type ops).getD .loggerAsync
  looperType : b.looperType = (last looperType ops).getD .asyncSafe
  name : b.loggerName = (last name ops).getD []
  level : b.limitLevel = (last level ops).getD .debug
  formatter : ∀ f, b.formatter = some f →
    Formatter.make ((last patten ops).getD Formatter.defaultPattern) = some f
  unset : b.formatter = none → last patten ops = none
  sinks : b.sinks = sinks ops

/-- The logger that the last of the calls, a `build`, returns. -/
structure Configured (ops : List BuilderOp) (x : BuiltLogger) : Prop where
  type : x.type = (last type ops).getD .loggerAsync
  looperType : x.looperType = (last looperType ops).getD .asyncSafe
  name : x.logger.loggerName = (last name ops).getD []
  named : x.logger.loggerName ≠ []
  level : x.logger.limitLevel = (last level ops).getD .debug
  formatter : Formatter.make ((last patten ops).getD Formatter.defaultPattern) =
    some x.logger.formatter
  sinks : x.logger.sinks = sinks ops
  some_sink : x.logger.sinks ≠ []

theorem described_init : Described [] .init :=
  ⟨rfl, rfl, rfl, rfl, fun _ h => (by cases h), fun _ => rfl, rfl⟩

variable {ops : List BuilderOp} {b b' : LoggerBuilder} {op : BuilderOp}

/-- The settings that a call replaces or leaves. -/
structure Sets (b : LoggerBuilder) (op : BuilderOp) (b' : LoggerBuilder) : Prop where
  type : b'.loggerType = op.type.getD b.loggerType
  looperType : b'.looperType = op.looperType.getD b.looperType
  name : b'.loggerName = op.name.getD b.loggerName
  level : b'.limitLevel = op.level.getD b.limitLevel

theorem Described.sets (h : Described ops b) (hb : Sets b op b')
    (hf : ∀ f, b'.formatter = some f →
      Formatter.make ((last patten (ops ++ [op])).getD Formatter.defaultPattern) = some f)
    (hu : b'.formatter = none → last patten (ops ++ [op]) = none)
    (hs : b'.sinks = BuilderOp.sinks (ops ++ [op])) : Described (ops ++ [op]) b' := by
  refine ⟨?_, ?_, ?_, ?_, hf, hu, hs⟩ <;> rw [last_getD]
  · rw [← h.type]
    exact hb.type
  · rw [← h.looperType]
    exact hb.looperType
  · rw [← h.name]
    exact hb.name
  · rw [← h.level]
    exact hb.level

theorem Described.keeps (h : Described ops b) (hb : Sets b op b') (hp : op.patten = none)
    (hf : b'.formatter = b.formatter) (hs : b'.sinks = BuilderOp.sinks (ops ++ [op])) :
    Described (ops ++ [op]) b' := by
  refine h.sets hb (fun f hf' => ?_) (fun hnone => ?_) hs <;> rw [last_other hp]
  · exact h.formatter f (hf ▸ hf')
  · exact h.unset (hf ▸ hnone)

theorem Described.buildFormatter (h : Described ops b) {p : Bytes}
    (hp : b.buildFormatter p = some b') : Described (ops ++ [.buildFormatter p]) b' := by
  obtain ⟨f, hf, rfl⟩ := Option.map_eq_some_iff.mp hp
  have hlast : last patten (ops ++ [.buildFormatter p]) = some p := last_append ..
  refine h.sets ⟨rfl, rfl, rfl, rfl⟩ (fun f' hf' => ?_) (fun hnone => (by cases hnone)) ?_
  · rw [hlast, Option.getD_some, hf]
    exact hf'
  · rw [sinks_other rfl rfl]
    exact h.sinks

theorem build_formatter {psink : SinkId} {x : BuiltLogger} (h : b.build psink = some (b', x)) :
    b.loggerName ≠ [] ∧ b'.formatter = some x.logger.formatter ∧
      b.formatter.or (Formatter.make Formatter.defaultPattern) = some x.logger.formatter := by
  rw [LoggerBuilder.build] at h
  by_cases hn : b.loggerName = []
  · simp [hn] at h
  · rw [if_neg hn] at h
    cases hf : b.formatter.or (Formatter.make Formatter.defaultPattern) with
    | none => simp [hf] at h
    | some f =>
      simp only [hf, Option.some.injEq, Prod.mk.injEq] at h
      obtain ⟨rfl, rfl⟩ := h
      refine ⟨hn, ?_, rfl⟩
      split <;> rfl

theorem Described.make (h : Described ops b) {f : Formatter}
    (hf : b.formatter.or (Formatter.make Formatter.defaultPattern) = some f) :
    Formatter.make ((last patten ops).getD Formatter.defaultPattern) = some f := by
  cases hb : b.formatter with
  | none =>
    rw [h.unset hb]
    simpa [hb] using hf
  | some f' =>
    obtain rfl : f' = f := by simpa [hb] using hf
    exact h.formatter f' hb

theorem Described.build (h : Described ops b) {psink : SinkId} {x : BuiltLogger}
    (hx : b.build psink = some (b', x)) :
    Described (ops ++ [.build psink]) b' ∧ Configured (ops ++ [.build psink]) x := by
  obtain ⟨hnamed, hset, hor⟩ := build_formatter hx
  have hsome : b'.sinks ≠ [] := (LoggerBuilder.build_sinks hx).2.1
  have hmake : Formatter.make ((last patten (ops ++ [.build psink])).getD
      Formatter.defaultPattern) = some x.logger.formatter := by
    rw [last_other rfl]
    exact h.make hor
  obtain ⟨f, hb, he⟩ := LoggerBuilder.build_spec hx
  have hsinks : b'.sinks = BuilderOp.sinks (ops ++ [.build psink]) := by
    rw [sinks_build, hb, ← h.sinks]
  have hd : Described (ops ++ [.build psink]) b' := by
    refine h.sets ?_ (fun f' hf' => ?_) (fun hnone => ?_) hsinks
    · rw [hb]
      exact ⟨rfl, rfl, rfl, rfl⟩
    · rw [hmake, ← hset, hf']
    · rw [hset] at hnone
      cases hnone
  refine ⟨hd, ?_, ?_, ?_, ?_, ?_, hmake, ?_, ?_⟩
  · rw [← hd.type, he, hb]
  · rw [← hd.looperType, he, hb]
  · rw [← hd.name, he, hb]
  · rw [he]
    exact hnamed
  · rw [← hd.level, he, hb]
  · rw [he]
    exact hsinks
  · rw [he]
    exact hsome

/-- Each call adds to the description of its builder, and a `build` returns a logger of that
description. -/
theorem Described.apply (h : Described ops b) {x : Option BuiltLogger}
    (hb : b.apply op = some (b', x)) :
    Described (ops ++ [op]) b' ∧ ∀ y, x = some y → Configured (ops ++ [op]) y := by
  have hsetting {c : LoggerBuilder} (hc : some (c, none) = some (b', x))
      (hd : Described (ops ++ [op]) c) :
      Described (ops ++ [op]) b' ∧ ∀ y, x = some y → Configured (ops ++ [op]) y := by
    obtain ⟨rfl, rfl⟩ := Prod.mk.inj (Option.some.inj hc)
    exact ⟨hd, fun y hy => by cases hy⟩
  cases op with
  | build psink =>
    obtain ⟨⟨c, y⟩, hc, he⟩ := Option.map_eq_some_iff.mp hb
    obtain ⟨rfl, rfl⟩ := Prod.mk.inj he
    obtain ⟨hd, hconf⟩ := h.build hc
    exact ⟨hd, fun z hz => Option.some.inj hz ▸ hconf⟩
  | buildFormatter p =>
    obtain ⟨c, hc, he⟩ := Option.map_eq_some_iff.mp hb
    exact hsetting (congrArg some he) (h.buildFormatter hc)
  | buildSink psink =>
    refine hsetting hb (h.keeps ⟨rfl, rfl, rfl, rfl⟩ rfl rfl ?_)
    rw [sinks_buildSink, ← h.sinks]
    rfl
  | _ =>
    refine hsetting hb (h.keeps ⟨rfl, rfl, rfl, rfl⟩ rfl rfl ?_)
    rw [sinks_other rfl rfl, ← h.sinks]
    rfl

/-- The assertion that a call makes holds. -/
def Allowed (ops : List BuilderOp) : BuilderOp → Prop
  | build _ => (last name ops).getD [] ≠ []
  | buildFormatter p => ∃ f, Formatter.make p = some f
  | _ => True

theorem Described.apply_iff (h : Described ops b) :
    (∃ r, b.apply op = some r) ↔ Allowed ops op := by
  cases op with
  | build psink =>
    rw [Allowed, ← h.name]
    constructor
    · intro hr
      obtain ⟨r, hr⟩ := hr
      obtain ⟨⟨c, y⟩, hc, -⟩ := Option.map_eq_some_iff.mp hr
      exact (build_formatter hc).1
    · intro hn
      obtain ⟨d, hd⟩ := Formatter.default_accepted
      have hor : ∃ f, b.formatter.or (Formatter.make Formatter.defaultPattern) = some f := by
        cases hb : b.formatter with
        | none => exact ⟨d, by simpa using hd⟩
        | some f => exact ⟨f, rfl⟩
      obtain ⟨f, hf⟩ := hor
      rw [LoggerBuilder.apply, LoggerBuilder.build, if_neg hn, hf]
      exact ⟨_, rfl⟩
  | buildFormatter p =>
    constructor
    · intro hr
      obtain ⟨r, hr⟩ := hr
      obtain ⟨c, hc, -⟩ := Option.map_eq_some_iff.mp hr
      obtain ⟨f, hf, -⟩ := Option.map_eq_some_iff.mp hc
      exact ⟨f, hf⟩
    · intro hf
      obtain ⟨f, hf⟩ := hf
      rw [LoggerBuilder.apply, LoggerBuilder.buildFormatter, hf]
      exact ⟨_, rfl⟩
  | _ => exact iff_of_true ⟨_, rfl⟩ trivial

end BuilderOp

/-- The builders, the loggers of the manager, and those built so far with their builders. -/
structure BuilderProgram (β : Type) where
  builder : β → LoggerBuilder
  loggers : Loggers
  built : List (β × BuiltLogger)

namespace BuilderProgram

variable {β : Type}

/-- The manager has built `root` before. -/
def init (root : BuiltLogger) : BuilderProgram β :=
  ⟨fun _ => .init, LoggerManager.rooted ⟨0, root⟩, []⟩

variable [DecidableEq β] (kind : β → BuilderKind)

/-- Only the global builder registers the logger it has built. -/
def returned (w : BuilderProgram β) (b : β) : Option BuiltLogger → BuilderProgram β
  | none => w
  | some x =>
    { w with
      loggers := if kind b = .globalBuilder then w.loggers.addLogger ⟨w.built.length + 1, x⟩
        else w.loggers
      built := w.built ++ [(b, x)] }

def call (w : BuilderProgram β) (c : β × BuilderOp) : Option (BuilderProgram β) :=
  ((w.builder c.1).apply c.2).map fun r =>
    returned kind { w with builder := Function.update w.builder c.1 r.1 } c.1 r.2

def run (w : BuilderProgram β) : List (β × BuilderOp) → Option (BuilderProgram β)
  | [] => some w
  | c :: cs => (w.call kind c).bind fun w' => w'.run cs

def callsOn (b : β) (cs : List (β × BuilderOp)) : List BuilderOp :=
  (cs.filter fun c => c.1 = b).map Prod.snd

omit [DecidableEq β] in
def builds (cs : List (β × BuilderOp)) : List β :=
  cs.filterMap fun c => c.2.standard.map fun _ => c.1

omit [DecidableEq β] in
/-- The loggers that were registered, in the order of their construction. -/
def registered (built : List (β × BuiltLogger)) : List LoggerPtr :=
  built.zipIdx.filterMap fun p =>
    if kind p.1.1 = .globalBuilder then some ⟨p.2 + 1, p.1.2⟩ else none

theorem run_append (w : BuilderProgram β) (cs : List (β × BuilderOp)) (c : β × BuilderOp) :
    w.run kind (cs ++ [c]) = (w.run kind cs).bind fun w' => w'.call kind c := by
  induction cs generalizing w with
  | nil => simp [run]
  | cons c' cs ih =>
    rw [List.cons_append, run, run, Option.bind_assoc]
    congr 1
    funext w'
    exact ih w'

theorem callsOn_self (b : β) (cs : List (β × BuilderOp)) (op : BuilderOp) :
    callsOn b (cs ++ [(b, op)]) = callsOn b cs ++ [op] := by
  simp [callsOn]

theorem callsOn_ne {b b' : β} (h : b ≠ b') (cs : List (β × BuilderOp)) (op : BuilderOp) :
    callsOn b' (cs ++ [(b, op)]) = callsOn b' cs := by
  simp [callsOn, h]

variable {kind} {root : BuiltLogger} {cs : List (β × BuilderOp)} {w w' : BuilderProgram β}

/-- What calls make of the builders and of the manager, for each `build` a logger of the
description that its builder had then. -/
structure Follows (kind : β → BuilderKind) (root : BuiltLogger) (cs : List (β × BuilderOp))
    (w : BuilderProgram β) : Prop where
  builder : ∀ b, BuilderOp.Described (callsOn b cs) (w.builder b)
  built : w.built.map Prod.fst = builds cs
  configured : ∀ pre b psink post, cs = pre ++ (b, .build psink) :: post →
    ∃ x, w.built[(builds pre).length]? = some (b, x) ∧
      BuilderOp.Configured (callsOn b pre ++ [.build psink]) x
  loggers : w.loggers.FirstOf (⟨0, root⟩ :: registered kind w.built)

theorem follows_init (hroot : root.logger.loggerName = utf8 "root") :
    Follows kind root [] (init root) := by
  refine ⟨fun _ => BuilderOp.described_init, rfl, fun pre b psink post h => ?_, fun name => ?_⟩
  · simp at h
  · have hname : LoggerPtr.getName ⟨0, root⟩ = utf8 "root" := hroot
    have hadd : LoggerManager.rooted ⟨0, root⟩ = Loggers.addLogger (fun _ => none) ⟨0, root⟩ := by
      rw [LoggerManager.rooted, Loggers.addLogger, if_neg (by simp [Loggers.hasLogger]), hname]
    have hnone : Loggers.FirstOf (fun _ => none) [] := fun _ => rfl
    rw [init, hadd]
    exact hnone.addLogger _ name

omit [DecidableEq β] in
theorem registered_append (built : List (β × BuiltLogger)) (b : β) (x : BuiltLogger) :
    registered kind (built ++ [(b, x)]) = registered kind built ++
      if kind b = .globalBuilder then [⟨built.length + 1, x⟩] else [] := by
  rw [registered, List.zipIdx_append, List.filterMap_append]
  congr 1
  by_cases h : kind b = .globalBuilder <;> simp [h]

theorem described_call {b : β} {op : BuilderOp} {r : LoggerBuilder × Option BuiltLogger}
    (h : Follows kind root cs w) (hr : (w.builder b).apply op = some r) (b' : β) :
    BuilderOp.Described (callsOn b' (cs ++ [(b, op)])) (Function.update w.builder b r.1 b') := by
  by_cases hb : b = b'
  · subst hb
    rw [callsOn_self, Function.update_self]
    exact ((h.builder b).apply hr).1
  · rw [callsOn_ne hb, Function.update_of_ne (Ne.symm hb)]
    exact h.builder b'

theorem apply_result {b b' : LoggerBuilder} {op : BuilderOp} {x : Option BuiltLogger}
    (h : b.apply op = some (b', x)) :
    (∃ psink y, op = .build psink ∧ x = some y) ∨ op.standard = none ∧ x = none := by
  cases op with
  | build psink =>
    obtain ⟨r, -, he⟩ := Option.map_eq_some_iff.mp h
    exact .inl ⟨psink, r.2, rfl, (Prod.mk.inj he).2.symm⟩
  | buildFormatter p =>
    obtain ⟨r, -, he⟩ := Option.map_eq_some_iff.mp h
    exact .inr ⟨rfl, (Prod.mk.inj he).2.symm⟩
  | _ => exact .inr ⟨rfl, (Prod.mk.inj (Option.some.inj h)).2.symm⟩

theorem Follows.setting {b : β} {op : BuilderOp} {b' : LoggerBuilder}
    (h : Follows kind root cs w) (hr : (w.builder b).apply op = some (b', none))
    (hop : op.standard = none) : Follows kind root (cs ++ [(b, op)])
      { w with builder := Function.update w.builder b b' } := by
  refine ⟨described_call h hr, ?_, fun pre b₁ psink post he => ?_, h.loggers⟩
  · rw [h.built, builds, builds, List.filterMap_append]
    simp [hop]
  · rcases Delimited.split_concat he with ⟨-, hlast⟩ | ⟨post', hcs⟩
    · obtain ⟨-, rfl⟩ := Prod.mk.inj hlast
      cases hop
    · exact h.configured pre b₁ psink post' hcs

theorem Follows.build {b : β} {psink : SinkId} {b' : LoggerBuilder} {x : BuiltLogger}
    (h : Follows kind root cs w) (hr : (w.builder b).apply (.build psink) = some (b', some x)) :
    Follows kind root (cs ++ [(b, .build psink)])
      (returned kind { w with builder := Function.update w.builder b b' } b (some x)) := by
  have hlen : (builds cs).length = w.built.length := by rw [← h.built, List.length_map]
  refine ⟨described_call h hr, ?_, fun pre b₁ psink₁ post he => ?_, ?_⟩
  · rw [returned, List.map_append, h.built, builds, builds, List.filterMap_append]
    rfl
  · rcases Delimited.split_concat he with ⟨hcs, hlast⟩ | ⟨post', hcs⟩
    · cases hlast
      subst hcs
      refine ⟨x, ?_, ((h.builder b).apply hr).2 x rfl⟩
      rw [hlen]
      exact List.getElem?_concat_length
    · obtain ⟨y, hy, hconf⟩ := h.configured pre b₁ psink₁ post' hcs
      refine ⟨y, ?_, hconf⟩
      exact (List.getElem?_append_left (List.getElem?_eq_some_iff.mp hy).1).trans hy
  · show Loggers.FirstOf (if kind b = .globalBuilder then _ else _)
      (⟨0, root⟩ :: registered kind (w.built ++ [(b, x)]))
    rw [registered_append]
    by_cases hk : kind b = .globalBuilder
    · rw [if_pos hk, if_pos hk, ← List.cons_append]
      exact h.loggers.addLogger _
    · rw [if_neg hk, if_neg hk, List.append_nil]
      exact h.loggers

theorem Follows.call {c : β × BuilderOp} (h : Follows kind root cs w)
    (hc : w.call kind c = some w') : Follows kind root (cs ++ [c]) w' := by
  obtain ⟨b, op⟩ := c
  obtain ⟨⟨b', x⟩, hr, rfl⟩ := Option.map_eq_some_iff.mp hc
  rcases apply_result hr with ⟨psink, y, rfl, rfl⟩ | ⟨hop, rfl⟩
  · exact h.build hr
  · exact h.setting hr hop

theorem follows_run (hroot : root.logger.loggerName = utf8 "root")
    (h : (init root).run kind cs = some w) : Follows kind root cs w := by
  induction cs using List.reverseRecOn generalizing w with
  | nil =>
    obtain rfl := Option.some.inj h
    exact follows_init hroot
  | append_singleton cs c ih =>
    rw [run_append] at h
    obtain ⟨v, hv, hc⟩ := Option.bind_eq_some_iff.mp h
    exact (ih hv).call hc

theorem Follows.call_iff (h : Follows kind root cs w) (b : β) (op : BuilderOp) :
    (∃ w', w.call kind (b, op) = some w') ↔ BuilderOp.Allowed (callsOn b cs) op := by
  rw [← (h.builder b).apply_iff]
  constructor
  · intro hw
    obtain ⟨w', hw⟩ := hw
    obtain ⟨r, hr, -⟩ := Option.map_eq_some_iff.mp hw
    exact ⟨r, hr⟩
  · intro hr
    obtain ⟨r, hr⟩ := hr
    exact ⟨_, Option.map_eq_some_iff.mpr ⟨r, hr, rfl⟩⟩

theorem run_iff (hroot : root.logger.loggerName = utf8 "root") :
    (∃ w, (init root).run kind cs = some w) ↔
      ∀ pre b op post, cs = pre ++ (b, op) :: post → BuilderOp.Allowed (callsOn b pre) op := by
  induction cs using List.reverseRecOn with
  | nil => simp [run]
  | append_singleton cs c ih =>
    obtain ⟨b, op⟩ := c
    constructor
    · intro hw pre b₁ op₁ post he
      obtain ⟨w', hw⟩ := hw
      rw [run_append] at hw
      obtain ⟨v, hv, hc⟩ := Option.bind_eq_some_iff.mp hw
      rcases Delimited.split_concat he with ⟨rfl, hlast⟩ | ⟨post', hcs⟩
      · cases hlast
        exact ((follows_run hroot hv).call_iff b op).mp ⟨w', hc⟩
      · exact ih.mp ⟨v, hv⟩ pre b₁ op₁ post' hcs
    · intro hall
      obtain ⟨v, hv⟩ := ih.mpr fun pre b₁ op₁ post he =>
        hall pre b₁ op₁ (post ++ [(b, op)]) (by rw [he]; simp)
      obtain ⟨w', hc⟩ := ((follows_run hroot hv).call_iff b op).mpr (hall cs b op [] rfl)
      exact ⟨w', by rw [run_append, hv]; exact hc⟩

/-- A program goes on while its calls are allowed. Each `build` returns a logger of the
settings made on its builder so far, and `getLogger` finds the first registered logger of a
name, of which the manager's own is the first. -/
theorem builders_configure (kind : β → BuilderKind) (cs : List (β × BuilderOp))
    {root : BuiltLogger} {b₀ : LoggerBuilder} {psink₀ : SinkId}
    (hroot : (LoggerBuilder.init.buildLoggerName (utf8 "root")).build psink₀ = some (b₀, root)) :
    ((∃ w, (init root).run kind cs = some w) ↔
      ∀ pre b op post, cs = pre ++ (b, op) :: post → BuilderOp.Allowed (callsOn b pre) op) ∧
    ∀ w, (init root).run kind cs = some w →
      w.built.map Prod.fst = builds cs ∧
      (∀ pre b psink post, cs = pre ++ (b, .build psink) :: post →
        ∃ x, w.built[(builds pre).length]? = some (b, x) ∧
          BuilderOp.Configured (callsOn b pre ++ [.build psink]) x) ∧
      ∀ name, w.loggers.getLogger name =
        (⟨0, root⟩ :: registered kind w.built).find? fun l => l.getName = name := by
  have hname : root.logger.loggerName = utf8 "root" := LoggerBuilder.build_name hroot
  refine ⟨run_iff hname, fun w hw => ?_⟩
  have h := follows_run hname hw
  exact ⟨h.built, h.configured, h.loggers⟩

/-- A builder that is used again keeps the standard output of its first logger. -/
theorem builders_configure_again : ∃ (w : BuilderProgram Unit) (x : BuiltLogger),
    w.built[1]? = some ((), x) ∧ x.logger.limitLevel = .warn ∧ x.logger.sinks = [1, 2] := by
  obtain ⟨f, hf⟩ := Formatter.default_accepted
  have hn : (LoggerBuilder.init.buildLoggerName (utf8 "root")).loggerName ≠ [] := by decide
  obtain ⟨⟨b₀, root⟩, hroot⟩ :
      ∃ r, (LoggerBuilder.init.buildLoggerName (utf8 "root")).build 0 = some r := by
    rw [LoggerBuilder.build, if_neg hn]
    simp [LoggerBuilder.buildLoggerName, LoggerBuilder.init, hf]
  let cs : List (Unit × BuilderOp) := [((), .buildLoggerName [97]), ((), .build 1),
    ((), .buildSink 2), ((), .buildLoggerLevel .warn), ((), .build 3)]
  obtain ⟨w, hw⟩ : ∃ w, (init root).run (fun _ => .globalBuilder) cs = some w := by
    simp [cs, run, call, returned, init, LoggerBuilder.apply, LoggerBuilder.build,
      LoggerBuilder.buildLoggerName, LoggerBuilder.buildSink, LoggerBuilder.buildLoggerLevel,
      LoggerBuilder.init, hf]
  obtain ⟨x, hx, hconf⟩ :=
    ((builders_configure (fun _ => .globalBuilder) cs hroot).2 w hw).2.1 (cs.take 4) () 3 [] rfl
  refine ⟨w, x, hx, ?_, ?_⟩
  · rw [hconf.level]
    rfl
  · rw [hconf.sinks]
    rfl

end BuilderProgram

end MyLog

import Mathlib.Data.List.Nodup
import MyLog.Grammar
import MyLog.Logger

/-! `LoggerBuilder` of `logger.hpp` and `build` of its local variant: which sinks the
loggers of a sequence of builder calls share. -/

namespace MyLog

inductive LoggerType
  | loggerSync
  | loggerAsync
  deriving DecidableEq

structure BuiltLogger where
  logger : Logger
  type : LoggerType
  looperType : AsyncType

structure LoggerBuilder where
  looperType : AsyncType
  loggerType : LoggerType
  loggerName : Bytes
  limitLevel : LogLevel
  formatter : Option Formatter
  sinks : List SinkId

namespace LoggerBuilder

def init : LoggerBuilder where
  looperType := .asyncSafe
  loggerType := .loggerAsync
  loggerName := []
  limitLevel := .debug
  formatter := none
  sinks := []

def buildLoggerType (b : LoggerBuilder) (type : LoggerType) : LoggerBuilder :=
  { b with loggerType := type }

def buildEnableUnSafeAsync (b : LoggerBuilder) : LoggerBuilder :=
  { b with looperType := .asyncUnsafe }

def buildLoggerName (b : LoggerBuilder) (name : Bytes) : LoggerBuilder :=
  { b with loggerName := name }

def buildSink (b : LoggerBuilder) (psink : SinkId) : LoggerBuilder :=
  { b with sinks := b.sinks ++ [psink] }

/-- `LocalLoggerBuilder::build`, where `psink` is the `StdoutSink` that it creates if
there is no sink; `none` where an assertion fails. -/
def build (b : LoggerBuilder) (psink : SinkId) : Option (LoggerBuilder × BuiltLogger) :=
  if b.loggerName = [] then none
  else match b.formatter.or (Formatter.make Formatter.defaultPattern) with
    | none => none
    | some f =>
      let b := if b.sinks = [] then { b with formatter := some f }.buildSink psink
        else { b with formatter := some f }
      some (b, ⟨⟨b.loggerName, b.limitLevel, f, b.sinks⟩, b.loggerType, b.looperType⟩)

theorem build_spec {b b' : LoggerBuilder} {psink : SinkId} {x : BuiltLogger}
    (h : b.build psink = some (b', x)) :
    ∃ f, b' = { b with formatter := some f, sinks := if b.sinks = [] then [psink] else b.sinks } ∧
      x = ⟨⟨b.loggerName, b.limitLevel, f, b'.sinks⟩, b.loggerType, b.looperType⟩ := by
  rw [build] at h
  by_cases hn : b.loggerName = []
  · simp [hn] at h
  · rw [if_neg hn] at h
    cases hf : b.formatter.or (Formatter.make Formatter.defaultPattern) with
    | none => simp [hf] at h
    | some f =>
      simp only [hf, Option.some.injEq, Prod.mk.injEq] at h
      obtain ⟨rfl, rfl⟩ := h
      refine ⟨f, ?_⟩
      by_cases hs : b.sinks = [] <;> simp [hs, buildSink]

/-- The builder keeps its sinks or adds the new one, and the logger has all of them. -/
theorem build_sinks {b b' : LoggerBuilder} {psink : SinkId} {x : BuiltLogger}
    (h : b.build psink = some (b', x)) :
    (b'.sinks = b.sinks ∨ b'.sinks = b.sinks ++ [psink]) ∧ b'.sinks ≠ [] ∧
      x.logger.sinks = b'.sinks ∧ b'.limitLevel = b.limitLevel ∧
      x.logger.limitLevel = b.limitLevel := by
  obtain ⟨f, rfl, rfl⟩ := build_spec h
  by_cases hs : b.sinks = []
  · simp [hs]
  · simp [hs]

theorem build_name {b b' : LoggerBuilder} {psink : SinkId} {x : BuiltLogger}
    (h : b.build psink = some (b', x)) : x.logger.loggerName = b.loggerName := by
  obtain ⟨f, -, rfl⟩ := build_spec h
  rfl

end LoggerBuilder

inductive BuilderCall (β : Type)
  | buildSink (b : β)
  | buildLoggerName (b : β) (name : Bytes)
  | buildLoggerType (b : β) (type : LoggerType)
  | buildEnableUnSafeAsync (b : β)
  | build (b : β)

/-- The builders, how many sinks were set aside for them, and the loggers built so
far, each with its builder. -/
structure Builders (β : Type) where
  builder : β → LoggerBuilder
  nextSink : SinkId
  built : List (β × BuiltLogger)

namespace Builders

variable {β : Type} [DecidableEq β]

def init : Builders β := ⟨fun _ => .init, 0, []⟩

/-- Every call sets a new sink aside, whether or not it uses it. -/
def put (w : Builders β) (b : β) (x : LoggerBuilder) : Builders β :=
  { w with builder := Function.update w.builder b x, nextSink := w.nextSink + 1 }

def call (w : Builders β) : BuilderCall β → Option (Builders β)
  | .buildSink b => some (w.put b ((w.builder b).buildSink w.nextSink))
  | .buildLoggerName b name => some (w.put b ((w.builder b).buildLoggerName name))
  | .buildLoggerType b type => some (w.put b ((w.builder b).buildLoggerType type))
  | .buildEnableUnSafeAsync b => some (w.put b (w.builder b).buildEnableUnSafeAsync)
  | .build b => ((w.builder b).build w.nextSink).map fun r =>
      { w.put b r.1 with built := w.built ++ [(b, r.2)] }

/-- The calls one after the other; `none` where an assertion fails. -/
def run (w : Builders β) : List (BuilderCall β) → Option (Builders β)
  | [] => some w
  | c :: cs => (w.call c).bind fun w' => w'.run cs

def builds (cs : List (BuilderCall β)) : List β :=
  cs.filterMap fun c => match c with
    | .build b => some b
    | _ => none

/-- Each sink is on one builder, and a logger has the first sinks of its builder. -/
structure Owned (w : Builders β) : Prop where
  fresh : ∀ b, ∀ o ∈ (w.builder b).sinks, o < w.nextSink
  owner : ∀ b b' o, o ∈ (w.builder b).sinks → o ∈ (w.builder b').sinks → b = b'
  level : ∀ b, (w.builder b).limitLevel = .debug
  sinks : ∀ p ∈ w.built, p.2.logger.sinks ≠ [] ∧
    p.2.logger.sinks <+: (w.builder p.1).sinks
  limit : ∀ p ∈ w.built, p.2.logger.limitLevel = .debug

variable {w w' : Builders β} {b : β} {x : LoggerBuilder}

omit [DecidableEq β] in
theorem owned_init : Owned (init : Builders β) :=
  ⟨by simp [init, LoggerBuilder.init], by simp [init, LoggerBuilder.init], fun _ => rfl,
    by simp [init], by simp [init]⟩

theorem Owned.put (h : Owned w)
    (hx : x.sinks = (w.builder b).sinks ∨ x.sinks = (w.builder b).sinks ++ [w.nextSink])
    (hl : x.limitLevel = (w.builder b).limitLevel) : Owned (w.put b x) := by
  have hpre : (w.builder b).sinks <+: x.sinks := by
    rcases hx with hx | hx
    · exact ⟨[], by rw [hx, List.append_nil]⟩
    · exact ⟨[w.nextSink], hx.symm⟩
  -- a sink that the builder did not have is the new one
  have hnew : ∀ o ∈ x.sinks, o ∈ (w.builder b).sinks ∨ o = w.nextSink := by
    intro o ho
    rcases hx with hx | hx <;> rw [hx] at ho
    · exact .inl ho
    · simpa using ho
  have hother : ∀ b' o, b' ≠ b → o ∈ x.sinks → o ∉ (w.builder b').sinks := by
    intro b' o hb ho ho'
    rcases hnew o ho with hold | rfl
    · exact hb (h.owner b' b o ho' hold)
    · exact absurd (h.fresh b' _ ho') (lt_irrefl _)
  refine ⟨fun b' o ho => ?_, fun b₁ b₂ o h₁ h₂ => ?_, fun b' => ?_, fun p hp => ?_, h.limit⟩
  · show o < w.nextSink + 1
    by_cases hb : b' = b
    · subst hb
      rcases hnew o (by simpa [Builders.put] using ho) with hold | rfl
      · exact Nat.lt_succ_of_lt (h.fresh b' o hold)
      · exact Nat.lt_succ_self _
    · exact Nat.lt_succ_of_lt (h.fresh b' o (by simpa [Builders.put, hb] using ho))
  · by_cases hb₁ : b₁ = b <;> by_cases hb₂ : b₂ = b <;>
      simp only [Builders.put, hb₁, hb₂, Function.update_self, ne_eq, not_false_eq_true,
        Function.update_of_ne] at h₁ h₂ ⊢
    · exact (hother b₂ o hb₂ h₁ h₂).elim
    · exact (hother b₁ o hb₁ h₂ h₁).elim
    · exact h.owner b₁ b₂ o h₁ h₂
  · by_cases hb : b' = b
    · subst hb
      simpa [Builders.put, hl] using h.level b'
    · simpa [Builders.put, hb] using h.level b'
  · obtain ⟨hne, hp⟩ := h.sinks p hp
    refine ⟨hne, ?_⟩
    by_cases hb : p.1 = b
    · rw [hb] at hp
      simpa [Builders.put, hb] using hp.trans hpre
    · simpa [Builders.put, hb] using hp

theorem Owned.call (h : Owned w) {c : BuilderCall β} (hc : w.call c = some w') : Owned w' := by
  cases c with
  | buildSink b =>
    obtain rfl := Option.some.inj hc
    exact h.put (.inr rfl) rfl
  | buildLoggerName b | buildLoggerType b | buildEnableUnSafeAsync b =>
    obtain rfl := Option.some.inj hc
    exact h.put (.inl rfl) rfl
  | build b =>
    obtain ⟨⟨b', x⟩, hb, rfl⟩ := Option.map_eq_some_iff.mp hc
    obtain ⟨hs, hne, hxs, hl, hxl⟩ := LoggerBuilder.build_sinks hb
    have hp := h.put hs hl
    refine ⟨hp.fresh, hp.owner, hp.level, fun p hm => ?_, fun p hm => ?_⟩ <;>
      rcases List.mem_append.mp hm with hm | hm
    · exact hp.sinks p hm
    · obtain rfl := List.mem_singleton.mp hm
      refine ⟨by rw [hxs]; exact hne, ?_⟩
      simp [Builders.put, hxs]
    · exact hp.limit p hm
    · obtain rfl := List.mem_singleton.mp hm
      exact hxl.trans (h.level b)

theorem Owned.run (h : Owned w) {cs : List (BuilderCall β)} (hr : w.run cs = some w') :
    Owned w' := by
  induction cs generalizing w with
  | nil =>
    obtain rfl := Option.some.inj hr
    exact h
  | cons c cs ih =>
    obtain ⟨v, hc, hv⟩ := Option.bind_eq_some_iff.mp hr
    exact ih (h.call hc) hv

theorem run_built {cs : List (BuilderCall β)} (hr : w.run cs = some w') :
    w'.built.map Prod.fst = w.built.map Prod.fst ++ builds cs := by
  induction cs generalizing w with
  | nil =>
    obtain rfl := Option.some.inj hr
    simp [builds]
  | cons c cs ih =>
    obtain ⟨v, hc, hv⟩ := Option.bind_eq_some_iff.mp hr
    rw [ih hv]
    cases c with
    | build b =>
      obtain ⟨r, _, rfl⟩ := Option.map_eq_some_iff.mp hc
      simp [builds]
    | _ =>
      obtain rfl := Option.some.inj hc
      simp [builds, Builders.put]

end Builders

end MyLog

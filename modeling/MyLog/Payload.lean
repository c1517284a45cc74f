import MyLog.Logger

/-! The bodies of `debug`, `info`, `warn`, `error` and `fatal` around `vasprintf`: the pointer
that it sets or does not set, and the message built from it. -/

namespace MyLog

/-- `char *res`: not set yet, or the allocated bytes with a NUL after them. -/
inductive ResPtr
  | unset
  | buffer (bytes : Bytes)

/-- What `vasprintf` returns and does to `res`, by its outcome. -/
def vasprintf : Option Bytes → Int × ResPtr
  | none => (-1, .unset)
  | some bytes => (bytes.length, .buffer bytes)

/-- What a call prints itself, the messages it gives to the formatter and the data it gives
to `log`. -/
structure CallTrace where
  printed : Bytes
  given : List LogMsg
  logged : List Bytes

theorem nulFree_of_cString {b : Bytes} (h : cString b = b) : 0 ∉ b := by
  rw [← h]
  exact nulFree_cString b

namespace Logger

variable (P : Platform) (l : Logger)

/-- The body that the five functions share; `none` where `serialize` reads `res` and `free`
gets it while it is not set. -/
def body (level : LogLevel) (a : Args) : Option CallTrace :=
  if level < l.limitLevel then some ⟨[], [], []⟩
  else
    let (ret, res) := vasprintf a.res
    let printed := if ret = -1 then utf8 "vasprintf failed!\n" else []
    match res with
    | .unset => none
    | .buffer bytes =>
      let msg := l.logMsg level a bytes
      some ⟨printed, [msg], [l.formatter.format P msg]⟩

variable {P l} {level : LogLevel} {a : Args} {bytes : Bytes}

theorem body_disabled (h : level < l.limitLevel) : l.body P level a = some ⟨[], [], []⟩ :=
  if_pos h

theorem body_failed (h : ¬ level < l.limitLevel) (ha : a.res = none) :
    l.body P level a = none := by
  rw [body, if_neg h, ha]
  rfl

theorem body_succeeded (h : ¬ level < l.limitLevel) (ha : a.res = some bytes) :
    l.body P level a =
      some ⟨[], [l.logMsg level a bytes], [l.formatter.format P (l.logMsg level a bytes)]⟩ := by
  have hret : (vasprintf (some bytes)).1 ≠ -1 := by
    show (bytes.length : Int) ≠ -1
    omega
  rw [body, if_neg h, ha]
  exact congrArg (fun printed => some (CallTrace.mk printed _ _)) (if_neg hret)

theorem body_logged (level : LogLevel) (a : Args) : (l.body P level a).map CallTrace.logged =
    match l.logAt P level a with
    | .nothing => some []
    | .text data => some [data]
    | .undefined => none := by
  by_cases h : level < l.limitLevel
  · rw [body_disabled h, logAt, if_pos h]
    rfl
  · cases ha : a.res with
    | none =>
      rw [body_failed h ha, logAt, if_neg h, ha]
      rfl
    | some bytes =>
      rw [body_succeeded h ha, logAt, if_neg h, ha]
      rfl

variable (P l)

def logCall (streams : Nat → Bytes) (c : Severity × Args) : Option (Nat → Bytes) :=
  (l.body P c.1.level c.2).map fun tr k =>
    if k < l.sinks.length then streams k ++ tr.logged.flatten else streams k

def logCalls (streams : Nat → Bytes) (calls : List (Severity × Args)) : Option (Nat → Bytes) :=
  calls.foldlM (l.logCall P) streams

/-- No call uses a pointer that is not set, a call that fails changes no sink, and the
formatter is given the bytes that `vasprintf` stored, all of them. -/
structure Exact (streams : Nat → Bytes) (calls : List (Severity × Args)) : Prop where
  defined : (l.logCalls P streams calls).isSome = true
  failed : ∀ pre c post, calls = pre ++ c :: post → c.2.res = none →
    l.logCalls P streams (pre ++ [c]) = l.logCalls P streams pre
  payload : ∀ c ∈ calls, ¬ c.1.level < l.limitLevel → ∀ bytes, c.2.res = some bytes →
    ∃ tr msg, l.body P c.1.level c.2 = some tr ∧ tr.given = [msg] ∧ msg.payload = bytes

variable {P l} {streams : Nat → Bytes} {calls : List (Severity × Args)}

theorem logCalls_append (pre post : List (Severity × Args)) :
    l.logCalls P streams (pre ++ post) =
      (l.logCalls P streams pre).bind fun s => l.logCalls P s post :=
  List.foldlM_append

theorem logCalls_isSome_iff : (l.logCalls P streams calls).isSome = true ↔
    ∀ c ∈ calls, (l.body P c.1.level c.2).isSome = true := by
  induction calls generalizing streams with
  | nil => simp [logCalls]
  | cons c calls ih =>
    have hc : l.logCalls P streams (c :: calls) =
        (l.logCall P streams c).bind fun s => l.logCalls P s calls := rfl
    cases hb : l.body P c.1.level c.2 with
    | none => simp [hc, logCall, hb]
    | some tr => simp [hc, logCall, hb, ih]

theorem logCall_disabled {c : Severity × Args} (h : c.1.level < l.limitLevel) :
    l.logCall P streams c = some streams := by
  simp [logCall, body_disabled h]

/-- The body is as it should be for every call exactly if `vasprintf` succeeds in every
enabled call, with a text that has no NUL. -/
theorem payload_exact (P : Platform) (l : Logger) (streams : Nat → Bytes)
    (calls : List (Severity × Args)) : l.Exact P streams calls ↔
      ∀ c ∈ calls, ¬ c.1.level < l.limitLevel → ∃ text, c.2.res = some text ∧ 0 ∉ text := by
  constructor
  · intro ⟨hdefined, _, hpayload⟩ c hc hlevel
    cases hres : c.2.res with
    | none =>
      have hb := logCalls_isSome_iff.mp hdefined c hc
      rw [body_failed hlevel hres] at hb
      cases hb
    | some text =>
      obtain ⟨tr, msg, hb, hgiven, hmsg⟩ := hpayload c hc hlevel text hres
      rw [body_succeeded hlevel hres] at hb
      obtain rfl := Option.some.inj hb
      obtain rfl := List.singleton_inj.mp hgiven
      exact ⟨text, rfl, nulFree_of_cString hmsg⟩
  · intro hok
    refine ⟨logCalls_isSome_iff.mpr fun c hc => ?_, fun pre c post he hres => ?_,
      fun c hc hlevel bytes hres => ?_⟩
    · by_cases hlevel : c.1.level < l.limitLevel
      · rw [body_disabled hlevel]
        rfl
      · obtain ⟨text, hres, -⟩ := hok c hc hlevel
        rw [body_succeeded hlevel hres]
        rfl
    · have hlevel : c.1.level < l.limitLevel := by
        by_contra hlevel
        obtain ⟨text, htext, -⟩ := hok c (by simp [he]) hlevel
        rw [hres] at htext
        cases htext
      have hone (s : Nat → Bytes) : l.logCalls P s [c] = some s := by
        simp [logCalls, logCall_disabled hlevel]
      simp [logCalls_append, hone]
    · obtain ⟨text, htext, hnul⟩ := hok c hc hlevel
      obtain rfl : bytes = text := Option.some.inj (hres.symm.trans htext)
      exact ⟨_, _, body_succeeded hlevel hres, rfl, cString_of_nulFree hnul⟩

theorem failed_call_undefined : ¬ ∀ (P : Platform) (l : Logger) (streams : Nat → Bytes)
    (calls : List (Severity × Args)), l.Exact P streams calls := by
  intro hall
  have h := (hall .midnight ⟨[], .debug, ⟨[], []⟩, [0]⟩ (fun _ => [])
    [(.info, ⟨[], 1, 0, 0, none⟩)]).defined
  cases h

end Logger

end MyLog

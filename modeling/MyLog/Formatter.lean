import MyLog.Message

/-! The formatter of `formatter.hpp`: its items, its pattern parser and `format`. -/

namespace MyLog

inductive FormatItem
  | msg
  | level
  | time (fmt : Bytes)
  | file
  | line
  | thread
  | logger
  | tab
  | newLine
  | other (str : Bytes)
  deriving DecidableEq

def timeText (P : Platform) (fmt : Bytes) (ctime : Int) : Bytes :=
  cString (P.strftime 31 fmt (P.localtime ctime))

namespace FormatItem

def format (P : Platform) (m : LogMsg) : FormatItem → Bytes
  | msg => m.payload
  | level => m.level.toString
  | time fmt => timeText P fmt m.ctime
  | file => m.file
  | line => decimal m.line
  | thread => P.threadText m.tid
  | logger => m.logger
  | tab => [ascii '\t']
  | newLine => [newline]
  | other str => str

end FormatItem

def createItem (key val : Bytes) : FormatItem :=
  if key = [ascii 'd'] then .time val
  else if key = [ascii 't'] then .thread
  else if key = [ascii 'c'] then .logger
  else if key = [ascii 'f'] then .file
  else if key = [ascii 'l'] then .line
  else if key = [ascii 'p'] then .level
  else if key = [ascii 'T'] then .tab
  else if key = [ascii 'm'] then .msg
  else if key = [ascii 'n'] then .newLine
  else .other val

inductive PatternError
  | noSpecifier
  | unclosed
  deriving DecidableEq

/-- What `parsePattern` prints before it returns false. -/
def PatternError.message : PatternError → Bytes
  | noSpecifier => utf8 "% 后面没有格式化字符!\n"
  | unclosed => utf8 "子参数 \x7b\x7d 没有闭合!\n"

/-- The inner loop of `parsePattern`: the bytes up to the next `}`. -/
def readSubParam (val : Bytes) : Bytes → Except PatternError (Bytes × Bytes)
  | [] => .error .unclosed
  | ch :: rest => if ch ≠ closeBrace then readSubParam (val ++ [ch]) rest else .ok (val, rest)

def subParam (rest : Bytes) : Except PatternError (Bytes × Bytes) :=
  match rest with
  | [] => .ok ([], [])
  | ch :: sub => if ch = openBrace then readSubParam [] sub else .ok ([], ch :: sub)

theorem readSubParam_length {val p v r : Bytes} (h : readSubParam val p = .ok (v, r)) :
    r.length < p.length := by
  induction p generalizing val with
  | nil => simp [readSubParam] at h
  | cons ch rest ih =>
    by_cases hc : ch = closeBrace
    · simp [readSubParam, hc] at h
      simp [h.2]
    · have := ih (by simpa [readSubParam, hc] using h)
      simp only [List.length_cons]
      omega

theorem subParam_length {p v r : Bytes} (h : subParam p = .ok (v, r)) :
    r.length ≤ p.length := by
  cases p with
  | nil => simp_all [subParam]
  | cons ch sub =>
    by_cases hc : ch = openBrace
    · have := readSubParam_length (by simpa [subParam, hc] using h)
      simp only [List.length_cons]
      omega
    · simp [subParam, hc] at h
      simp [← h.2]

/-- The pending literal text, if there is any, becomes an entry with an empty key. -/
def flush (order : List (Bytes × Bytes)) (val : Bytes) : List (Bytes × Bytes) :=
  if val.isEmpty then order else order ++ [([], val)]

/-- The loop of `parsePattern` over the part of the pattern from `pos` on. -/
def parseLoop (order : List (Bytes × Bytes)) (val p : Bytes) :
    Except PatternError (List (Bytes × Bytes)) :=
  match p with
  | [] => .ok (flush order val)
  | ch :: rest =>
    if ch ≠ percent then parseLoop order (val ++ [ch]) rest
    else match rest with
      | [] => .error .noSpecifier
      | key :: rest =>
        if key = percent then parseLoop order (val ++ [percent]) rest
        else match _h : subParam rest with
          | .error e => .error e
          | .ok (sub, rest') => parseLoop (flush order val ++ [([key], sub)]) [] rest'
termination_by p.length
decreasing_by
  all_goals simp only [List.length_cons]
  · omega
  · omega
  · have := subParam_length _h
    omega

structure Formatter where
  pattern : Bytes
  items : List FormatItem

namespace Formatter

/-- The value `parsePattern` returns, what it prints, and the formatter after it. -/
def parsePattern (f : Formatter) : Bool × Bytes × Formatter :=
  match parseLoop [] [] f.pattern with
  | .error e => (false, e.message, f)
  | .ok order =>
    (true, [], { f with items := f.items ++ order.map fun it => createItem it.1 it.2 })

def defaultPattern : Bytes :=
  utf8 "[%d\x7b%H:%M:%S\x7d][%t][%c][%f:%l][%p]%T%m%n"

/-- `Formatter::Formatter` with assertions on; `none` where the assertion fails. -/
def make (pattern : Bytes) : Option Formatter :=
  let (ok, _, f) := parsePattern ⟨pattern, []⟩
  if ok then some f else none

def format (P : Platform) (f : Formatter) (m : LogMsg) : Bytes :=
  f.items.flatMap (FormatItem.format P m)

end Formatter

section Loop

variable {order : List (Bytes × Bytes)} {val p rest : Bytes} {ch key : UInt8}

@[simp] theorem parseLoop_nil : parseLoop order val [] = .ok (flush order val) := by
  simp [parseLoop]

theorem parseLoop_literal (h : ch ≠ percent) :
    parseLoop order val (ch :: p) = parseLoop order (val ++ [ch]) p := by
  rw [parseLoop.eq_def]
  simp [h]

theorem parseLoop_lone : parseLoop order val [percent] = .error .noSpecifier := by
  rw [parseLoop.eq_def]
  simp

theorem parseLoop_escape :
    parseLoop order val (percent :: percent :: p) = parseLoop order (val ++ [percent]) p := by
  rw [parseLoop.eq_def]
  simp

theorem parseLoop_field (h : key ≠ percent) {sub : Bytes} (hs : subParam p = .ok (sub, rest)) :
    parseLoop order val (percent :: key :: p) =
      parseLoop (flush order val ++ [([key], sub)]) [] rest := by
  rw [parseLoop.eq_def]
  simp only [ne_eq, not_true_eq_false, if_false, h]
  split
  · simp_all
  · simp_all

theorem parseLoop_unclosed (h : key ≠ percent) {e : PatternError} (hs : subParam p = .error e) :
    parseLoop order val (percent :: key :: p) = .error e := by
  rw [parseLoop.eq_def]
  simp only [ne_eq, not_true_eq_false, if_false, h]
  split
  · simp_all
  · simp_all

theorem subParam_bare (h : p.head? ≠ some openBrace) : subParam p = .ok ([], p) := by
  cases p with
  | nil => rfl
  | cons ch sub =>
    have hc : ch ≠ openBrace := by simpa using h
    simp [subParam, hc]

theorem readSubParam_closed {s : Bytes} (h : closeBrace ∉ s) :
    readSubParam val (s ++ closeBrace :: rest) = .ok (val ++ s, rest) := by
  induction s generalizing val with
  | nil => simp [readSubParam]
  | cons ch s ih =>
    have hc : ch ≠ closeBrace := fun he => h (by simp [he])
    have hs : closeBrace ∉ s := fun he => h (List.mem_cons_of_mem _ he)
    simp [readSubParam, hc, ih hs]

theorem readSubParam_open {s : Bytes} (h : closeBrace ∉ s) :
    readSubParam val s = .error .unclosed := by
  induction s generalizing val with
  | nil => rfl
  | cons ch s ih =>
    have hc : ch ≠ closeBrace := fun he => h (by simp [he])
    have hs : closeBrace ∉ s := fun he => h (List.mem_cons_of_mem _ he)
    simp [readSubParam, hc, ih hs]

theorem subParam_closed {s : Bytes} (h : closeBrace ∉ s) :
    subParam (openBrace :: (s ++ closeBrace :: rest)) = .ok (s, rest) := by
  simp [subParam, readSubParam_closed h]

theorem subParam_open {s : Bytes} (h : closeBrace ∉ s) :
    subParam (openBrace :: s) = .error .unclosed := by
  simp [subParam, readSubParam_open h]

end Loop

namespace Formatter

/-- The items of the default pattern. -/
def defaultItems : List FormatItem :=
  [.other (utf8 "["), .time (utf8 "%H:%M:%S"), .other (utf8 "]["), .thread, .other (utf8 "]["),
    .logger, .other (utf8 "]["), .file, .other (utf8 ":"), .line, .other (utf8 "]["), .level,
    .other (utf8 "]"), .tab, .msg, .newLine]

theorem make_default : make defaultPattern = some ⟨defaultPattern, defaultItems⟩ := by
  have hp : defaultPattern = ascii '[' :: percent :: ascii 'd' :: openBrace ::
      (utf8 "%H:%M:%S" ++ closeBrace :: utf8 "][%t][%c][%f:%l][%p]%T%m%n") := rfl
  have hrest : utf8 "][%t][%c][%f:%l][%p]%T%m%n" =
      [ascii ']', ascii '[', percent, ascii 't', ascii ']', ascii '[', percent, ascii 'c',
        ascii ']', ascii '[', percent, ascii 'f', ascii ':', percent, ascii 'l', ascii ']',
        ascii '[', percent, ascii 'p', ascii ']', percent, ascii 'T', percent, ascii 'm',
        percent, ascii 'n'] := rfl
  have hparse : parseLoop [] [] defaultPattern = .ok [([], utf8 "["),
      ([ascii 'd'], utf8 "%H:%M:%S"), ([], utf8 "]["), ([ascii 't'], []), ([], utf8 "]["),
      ([ascii 'c'], []), ([], utf8 "]["), ([ascii 'f'], []), ([], utf8 ":"), ([ascii 'l'], []),
      ([], utf8 "]["), ([ascii 'p'], []), ([], utf8 "]"), ([ascii 'T'], []), ([ascii 'm'], []),
      ([ascii 'n'], [])] := by
    rw [hp, parseLoop_literal (by decide), parseLoop_field (by decide) (subParam_closed (by decide)),
      hrest]
    repeat first
      | rw [parseLoop_nil]
      | rw [parseLoop_literal (by decide)]
      | rw [parseLoop_field (by decide) (subParam_bare (by decide))]
    rfl
  rw [make, parsePattern, hparse]
  rfl

theorem default_accepted : ∃ f, make defaultPattern = some f := ⟨_, make_default⟩

end Formatter

end MyLog

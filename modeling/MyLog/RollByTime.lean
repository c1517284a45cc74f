import MyLog.Lib.Calendar
import MyLog.Lib.System
import MyLog.RollBySize

/-! `RollByTimeSink` of the roll-by-time example, under a local time with a fixed offset
from UTC. Opens and writes succeed, and the directories of the paths exist. -/

namespace MyLog

open Transition

inductive TimeGap
  | gapSecond
  | gapMinute
  | gapHour
  | gapDay
  deriving DecidableEq

def TimeGap.size : TimeGap → Nat
  | gapSecond => 1
  | gapMinute => 60
  | gapHour => 3600
  | gapDay => 3600 * 24

theorem TimeGap.size_pos (gap : TimeGap) : 0 < gap.size := by
  cases gap <;> decide

/-- `Date::now()`, the cast of a `time_t` to `size_t`. -/
def dateNow (t : Int) : Nat := (t % UInt64.size).toNat

/-- `localtime_r` where local time is `offset` seconds ahead of UTC. -/
def localtime (offset t : Int) : Tm :=
  let days := (t + offset) / 86400
  let second := (t + offset) % 86400
  let date := Calendar.ofDays days
  { sec := second % 60
    min := second / 60 % 60
    hour := second / 3600
    mday := date.day
    mon := date.month - 1
    year := date.year - 1900
    wday := (days + 4) % 7
    yday := days + Calendar.epoch - (Calendar.daysBefore (date.year - 1) + 306)
    isdst := 0 }

/-- The members of the sink, how often it has read the clock, and the files around it.
`closed` and `current` are the files it has opened so far; the stream is open on the
last one. -/
structure RollByTimeSink where
  basename : Bytes
  gapSize : Nat
  curGap : Nat
  readings : Nat
  files : Files
  closed : List SinkFile
  current : SinkFile
  file : files current.name = some current.content

namespace RollByTimeSink

def fileName (basename : Bytes) (lt : Tm) : Bytes :=
  basename ++ utf8 "_" ++ signedDecimal (lt.year + 1900) ++ utf8 "-" ++
    RollBySizeSink.padded (signedDecimal (lt.mon + 1)) ++ utf8 "-" ++ signedDecimal lt.mday ++
    utf8 " " ++ signedDecimal lt.hour ++ utf8 ":" ++ signedDecimal lt.min ++ utf8 ":" ++
    signedDecimal lt.sec ++ utf8 ".log"

variable (offset : Int) (clock : Nat → Int)

def createNewFile (basename : Bytes) (k : Nat) : Bytes :=
  fileName basename (localtime offset (clock k))

/-- The constructor reads the clock for `_cur_gap`, and again for the name. -/
def make (basename : Bytes) (gap : TimeGap) (files : Files) : RollByTimeSink :=
  let f := SinkFile.opened files (createNewFile offset clock basename 1)
  { basename := basename
    gapSize := gap.size
    curGap := if gap.size = 1 then dateNow (clock 0) else dateNow (clock 0) / gap.size
    readings := 2
    files := files.store f
    closed := []
    current := f
    file := Files.store_name .. }

def write (s : RollByTimeSink) (data : Bytes) : RollByTimeSink :=
  { s with
    files := s.files.store (s.current.write data)
    current := s.current.write data
    file := Files.store_name .. }

def roll (s : RollByTimeSink) : RollByTimeSink :=
  let f := SinkFile.opened s.files (createNewFile offset clock s.basename (s.readings + 1))
  { s with
    curGap := dateNow (clock s.readings) / s.gapSize
    readings := s.readings + 2
    files := s.files.store f
    closed := s.closed ++ [s.current]
    current := f
    file := Files.store_name .. }

/-- `(cur / _gap_size) != _cur_gap` -/
def Rolls (s : RollByTimeSink) : Prop := dateNow (clock s.readings) / s.gapSize ≠ s.curGap

instance (s : RollByTimeSink) : Decidable (s.Rolls clock) := instDecidableNot

def log (s : RollByTimeSink) (data : Bytes) : RollByTimeSink :=
  if s.Rolls clock then (s.roll offset clock).write data
  else { s with readings := s.readings + 1 }.write data

def system (basename : Bytes) (gap : TimeGap) (files : Files) : System RollByTimeSink Bytes where
  init s := s = make offset clock basename gap files
  step s data t := t = s.log offset clock data

end RollByTimeSink

end MyLog

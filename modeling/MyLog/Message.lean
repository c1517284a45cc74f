import MyLog.Text

/-! Log levels, the log message and what the code asks of its platform. -/

namespace MyLog

inductive LogLevel
  | unknow
  | debug
  | info
  | warn
  | error
  | fatal
  | off
  deriving DecidableEq

namespace LogLevel

def value : LogLevel → Nat
  | unknow => 0
  | debug => 1
  | info => 2
  | warn => 3
  | error => 4
  | fatal => 5
  | off => 6

instance : LT LogLevel := ⟨fun a b => a.value < b.value⟩

instance (a b : LogLevel) : Decidable (a < b) := inferInstanceAs (Decidable (a.value < b.value))

def toString : LogLevel → Bytes
  | debug => utf8 "DEBUG"
  | info => utf8 "INFO"
  | warn => utf8 "WARN"
  | error => utf8 "ERROR"
  | fatal => utf8 "FATAL"
  | off => utf8 "OFF"
  | unknow => utf8 "UNKNOW"

end LogLevel

structure LogMsg where
  ctime : Int
  level : LogLevel
  file : Bytes
  line : Nat
  tid : Nat
  payload : Bytes
  logger : Bytes

structure Tm where
  sec : Int
  min : Int
  hour : Int
  mday : Int
  mon : Int
  year : Int
  wday : Int
  yday : Int
  isdst : Int

/-- `operator<<` of a thread id, `localtime_r`, the full expansion of a format by
`strftime`, and the bytes `strftime` leaves behind when that does not fit. -/
structure Platform where
  threadText : Nat → Bytes
  localtime : Int → Tm
  expansion : Bytes → Tm → Bytes
  leftover : Bytes → Tm → Nat → UInt8

/-- The array `tmp` of 32 zero bytes after `strftime(tmp, max, fmt, tm)`. -/
def Platform.strftime (P : Platform) (max : Nat) (fmt : Bytes) (tm : Tm) : Bytes :=
  let text := P.expansion (cString fmt) tm
  if text.length + 1 ≤ max then text ++ List.replicate (32 - text.length) 0
  else (List.range max).map (P.leftover (cString fmt) tm) ++ List.replicate (32 - max) 0

/-- The clock stands at midnight, and a format without `%` expands to itself. -/
def Platform.midnight : Platform where
  threadText := decimal
  localtime _ := ⟨0, 0, 0, 1, 0, 70, 4, 0, 0⟩
  expansion fmt _ := if fmt = utf8 "%H:%M:%S" then utf8 "00:00:00" else cString fmt
  leftover _ _ _ := 0

end MyLog

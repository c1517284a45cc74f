import Mathlib.Logic.Function.Basic
import MyLog.FilePath
import MyLog.Lib.Delimited
import MyLog.Lib.KeyedLog
import MyLog.Message

/-! `RollBySizeSink` of `sink.hpp`, with files that no one else writes. Opens and
writes succeed, and the directories of the paths exist. -/

namespace MyLog

/-- The bytes of each file, by its place; `none` where there is no file. Two names of one
place are one file. -/
structure Files where
  cwd : List Bytes
  bytes : List Bytes → Option Bytes

namespace Files

def empty : Files := ⟨[], fun _ => none⟩

def locate (files : Files) (name : Bytes) : List Bytes := place files.cwd name

def read (files : Files) (name : Bytes) : Option Bytes := files.bytes (files.locate name)

instance : CoeFun Files fun _ => Bytes → Option Bytes := ⟨read⟩

end Files

/-- A file that the sink opened: the string given to `open`, the bytes the file
held then, and what each `_ofs.write` appended. -/
structure SinkFile where
  name : Bytes
  before : Bytes
  pieces : List Bytes

namespace SinkFile

def appended (f : SinkFile) : Bytes := f.pieces.flatten

def content (f : SinkFile) : Bytes := f.before ++ f.appended

/-- An open with `std::ios::app` keeps what the file holds. -/
def opened (files : Files) (name : Bytes) : SinkFile := ⟨name, (files name).getD [], []⟩

def write (f : SinkFile) (data : Bytes) : SinkFile := { f with pieces := f.pieces ++ [data] }

/-- In append mode the stream stands at the end of the file. -/
def tellp (f : SinkFile) : Int := f.content.length

@[simp] theorem write_content (f : SinkFile) (data : Bytes) :
    (f.write data).content = f.content ++ data := by
  simp [content, write, appended]

@[simp] theorem opened_content (files : Files) (name : Bytes) :
    (opened files name).content = (files name).getD [] := by
  simp [content, opened, appended]

end SinkFile

namespace Files

def store (files : Files) (f : SinkFile) : Files :=
  { files with bytes := Function.update files.bytes (files.locate f.name) (some f.content) }

@[simp] theorem store_name (files : Files) (f : SinkFile) :
    files.store f f.name = some f.content :=
  Function.update_self ..

def append (files : Files) (w : List Bytes × Bytes) : Files :=
  { files with bytes := KeyedLog.append files.bytes w }

section Append

variable (files : Files)

theorem store_opened (name : Bytes) :
    files.store (.opened files name) = files.append (files.locate name, []) := by
  rw [store, SinkFile.opened_content, append, KeyedLog.append, List.append_nil]
  rfl

theorem store_write {f : SinkFile} (h : files f.name = some f.content) (data : Bytes) :
    files.store (f.write data) = files.append (files.locate f.name, data) := by
  have hbytes : files.bytes (files.locate f.name) = some f.content := h
  rw [store, SinkFile.write_content, append, KeyedLog.append, hbytes]
  rfl

theorem append_nil {name content : Bytes} (h : files name = some content) :
    files.append (files.locate name, []) = files := by
  have hbytes : files.bytes (files.locate name) = some content := h
  have hsame : Function.update files.bytes (files.locate name) (some content) = files.bytes := by
    rw [← hbytes, Function.update_eq_self]
  rw [append, KeyedLog.append, hbytes, Option.getD_some, List.append_nil, hsame]

theorem append_append (p : List Bytes) (c d : Bytes) :
    (files.append (p, c)).append (p, d) = files.append (p, c ++ d) := by
  simp only [append, KeyedLog.append_append]

theorem append_read (name : Bytes) (data : Bytes) :
    files.append (files.locate name, data) name = some ((files name).getD [] ++ data) :=
  Function.update_self ..

theorem foldl_append_bytes (ws : List (List Bytes × Bytes)) :
    (ws.foldl append files).bytes = ws.foldl KeyedLog.append files.bytes := by
  induction ws generalizing files with
  | nil => rfl
  | cons w ws ih => exact ih (files.append w)

@[simp] theorem foldl_append_locate (ws : List (List Bytes × Bytes)) (name : Bytes) :
    (ws.foldl append files).locate name = files.locate name := by
  induction ws generalizing files with
  | nil => rfl
  | cons w ws ih => exact ih (files.append w)

/-- A file has grown by what was appended at its place. -/
theorem foldl_append_read {ws : List (List Bytes × Bytes)} {name : Bytes}
    (h : files.locate name ∈ ws.map Prod.fst) : ws.foldl append files name =
      some ((files name).getD [] ++ (KeyedLog.under (files.locate name) ws).flatten) := by
  rw [read, foldl_append_locate, foldl_append_bytes, KeyedLog.foldl_append, if_pos h]
  rfl

theorem foldl_append_of_notMem {ws : List (List Bytes × Bytes)} {name : Bytes}
    (h : files.locate name ∉ ws.map Prod.fst) : ws.foldl append files name = files name := by
  rw [read, foldl_append_locate, foldl_append_bytes, KeyedLog.foldl_append, if_neg h]
  rfl

theorem prefix_foldl_append (ws : List (List Bytes × Bytes)) (name : Bytes) :
    (files name).getD [] <+: (ws.foldl append files name).getD [] := by
  have h := KeyedLog.prefix_foldl_append files.bytes ws (files.locate name)
  rwa [← foldl_append_bytes, ← read, ← foldl_append_locate files ws name, ← read] at h

end Append

end Files

/-- The members of the sink, how often it has read the clock, and the files around it.
`closed` and `current` are the files it has opened so far; the stream is open on the
last one. `count` is a `size_t`: with the clock read once for each name, it is the number
of readings until it wraps around. -/
structure RollBySizeSink where
  basename : Bytes
  maxFsize : Nat
  curFsize : Nat
  count : Nat
  readings : Nat
  files : Files
  closed : List SinkFile
  current : SinkFile
  counted : count = sizeT readings
  file : files current.name = some current.content

namespace RollBySizeSink

/-- `std::setfill('0') << std::setw(2)` -/
def padded (b : Bytes) : Bytes := List.replicate (2 - b.length) (ascii '0') ++ b

def fileName (basename : Bytes) (lt : Tm) (count : Nat) : Bytes :=
  basename ++ utf8 "_" ++ signedDecimal (lt.year + 1900) ++ utf8 "-" ++
    padded (signedDecimal (lt.mon + 1)) ++ utf8 "-" ++ signedDecimal lt.mday ++ utf8 " " ++
    signedDecimal lt.hour ++ utf8 ":" ++ signedDecimal lt.min ++ utf8 ":" ++
    signedDecimal lt.sec ++ utf8 "-" ++ decimal count ++ utf8 ".log"

/-- `(pos < 0) ? 0 : static_cast<size_t>(pos)` -/
def sizeAt (pos : Int) : Nat := if pos < 0 then 0 else pos.toNat

@[simp] theorem sizeAt_tellp (f : SinkFile) : sizeAt f.tellp = f.content.length := by
  have : ¬ f.tellp < 0 := by simp [SinkFile.tellp]
  rw [sizeAt, if_neg this, SinkFile.tellp, Int.toNat_natCast]

def write (s : RollBySizeSink) (data : Bytes) : RollBySizeSink :=
  { s with
    files := s.files.store (s.current.write data)
    current := s.current.write data
    curFsize := s.curFsize + data.length
    file := Files.store_name .. }

variable (P : Platform) (clock : Nat → Int)

/-- The name of the file and the next `_count`. -/
def createNewFile (basename : Bytes) (count readings : Nat) : Bytes × Nat :=
  (fileName basename (P.localtime (clock readings)) count, sizeT (count + 1))

def make (basename : Bytes) (maxSize : Nat) (files : Files) : RollBySizeSink :=
  let new := createNewFile P clock basename 0 0
  let f := SinkFile.opened files new.1
  { basename := basename
    maxFsize := maxSize
    curFsize := sizeAt f.tellp
    count := new.2
    readings := 1
    files := files.store f
    closed := []
    current := f
    counted := rfl
    file := Files.store_name .. }

/-- `_ofs.close(); openFile(createNewFile());` -/
def roll (s : RollBySizeSink) : RollBySizeSink :=
  let new := createNewFile P clock s.basename s.count s.readings
  let f := SinkFile.opened s.files new.1
  { s with
    curFsize := sizeAt f.tellp
    count := new.2
    readings := s.readings + 1
    files := s.files.store f
    closed := s.closed ++ [s.current]
    current := f
    counted := by simp only [new, createNewFile, s.counted, sizeT_succ]
    file := Files.store_name .. }

def rollIfFull (s : RollBySizeSink) : RollBySizeSink :=
  if s.curFsize ≥ s.maxFsize then s.roll P clock else s

def logPiece (s : RollBySizeSink) (data : Bytes) : RollBySizeSink :=
  (s.write data).rollIfFull P clock

theorem drop_line_lt {data : Bytes} {k : Nat} (h : data ≠ []) :
    (data.drop (k + 1)).length < data.length := by
  have := List.length_pos_of_ne_nil h
  rw [List.length_drop]
  omega

/-- `memchr` looks for the end of a line; a tail without one is written whole. -/
def log (s : RollBySizeSink) (data : Bytes) : RollBySizeSink :=
  if h : data = [] then s
  else match data.idxOf? newline with
    | none => s.logPiece P clock data
    | some k =>
      have := drop_line_lt (k := k) h
      log (s.logPiece P clock (data.take (k + 1))) (data.drop (k + 1))
termination_by data.length

/-- The states in `log`: on entry, after each write and after each test. -/
def logStates (s : RollBySizeSink) (data : Bytes) : List RollBySizeSink :=
  if h : data = [] then [s]
  else match data.idxOf? newline with
    | none => [s, s.write data, s.logPiece P clock data]
    | some k =>
      have := drop_line_lt (k := k) h
      s :: s.write (data.take (k + 1)) ::
        logStates (s.logPiece P clock (data.take (k + 1))) (data.drop (k + 1))
termination_by data.length

theorem idxOf?_line {line : Bytes} (rest : Bytes) (h : newline ∉ line) :
    (line ++ newline :: rest).idxOf? newline = some line.length := by
  induction line with
  | nil => simp [List.idxOf?_cons]
  | cons b line ih =>
    have hb : b ≠ newline := fun he => h (by simp [he])
    have hl := ih fun hm => h (List.mem_cons_of_mem _ hm)
    simp [List.idxOf?_cons, hb, hl]

theorem take_line (line rest : Bytes) :
    (line ++ newline :: rest).take (line.length + 1) = line ++ [newline] := by
  simp [List.take_append]

theorem drop_line (line rest : Bytes) :
    (line ++ newline :: rest).drop (line.length + 1) = rest := by
  simp [List.drop_append]

section Loop

variable (s : RollBySizeSink) {data line : Bytes}

@[simp] theorem log_nil : s.log P clock [] = s := by
  rw [log, dif_pos rfl]

theorem log_tail (hd : data ≠ []) (h : newline ∉ data) :
    s.log P clock data = s.logPiece P clock data := by
  rw [log, dif_neg hd, List.idxOf?_eq_none_iff.mpr h]

theorem log_line (rest : Bytes) (h : newline ∉ line) :
    s.log P clock (line ++ newline :: rest) =
      (s.logPiece P clock (line ++ [newline])).log P clock rest := by
  rw [log, dif_neg (by simp), idxOf?_line rest h]
  simp only [take_line, drop_line]

theorem logStates_tail (hd : data ≠ []) (h : newline ∉ data) :
    s.logStates P clock data = [s, s.write data, s.logPiece P clock data] := by
  rw [logStates, dif_neg hd, List.idxOf?_eq_none_iff.mpr h]

theorem logStates_line (rest : Bytes) (h : newline ∉ line) :
    s.logStates P clock (line ++ newline :: rest) =
      s :: s.write (line ++ [newline]) ::
        (s.logPiece P clock (line ++ [newline])).logStates P clock rest := by
  rw [logStates, dif_neg (by simp), idxOf?_line rest h]
  simp only [take_line, drop_line]

end Loop

def logPieces (s : RollBySizeSink) (ps : List Bytes) : RollBySizeSink :=
  ps.foldl (logPiece P clock) s

theorem logPieces_append (s : RollBySizeSink) (ps qs : List Bytes) :
    s.logPieces P clock (ps ++ qs) = (s.logPieces P clock ps).logPieces P clock qs :=
  List.foldl_append

/-- The loop logs the lines of its data, and the tail, one after the other. -/
theorem log_eq (s : RollBySizeSink) (data : Bytes) :
    s.log P clock data = s.logPieces P clock (Delimited.pieces newline data) := by
  induction hn : data.length using Nat.strong_induction_on generalizing s data with
  | _ n ih =>
    rcases Delimited.split_cases newline data with rfl | ⟨hd, h⟩ | ⟨line, rest, h, rfl⟩
    · exact log_nil P clock s
    · rw [log_tail P clock s hd h, Delimited.pieces_of_notMem h hd]
      rfl
    · have hlt : rest.length < n := by
        simp only [List.length_append, List.length_cons] at hn
        omega
      rw [log_line P clock s rest h, Delimited.pieces_of_split h, ih _ hlt _ _ rfl]
      rfl

/-- A state in `log` lies between two pieces, or between a write and its test. -/
theorem mem_logStates {s τ : RollBySizeSink} {data : Bytes} (hτ : τ ∈ s.logStates P clock data) :
    ∃ ps qs, Delimited.pieces newline data = ps ++ qs ∧
      (τ = s.logPieces P clock ps ∨
        ∃ p, p ∈ qs.head? ∧ τ = (s.logPieces P clock ps).write p) := by
  induction hn : data.length using Nat.strong_induction_on generalizing s data with
  | _ n ih =>
    rcases Delimited.split_cases newline data with rfl | ⟨hd, h⟩ | ⟨line, rest, h, rfl⟩
    · rw [logStates, dif_pos rfl, List.mem_singleton] at hτ
      exact ⟨[], [], rfl, .inl hτ⟩
    · rw [logStates_tail P clock s hd h] at hτ
      rw [Delimited.pieces_of_notMem h hd]
      rcases List.mem_cons.mp hτ with rfl | hτ
      · exact ⟨[], [data], rfl, .inl rfl⟩
      rcases List.mem_cons.mp hτ with rfl | hτ
      · exact ⟨[], [data], rfl, .inr ⟨data, rfl, rfl⟩⟩
      · exact ⟨[data], [], rfl, .inl (List.mem_singleton.mp hτ)⟩
    · rw [logStates_line P clock s rest h] at hτ
      rw [Delimited.pieces_of_split h]
      rcases List.mem_cons.mp hτ with rfl | hτ
      · exact ⟨[], _, rfl, .inl rfl⟩
      rcases List.mem_cons.mp hτ with rfl | hτ
      · exact ⟨[], _, rfl, .inr ⟨_, rfl, rfl⟩⟩
      · have hlt : rest.length < n := by
          simp only [List.length_append, List.length_cons] at hn
          omega
        obtain ⟨ps, qs, hp, ho⟩ := ih _ hlt hτ rfl
        exact ⟨(line ++ [newline]) :: ps, qs, by rw [hp]; rfl, ho⟩

def logAll (s : RollBySizeSink) (ds : List Bytes) : RollBySizeSink :=
  ds.foldl (log P clock) s

theorem logAll_eq (s : RollBySizeSink) (ds : List Bytes) :
    s.logAll P clock ds = s.logPieces P clock (ds.flatMap (Delimited.pieces newline)) := by
  induction ds generalizing s with
  | nil => rfl
  | cons d ds ih =>
    have hd : s.logAll P clock (d :: ds) = (s.log P clock d).logAll P clock ds := rfl
    rw [hd, ih, log_eq, List.flatMap_cons, logPieces_append]

end RollBySizeSink

end MyLog

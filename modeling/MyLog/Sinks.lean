import MyLog.RollBatching
import MyLog.RollRecord

/-! `LogSink` of `sink.hpp` and its three kinds, each with what it writes to. -/

namespace MyLog

/-- The members of the sink and the files around it, which no one else writes. -/
structure FileSink where
  pathname : Bytes
  files : Files
  ofs : SinkFile
  file : files ofs.name = some ofs.content

namespace FileSink

def make (pathname : Bytes) (files : Files) : FileSink :=
  let f := SinkFile.opened files pathname
  { pathname := pathname
    files := files.store f
    ofs := f
    file := Files.store_name .. }

def log (s : FileSink) (data : Bytes) : FileSink :=
  { s with
    files := s.files.store (s.ofs.write data)
    ofs := s.ofs.write data
    file := Files.store_name .. }

theorem log_files (s : FileSink) (data : Bytes) :
    (s.log data).files = s.files.append (s.files.locate s.ofs.name, data) :=
  Files.store_write _ s.file data

/-- The file has grown by what was logged, and no other file has changed. -/
theorem logAll_files (s : FileSink) (ds : List Bytes) :
    (ds.foldl log s).ofs.content = s.ofs.content ++ ds.flatten ∧
    (ds.foldl log s).files = s.files.append (s.files.locate s.ofs.name, ds.flatten) := by
  induction ds generalizing s with
  | nil => exact ⟨by simp, (s.files.append_nil s.file).symm⟩
  | cons d ds ih =>
    obtain ⟨hc, hf⟩ := ih (s.log d)
    have hplace : (s.log d).files.locate (s.log d).ofs.name = s.files.locate s.ofs.name := rfl
    have hcontent : (s.log d).ofs.content = s.ofs.content ++ d := SinkFile.write_content ..
    rw [List.foldl_cons, hc, hf, hplace, hcontent, log_files, Files.append_append,
      List.flatten_cons, List.append_assoc]
    exact ⟨rfl, rfl⟩

end FileSink

/-- `stdoutSink` has what `std::cout` was given. -/
inductive LogSink
  | stdoutSink (out : Bytes)
  | fileSink (s : FileSink)
  | rollBySizeSink (s : RollBySizeSink)

namespace LogSink

variable (P : Platform) (clock : Nat → Int)

def log : LogSink → Bytes → LogSink
  | stdoutSink out, data => stdoutSink (out ++ data)
  | fileSink s, data => fileSink (s.log data)
  | rollBySizeSink s, data => rollBySizeSink (s.log P clock data)

def logAll (s : LogSink) (ds : List Bytes) : LogSink := ds.foldl (log P clock) s

/-- The bytes that a sink has written, over all its files. -/
def written : LogSink → Bytes
  | stdoutSink out => out
  | fileSink s => s.ofs.appended
  | rollBySizeSink s => s.segments.flatten

/-- The files that the sink rolled to from `σ` on held nothing. -/
def Fresh : LogSink → LogSink → Prop
  | rollBySizeSink σ, rollBySizeSink s => RollBySizeSink.Fresh σ s
  | _, _ => True

/-- Two sinks that were in the state `σ` agree on what they wrote since then and on where
it is, but for the times in the names of rolled files. -/
def Agree (clock clock' : Nat → Int) : LogSink → LogSink → LogSink → Prop
  | stdoutSink _, stdoutSink out, stdoutSink out' => out = out'
  | fileSink _, fileSink s, fileSink t => s.files = t.files ∧ s.ofs.content = t.ofs.content
  | rollBySizeSink σ, rollBySizeSink s, rollBySizeSink t =>
    RollBySizeSink.Agree P clock clock' σ s t
  | _, _, _ => False

variable {P clock}

theorem segments_flatten (s : RollBySizeSink) :
    s.segments.flatten = (s.opened.flatMap SinkFile.pieces).flatten := by
  have hmap : s.segments = (s.opened.map SinkFile.pieces).map List.flatten := by
    rw [RollBySizeSink.segments, List.map_map]
    rfl
  rw [hmap, ← List.flatten_flatten, ← List.flatMap_def]

theorem log_written (s : LogSink) (data : Bytes) :
    (s.log P clock data).written = s.written ++ data := by
  cases s with
  | stdoutSink out => rfl
  | fileSink s => simp [log, written, FileSink.log, SinkFile.write, SinkFile.appended]
  | rollBySizeSink s =>
    simp only [log, written, segments_flatten, RollBySizeSink.log_eq,
      RollBySizeSink.logPieces_pieces, List.flatten_append, Delimited.pieces_flatten]

theorem logAll_written (s : LogSink) (ds : List Bytes) :
    (s.logAll P clock ds).written = s.written ++ ds.flatten := by
  induction ds generalizing s with
  | nil => simp [logAll]
  | cons d ds ih =>
    show ((s.log P clock d).logAll P clock ds).written = _
    rw [ih, log_written, List.append_assoc, List.flatten_cons]

@[simp] theorem logAll_stdoutSink (out : Bytes) (ds : List Bytes) :
    (stdoutSink out).logAll P clock ds = stdoutSink (out ++ ds.flatten) := by
  induction ds generalizing out with
  | nil => simp [logAll]
  | cons d ds ih =>
    show (stdoutSink (out ++ d)).logAll P clock ds = _
    rw [ih, List.append_assoc, List.flatten_cons]

@[simp] theorem logAll_fileSink (s : FileSink) (ds : List Bytes) :
    (fileSink s).logAll P clock ds = fileSink (ds.foldl FileSink.log s) := by
  induction ds generalizing s with
  | nil => rfl
  | cons d ds ih => exact ih (s.log d)

@[simp] theorem logAll_rollBySizeSink (s : RollBySizeSink) (ds : List Bytes) :
    (rollBySizeSink s).logAll P clock ds = rollBySizeSink (s.logAll P clock ds) := by
  induction ds generalizing s with
  | nil => rfl
  | cons d ds ih => exact ih (s.log P clock d)

/-- A sink does not tell lines logged one by one from batches of them, if it rolls to new
files. -/
theorem agree_batches {clock' : Nat → Int} {σ : LogSink} {groups : List (List Bytes)}
    (h : ∀ r ∈ groups.flatten, r.getLast? = some newline)
    (hs : Fresh σ (σ.logAll P clock groups.flatten))
    (ht : Fresh σ (σ.logAll P clock' (groups.map List.flatten))) :
    Agree P clock clock' σ (σ.logAll P clock groups.flatten)
      (σ.logAll P clock' (groups.map List.flatten)) := by
  have hflat : (groups.map List.flatten).flatten = groups.flatten.flatten :=
    List.flatten_flatten.symm
  cases σ with
  | stdoutSink out => simp only [logAll_stdoutSink, Agree, hflat]
  | fileSink s =>
    obtain ⟨hc, hf⟩ := s.logAll_files groups.flatten
    obtain ⟨hc', hf'⟩ := s.logAll_files (groups.map List.flatten)
    simp only [logAll_fileSink, Agree, hc, hf, hc', hf', hflat, and_self]
  | rollBySizeSink s =>
    simp only [logAll_rollBySizeSink, Fresh, RollBySizeSink.logAll_eq,
      Delimited.flatMap_pieces_batches h] at hs ht
    simp only [logAll_rollBySizeSink, Agree, RollBySizeSink.logAll_eq,
      Delimited.flatMap_pieces_batches h]
    exact RollBySizeSink.logPieces_agree hs ht

end LogSink

end MyLog

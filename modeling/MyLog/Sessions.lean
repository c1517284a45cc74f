import MyLog.Sinks
import MyLog.TimeFiles

/-! Sinks that are made one after the other over the same files, as a program that is run
again makes them. -/

namespace MyLog

/-- A sink from its construction to its destruction: the arguments of the constructor and
the data of the calls of `log`. -/
inductive Session
  | fileSink (pathname : Bytes) (ds : List Bytes)
  | rollBySizeSink (clock : Nat → Int) (basename : Bytes) (maxSize : Nat) (ds : List Bytes)
  | rollByTimeSink (offset : Int) (clock : Nat → Int) (basename : Bytes) (gap : TimeGap)
    (ds : List Bytes)

namespace Session

def data : Session → List Bytes
  | fileSink _ ds => ds
  | rollBySizeSink _ _ _ ds => ds
  | rollByTimeSink _ _ _ _ ds => ds

def run (P : Platform) (files : Files) : Session → Files
  | fileSink pathname ds => (ds.foldl FileSink.log (.make pathname files)).files
  | rollBySizeSink clock basename maxSize ds =>
    ((RollBySizeSink.make P clock basename maxSize files).logAll P clock ds).files
  | rollByTimeSink offset clock basename gap ds =>
    (ds.foldl (RollByTimeSink.log offset clock) (.make offset clock basename gap files)).files

end Session

/-- From `files` to `files'` the data were appended at places, piece by piece in their order. -/
def Appended (files files' : Files) (data : Bytes) (segments : List (List Bytes × Bytes)) : Prop :=
  files' = segments.foldl Files.append files ∧ (segments.map Prod.snd).flatten = data

section Appended

variable {files files' files'' : Files} {d e : Bytes} {xs ys : List (List Bytes × Bytes)}

theorem Appended.trans (h : Appended files files' d xs) (h' : Appended files' files'' e ys) :
    Appended files files'' (d ++ e) (xs ++ ys) := by
  obtain ⟨rfl, rfl⟩ := h
  obtain ⟨rfl, rfl⟩ := h'
  exact ⟨by rw [List.foldl_append], by rw [List.map_append, List.flatten_append]⟩

theorem Appended.single {p : List Bytes} (h : files' = files.append (p, d)) :
    Appended files files' d [(p, d)] :=
  ⟨h, by simp⟩

theorem Appended.opened {p : List Bytes} (h : files' = files.append (p, []))
    (h' : Appended files' files'' d xs) : Appended files files'' d ((p, []) :: xs) :=
  (Appended.single h).trans h'

/-- Whole lists of calls, if each of them appends its own data. -/
theorem Appended.foldl {σ : Type} (filesOf : σ → Files) (log : σ → Bytes → σ)
    (hlog : ∀ s d, ∃ xs, Appended (filesOf s) (filesOf (log s d)) d xs) (ds : List Bytes) (s : σ) :
    ∃ xs, Appended (filesOf s) (filesOf (ds.foldl log s)) ds.flatten xs := by
  induction ds generalizing s with
  | nil => exact ⟨[], rfl, rfl⟩
  | cons d ds ih =>
    obtain ⟨xs, hx⟩ := hlog s d
    obtain ⟨ys, hy⟩ := ih (log s d)
    exact ⟨xs ++ ys, hx.trans hy⟩

end Appended

namespace RollBySizeSink

variable {P : Platform} {clock : Nat → Int}

theorem logPiece_appended (s : RollBySizeSink) (d : Bytes) :
    ∃ xs, Appended s.files (s.logPiece P clock d).files d xs := by
  have hwrite : (s.write d).files = s.files.append (s.files.locate s.current.name, d) :=
    s.files.store_write s.file d
  by_cases hfull : (s.write d).curFsize ≥ (s.write d).maxFsize
  · obtain ⟨p, hroll⟩ : ∃ p, (s.logPiece P clock d).files = (s.write d).files.append (p, []) := by
      rw [logPiece, rollIfFull, if_pos hfull]
      exact ⟨_, (s.write d).files.store_opened _⟩
    rw [← List.append_nil d]
    exact ⟨_, (Appended.single hwrite).trans (.single (by simpa using hroll))⟩
  · rw [logPiece, rollIfFull, if_neg hfull]
    exact ⟨_, .single hwrite⟩

theorem log_appended (s : RollBySizeSink) (d : Bytes) :
    ∃ xs, Appended s.files (s.log P clock d).files d xs := by
  obtain ⟨xs, hx⟩ := Appended.foldl files (logPiece P clock) logPiece_appended
    (Delimited.pieces newline d) s
  rw [Delimited.pieces_flatten] at hx
  exact ⟨xs, log_eq P clock s d ▸ hx⟩

end RollBySizeSink

theorem Session.run_appended (P : Platform) (x : Session) (files : Files) :
    ∃ xs, Appended files (x.run P files) x.data.flatten xs := by
  cases x with
  | fileSink pathname ds =>
    obtain ⟨xs, hx⟩ := Appended.foldl FileSink.files FileSink.log
      (fun s d => ⟨_, .single (s.log_files d)⟩) ds (.make pathname files)
    exact ⟨_, .opened (files.store_opened pathname) hx⟩
  | rollBySizeSink clock basename maxSize ds =>
    obtain ⟨xs, hx⟩ := Appended.foldl RollBySizeSink.files (RollBySizeSink.log P clock)
      RollBySizeSink.log_appended ds (.make P clock basename maxSize files)
    exact ⟨_, .opened (files.store_opened _) hx⟩
  | rollByTimeSink offset clock basename gap ds =>
    obtain ⟨xs, hx⟩ := Appended.foldl RollByTimeSink.files (RollByTimeSink.log offset clock)
      (fun s d => ⟨_, .single (RollByTimeSink.log_files d)⟩) ds
      (.make offset clock basename gap files)
    exact ⟨_, .opened (RollByTimeSink.make_files basename files) hx⟩

/-- However often a program is run again, with whatever sinks and clocks, the files keep
what they held, and each run appends its data to them, all of it and in its order. -/
theorem restarts_append (P : Platform) (xs : List Session) (files : Files) :
    ∃ segments : List (List (List Bytes × Bytes)),
      List.Forall₂ (fun x s => (s.map Prod.snd).flatten = x.data.flatten) xs segments ∧
      (∀ p ∈ segments.flatten.map Prod.fst, (xs.foldl (Session.run P) files).bytes p =
        some ((files.bytes p).getD [] ++ (KeyedLog.under p segments.flatten).flatten)) ∧
      ∀ p ∉ segments.flatten.map Prod.fst,
        (xs.foldl (Session.run P) files).bytes p = files.bytes p := by
  suffices h : ∃ segments : List (List (List Bytes × Bytes)),
      List.Forall₂ (fun x s => (s.map Prod.snd).flatten = x.data.flatten) xs segments ∧
      xs.foldl (Session.run P) files = segments.flatten.foldl Files.append files by
    obtain ⟨segments, hdata, hfiles⟩ := h
    refine ⟨segments, hdata, fun p hp => ?_, fun p hp => ?_⟩
    · rw [hfiles, Files.foldl_append_bytes, KeyedLog.foldl_append, if_pos hp]
    · rw [hfiles, Files.foldl_append_bytes, KeyedLog.foldl_append, if_neg hp]
  induction xs generalizing files with
  | nil => exact ⟨[], .nil, rfl⟩
  | cons x xs ih =>
    obtain ⟨s, hrun, hdata⟩ := x.run_appended P files
    obtain ⟨segments, hall, hfiles⟩ := ih (x.run P files)
    refine ⟨s :: segments, .cons hdata hall, ?_⟩
    rw [List.foldl_cons, hfiles, hrun, List.flatten_cons, List.foldl_append]

/-- Two spellings of one path. -/
example : [Session.fileSink (utf8 "f") [utf8 "a"], .fileSink (utf8 "./f") [utf8 "b"]].foldl
    (Session.run .midnight) .empty (utf8 "f") = some (utf8 "ab") := rfl

end MyLog

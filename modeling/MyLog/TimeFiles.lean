import Mathlib.Data.Int.Order.Basic
import MyLog.Lib.KeyedLog
import MyLog.TimeSlots

/-! What the files of `RollByTimeSink` hold after a run, also where it opens a file that
it has written to before. -/

namespace MyLog

open Transition

namespace RollByTimeSink

section Records

variable (offset : Int) (clock : Nat → Int)

/-- The place of the file that a call writes to, and its data. -/
def record (x : RollByTimeSink × Bytes) : List Bytes × Bytes :=
  (targetPlace offset clock x.1 x.2, x.2)

def recordsIn (tr : List (RollByTimeSink × Bytes)) (p : List Bytes) : List Bytes :=
  KeyedLog.under p (tr.map (record offset clock))

end Records

variable {gap : TimeGap} {offset : Int} {clock : Nat → Int} {s : RollByTimeSink} {data : Bytes}

theorem make_files (basename : Bytes) (files : Files) :
    (make offset clock basename gap files).files =
      files.append (files.locate (createNewFile offset clock basename 1), []) :=
  files.store_opened _

theorem roll_files : (s.roll offset clock).files = s.files.append
    (s.files.locate (createNewFile offset clock s.basename (s.readings + 1)), []) :=
  s.files.store_opened _

theorem write_files : (s.write data).files =
    s.files.append (s.files.locate s.current.name, data) :=
  s.files.store_write s.file data

theorem log_files (data : Bytes) : (s.log offset clock data).files =
    s.files.append (record offset clock (s, data)) := by
  by_cases hroll : s.Rolls clock
  · have hlog : s.log offset clock data = (s.roll offset clock).write data := if_pos hroll
    have hplace : (s.roll offset clock).files.locate (s.roll offset clock).current.name =
        s.files.locate (createNewFile offset clock s.basename (s.readings + 1)) := rfl
    rw [record, targetPlace, target_roll hroll, hlog, write_files, hplace, roll_files,
      Files.append_append]
    rfl
  · have hlog : s.log offset clock data = { s with readings := s.readings + 1 }.write data :=
      if_neg hroll
    rw [record, targetPlace, target_same hroll, hlog, write_files]

variable {basename : Bytes} {files : Files} {tr : List (RollByTimeSink × Bytes)}

theorem files_run
    (h : (system offset clock basename gap files).Run (make offset clock basename gap files) tr s) :
    s.files = ((files.locate (createNewFile offset clock basename 1), []) ::
      tr.map (record offset clock)).foldl Files.append files := by
  induction h with
  | nil => exact make_files basename files
  | @snoc u v d tr _ hs ih =>
    obtain rfl : v = u.log offset clock d := hs
    rw [log_files, ih, List.map_append, ← List.cons_append, List.foldl_append]
    rfl

/-- The open file is named for an earlier reading, and no record was filed under a later one. -/
structure Stamped (offset : Int) (clock : Nat → Int) (basename : Bytes) (files : Files)
    (tr : List (RollByTimeSink × Bytes)) (s : RollByTimeSink) (ws : List (Int × Bytes)) (j : Nat) :
    Prop where
  records : tr.map (record offset clock) =
    ws.map fun w => (files.locate (fileName basename (localtime offset w.1)), w.2)
  ordered : (ws.map Prod.fst).Pairwise (· ≤ ·)
  earlier : ∀ t ∈ ws.map Prod.fst, t ≤ clock j
  read : j < s.readings
  current : s.current.name = fileName basename (localtime offset (clock j))

theorem Stamped.log {ws : List (Int × Bytes)} {j : Nat}
    (h : Stamped offset clock basename files tr s ws j) (hm : NonDecreasing clock)
    (hb : s.basename = basename) (hcwd : s.files.cwd = files.cwd) (data : Bytes) : ∃ ws' k,
      Stamped offset clock basename files (tr ++ [(s, data)]) (s.log offset clock data) ws' k := by
  obtain ⟨hrecords, hordered, hearlier, hread, hcurrent⟩ := h
  have hnext (k : Nat) (hjk : j ≤ k) (hk : k < (s.log offset clock data).readings)
      (hname : target offset clock s data = fileName basename (localtime offset (clock k))) :
      Stamped offset clock basename files (tr ++ [(s, data)]) (s.log offset clock data)
        (ws ++ [(clock k, data)]) k := by
    have hle : ∀ t ∈ ws.map Prod.fst, t ≤ clock k := fun t ht =>
      Int.le_trans (hearlier t ht) (hm j k hjk)
    refine ⟨?_, ?_, ?_, hk, hname⟩
    · rw [List.map_append, List.map_append, hrecords, List.map_singleton, List.map_singleton,
        record, targetPlace, hname, Files.locate, Files.locate, hcwd]
    · rw [List.map_append, List.pairwise_append]
      refine ⟨hordered, List.pairwise_singleton _ _, fun t ht t' ht' => ?_⟩
      rw [List.mem_singleton.mp ht']
      exact hle t ht
    · rw [List.map_append, List.forall_mem_append]
      exact ⟨hle, by simp⟩
  by_cases hroll : s.Rolls clock
  · have hlog : s.log offset clock data = (s.roll offset clock).write data := if_pos hroll
    refine ⟨_, _, hnext (s.readings + 1) (by omega) ?_ ?_⟩
    · rw [hlog]
      exact Nat.lt_succ_self _
    · rw [target_roll hroll, hb]
  · have hlog : s.log offset clock data = { s with readings := s.readings + 1 }.write data :=
      if_neg hroll
    refine ⟨_, _, hnext j (le_refl j) ?_ ?_⟩
    · rw [hlog]
      exact Nat.lt_succ_of_lt hread
    · rw [target_same hroll, hcurrent]

theorem stamped_run (hm : NonDecreasing clock)
    (h : (system offset clock basename gap files).Run (make offset clock basename gap files) tr s) :
    ∃ ws j, Stamped offset clock basename files tr s ws j := by
  induction h with
  | nil => exact ⟨[], 1, rfl, .nil, fun t ht => (List.not_mem_nil ht).elim, Nat.lt_succ_self 1, rfl⟩
  | @snoc u v d tr hr hs ih =>
    obtain rfl : v = u.log offset clock d := hs
    obtain ⟨ws, j, hstamped⟩ := ih
    have hreach := hr.reachable (.init rfl)
    exact hstamped.log hm (basename_eq hreach) (cwd_eq hreach) d

/-- The places of the file opened at the construction and of the files that were written to. -/
def named (offset : Int) (clock : Nat → Int) (basename : Bytes) (files : Files)
    (tr : List (RollByTimeSink × Bytes)) : List (List Bytes) :=
  files.locate (createNewFile offset clock basename 1) ::
    tr.map fun x => targetPlace offset clock x.1 x.2

/-- Each file holds what it held before and then the records of the calls that wrote to it;
no other file has changed. While the clock does not go back, the records of the files in the
order of the times in their names are those of all calls in their order. -/
theorem records_by_time
    (h : (system offset clock basename gap files).Run (make offset clock basename gap files) tr s) :
    (∀ p ∈ named offset clock basename files tr, s.files.bytes p =
      some ((files.bytes p).getD [] ++ (recordsIn offset clock tr p).flatten)) ∧
    (∀ p ∉ named offset clock basename files tr, s.files.bytes p = files.bytes p) ∧
    (0 ∉ basename → NonDecreasing clock → ∃ times : List Int, times.Pairwise (· < ·) ∧
      (times.flatMap fun t => recordsIn offset clock tr
        (files.locate (fileName basename (localtime offset t)))) = tr.map Prod.snd) := by
  have hnames : ((files.locate (createNewFile offset clock basename 1), []) ::
      tr.map (record offset clock)).map Prod.fst = named offset clock basename files tr :=
    congrArg (List.cons _) List.map_map
  have hrecords (p : List Bytes) : (KeyedLog.under p
      ((files.locate (createNewFile offset clock basename 1), []) ::
        tr.map (record offset clock))).flatten = (recordsIn offset clock tr p).flatten := by
    by_cases hn : files.locate (createNewFile offset clock basename 1) = p
    · subst hn
      rw [KeyedLog.under_cons_self, List.flatten_cons, List.nil_append]
      rfl
    · rw [KeyedLog.under_cons_of_ne hn]
      rfl
  refine ⟨fun p hp => ?_, fun p hp => ?_, fun hb hm => ?_⟩
  · rw [files_run h, Files.foldl_append_bytes, KeyedLog.foldl_append, hnames, if_pos hp, hrecords]
  · rw [files_run h, Files.foldl_append_bytes, KeyedLog.foldl_append, hnames, if_neg hp]
  · obtain ⟨ws, j, hstamped⟩ := stamped_run hm h
    obtain ⟨times, htimes, -, hall⟩ := KeyedLog.exists_increasing_keys hstamped.ordered
    refine ⟨times, htimes, ?_⟩
    have hinj : Function.Injective fun t : Int =>
        files.locate (fileName basename (localtime offset t)) := fun _ _ he =>
      fileName_injective
        ((extends_fileName basename _).place_injective (extends_fileName basename _) hb he)
    have hsnd : ws.map Prod.snd = tr.map Prod.snd := by
      have hs := congrArg (List.map Prod.snd) hstamped.records
      rw [List.map_map, List.map_map] at hs
      exact hs.symm
    rw [← hsnd, ← hall]
    refine congrArg List.flatten (List.map_congr_left fun t _ => ?_)
    rw [recordsIn, hstamped.records]
    exact KeyedLog.under_map hinj t ws

theorem records_by_time_minute : ∃ (tr : List (RollByTimeSink × Bytes)) (s : RollByTimeSink)
    (times : List Int), (system 0 (fun k => k) [] .gapMinute .empty).Run
      (make 0 (fun k => k) [] .gapMinute .empty) tr s ∧
    tr.map Prod.snd = [[97], [98]] ∧ times.Pairwise (· < ·) ∧
    (times.flatMap fun t => recordsIn 0 (fun k => k) tr
      (Files.empty.locate (fileName [] (localtime 0 t)))) = [[97], [98]] := by
  obtain ⟨times, htimes, hall⟩ := (records_by_time (run_two [97] [98])).2.2 List.not_mem_nil
    fun j k hjk => Int.ofNat_le.mpr hjk
  exact ⟨_, _, times, run_two [97] [98], rfl, htimes, hall⟩

end RollByTimeSink

end MyLog

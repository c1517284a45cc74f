import MyLog.FileNames
import MyLog.RollByTime

/-! Which time slot the files of `RollByTimeSink` are named for, and which records they
hold. The sink numbers slots in UTC and names files in local time, by a second reading
of the clock. -/

namespace MyLog

open Transition

/-- The ranges that `mktime` would not change. -/
structure Tm.InRange (lt : Tm) : Prop where
  mon : 0 ≤ lt.mon
  mday : 0 ≤ lt.mday
  hour : 0 ≤ lt.hour
  min : 0 ≤ lt.min
  sec : 0 ≤ lt.sec

theorem localtime_inRange (offset t : Int) : (localtime offset t).InRange := by
  obtain ⟨hm, hd⟩ := Calendar.ofDays_range ((t + offset) / 86400)
  constructor <;> simp only [localtime] <;> omega

def Tm.SameShown (lt lt' : Tm) : Prop :=
  lt.year = lt'.year ∧ lt.mon = lt'.mon ∧ lt.mday = lt'.mday ∧ lt.hour = lt'.hour ∧
    lt.min = lt'.min ∧ lt.sec = lt'.sec

theorem localtime_injective {offset t t' : Int}
    (h : (localtime offset t).SameShown (localtime offset t')) : t = t' := by
  obtain ⟨hy, hmon, hd, hh, hmin, hs⟩ := h
  simp only [localtime] at hy hmon hd hh hmin hs
  have hdate : Calendar.ofDays ((t + offset) / 86400) = Calendar.ofDays ((t' + offset) / 86400) :=
    Calendar.Date.ext (by omega) (by omega) hd
  have hdays := Calendar.ofDays_injective hdate
  omega

namespace RollBySizeSink

theorem padded_injective {m n : Nat} (h : padded (decimal m) = padded (decimal n)) : m = n := by
  have hv := congrArg digitsValue h
  simpa only [padded, digitsValue_zeros, digitsValue_decimal] using hv

theorem notMem_padded {b : UInt8} {n : Nat} (hb : b.toNat < 48 ∨ 57 < b.toNat) :
    b ∉ padded (decimal n) := by
  rw [padded, List.mem_append]
  rintro (h | h)
  · obtain rfl := List.eq_of_mem_replicate h
    revert hb
    decide
  · exact notMem_decimal hb n h

end RollBySizeSink

namespace RollByTimeSink

theorem split_text {d : UInt8} {l l' b b' : Bytes} (hb : d ∉ b) (hb' : d ∉ b')
    (h : l ++ [d] ++ b = l' ++ [d] ++ b') : l = l' ∧ b = b' := by
  rw [List.append_assoc, List.append_assoc] at h
  exact Delimited.split_last_delimiter h hb hb'

theorem split_number {d : UInt8} {l l' : Bytes} {m n : Int} (hd : d.toNat < 48 ∨ 57 < d.toNat)
    (hm : 0 ≤ m) (hn : 0 ≤ n) (h : l ++ [d] ++ signedDecimal m = l' ++ [d] ++ signedDecimal n) :
    l = l' ∧ m = n := by
  rw [signedDecimal_of_nonneg hm, signedDecimal_of_nonneg hn] at h
  obtain ⟨hl, he⟩ := split_text (notMem_decimal hd _) (notMem_decimal hd _) h
  have := decimal_injective he
  exact ⟨hl, by omega⟩

theorem split_padded {l l' : Bytes} {m n : Int} (hm : 0 ≤ m) (hn : 0 ≤ n)
    (h : l ++ [dash] ++ RollBySizeSink.padded (signedDecimal m) =
      l' ++ [dash] ++ RollBySizeSink.padded (signedDecimal n)) : l = l' ∧ m = n := by
  have hd : dash.toNat < 48 ∨ 57 < dash.toNat := by decide
  rw [signedDecimal_of_nonneg hm, signedDecimal_of_nonneg hn] at h
  obtain ⟨hl, he⟩ := split_text (RollBySizeSink.notMem_padded hd) (RollBySizeSink.notMem_padded hd) h
  have := RollBySizeSink.padded_injective he
  exact ⟨hl, by omega⟩

/-- A name is read from its end: only the year can have a sign. -/
theorem fileName_sameShown {basename : Bytes} {lt lt' : Tm} (hr : lt.InRange) (hr' : lt'.InRange)
    (h : fileName basename lt = fileName basename lt') : lt.SameShown lt' := by
  have hmon := hr.mon
  have hmon' := hr'.mon
  obtain ⟨h, hsec⟩ := split_number (d := ascii ':') (by decide) hr.sec hr'.sec
    (List.append_cancel_right h)
  obtain ⟨h, hmin⟩ := split_number (d := ascii ':') (by decide) hr.min hr'.min h
  obtain ⟨h, hhour⟩ := split_number (d := ascii ' ') (by decide) hr.hour hr'.hour h
  obtain ⟨h, hmday⟩ := split_number (d := dash) (by decide) hr.mday hr'.mday h
  obtain ⟨h, hmonth⟩ := split_padded (by omega) (by omega) h
  have hyear := signedDecimal_injective (List.append_cancel_left h)
  exact ⟨by omega, by omega, hmday, hhour, hmin, hsec⟩

theorem fileName_injective {offset t t' : Int} {basename : Bytes}
    (h : fileName basename (localtime offset t) = fileName basename (localtime offset t')) :
    t = t' :=
  localtime_injective
    (fileName_sameShown (localtime_inRange offset t) (localtime_inRange offset t') h)

theorem extends_fileName (base : Bytes) (lt : Tm) : Extends base (fileName base lt) := by
  have hw : Plain [] := by decide
  simpa only [fileName, moment, List.append_assoc, List.nil_append] using extends_moment base lt hw

theorem cString_fileName {basename : Bytes} (hb : 0 ∉ basename) (lt : Tm) :
    cString (fileName basename lt) = fileName basename lt :=
  cString_of_nulFree ((extends_fileName basename lt).nulFree hb)

theorem base_nulFree {basename name : Bytes} {lt : Tm} (h : cString name = fileName basename lt) :
    0 ∉ basename := by
  obtain ⟨v, c, he, -, -⟩ := extends_fileName basename lt
  intro hm
  refine nulFree_cString name ?_
  rw [h, he]
  exact List.mem_append_left _ hm

section Slots

variable (gap : TimeGap) (offset : Int) (clock : Nat → Int)

def localSlot (t : Int) : Int := (t + offset) / gap.size

def target (s : RollByTimeSink) (data : Bytes) : Bytes := (s.log offset clock data).current.name

/-- The place of the file that the call writes to. -/
def targetPlace (s : RollByTimeSink) (data : Bytes) : List Bytes :=
  s.files.locate (target offset clock s data)

/-- The timestamp in the file's name is in the slot of the reading that the call starts with. -/
def InSlot (s : RollByTimeSink) (data : Bytes) : Prop :=
  ∃ t, cString (target offset clock s data) = fileName s.basename (localtime offset t) ∧
    localSlot gap offset t = localSlot gap offset (clock s.readings)

structure FiledBySlot (tr : List (RollByTimeSink × Bytes)) : Prop where
  inSlot : ∀ x ∈ tr, InSlot gap offset clock x.1 x.2
  apart : ∀ x ∈ tr, ∀ y ∈ tr, targetPlace offset clock x.1 x.2 = targetPlace offset clock y.1 y.2 →
    localSlot gap offset (clock x.1.readings) = localSlot gap offset (clock y.1.readings)

/-- No local slot begins between two successive readings: if the call changes the file,
between that of `log` and that of `createNewFile`; if not, between the last one before
the call and that of `log`. -/
def Undivided (s : RollByTimeSink) : Prop :=
  if s.Rolls clock then
    localSlot gap offset (clock s.readings) = localSlot gap offset (clock (s.readings + 1))
  else localSlot gap offset (clock (s.readings - 1)) = localSlot gap offset (clock s.readings)

/-- The open file is named for the slot of the last reading. -/
structure Current (s : RollByTimeSink) : Prop where
  readings : 1 ≤ s.readings
  named : ∃ t, cString s.current.name = fileName s.basename (localtime offset t) ∧
    localSlot gap offset t = localSlot gap offset (clock (s.readings - 1))

end Slots

variable {gap : TimeGap} {offset : Int} {clock : Nat → Int} {s : RollByTimeSink} {data : Bytes}

theorem current_make {basename : Bytes} (hb : 0 ∉ basename) (files : Files) :
    Current gap offset clock (make offset clock basename gap files) :=
  ⟨Nat.le_add_left 1 1, clock 1, cString_fileName hb _, rfl⟩

theorem target_roll (h : s.Rolls clock) : target offset clock s data =
    fileName s.basename (localtime offset (clock (s.readings + 1))) := by
  rw [target, log, if_pos h]
  rfl

theorem target_same (h : ¬ s.Rolls clock) : target offset clock s data = s.current.name := by
  rw [target, log, if_neg h]
  rfl

@[simp] theorem log_basename : (s.log offset clock data).basename = s.basename := by
  unfold log
  split <;> rfl

@[simp] theorem log_cwd : (s.log offset clock data).files.cwd = s.files.cwd := by
  unfold log
  split <;> rfl

theorem inSlot_iff (h : Current gap offset clock s) :
    InSlot gap offset clock s data ↔ Undivided gap offset clock s := by
  obtain ⟨-, t, hname, hslot⟩ := h
  unfold InSlot Undivided
  by_cases hroll : s.Rolls clock
  · rw [target_roll hroll, cString_fileName (base_nulFree hname), if_pos hroll]
    constructor
    · rintro ⟨t', ht', hs⟩
      rw [← fileName_injective ht'] at hs
      exact hs.symm
    · intro hs
      exact ⟨_, rfl, hs.symm⟩
  · rw [target_same hroll, if_neg hroll, ← hslot, hname]
    constructor
    · rintro ⟨t', ht', hs⟩
      rwa [← fileName_injective ht'] at hs
    · intro hs
      exact ⟨t, rfl, hs⟩

theorem Current.log (h : InSlot gap offset clock s data) :
    Current gap offset clock (s.log offset clock data) := by
  by_cases hroll : s.Rolls clock
  · have hlog : s.log offset clock data = (s.roll offset clock).write data := if_pos hroll
    obtain ⟨t, hname, -⟩ := h
    have hcut := cString_fileName (base_nulFree hname)
    rw [hlog]
    exact ⟨Nat.le_add_left 1 _, clock (s.readings + 1), hcut _, rfl⟩
  · obtain ⟨t, hname, hslot⟩ := h
    rw [target_same hroll] at hname
    have hlog : s.log offset clock data = { s with readings := s.readings + 1 }.write data :=
      if_neg hroll
    rw [hlog]
    exact ⟨Nat.le_add_left 1 _, t, hname, hslot⟩

variable {basename : Bytes} {files : Files} {tr : List (RollByTimeSink × Bytes)}

theorem basename_eq (h : (system offset clock basename gap files).Reachable s) :
    s.basename = basename := by
  apply h.invariant
  · rintro s rfl
    rfl
  · rintro u d v _ hu rfl
    exact log_basename.trans hu

theorem cwd_eq (h : (system offset clock basename gap files).Reachable s) :
    s.files.cwd = files.cwd := by
  apply h.invariant
  · rintro s rfl
    rfl
  · rintro u d v _ hu rfl
    exact log_cwd.trans hu

/-- As long as all records are in their slots the open file is named for the last one,
so each call adds a condition on its own readings. -/
theorem inSlot_run (hb : 0 ∉ basename)
    (h : (system offset clock basename gap files).Run (make offset clock basename gap files) tr s) :
    ((∀ x ∈ tr, InSlot gap offset clock x.1 x.2) ↔ ∀ x ∈ tr, Undivided gap offset clock x.1) ∧
      ((∀ x ∈ tr, InSlot gap offset clock x.1 x.2) → Current gap offset clock s) := by
  induction h with
  | nil => exact ⟨by simp, fun _ => current_make hb files⟩
  | @snoc u v d tr _ hs ih =>
    obtain rfl : v = u.log offset clock d := hs
    obtain ⟨hiff, hcurrent⟩ := ih
    simp only [List.forall_mem_append, List.forall_mem_singleton]
    refine ⟨?_, fun ⟨_, hd⟩ => Current.log hd⟩
    rw [← hiff]
    exact and_congr_right fun hall => inSlot_iff (hcurrent hall)

/-- Every record is in the file of its slot exactly if no NUL byte cuts the names and no local
slot begins between two successive readings of the clock, of which the second may be the one
that makes `log` change the file. -/
theorem filed_by_slot_iff
    (h : (system offset clock basename gap files).Run (make offset clock basename gap files) tr s) :
    FiledBySlot gap offset clock tr ↔
      ∀ x ∈ tr, 0 ∉ basename ∧ Undivided gap offset clock x.1 := by
  have hbase {x : RollByTimeSink × Bytes} (hx : x ∈ tr) : x.1.basename = basename :=
    basename_eq (h.mem_reachable (.init rfl) hx)
  have hcwd {x : RollByTimeSink × Bytes} (hx : x ∈ tr) : x.1.files.cwd = files.cwd :=
    cwd_eq (h.mem_reachable (.init rfl) hx)
  constructor
  · intro hfiled x hx
    obtain ⟨t, ht, -⟩ := hfiled.inSlot x hx
    have hb : 0 ∉ basename := hbase hx ▸ base_nulFree ht
    exact ⟨hb, (inSlot_run hb h).1.mp hfiled.inSlot x hx⟩
  · intro hall
    have hslots : ∀ x ∈ tr, InSlot gap offset clock x.1 x.2 := fun x hx =>
      (inSlot_run (hall x hx).1 h).1.mpr (fun y hy => (hall y hy).2) x hx
    refine ⟨hslots, fun x hx y hy he => ?_⟩
    obtain ⟨t, ht, hslot⟩ := hslots x hx
    obtain ⟨t', ht', hslot'⟩ := hslots y hy
    have hb := (hall x hx).1
    have hplace : place files.cwd (fileName basename (localtime offset t)) =
        place files.cwd (fileName basename (localtime offset t')) := by
      rw [targetPlace, targetPlace, Files.locate, Files.locate, hcwd hx, hcwd hy, place, place, ht,
        ht', hbase hx, hbase hy] at he
      rw [place, place, cString_fileName hb, cString_fileName hb]
      exact he
    have hext := extends_fileName basename
    have hname := (hext _).place_injective (hext _) hb hplace
    rw [← hslot, ← hslot', fileName_injective hname]

def NonDecreasing (clock : Nat → Int) : Prop := ∀ j k, j ≤ k → clock j ≤ clock k

theorem run_two (d e : Bytes) : (system offset clock basename gap files).Run
    (make offset clock basename gap files)
    [(make offset clock basename gap files, d),
      ((make offset clock basename gap files).log offset clock d, e)]
    (((make offset clock basename gap files).log offset clock d).log offset clock e) :=
  (System.Run.single rfl).snoc rfl

theorem filed_by_slot_iff_minute : ∃ tr s,
    (system 0 (fun k => k) [] .gapMinute .empty).Run
      (make 0 (fun k => k) [] .gapMinute .empty) tr s ∧
    tr.map Prod.snd = [[97], [98]] ∧ FiledBySlot .gapMinute 0 (fun k => k) tr := by
  refine ⟨_, _, run_two [97] [98], rfl, (filed_by_slot_iff (run_two [97] [98])).mpr ?_⟩
  simp only [List.forall_mem_cons, Undivided]
  exact ⟨⟨by decide, by decide⟩, ⟨by decide, by decide⟩, fun _ hx => nomatch hx⟩

/-- A second begins after the reading of the first call of `log`. -/
def secondClock (k : Nat) : Int := if k < 2 then 0 else if k = 2 then 1 else 2

/-- It turns 16:00 in UTC between the first call of `log` and the next. -/
def dayClock (k : Nat) : Int := if k < 3 then 0 else 57600

/-- Two calls write to one file, though a local slot begins between their readings. In
the first run it begins between the reading of `log` and that of `createNewFile`; in the
second, where local time is eight hours ahead, it begins in the middle of a day of UTC. -/
theorem slots_share_file :
    (NonDecreasing secondClock ∧ ∃ tr s, (system 0 secondClock [] .gapSecond .empty).Run
        (make 0 secondClock [] .gapSecond .empty) tr s ∧
      tr.map Prod.snd = [[97], [98]] ∧ ¬ FiledBySlot .gapSecond 0 secondClock tr) ∧
    NonDecreasing dayClock ∧ ∃ tr s, (system 28800 dayClock [] .gapDay .empty).Run
        (make 28800 dayClock [] .gapDay .empty) tr s ∧
      tr.map Prod.snd = [[97], [98]] ∧ ¬ FiledBySlot .gapDay 28800 dayClock tr := by
  constructor
  · refine ⟨fun j k hjk => ?_, _, _, run_two [97] [98], rfl, fun h => ?_⟩
    · unfold secondClock
      split <;> split <;> omega
    · have happart := h.apart _ List.mem_cons_self _ (List.mem_cons_of_mem _ List.mem_cons_self)
      rw [targetPlace, targetPlace, target_roll (by decide), target_roll (by decide)] at happart
      exact absurd (happart rfl) (by decide)
  · refine ⟨fun j k hjk => ?_, _, _, run_two [97] [98], rfl, fun h => ?_⟩
    · unfold dayClock
      split <;> split <;> omega
    · have happart := h.apart _ List.mem_cons_self _ (List.mem_cons_of_mem _ List.mem_cons_self)
      rw [targetPlace, targetPlace, target_same (by decide), target_same (by decide)] at happart
      exact absurd (happart rfl) (by decide)

structure Numbered (gap : TimeGap) (clock : Nat → Int) (s : RollByTimeSink) : Prop where
  gapSize : s.gapSize = gap.size
  curGap : ∃ j < s.readings, s.curGap = dateNow (clock j) / gap.size

theorem numbered_make : Numbered gap clock (make offset clock basename gap files) := by
  refine ⟨rfl, 0, Nat.zero_lt_succ 1, ?_⟩
  show (if gap.size = 1 then dateNow (clock 0) else dateNow (clock 0) / gap.size) = _
  split
  · next hg => rw [hg, Nat.div_one]
  · rfl

theorem numbered_log (h : Numbered gap clock s) :
    Numbered gap clock (s.log offset clock data) := by
  obtain ⟨hg, j, hj, hcur⟩ := h
  unfold log
  split
  · refine ⟨hg, s.readings, Nat.lt_add_of_pos_right (by omega), ?_⟩
    rw [← hg]
    rfl
  · exact ⟨hg, j, Nat.lt_succ_of_lt hj, hcur⟩

theorem numbered (h : (system offset clock basename gap files).Reachable s) :
    Numbered gap clock s := by
  apply h.invariant
  · rintro s rfl
    exact numbered_make
  · rintro u d v _ hu rfl
    exact numbered_log hu

theorem dateNow_div {t : Int} (h₀ : 0 ≤ t) (h : t < UInt64.size) (n : Nat) :
    ((dateNow t / n : Nat) : Int) = t / n := by
  rw [Int.natCast_ediv, dateNow, Int.emod_eq_of_lt h₀ h, Int.toNat_of_nonneg h₀]

/-- Where local slots are those of UTC, a call that does not change the file is in the
slot of the reading before it. -/
theorem Numbered.same_slot (h : Numbered gap clock s) (hg : (gap.size : Int) ∣ offset)
    (hm : NonDecreasing clock) (hc : ∀ k, 0 ≤ clock k ∧ clock k < UInt64.size)
    (hroll : ¬ s.Rolls clock) :
    localSlot gap offset (clock (s.readings - 1)) = localSlot gap offset (clock s.readings) := by
  obtain ⟨hsize, j, hj, hcur⟩ := h
  have hpos : (0 : Int) < gap.size := Int.natCast_pos.mpr gap.size_pos
  have hend : clock j / gap.size = clock s.readings / gap.size := by
    have hsame := (not_not.mp hroll).symm
    rw [hcur, hsize] at hsame
    rw [← dateNow_div (hc j).1 (hc j).2, hsame, dateNow_div (hc _).1 (hc _).2]
  have hfirst : clock j / gap.size ≤ clock (s.readings - 1) / gap.size :=
    Int.ediv_le_ediv hpos (hm _ _ (by omega))
  have hlast : clock (s.readings - 1) / gap.size ≤ clock s.readings / gap.size :=
    Int.ediv_le_ediv hpos (hm _ _ (by omega))
  unfold localSlot
  rw [Int.add_ediv_of_dvd_right hg, Int.add_ediv_of_dvd_right hg]
  omega

/-- There it is enough that the two readings of a call that changes the file agree. -/
theorem undivided_aligned_iff (hg : (gap.size : Int) ∣ offset) (hm : NonDecreasing clock)
    (hc : ∀ k, 0 ≤ clock k ∧ clock k < UInt64.size)
    (h : (system offset clock basename gap files).Run (make offset clock basename gap files) tr s) :
    (∀ x ∈ tr, Undivided gap offset clock x.1) ↔ ∀ x ∈ tr, x.1.Rolls clock →
      localSlot gap offset (clock x.1.readings) =
        localSlot gap offset (clock (x.1.readings + 1)) := by
  refine forall₂_congr fun x hx => ?_
  unfold Undivided
  split
  · next hroll => simp [hroll]
  · next hroll =>
    have hnumbered : Numbered gap clock x.1 := numbered (h.mem_reachable (.init rfl) hx)
    simp [hroll, hnumbered.same_slot hg hm hc hroll]

end RollByTimeSink

end MyLog

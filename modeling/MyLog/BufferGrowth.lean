import Mathlib.Data.Set.Finite.Lattice
import Mathlib.Order.Lattice.Nat
import MyLog.BufferQueue
import MyLog.Looper

/-! How far buffers grow. A storage never shrinks and moves from buffer to buffer, but
each growth needs a writer index beyond the size there was. -/

namespace MyLog

open Transition

namespace Buffer

variable {b b' : Buffer} {data : Bytes} {H : Nat}

def Sized (H : Nat) (b : Buffer) : Prop :=
  defaultBufferSize ≤ b.storage.size ∧
    b.storage.size ≤ max defaultBufferSize (2 * H + linearBufferSize)

theorem push_enough (h : b.push data = some b') (hl : data.length ≤ b.writeAbleSize) :
    b'.storage.size = b.storage.size := by
  rw [(push_eq h).1, sufficientSpaceSize, if_pos hl]
  rfl

theorem push_resized (h : b.push data = some b') (hl : ¬ data.length ≤ b.writeAbleSize)
    (hd : defaultBufferSize ≤ b.storage.size) :
    b'.storage.size = b.storage.size + linearBufferSize + data.length := by
  have hthreshold : ¬ b.storage.size < thresholdBufferSize := by
    have : thresholdBufferSize ≤ defaultBufferSize := by decide
    omega
  have hgrown : grownSize b.storage.size data.length =
      b.storage.size + linearBufferSize + data.length := if_neg hthreshold
  rw [(push_eq h).1, sufficientSpaceSize, if_neg hl, ← hgrown]
  rfl

/-- A growth is paid for by the writer index that it makes room for. -/
theorem push_peak (h : b.push data = some b') (hl : ¬ data.length ≤ b.writeAbleSize)
    (hd : defaultBufferSize ≤ b.storage.size) :
    b'.storage.size ≤ 2 * b'.writerIdx + linearBufferSize := by
  have hsize := push_resized h hl hd
  have hw := (push_eq h).2.2
  unfold writeAbleSize at hl
  omega

theorem push_leaves_room (h : b.push data = some b') (hl : ¬ data.length ≤ b.writeAbleSize)
    (hd : defaultBufferSize ≤ b.storage.size) : linearBufferSize ≤ b'.writeAbleSize := by
  have hsize := push_resized h hl hd
  have hw := (push_eq h).2.2
  have hle := b.writer_le
  unfold writeAbleSize
  omega

theorem sized_init (H : Nat) : init.Sized H := ⟨Nat.le_refl _, Nat.le_max_left _ _⟩

theorem Sized.push (hs : b.Sized H) (h : b.push data = some b') (hH : b'.writerIdx ≤ H) :
    b'.Sized H := by
  obtain ⟨hd, hm⟩ := hs
  by_cases hl : data.length ≤ b.writeAbleSize
  · rw [Sized, push_enough h hl]
    exact ⟨hd, hm⟩
  · have hsize := push_resized h hl hd
    have hpeak := push_peak h hl hd
    refine ⟨by omega, Nat.le_trans ?_ (Nat.le_max_right _ _)⟩
    omega

theorem Sized.moveReader {n : Nat} (hs : b.Sized H) (h : b.moveReader n = some b') :
    b'.Sized H := by
  rw [Sized, (moveReader_readable h).2]
  exact hs

end Buffer

/-- A buffer, and how many times the storage it has now was resized. -/
structure Resized where
  buffer : Buffer
  resizes : Nat

namespace Resized

def init : Resized := ⟨Buffer.init, 0⟩

def push (r : Resized) (data : Bytes) : Option Resized :=
  (r.buffer.push data).map fun b =>
    ⟨b, if data.length ≤ r.buffer.writeAbleSize then r.resizes else r.resizes + 1⟩

def moveReader (r : Resized) (n : Nat) : Option Resized :=
  (r.buffer.moveReader n).map fun b => ⟨b, r.resizes⟩

def reset (r : Resized) : Resized := ⟨r.buffer.reset, r.resizes⟩

/-- The count goes with its storage when two buffers are exchanged. -/
def call {β : Type} [DecidableEq β] (w : β → Resized) : BufferOp β → Option (β → Resized)
  | .push b data => ((w b).push data).map (Function.update w b)
  | .moveReader b n => ((w b).moveReader n).map (Function.update w b)
  | .reset b => some (Function.update w b (w b).reset)
  | .swap b b' => some (exchange w b b')

/-- Each resize has made the storage longer, and the last one was paid for. -/
structure Within (H : Nat) (r : Resized) : Prop where
  sized : r.buffer.Sized H
  longer : defaultBufferSize + r.resizes * linearBufferSize ≤ r.buffer.storage.size
  paid : r.resizes ≠ 0 → r.buffer.storage.size ≤ 2 * H + linearBufferSize

variable {r r' : Resized} {data : Bytes} {H : Nat}

theorem within_init (H : Nat) : Within H init :=
  ⟨Buffer.sized_init H, Nat.le_refl _, fun h => (h rfl).elim⟩

theorem Within.push (h : Within H r) (hp : r.push data = some r')
    (hH : r'.buffer.writerIdx ≤ H) : Within H r' := by
  obtain ⟨b, hb, rfl⟩ := Option.map_eq_some_iff.mp hp
  have hsized := h.sized.push hb hH
  have hlonger := h.longer
  by_cases hl : data.length ≤ r.buffer.writeAbleSize
  · have hsize := Buffer.push_enough hb hl
    simp only [if_pos hl]
    exact ⟨hsized, by rw [hsize]; exact hlonger, fun hk => by rw [hsize]; exact h.paid hk⟩
  · have hsize := Buffer.push_resized hb hl h.sized.1
    have hpeak := Buffer.push_peak hb hl h.sized.1
    simp only [if_neg hl]
    refine ⟨hsized, ?_, fun _ => ?_⟩
    · show defaultBufferSize + (r.resizes + 1) * linearBufferSize ≤ b.storage.size
      rw [Nat.add_mul]
      omega
    · show b.storage.size ≤ 2 * H + linearBufferSize
      have : b.writerIdx ≤ H := hH
      omega

theorem Within.leaves_room (h : Within H r) (hp : r.push data = some r')
    (hk : r'.resizes ≠ r.resizes) : linearBufferSize ≤ r'.buffer.writeAbleSize := by
  obtain ⟨b, hb, rfl⟩ := Option.map_eq_some_iff.mp hp
  apply Buffer.push_leaves_room hb ?_ h.sized.1
  intro hl
  exact hk (if_pos hl)

theorem Within.moveReader {n : Nat} (h : Within H r) (hm : r.moveReader n = some r') :
    Within H r' := by
  obtain ⟨b, hb, rfl⟩ := Option.map_eq_some_iff.mp hm
  have hstorage := (Buffer.moveReader_readable hb).2
  refine ⟨h.sized.moveReader hb, ?_, ?_⟩ <;> dsimp only <;> rw [hstorage]
  · exact h.longer
  · exact h.paid

theorem Within.reset (h : Within H r) : Within H r.reset := ⟨h.sized, h.longer, h.paid⟩

variable {β : Type} [DecidableEq β] {w w' : β → Resized} {op : BufferOp β}

theorem within_call (h : ∀ b, Within H (w b)) (hc : call w op = some w')
    (hH : ∀ b, (w' b).buffer.writerIdx ≤ H) (b : β) : Within H (w' b) := by
  have hupdate {b : β} {x : Resized} (hx : Within H x) (j : β) :
      Within H (Function.update w b x j) :=
    (Function.forall_update_iff w fun _ => Within H).mpr ⟨hx, fun j _ => h j⟩ j
  cases op with
  | push b data =>
    obtain ⟨x, hx, rfl⟩ := Option.map_eq_some_iff.mp hc
    exact hupdate ((h b).push hx (by simpa using hH b)) _
  | moveReader b n =>
    obtain ⟨x, hx, rfl⟩ := Option.map_eq_some_iff.mp hc
    exact hupdate ((h b).moveReader hx) _
  | reset b =>
    obtain rfl := Option.some.inj hc
    exact hupdate (h b).reset _
  | swap b b' =>
    obtain rfl := Option.some.inj hc
    exact forall_exchange h b b' _

variable (β) in
def system : System (β → Resized) (BufferOp β) where
  init w := w = fun _ => init
  step w op w' := call w op = some w'

theorem writerIdx_bounded (h : (system β).Reachable w) :
    ∃ M, ∀ b, (w b).buffer.writerIdx ≤ M := by
  apply h.invariant
  · intro w hw
    subst hw
    exact ⟨0, fun _ => Nat.le_refl 0⟩
  · intro v op w _ ⟨M, hM⟩ hc
    have hupdate (b : β) (x : Resized) :
        ∃ M, ∀ j, (Function.update v b x j).buffer.writerIdx ≤ M := by
      refine ⟨max M x.buffer.writerIdx, ?_⟩
      apply (Function.forall_update_iff v fun _ y => y.buffer.writerIdx ≤ _).mpr
      exact ⟨Nat.le_max_right _ _, fun j _ => Nat.le_trans (hM j) (Nat.le_max_left _ _)⟩
    cases op with
    | push b data =>
      obtain ⟨x, _, rfl⟩ := Option.map_eq_some_iff.mp hc
      exact hupdate b x
    | moveReader b n =>
      obtain ⟨x, _, rfl⟩ := Option.map_eq_some_iff.mp hc
      exact hupdate b x
    | reset b =>
      obtain rfl := Option.some.inj hc
      exact hupdate b _
    | swap b b' =>
      obtain rfl := Option.some.inj hc
      exact ⟨M, forall_exchange (P := fun r : Resized => r.buffer.writerIdx ≤ M) hM b b'⟩

theorem within_run {tr : List ((β → Resized) × BufferOp β)}
    (h : (system β).Run (fun _ => init) tr w)
    (hH : ∀ v ∈ System.visited tr w, ∀ b, (v b).buffer.writerIdx ≤ H) (b : β) :
    Within H (w b) := by
  apply h.invariant (P := fun w => ∀ b, Within H (w b))
    (Q := fun w => ∀ b, (w b).buffer.writerIdx ≤ H) (fun _ => within_init H) ?_ hH
  intro u op v hu hs hv
  exact within_call hu hs hv

end Resized

namespace Looper

variable {ι : Type} [DecidableEq ι] {ty : AsyncType} {s t : Looper ι} {a : Action ι} {H : Nat}

def buffer (s : Looper ι) : Bool → Buffer
  | true => s.proBuf
  | false => s.conBuf

theorem sized_step (h : ∀ k, (s.buffer k).Sized H) (hs : Step ty s a t)
    (hH : ∀ k, (t.buffer k).writerIdx ≤ H) (k : Bool) : (t.buffer k).Sized H := by
  cases hs with
  | append i c b hi hb =>
    cases k with
    | true => exact (h true).push hb (hH true)
    | false => exact h false
  | swap =>
    cases k with
    | true => exact h false
    | false => exact h true
  | reset =>
    cases k with
    | true => exact h true
    | false => exact h false
  | _ => exact h k

theorem sized_run {tr : List (Looper ι × Action ι)} (h : (system ι ty).Run init tr s)
    (hH : ∀ v ∈ System.visited tr s, ∀ k, (v.buffer k).writerIdx ≤ H) (k : Bool) :
    (s.buffer k).Sized H := by
  apply h.invariant (P := fun s => ∀ k, (s.buffer k).Sized H)
    (Q := fun s => ∀ k, (s.buffer k).writerIdx ≤ H) ?_ ?_ hH
  · rintro (_ | _) <;> exact Buffer.sized_init H
  · intro u a v hu hs hv
    exact sized_step hu hs hv

end Looper

/-- The values that `_writer_idx` of any buffer has in the states of a run. -/
def writerIndices {σ κ : Type} (buffer : σ → κ → Buffer) (states : List σ) : Set Nat :=
  {n | ∃ s ∈ states, ∃ k, (buffer s k).writerIdx = n}

theorem exists_peak {σ κ : Type} (buffer : σ → κ → Buffer) {s : σ} {states : List σ} (k : κ)
    (hs : s ∈ states) (h : ∀ s ∈ states, ∃ M, ∀ k, (buffer s k).writerIdx ≤ M) :
    ∃ H, IsGreatest (writerIndices buffer states) H := by
  have hunion : writerIndices buffer states =
      ⋃ s ∈ {s | s ∈ states}, Set.range fun k => (buffer s k).writerIdx := by
    ext n
    simp [writerIndices]
  have hbound : BddAbove (writerIndices buffer states) := by
    rw [hunion, states.finite_toSet.bddAbove_biUnion]
    intro s hs
    obtain ⟨M, hM⟩ := h s hs
    exact ⟨M, by rintro _ ⟨k, rfl⟩; exact hM k⟩
  have hne : (writerIndices buffer states).Nonempty := ⟨_, s, hs, k, rfl⟩
  exact ⟨sSup _, Nat.sSup_mem hne hbound, fun _ hn => le_csSup hbound hn⟩

/-- With `H` the largest writer index so far, sizes stay between the first size and
`2 * H` plus one linear step, a growth leaves a linear step writable, and `k` growths
of one storage need the room for `k` linear steps. The second part says the first of
this for the two buffers of a looper, in both modes. -/
theorem growth_bounded_by_peak :
    (∀ (β : Type) [DecidableEq β] (w : β → Resized) (tr : List ((β → Resized) × BufferOp β)),
      (Resized.system β).Run (fun _ => Resized.init) tr w → ∀ b : β,
      ∃ H, IsGreatest (writerIndices (fun v b => (v b).buffer) (System.visited tr w)) H ∧
        defaultBufferSize ≤ (w b).buffer.storage.size ∧
        (w b).buffer.storage.size ≤ max defaultBufferSize (2 * H + linearBufferSize) ∧
        (∀ data r, (w b).push data = some r → r.resizes ≠ (w b).resizes →
          linearBufferSize ≤ r.buffer.writeAbleSize) ∧
        (1 ≤ (w b).resizes →
          (w b).resizes * linearBufferSize + defaultBufferSize ≤ 2 * H + linearBufferSize)) ∧
    ∀ (ι : Type) [DecidableEq ι] (ty : AsyncType) (s : Looper ι)
      (tr : List (Looper ι × Looper.Action ι)), (Looper.system ι ty).Run Looper.init tr s →
      ∃ H, IsGreatest (writerIndices Looper.buffer (System.visited tr s)) H ∧
        ∀ k, (s.buffer k).storage.size ≤ max defaultBufferSize (2 * H + linearBufferSize) := by
  constructor
  · intro β _ w tr h b
    have hlast : w ∈ System.visited tr w := by simp [System.visited]
    obtain ⟨H, hH⟩ := exists_peak (fun v b => (v b).buffer) b hlast fun v hv =>
      Resized.writerIdx_bounded (h.visited_reachable (.init rfl) v hv)
    have hw := Resized.within_run h (fun v hv b => hH.2 ⟨v, hv, b, rfl⟩) b
    refine ⟨H, hH, hw.sized.1, hw.sized.2, fun data r hr hk => hw.leaves_room hr hk, fun hk => ?_⟩
    have hlonger := hw.longer
    have hpaid := hw.paid (by omega)
    omega
  · intro ι _ ty s tr h
    have hlast : s ∈ System.visited tr s := by simp [System.visited]
    obtain ⟨H, hH⟩ := exists_peak Looper.buffer true hlast fun v _ =>
      ⟨max v.proBuf.writerIdx v.conBuf.writerIdx, by
        rintro (_ | _)
        · exact Nat.le_max_right _ _
        · exact Nat.le_max_left _ _⟩
    exact ⟨H, hH, fun k => (Looper.sized_run h (fun v hv k => hH.2 ⟨v, hv, k, rfl⟩) k).2⟩

theorem growth_bounded_by_peak_once : ∃ w tr,
    (Resized.system Unit).Run (fun _ => Resized.init) tr w ∧ (w ()).resizes = 1 ∧
      ∃ H, IsGreatest (writerIndices (fun v b => (v b).buffer) (System.visited tr w)) H ∧
        defaultBufferSize ≤ 2 * H := by
  let data : Bytes := List.replicate (defaultBufferSize + 1) 0
  have hlen : data.length = defaultBufferSize + 1 := List.length_replicate
  have hroom : ¬ data.length ≤ Buffer.init.writeAbleSize := by
    rw [hlen]
    decide
  obtain ⟨b, hb⟩ := Buffer.init.push_isSome data
  have hpush : Resized.init.push data = some ⟨b, 1⟩ := by
    rw [Resized.push, Resized.init, hb, Option.map_some, if_neg hroom]
  have hcall : Resized.call (fun _ : Unit => Resized.init) (.push () data) =
      some (Function.update (fun _ => Resized.init) () ⟨b, 1⟩) := by
    rw [Resized.call, hpush]
    rfl
  have hrun : (Resized.system Unit).Run _ _ _ := System.Run.single hcall
  obtain ⟨H, hH, -, -, -, hk⟩ := growth_bounded_by_peak.1 Unit _ _ hrun ()
  refine ⟨_, _, hrun, by simp, H, hH, ?_⟩
  have h := hk (by simp)
  simp at h
  omega

end MyLog

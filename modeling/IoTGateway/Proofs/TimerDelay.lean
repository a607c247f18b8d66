import IoTGateway.Proofs.RetransmissionLoop

/-! The delay `time_out` asks for, against the ticks that are left until the head
of the queue is due. The head's time counts from the base of the queue, the
delay is computed as if it counted from zero. -/

namespace IoTGateway.Proofs.TimerDelay
open RetransmissionLoop

def micros (delay : Timeval) : Nat := delay.tvSec.toNat * 1000000 + delay.tvUsec.toNat

def AtMostTicks (delay : Timeval) (ticks : Nat) : Prop :=
  micros delay * coapTicksPerSecond.toNat ≤ ticks * 1000000

structure InTime (delay : Timeval) (d : Nat) : Prop where
  positive : 0 < micros delay
  check : micros delay ≤ coapResourceCheckTime.toNat * 1000000
  due : AtMostTicks delay d

/-- The head falls due `d` ticks after the reading; its time counts from the base. -/
def FallsDue (ctx : CoapContextT) (head : CoapQueueT) (now : UInt32) (d : Nat) : Prop :=
  head.t.toNat = (now - ctx.sendqueueBasetime).toNat + d

private theorem near_distance {now t : UInt32} (later : now < t) (near : t ≤ now + coapResourceCheckTime) :
    t - now = 1 ∨ t - now = 2 := by
  have above := UInt32.lt_iff_toNat_lt.mp later
  have below := UInt32.le_iff_toNat_le.mp near
  have distance := UInt32.toNat_sub_of_le _ _ (UInt32.le_of_lt later)
  have bound := now.toNat_lt
  rw [UInt32.toNat_add, show coapResourceCheckTime.toNat = 2 from rfl] at below
  rw [← UInt32.toNat_inj, ← UInt32.toNat_inj, distance]
  simp only [UInt32.reduceToNat] at bound ⊢
  omega

theorem timerDelay_near {now : UInt32} {head : CoapQueueT} (later : now < head.t)
    (near : head.t ≤ now + coapResourceCheckTime) :
    (head.t - now = 1 ∧ timerDelay (some head) now = { tvSec := 0, tvUsec := 976 }) ∨
      (head.t - now = 2 ∧ timerDelay (some head) now = { tvSec := 0, tvUsec := 1953 }) := by
  simp only [timerDelay, near, ite_true]
  rcases near_distance later near with one | two
  · exact Or.inl ⟨one, by rw [one]; decide⟩
  · exact Or.inr ⟨two, by rw [two]; decide⟩

theorem timerDelay_far {now : UInt32} {head : CoapQueueT} (far : ¬ head.t ≤ now + coapResourceCheckTime) :
    timerDelay (some head) now = { tvSec := coapResourceCheckTime, tvUsec := 0 } := by
  simp only [timerDelay, far, ite_false]

/-- A head that is due in `d` ticks is not overslept exactly when it is two
seconds away, or the guard sees it and takes it for no later than it is. -/
theorem timerDelay_inTime_iff {now : UInt32} {head : CoapQueueT} (later : now < head.t) {d : Nat} (ahead : 0 < d) :
    InTime (timerDelay (some head) now) d ↔
      2048 ≤ d ∨ (head.t ≤ now + coapResourceCheckTime ∧ (head.t - now).toNat ≤ d) := by
  by_cases near : head.t ≤ now + coapResourceCheckTime
  · simp only [near, true_and]
    rcases timerDelay_near later near with ⟨one, delay⟩ | ⟨two, delay⟩
    · have distance : (head.t - now).toNat = 1 := by rw [one]; rfl
      refine iff_of_true ?_ (Or.inr (by omega))
      rw [delay]
      exact ⟨by decide, by decide, by simp [AtMostTicks, micros, coapTicksPerSecond]; omega⟩
    · have distance : (head.t - now).toNat = 2 := by rw [two]; rfl
      rw [delay, distance]
      constructor
      · intro inTime
        have due := inTime.due
        simp [AtMostTicks, micros, coapTicksPerSecond] at due
        omega
      · intro enough
        exact ⟨by decide, by decide, by simp [AtMostTicks, micros, coapTicksPerSecond]; omega⟩
  · simp only [near, false_and, or_false, timerDelay_far near]
    constructor
    · intro inTime
      have due := inTime.due
      simp [AtMostTicks, micros, coapTicksPerSecond, coapResourceCheckTime] at due
      omega
    · intro enough
      exact ⟨by decide, by decide, by simp [AtMostTicks, micros, coapTicksPerSecond, coapResourceCheckTime]; omega⟩

theorem distance_le_iff {ctx : CoapContextT} {head : CoapQueueT} {now : UInt32} {d : Nat} (later : now < head.t)
    (due : FallsDue ctx head now d) : (head.t - now).toNat ≤ d ↔ ctx.sendqueueBasetime ≤ now := by
  have above := UInt32.lt_iff_toNat_lt.mp later
  have distance := UInt32.toNat_sub_of_le _ _ (UInt32.le_of_lt later)
  have bound := now.toNat_lt
  have base := ctx.sendqueueBasetime.toNat_lt
  rw [FallsDue, UInt32.toNat_sub] at due
  rw [UInt32.le_iff_toNat_le, distance]
  omega

/-- Whatever the queue and the clock: an empty queue gives the automatic timeout,
and a head due in `d` ticks is not overslept exactly when it is two seconds away,
or within two ticks by a reading that has not wrapped. -/
theorem timeOut_inTime_iff (retransmit : CoapContextT → CoapQueueT → CoapContextT) (law : Retransmits retransmit)
    (ctx : CoapContextT) (now : UInt32) : ∃ state delay, timeOutWith retransmit ctx now = .ok (state, delay) ∧
      (state.ctx.sendqueue = [] → delay = { tvSec := coapResourceCheckTime, tvUsec := 0 }) ∧
      ∀ head d, coapPeekNext state.ctx = some head → FallsDue state.ctx head now d → 0 < d →
        (InTime delay d ↔
          2048 ≤ d ∨ (head.t ≤ now + coapResourceCheckTime ∧ state.ctx.sendqueueBasetime ≤ now)) := by
  obtain ⟨state, returned, _, waiting⟩ := timeOutWith_returns law ctx now
  refine ⟨state, _, returned, ?_, ?_⟩
  · intro empty
    rw [coapPeekNext, empty]
    rfl
  · intro head d peeked due ahead
    have later := waiting head peeked
    rw [peeked, timerDelay_inTime_iff later ahead, distance_le_iff later due]

def waiting : CoapContextT where
  sendqueueBasetime := 0
  sendqueue := [{ retransmitCnt := 0, timeout := 2048, pdu := 1, t := 100, id := 24806 }]

theorem timeOut_inTime_waiting : ∃ state delay,
    timeOutWith (coapRetransmit (fun _ => 3000) fun _ => 24806) waiting 98 = .ok (state, delay) ∧
      (state.ctx.sendqueue = [] → delay = { tvSec := coapResourceCheckTime, tvUsec := 0 }) ∧
      ∀ head d, coapPeekNext state.ctx = some head → FallsDue state.ctx head 98 d → 0 < d →
        (InTime delay d ↔
          2048 ≤ d ∨ (head.t ≤ 98 + coapResourceCheckTime ∧ state.ctx.sendqueueBasetime ≤ 98)) :=
  timeOut_inTime_iff (coapRetransmit (fun _ => 3000) fun _ => 24806) (retransmits_coapRetransmit _ _) waiting 98

/-- The PDU is due in 100 ticks, less than a tenth of a second; the timer sleeps
two seconds. -/
theorem timer_oversleeps : ∃ state head, timeOut (fun _ => 3000) (fun _ => 24806) waiting 0 =
      .ok (state, { tvSec := 2, tvUsec := 0 }) ∧ coapPeekNext state.ctx = some head ∧
    FallsDue state.ctx head 0 100 ∧ ¬ InTime { tvSec := 2, tvUsec := 0 } 100 := by
  refine ⟨{ ctx := waiting }, _, by decide, rfl, by unfold FallsDue; decide, ?_⟩
  intro inTime
  exact absurd inTime.due (by unfold AtMostTicks; decide)

end IoTGateway.Proofs.TimerDelay

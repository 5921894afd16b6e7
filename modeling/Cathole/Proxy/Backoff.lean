import Mathlib.Data.List.DropRight
import Cathole.Proxy.Run

/-!
# The shape of the reconnect backoff

The loop keeps a delay that is neither the wait nor below its cap by itself: the
configured interval is applied when the delay is used, the cap when the next one
is computed, and a long session sets it to one second whatever the interval.
`backoff` is what comes out of it, by the number of sessions that count.
-/

namespace Cathole

def Attempt.long (a : Attempt) : Bool := a.elapsed > 60_000_000_000

namespace Reconnect

def backoff (base k : Nat) : Nat := min (base * 2 ^ k) (max 30 base)

/-- The sessions that have ended since the last long one, or since the first
one, neither of which counts. -/
def ended (history : List Attempt) : Nat := (history.tail.rtakeWhile fun a => !a.long).length

/-- The doublings behind the wait after the next session, unless it is long. -/
def doublings (history : List Attempt) : Nat := if history = [] then 0 else ended history + 1

theorem backoff_zero (base : Nat) : backoff base 0 = base := by
  rw [backoff, Nat.pow_zero, Nat.mul_one]
  exact Nat.min_eq_left (Nat.le_max_right 30 base)

theorem le_backoff (base k : Nat) : base ≤ backoff base k :=
  Nat.le_min.mpr ⟨Nat.le_mul_of_pos_right base (Nat.two_pow_pos k), Nat.le_max_right 30 base⟩

theorem backoff_succ (base k : Nat) :
    min (backoff base k * 2) (max 30 base) = backoff base (k + 1) := by
  rw [backoff, backoff, Nat.pow_succ, ← Nat.mul_assoc]
  omega

theorem backoff_mono (base k : Nat) : backoff base k ≤ backoff base (k + 1) := by
  have hle : backoff base k ≤ max 30 base := Nat.min_le_right _ _
  rw [← backoff_succ]
  omega

theorem backoff_lt (hbase : 1 ≤ base) (k : Nat) :
    backoff base k + 1 ≤ backoff base (k + 1) ∨
      backoff base k = max 30 base ∧ backoff base (k + 1) = max 30 base := by
  have hbelow := le_backoff base k
  have hle : backoff base k ≤ max 30 base := Nat.min_le_right _ _
  rw [← backoff_succ]
  omega

theorem ended_concat (history : List Attempt) (a : Attempt) :
    ended (history ++ [a]) = if a.long then 0 else doublings history := by
  by_cases hne : history = []
  · simp [hne, ended, doublings]
  · rw [ended, List.tail_append_of_ne_nil hne, List.rtakeWhile_concat, doublings, if_neg hne]
    cases a.long with
    | true => rfl
    | false => simp [ended]

-- ---------------------------------------------------------------------------
-- Every history
-- ---------------------------------------------------------------------------

/-- The waits after the sessions of a history, and the delay kept for the next. -/
structure Shaped (base : UInt64) (history : List Attempt) (waits : List UInt64) (delay : UInt64) :
    Prop where
  capped : Capped base delay
  kept : base ≠ 0 → max delay.toNat base.toNat = backoff base.toNat (doublings history)
  length : waits.length = history.length
  zero : base = 0 → ∀ w ∈ waits, w = 100
  waited : base ≠ 0 → ∀ (n : Nat) a w, history[n]? = some a → waits[n]? = some w →
    w.toNat = backoff base.toNat (ended (history.take (n + 1))) * 1000 + a.jitter.val

variable {base delay millis : UInt64} {history : List Attempt} {waits : List UInt64}

theorem one_le_toNat (hpos : base ≠ 0) : 1 ≤ base.toNat := by
  rw [Nat.one_le_iff_ne_zero]
  intro hzero
  exact hpos (UInt64.toNat_inj.mp hzero)

theorem shaped_nil (base : UInt64) : Shaped base [] [] 1 where
  capped := capped_one
  kept := by
    intro hpos
    have hone : (1 : UInt64).toNat = 1 := rfl
    rw [doublings, if_pos rfl, backoff_zero, hone]
    exact Nat.max_eq_right (one_le_toNat hpos)
  length := rfl
  zero := by simp
  waited := by simp

/-- The part of the next wait without the jitter: a long session puts one second
in the place of the delay. -/
theorem Shaped.used (h : Shaped base history waits delay) (hpos : base ≠ 0) (a : Attempt) :
    max (if a.elapsed > 60_000_000_000 then 1 else delay.toNat) base.toNat =
      backoff base.toNat (ended (history ++ [a])) := by
  rw [ended_concat, Attempt.long]
  by_cases hlong : a.elapsed > 60_000_000_000
  · rw [if_pos hlong, if_pos (decide_eq_true hlong), backoff_zero]
    exact Nat.max_eq_right (one_le_toNat hpos)
  · rw [if_neg hlong, if_neg (by simpa using hlong)]
    exact h.kept hpos

theorem Shaped.turn (h : Shaped base history waits delay) (hbase : base ≤ 86400) (a : Attempt) :
    ∃ millis delay', Reconnect.turn base delay a = .ok (millis, delay') ∧
      Shaped base (history ++ [a]) (waits ++ [millis]) delay' := by
  obtain ⟨millis, delay', hturn, hzero, hmillis, hdelay⟩ := turn_ok hbase h.capped a
  refine ⟨millis, delay', hturn, capped_of_eq hdelay, ?_, by simp [h.length], ?_, ?_⟩
  · intro hpos
    have hle := le_backoff base.toNat (ended (history ++ [a]) + 1)
    rw [hdelay, h.used hpos a, backoff_succ, doublings, if_neg (by simp)]
    exact Nat.max_eq_left hle
  · intro hbase w hw
    rcases List.mem_append.mp hw with hw | hw
    · exact h.zero hbase w hw
    · rw [List.mem_singleton.mp hw]
      exact hzero hbase
  · intro hpos n b w hb hw
    rcases Nat.lt_or_ge n history.length with hn | hn
    · rw [List.getElem?_append_left hn] at hb
      rw [List.getElem?_append_left (h.length ▸ hn)] at hw
      rw [List.take_append_of_le_length hn]
      exact h.waited hpos n b w hb hw
    · obtain rfl : n = history.length := by
        have hlt := (List.getElem?_eq_some_iff.mp hb).1
        rw [List.length_append, List.length_singleton] at hlt
        omega
      rw [List.getElem?_concat_length] at hb
      rw [← h.length, List.getElem?_concat_length] at hw
      cases hb
      cases hw
      rw [hmillis hpos, h.used hpos, List.take_of_length_le (by simp)]

theorem turns_concat (h : turns base delay history = .ok (waits, delay'))
    (hturn : turn base delay' a = .ok (millis, last)) :
    turns base delay (history ++ [a]) = .ok (waits ++ [millis], last) := by
  induction history generalizing delay waits with
  | nil =>
    cases h
    simp only [List.nil_append, turns, hturn, ok_bind]
    rfl
  | cons b rest ih =>
    simp only [turns, bind_eq_ok, pure_eq_ok] at h
    obtain ⟨⟨first, delay₁⟩, hfirst, ⟨others, delay₂⟩, hrest, heq⟩ := h
    cases heq
    simp only [List.cons_append, turns, hfirst, ih hrest, ok_bind]
    rfl

theorem run_shaped (hbase : base ≤ 86400) (history : List Attempt) :
    ∃ waits delay, run base history = .ok (waits, delay) ∧ Shaped base history waits delay := by
  induction history using List.reverseRecOn with
  | nil => exact ⟨[], 1, rfl, shaped_nil base⟩
  | append_singleton history a ih =>
    obtain ⟨waits, delay, hrun, hshaped⟩ := ih
    obtain ⟨millis, delay', hturn, hnext⟩ := hshaped.turn hbase a
    exact ⟨_, delay', turns_concat hrun hturn, hnext⟩

theorem Shaped.successive (h : Shaped base history waits delay) (hpos : base ≠ 0)
    (ha : history[n]? = some a) (hw : waits[n]? = some w) (ha' : history[n + 1]? = some a')
    (hw' : waits[n + 1]? = some w') (hshort : a'.long = false) :
    backoff base.toNat (ended (history.take (n + 1))) ≤
      backoff base.toNat (ended (history.take (n + 2))) ∧
      (w.toNat ≤ w'.toNat ∨
        w.toNat = max 30 base.toNat * 1000 + a.jitter.val ∧
          w'.toNat = max 30 base.toNat * 1000 + a'.jitter.val) := by
  have htake : history.take (n + 2) = history.take (n + 1) ++ [a'] := by
    rw [List.take_add_one, ha', Option.toList_some]
  have hne : history.take (n + 1) ≠ [] := by
    rw [List.take_add_one, ha]
    simp
  have hended : ended (history.take (n + 2)) = ended (history.take (n + 1)) + 1 := by
    rw [htake, ended_concat, hshort, doublings, if_neg hne]
    rfl
  have hwait := h.waited hpos n a w ha hw
  have hwait' := h.waited hpos (n + 1) a' w' ha' hw'
  rw [hended] at hwait' ⊢
  refine ⟨backoff_mono _ _, ?_⟩
  rcases backoff_lt (one_le_toNat hpos) (ended (history.take (n + 1))) with hlt | ⟨hcap, hcap'⟩
  · left
    have hjitter := a.jitter.isLt
    omega
  · right
    rw [hwait, hwait', hcap, hcap']
    exact ⟨rfl, rfl⟩

/-- For every interval the configuration check lets through and every sequence
of sessions, no step of the loop overflows. An interval of zero waits 100 ms each
time. Otherwise the wait after a session is the interval, doubled for each session
that counts up to the larger of 30 seconds and the interval, and a jitter of up to
a second; after a long session it is the interval and the jitter. From one wait to
the next, unless the session between them is long, the part without the jitter
does not decrease, and the wait as a whole only at the cap, by the jitter. -/
theorem backoff_shape {decode : String → Option Bytes} {toml : String → Except String Config}
    (hparse : Config.parse decode toml text = .ok c) (hclient : c.client = some cfg)
    (attempts : List Attempt) :
    let base := cfg.retryInterval.toNat
    ∃ waits delay, run cfg.retryInterval attempts = .ok (waits, delay) ∧
      waits.length = attempts.length ∧
      (base = 0 → ∀ w ∈ waits, w = 100) ∧
      (1 ≤ base → ∀ (n : Nat) a w, attempts[n]? = some a → waits[n]? = some w →
        let k := ended (attempts.take (n + 1))
        w.toNat = min (base * 2 ^ k) (max 30 base) * 1000 + a.jitter.val ∧
        w.toNat ≤ (max 30 base + 1) * 1000 ∧
        (a.elapsed > 60_000_000_000 → w.toNat = base * 1000 + a.jitter.val) ∧
        ∀ a' w', attempts[n + 1]? = some a' → waits[n + 1]? = some w' →
          a'.elapsed ≤ 60_000_000_000 →
          let k' := ended (attempts.take (n + 2))
          min (base * 2 ^ k) (max 30 base) ≤ min (base * 2 ^ k') (max 30 base) ∧
            (w.toNat ≤ w'.toNat ∨
              w.toNat = max 30 base * 1000 + a.jitter.val ∧
                w'.toNat = max 30 base * 1000 + a'.jitter.val)) := by
  intro base
  have hbase : cfg.retryInterval ≤ 86400 := ((parse_accepted hparse).client cfg hclient).retry
  obtain ⟨waits, delay, hrun, h⟩ := run_shaped hbase attempts
  refine ⟨waits, delay, hrun, h.length, fun hzero => ?_, fun hone n a w ha hw => ?_⟩
  · exact h.zero (UInt64.toNat_inj.mp hzero)
  · have hpos : cfg.retryInterval ≠ 0 := by
      intro hzero
      simp [base, hzero] at hone
    have hwait := h.waited hpos n a w ha hw
    have hjitter := a.jitter.isLt
    refine ⟨hwait, ?_, fun hlong => ?_, fun a' w' ha' hw' hshort => ?_⟩
    · have hle : backoff cfg.retryInterval.toNat (ended (attempts.take (n + 1))) ≤ max 30 base :=
        Nat.min_le_right _ _
      omega
    · have hended : ended (attempts.take (n + 1)) = 0 := by
        rw [List.take_add_one, ha, Option.toList_some, ended_concat]
        exact if_pos (decide_eq_true hlong)
      rw [hwait, hended, backoff_zero]
    · exact h.successive hpos ha hw ha' hw' (decide_eq_false (Nat.not_lt.mpr hshort))

end Reconnect

namespace Sample

def patientClient : Side := { nkClient zeroKey with retryInterval := 30 }

theorem parse_patient :
    Config.parse base64 (fun _ => .ok ⟨none, some patientClient⟩) "" =
      .ok ⟨none, some (patientClient.withHeartbeat false)⟩ := by
  decide +kernel

end Sample

open Sample in
theorem backoff_shape_patient :
    ∃ waits delay, Reconnect.run (patientClient.withHeartbeat false).retryInterval
      [⟨0, 1000⟩, ⟨0, 0⟩] =
        .ok (waits, delay) ∧
      ∀ w, waits[0]? = some w → w.toNat = 31000 ∧ w.toNat ≤ 31000 := by
  have hbase : (patientClient.withHeartbeat false).retryInterval.toNat = 30 := by
    decide +kernel
  obtain ⟨waits, delay, hrun, -, -, hwaits⟩ :=
    Reconnect.backoff_shape parse_patient rfl [⟨0, 1000⟩, ⟨0, 0⟩]
  refine ⟨waits, delay, hrun, fun w hw => ?_⟩
  obtain ⟨hwait, hle, -⟩ := hwaits (by rw [hbase]; decide) 0 ⟨0, 1000⟩ w rfl hw
  rw [hbase] at hwait hle
  exact ⟨hwait, hle⟩

open Sample in
/-- Two short sessions at the cap: the second wait is shorter by its jitter. -/
theorem wait_decreases :
    Config.parse base64 (fun _ => .ok ⟨none, some patientClient⟩) "" =
        .ok ⟨none, some (patientClient.withHeartbeat false)⟩ ∧
      Reconnect.run (patientClient.withHeartbeat false).retryInterval [⟨0, 1000⟩, ⟨0, 0⟩] =
        .ok ([31000, 30000], 30) ∧
      (30000 : UInt64) < 31000 := by
  have hbase : (patientClient.withHeartbeat false).retryInterval = 30 := by
    decide +kernel
  rw [hbase]
  exact ⟨parse_patient, by decide +kernel, by decide⟩

end Cathole

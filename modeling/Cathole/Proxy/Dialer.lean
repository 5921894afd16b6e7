import Cathole.Proxy.Order
import Cathole.Proxy.Run

/-!
# The reconnect loop of the client

`run` of `proxy/client.rs` with the `connect` in it: a turn sets an endpoint up,
registers, forwards until the connection is lost, and waits. Whatever `connect`
returns is logged and the loop goes on, so `run` could only end by a panic.
`Inv.step` says that none of them happens to a side that passed the checks.
-/

namespace Cathole

inductive DialerStage
  -- In `connect`, before it has an endpoint.
  | dialing
  -- Up to the answer to the registration.
  | registering
  -- In the loop of `session`.
  | forwarding (client : Client)
  -- `connect` has returned.
  | disconnected
  | sleeping (millis : UInt64)
  deriving DecidableEq

structure Dialer where
  cfg : Side
  delay : UInt64
  stage : DialerStage
  deriving DecidableEq

inductive DialerEvent
  | dial (host : Host) (lookupHost : String → Option (List SocketAddr))
  -- The server has answered `ok`, and `session` resolves its destinations.
  | registered (lookupHost : String → Option (List SocketAddr))
  | session (action : ClientAction)
  -- An error of the connection, a rejected registration, or a timeout.
  | lost
  | turn (attempt : Attempt)
  | wake

namespace Dialer

def maxFlows (cfg : Side) : Nat := cfg.transport.quic.maxUdpFlows.toNat

def new (cfg : Side) : Dialer where
  cfg := cfg
  delay := 1
  stage := .dialing

/-- An error makes `connect` return. A panic is not caught. -/
def caught (result : Except Fault α) (next : α → DialerStage) (d : Dialer) : Except Fault Dialer :=
  match result with
  | .ok a => .ok { d with stage := next a }
  | .error .panic => .error .panic
  | .error _ => .ok { d with stage := .disconnected }

/-- The loop of `session` and its workers. -/
def sessionStep (action : ClientAction) (c : Client) (d : Dialer) : Except Fault Dialer :=
  match action with
  | .packet p => d.caught (c.packet (maxFlows d.cfg) p) .forwarding
  | action => .ok { d with stage := .forwarding (c.step (maxFlows d.cfg) action) }

/-- The wait after `connect`, with the delay it leaves for the next one. -/
def turn (attempt : Attempt) (d : Dialer) : Except Fault Dialer := do
  let (millis, delay) ← Reconnect.turn d.cfg.retryInterval d.delay attempt
  pure { d with delay, stage := .sleeping millis }

/-- An event that `run` is not waiting for does nothing. -/
def step (d : Dialer) (event : DialerEvent) : Except Fault Dialer :=
  match event, d.stage with
  | .dial host lookupHost, .dialing => d.caught (d.cfg.dial host lookupHost) fun _ => .registering
  | .registered lookupHost, .registering =>
    d.caught (d.cfg.destinations lookupHost) fun destinations => .forwarding (.new destinations)
  | .session action, .forwarding c => d.sessionStep action c
  | .lost, .registering => .ok { d with stage := .disconnected }
  | .lost, .forwarding _ => .ok { d with stage := .disconnected }
  | .turn attempt, .disconnected => d.turn attempt
  | .wake, .sleeping _ => .ok { d with stage := .dialing }
  | _, _ => .ok d

structure Inv (decode : String → Option Bytes) (d : Dialer) : Prop where
  accepted : d.cfg.Accepted decode false
  capped : Reconnect.Capped d.cfg.retryInterval d.delay
  inStep : ∀ c, d.stage = .forwarding c → Client.InStep (maxFlows d.cfg) c

variable {decode : String → Option Bytes} {d : Dialer}

theorem inv_new {cfg : Side} (h : cfg.Accepted decode false) : Inv decode (new cfg) where
  accepted := h
  capped := Reconnect.capped_one
  inStep := by simp [new]

theorem Inv.goes (h : Inv decode d) {stage : DialerStage} (hstage : ∀ c, stage ≠ .forwarding c) :
    ∃ d', (.ok { d with stage } : Except Fault Dialer) = .ok d' ∧ Inv decode d' ∧ d'.cfg = d.cfg :=
  ⟨_, rfl, ⟨h.accepted, h.capped, fun c hc => absurd hc (hstage c)⟩, rfl⟩

theorem Inv.caught (h : Inv decode d) {result : Except Fault α} (hsafe : Safe result)
    {next : α → DialerStage}
    (hnext : ∀ a c, result = .ok a → next a = .forwarding c → Client.InStep (maxFlows d.cfg) c) :
    ∃ d', d.caught result next = .ok d' ∧ Inv decode d' ∧ d'.cfg = d.cfg := by
  unfold Dialer.caught
  split
  · rename_i a
    exact ⟨_, rfl, ⟨h.accepted, h.capped, fun c hc => hnext a c rfl hc⟩, rfl⟩
  · exact absurd rfl hsafe
  · exact h.goes (by simp)

theorem Inv.sessionStep (h : Inv decode d) (hstage : d.stage = .forwarding c)
    (action : ClientAction) :
    ∃ d', d.sessionStep action c = .ok d' ∧ Inv decode d' ∧ d'.cfg = d.cfg := by
  have hin := h.inStep c hstage
  have hother : ∃ d', (.ok { d with stage := .forwarding (c.step (maxFlows d.cfg) action) } :
      Except Fault Dialer) = .ok d' ∧ Inv decode d' ∧ d'.cfg = d.cfg := by
    refine ⟨_, rfl, ⟨h.accepted, h.capped, fun c' hc => ?_⟩, rfl⟩
    cases hc
    exact hin.step action
  cases action with
  | packet p =>
    -- The only index of the loop, `flows[&key]`, comes after the key was inserted.
    obtain ⟨c', hc, -⟩ := hin.packet_queueOf p
    have hstep : c.step (maxFlows d.cfg) (.packet p) = c' := by
      simp only [Client.step, hc]
    simp only [Dialer.sessionStep, Dialer.caught, hc]
    rw [hstep] at hother
    exact hother
  | worker i event => exact hother
  | join i => exact hother

theorem Inv.turn (h : Inv decode d) (attempt : Attempt) :
    ∃ d', d.turn attempt = .ok d' ∧ Inv decode d' ∧ d'.cfg = d.cfg := by
  obtain ⟨millis, delay, hturn, -, -, hdelay⟩ := Reconnect.turn_ok h.accepted.retry h.capped attempt
  refine ⟨{ d with delay, stage := .sleeping millis }, ?_,
    ⟨h.accepted, Reconnect.capped_of_eq hdelay, by simp⟩, rfl⟩
  rw [Dialer.turn, hturn]
  rfl

/-- Nothing that happens to a connection ends the loop. -/
theorem Inv.step (h : Inv decode d) (event : DialerEvent) :
    ∃ d', d.step event = .ok d' ∧ Inv decode d' ∧ d'.cfg = d.cfg := by
  unfold Dialer.step
  split
  · exact h.caught (dial_safe h.accepted) (by simp)
  · refine h.caught (fillDestinations_safe (fun service hservice => ?_) 0 ∅)
      fun destinations c _ hc => ?_
    · obtain ⟨e, he, rfl⟩ := List.mem_map.mp hservice
      exact (h.accepted.limits.1 e he).2.1 rfl
    · cases hc
      exact Client.inStep_new _ _
  · exact h.sessionStep ‹_› _
  · exact h.goes (by simp)
  · exact h.goes (by simp)
  · exact h.turn _
  · exact h.goes (by simp)
  · exact ⟨d, rfl, h, rfl⟩

end Dialer

end Cathole

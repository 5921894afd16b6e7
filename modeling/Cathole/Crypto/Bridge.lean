import Cathole.Crypto.Transfer

/-!
# Two bridges joined by a stream

`bridge` at the server, for the public connection, and at the client, for the
local one. Each runs its two loops in `try_join!`: the first error drops the
other loop with its half of the stream and of the socket. Quinn finishes a
sending stream that is dropped and stops a receiving one.

The two directions share nothing but these failures, so a run without failures
is a run of each direction by itself. With failures, the receiver takes the end
of a dropped stream for an orderly one whenever it falls between two frames.
-/

namespace Cathole

inductive Leg
  | server
  | client
  deriving DecidableEq, Repr

def Leg.other : Leg → Leg
  | .server => .client
  | .client => .server

/-- What makes a loop of `bridge` return an error. -/
inductive Cause
  | tcpRead
  -- `write_message` fails on `n` bytes that were read.
  | noiseWrite (n : Nat)
  -- QUIC refuses a write, because the peer has stopped the stream.
  | stopped
  -- `read_message` fails on the frame that the next `n` bytes complete.
  | noiseRead (n : Nat)
  | tcpWrite
  | tcpShutdown
  deriving DecidableEq, Repr

inductive BridgeAction
  -- The direction that is read at `leg`'s socket moves on.
  | pipe (leg : Leg) (action : PipeAction)
  -- A loop of `leg`'s bridge fails.
  | fault (leg : Leg) (cause : Cause)
  deriving DecidableEq, Repr

def BridgeAction.on (d : Leg) : BridgeAction → Option PipeAction
  | .pipe leg action => if leg = d then some action else none
  | .fault _ _ => none

structure Bridges where
  server : Pipe
  client : Pipe
  deriving DecidableEq

def PipeAction.owner (leg : Leg) : PipeAction → Leg
  | .read _ | .write _ => leg
  | .receive _ | .flush _ | .closed => leg.other

namespace Bridges

def new (input : Leg → Bytes) : Bridges where
  server := .new (input .server)
  client := .new (input .client)

def pipe (leg : Leg) (s : Bridges) : Pipe :=
  match leg with
  | .server => s.server
  | .client => s.client

def set (leg : Leg) (p : Pipe) (s : Bridges) : Bridges :=
  match leg with
  | .server => { s with server := p }
  | .client => { s with client := p }

/-- `try_join!` returns an error, and all that `leg`'s bridge owns is dropped. -/
def fail (leg : Leg) (s : Bridges) : Bridges :=
  (s.set leg (s.pipe leg).dropTx).set leg.other (s.pipe leg.other).dropRx

def canFail (leg : Leg) (cause : Cause) (s : Bridges) : Bool :=
  match cause, (s.pipe leg).tx, (s.pipe leg.other).rx with
  | .tcpRead, .reading, _ => true
  | .noiseWrite n, .reading, _ =>
    1 ≤ n ∧ n ≤ Pipe.plainBuffer ∧ n ≤ (s.pipe leg).source.length
  | .stopped, .writing _ _, _ => (s.pipe leg).rx = .dropped
  | .noiseRead n, _, .frame buffer =>
    let stream := (s.pipe leg.other).stream
    decide (1 ≤ n ∧ n ≤ want buffer ∧ n ≤ stream.length) &&
      match feed (buffer ++ stream.take n) with
      | .ok (some _) => true
      | _ => false
  | .tcpWrite, _, .writing _ => true
  | .tcpShutdown, _, .closing => true
  | _, _, _ => false

def step (noise : Leg → Cipher) (s : Bridges) : BridgeAction → Bridges
  | .pipe leg action =>
    match (s.pipe leg).step (noise leg) action with
    | .ok p => s.set leg p
    | .error _ => s.fail (action.owner leg)
  | .fault leg cause =>
    if s.canFail leg cause then
      match cause with
      | .noiseWrite n => (s.set leg ((s.pipe leg).abandon n)).fail leg
      | _ => s.fail leg
    else s

def run (noise : Leg → Cipher) (input : Leg → Bytes) (actions : List BridgeAction) : Bridges :=
  actions.foldl (step noise) (new input)

-- ---------------------------------------------------------------------------
-- Both directions stay intact
-- ---------------------------------------------------------------------------

variable {noise : Leg → Cipher} {s : Bridges} {leg d : Leg} {input : Leg → Bytes}

theorem pipe_set (p : Pipe) : (s.set leg p).pipe d = if d = leg then p else s.pipe d := by
  cases leg <;> cases d <;> rfl

theorem pipe_fail : (s.fail leg).pipe d = if d = leg then (s.pipe d).dropTx
    else (s.pipe d).dropRx := by
  cases leg <;> cases d <;> rfl

inductive Meets (noise : Leg → Cipher) (s : Bridges) (d : Leg) : Pipe → Prop
  | moved (hm : Pipe.Moves (noise d) (s.pipe d) p) : Meets noise s d p
  | sender : Meets noise s d (s.pipe d).dropTx
  | receiver : Meets noise s d (s.pipe d).dropRx
  | abandoned (htx : (s.pipe d).tx = .reading) (n : Nat) : Meets noise s d ((s.pipe d).abandon n)

theorem fail_meets : Meets noise s d ((s.fail leg).pipe d) := by
  rw [pipe_fail]
  split
  · exact .sender
  · exact .receiver

theorem reading_of_noiseWrite (h : s.canFail leg (.noiseWrite n) = true) :
    (s.pipe leg).tx = .reading := by
  unfold canFail at h
  cases htx : (s.pipe leg).tx with
  | reading => rfl
  | writing | finished | dropped => simp [htx] at h

theorem step_meets (noise : Leg → Cipher) (s : Bridges) (action : BridgeAction) (d : Leg) :
    Meets noise s d ((s.step noise action).pipe d) := by
  cases action with
  | pipe leg action =>
    simp only [step]
    split
    · rename_i p hok
      rw [pipe_set]
      split
      · rename_i hd
        subst hd
        exact .moved (Pipe.step_moves action hok)
      · exact .moved .stay
    · exact fail_meets
  | fault leg cause =>
    simp only [step]
    split
    · rename_i hcan
      cases cause with
      | noiseWrite n =>
        simp only [pipe_fail, pipe_set]
        split
        · rename_i hd
          subst hd
          exact .abandoned (reading_of_noiseWrite hcan) n
        · exact .receiver
      | tcpRead | stopped | noiseRead | tcpWrite | tcpShutdown => exact fail_meets
    · exact .moved .stay

theorem wf_step (h : ∀ d, (s.pipe d).Wf (input d)) (action : BridgeAction) :
    ∀ d, ((s.step noise action).pipe d).Wf (input d) := by
  intro d
  have hmeets := step_meets noise s action d
  generalize (s.step noise action).pipe d = p at hmeets
  cases hmeets with
  | moved hm => exact (h d).moves hm
  | sender => exact (h d).dropTx
  | receiver => exact (h d).dropRx
  | abandoned htx n => exact (h d).abandon htx n

theorem wf_run (noise : Leg → Cipher) (input : Leg → Bytes) (actions : List BridgeAction) :
    ∀ d, ((run noise input actions).pipe d).Wf (input d) := by
  refine List.foldlRecOn (motive := fun s => ∀ d, (pipe d s).Wf (input d)) actions (step noise) ?_
    fun s h action _ => wf_step h action
  intro d
  cases d <;> exact Pipe.wf_new _

-- ---------------------------------------------------------------------------
-- Runs without failures
-- ---------------------------------------------------------------------------

/-- No TCP, Noise or QUIC operation fails. -/
def FaultFree (actions : List BridgeAction) : Prop :=
  ∀ action ∈ actions, ∃ leg a, action = .pipe leg a

def changes (noise : Leg → Cipher) (s : Bridges) : List BridgeAction → Nat
  | [] => 0
  | action :: rest =>
    (if s.step noise action = s then 0 else 1) + changes noise (s.step noise action) rest

def alone (noise : Cipher) (p : Pipe) (actions : List PipeAction) : Pipe :=
  actions.foldl (fun p action => (p.step noise action).toOption.getD p) p

structure Good (input : Leg → Bytes) (s : Bridges) : Prop where
  wf : ∀ d, (s.pipe d).Wf (input d)
  intact : ∀ d, (s.pipe d).Intact

theorem good_new (input : Leg → Bytes) : Good input (new input) where
  wf := by
    intro d
    cases d <;> exact Pipe.wf_new _
  intact := by
    intro d
    cases d <;> exact ⟨by simp [pipe, new, Pipe.new], by simp [pipe, new, Pipe.new]⟩

/-- Without a fault, a step moves one direction and leaves the other alone. -/
theorem Good.step_eq (h : Good input s) (noise : Leg → Cipher) (leg : Leg) (action : PipeAction) :
    ∃ p, (s.pipe leg).step (noise leg) action = .ok p ∧ Pipe.Moves (noise leg) (s.pipe leg) p ∧
      s.step noise (.pipe leg action) = s.set leg p := by
  obtain ⟨p, hok⟩ := (h.wf leg).step_ok (h.intact leg) (noise leg) action
  exact ⟨p, hok, Pipe.step_moves action hok, by simp only [step, hok]⟩

theorem Good.step (h : Good input s) (noise : Leg → Cipher) (leg : Leg) (action : PipeAction) :
    Good input (s.step noise (.pipe leg action)) := by
  obtain ⟨p, -, hm, he⟩ := h.step_eq noise leg action
  refine ⟨wf_step h.wf _, fun d => ?_⟩
  rw [he, pipe_set]
  split
  · exact (h.intact leg).moves hm
  · exact h.intact d

def remaining (s : Bridges) : Nat := s.server.remaining + s.client.remaining

theorem Good.remaining_lt (h : Good input s) (leg : Leg) (action : PipeAction)
    (hne : s.step noise (.pipe leg action) ≠ s) :
    (s.step noise (.pipe leg action)).remaining < s.remaining := by
  obtain ⟨p, -, hm, he⟩ := h.step_eq noise leg action
  rw [he] at hne ⊢
  have hp : p ≠ s.pipe leg := by
    rintro rfl
    cases leg <;> exact hne rfl
  have hlt := (h.wf leg).remaining_lt hm hp
  cases leg with
  | server => exact Nat.add_lt_add_right hlt _
  | client => exact Nat.add_lt_add_left hlt _

theorem Good.changes_le (h : Good input s) (hfree : FaultFree actions) :
    changes noise s actions ≤ s.remaining := by
  induction actions generalizing s with
  | nil => exact Nat.zero_le _
  | cons action rest ih =>
    obtain ⟨leg, a, rfl⟩ := hfree action List.mem_cons_self
    have hrest := ih (h.step noise leg a) fun x hx => hfree x (List.mem_cons_of_mem _ hx)
    rw [changes]
    split
    · rename_i hsame
      rw [hsame] at hrest ⊢
      omega
    · have hlt := h.remaining_lt leg a ‹_›
      omega

theorem Good.alone (h : Good input s) (hfree : FaultFree actions) (d : Leg) :
    Good input (actions.foldl (Bridges.step noise) s) ∧
      (actions.foldl (Bridges.step noise) s).pipe d =
        Bridges.alone (noise d) (s.pipe d) (actions.filterMap (BridgeAction.on d)) := by
  induction actions generalizing s with
  | nil => exact ⟨h, rfl⟩
  | cons action rest ih =>
    obtain ⟨leg, a, rfl⟩ := hfree action List.mem_cons_self
    obtain ⟨hgood, hrest⟩ := ih (h.step noise leg a) fun x hx => hfree x (List.mem_cons_of_mem _ hx)
    refine ⟨hgood, hrest.trans ?_⟩
    obtain ⟨p, hok, -, he⟩ := h.step_eq noise leg a
    rw [he, pipe_set]
    by_cases hd : leg = d
    · subst hd
      simp [BridgeAction.on, Bridges.alone, hok, Except.toOption]
    · simp [BridgeAction.on, hd, Ne.symm hd]

theorem Good.complete (h : Good input s) (hstuck : ∀ action, s.step noise (.pipe d action) = s) :
    (s.pipe d).Complete (input d) := by
  have hpipe : ∀ action, (s.pipe d).step (noise d) action = .ok (s.pipe d) := by
    intro action
    obtain ⟨p, hok, -, he⟩ := h.step_eq noise d action
    rw [hstuck action] at he
    have hp : (s.set d p).pipe d = s.pipe d := by rw [← he]
    rw [pipe_set, if_pos rfl] at hp
    rw [hok, hp]
  exact (h.wf d).complete_of_stuck (h.intact d) hpipe

/-- At every moment of every run, with any splitting of reads and writes and any
failures: what was written at one end is a prefix of what was read at the other,
no frame is too large to be written, and at an end that the peer made by
`finish` everything read was written before the shutdown. Without failures no
loop fails by itself, each direction runs as if it were alone, a direction that
has come to rest has delivered everything, and it comes to rest after finitely
many steps. -/
theorem bridge_delivers (noise : Leg → Cipher) (input : Leg → Bytes) (actions : List BridgeAction) :
    let s := run noise input actions
    (∀ d, (s.pipe d).written <+: (s.pipe d).read) ∧
    (∀ d, ∀ r ∈ (s.pipe d).records, r.cipher.length ≤ maxFrame) ∧
    (∀ d n, ∃ p, (s.pipe d).step (noise d) (.read n) = .ok p) ∧
    (∀ d, (s.pipe d).shutdown = true → (s.pipe d).tx = .finished →
      (s.pipe d).eof = true ∧ (s.pipe d).written = (s.pipe d).read) ∧
    (FaultFree actions →
      (∀ d action, ∃ p, (s.pipe d).step (noise d) action = .ok p) ∧
      (∀ d, s.pipe d = alone (noise d) (.new (input d)) (actions.filterMap (BridgeAction.on d))) ∧
      (∀ d, (∀ action, s.step noise (.pipe d action) = s) → (s.pipe d).Complete (input d)) ∧
      changes noise (new input) actions ≤ (new input).remaining) := by
  intro s
  have h := wf_run noise input actions
  refine ⟨fun d => ?_, fun d r hr => ((h d).sending.sizes r hr).2,
    fun d n => Pipe.readStep_ok (noise d) n (s.pipe d), fun d hshut htx => ?_, fun hfree => ?_⟩
  · have htake : Pipe.text ((s.pipe d).records.take (s.pipe d).opened) <+:
        Pipe.text (s.pipe d).records := by
      refine ⟨Pipe.text ((s.pipe d).records.drop (s.pipe d).opened), ?_⟩
      rw [← Pipe.text_append, List.take_append_drop]
    exact ((h d).receiving.given.trans htake).trans (h d).sending.taken
  · exact ⟨(h d).sending.eof_iff.mpr htx, ((h d).receiving.shut hshut).2.2 htx⟩
  · have hgood : ∀ d, Good input s ∧ s.pipe d =
        alone (noise d) ((new input).pipe d) (actions.filterMap (BridgeAction.on d)) :=
      (good_new input).alone hfree
    refine ⟨fun d action => ?_, fun d => ?_, fun d hstuck => (hgood d).1.complete hstuck,
      (good_new input).changes_le hfree⟩
    · exact ((hgood d).1.wf d).step_ok ((hgood d).1.intact d) (noise d) action
    · rw [(hgood d).2]
      cases d <;> rfl

-- ---------------------------------------------------------------------------
-- Runs with failures
-- ---------------------------------------------------------------------------

def failing (noise : Leg → Cipher) (s : Bridges) : BridgeAction → Option Leg
  | .pipe leg action =>
    match (s.pipe leg).step (noise leg) action with
    | .ok _ => none
    | .error _ => some (action.owner leg)
  | .fault leg cause => if s.canFail leg cause then some leg else none

/-- The sending stream of `leg` may be dropped now: it is finished, or inside a
frame, or nobody receives it any more. -/
def safe (leg : Leg) (s : Bridges) : Bool :=
  match (s.pipe leg).tx with
  | .finished | .writing (_ :: _) _ => true
  | _ => (s.pipe leg).rx = .dropped

def guarded (noise : Leg → Cipher) (s : Bridges) : List BridgeAction → Bool
  | [] => true
  | action :: rest =>
    (s.failing noise action).all (s.safe ·) && guarded noise (s.step noise action) rest

/-- The end of the stream, where the receiver can see it, is the peer's
`finish`. -/
structure Orderly (p : Pipe) : Prop where
  fin : p.fin = true →
    p.tx = .finished ∨ (∃ sent rest, p.tx = .dropped sent rest ∧ sent ≠ []) ∨ p.rx = .dropped
  shutdown : p.shutdown = true → p.tx = .finished

theorem Orderly.moves (h : Orderly p) (hwf : p.Wf total) (hm : Pipe.Moves cipher p p') :
    Orderly p' := by
  have hopen : p.tx ≠ .finished → p.shutdown = true → False := fun htx hs => htx (h.shutdown hs)
  have hlive : p.rx ≠ .dropped → p.fin = true →
      p.tx = .finished ∨ ∃ sent rest, p.tx = .dropped sent rest ∧ sent ≠ [] := by
    intro hrx hfin
    rcases h.fin hfin with htx | htx | hd
    · exact .inl htx
    · exact .inr htx
    · exact absurd hd hrx
  cases hm with
  | stay => exact h
  | read htx =>
    have hfin := hwf.fin_eq_false (.inl htx)
    exact ⟨by simp [hfin], fun hs => (hopen (by simp [htx]) hs).elim⟩
  | eof => exact ⟨fun _ => .inl rfl, fun _ => rfl⟩
  | wrote htx | framed htx =>
    have hfin := hwf.fin_eq_false (.inr ⟨_, _, htx⟩)
    exact ⟨by simp [hfin], fun hs => (hopen (by simp [htx]) hs).elim⟩
  | buffered hrx | opened hrx | flushed hrx | closed hrx =>
    exact ⟨fun hfin => (hlive (by simp [hrx]) hfin).imp_right .inl, h.shutdown⟩
  | ended hrx hstream hfin =>
    have htx : p.tx = .finished := by
      rcases hlive (by simp [hrx]) hfin with htx | ⟨sent, rest, htx, hsent⟩
      · exact htx
      · exact (hwf.not_ended hrx hstream htx hsent).elim
    exact ⟨fun _ => .inl htx, fun _ => htx⟩

theorem Orderly.dropRx (h : Orderly p) : Orderly p.dropRx := by
  unfold Pipe.dropRx
  split
  · exact h
  · exact ⟨fun _ => .inr (.inr rfl), h.shutdown⟩

theorem Orderly.dropTx (h : Orderly (s.pipe leg)) (hsafe : s.safe leg = true) :
    Orderly (s.pipe leg).dropTx := by
  unfold safe at hsafe
  unfold Pipe.dropTx
  cases htx : (s.pipe leg).tx with
  | reading =>
    rw [htx] at hsafe
    exact ⟨fun _ => .inr (.inr (by simpa using hsafe)),
      fun hs => by cases htx.symm.trans (h.shutdown hs)⟩
  | writing sent rest =>
    refine ⟨fun _ => ?_, fun hs => by cases htx.symm.trans (h.shutdown hs)⟩
    cases sent with
    | nil =>
      rw [htx] at hsafe
      exact .inr (.inr (by simpa using hsafe))
    | cons b sent => exact .inr (.inl ⟨_, _, rfl, by simp⟩)
  | finished | dropped => exact h

theorem Orderly.abandon (h : Orderly (s.pipe leg)) (hsafe : s.safe leg = true)
    (htx : (s.pipe leg).tx = .reading) (n : Nat) : Orderly ((s.pipe leg).abandon n) := by
  unfold safe at hsafe
  rw [htx] at hsafe
  have hrx : (s.pipe leg).rx = .dropped := by simpa using hsafe
  exact ⟨fun _ => .inr (.inr hrx), fun hs => by cases htx.symm.trans (h.shutdown hs)⟩

theorem Orderly.fail (h : ∀ d, Orderly (s.pipe d)) (hsafe : s.safe leg = true) :
    ∀ d, Orderly ((s.fail leg).pipe d) := by
  intro d
  rw [pipe_fail]
  split
  · rename_i hd
    subst hd
    exact (h d).dropTx hsafe
  · exact (h d).dropRx

theorem Orderly.step (h : ∀ d, Orderly (s.pipe d)) (hwf : ∀ d, (s.pipe d).Wf (input d))
    (action : BridgeAction) (hsafe : (s.failing noise action).all (s.safe ·) = true) :
    ∀ d, Orderly ((s.step noise action).pipe d) := by
  cases action with
  | pipe leg action =>
    simp only [Bridges.step, failing] at hsafe ⊢
    split at hsafe
    · rename_i p hok
      intro d
      rw [pipe_set]
      split
      · exact (h leg).moves (hwf leg) (Pipe.step_moves action hok)
      · exact h d
    · exact Orderly.fail h hsafe
  | fault leg cause =>
    simp only [Bridges.step, failing] at hsafe ⊢
    split
    · rename_i hcan
      rw [if_pos hcan] at hsafe
      cases cause with
      | noiseWrite n =>
        have htx : (s.pipe leg).tx = .reading := reading_of_noiseWrite hcan
        intro d
        simp only [pipe_fail, pipe_set]
        split
        · rename_i hd
          subst hd
          exact (h d).abandon hsafe htx n
        · exact (h d).dropRx
      | tcpRead | stopped | noiseRead | tcpWrite | tcpShutdown => exact Orderly.fail h hsafe
    · exact h

theorem orderly_run (hguarded : guarded noise s actions = true) (hord : ∀ d, Orderly (s.pipe d))
    (hwf : ∀ d, (s.pipe d).Wf (input d)) :
    ∀ d, Orderly ((actions.foldl (Bridges.step noise) s).pipe d) := by
  induction actions generalizing s with
  | nil => exact hord
  | cons action rest ih =>
    obtain ⟨hsafe, hrest⟩ := Bool.and_eq_true_iff.mp hguarded
    exact ih hrest (Orderly.step hord hwf action hsafe) (wf_step hwf action)

theorem guarded_left (h : guarded noise s (earlier ++ later) = true) :
    guarded noise s earlier = true := by
  induction earlier generalizing s with
  | nil => rfl
  | cons action rest ih =>
    obtain ⟨hsafe, hrest⟩ := Bool.and_eq_true_iff.mp h
    exact Bool.and_eq_true_iff.mpr ⟨hsafe, ih hrest⟩

/-- If a run's failures are all where the sender is finished, inside a frame or
without a receiver, then in every state of the run an endpoint has called
`shutdown` only after the opposite reader returned end-of-file, and with
everything that reader returned written. -/
theorem shutdown_means_eof (noise : Leg → Cipher) (input : Leg → Bytes)
    (actions : List BridgeAction) (hguarded : guarded noise (new input) actions = true) :
    ∀ earlier later, actions = earlier ++ later → ∀ d,
      ((run noise input earlier).pipe d).shutdown = true →
      ((run noise input earlier).pipe d).eof = true ∧
        ((run noise input earlier).pipe d).written = ((run noise input earlier).pipe d).read := by
  intro earlier later hsplit d hshut
  have hwf := wf_run noise input earlier d
  have hnew : ∀ d, Orderly ((new input).pipe d) := by
    intro d
    cases d <;> exact ⟨by simp [pipe, new, Pipe.new], by simp [pipe, new, Pipe.new]⟩
  rw [hsplit] at hguarded
  have hord : Orderly ((run noise input earlier).pipe d) :=
    orderly_run (guarded_left hguarded) hnew (good_new input).wf d
  have htx := hord.shutdown hshut
  exact ⟨hwf.sending.eof_iff.mpr htx, (hwf.receiving.shut hshut).2.2 htx⟩

def tagged : Cipher where
  encrypt := fun _ plain => plain ++ List.replicate 16 0
  length_encrypt := by simp

/-- The public connection sends one byte and closes; the reply fails at its
socket, after the server's stream was finished. -/
theorem shutdown_means_eof_after_failure :
    let noise : Leg → Cipher := fun _ => tagged
    let input : Leg → Bytes := fun _ => [7]
    let actions : List BridgeAction :=
      [.pipe .server (.read 1), .pipe .server (.write 21), .pipe .server (.read 0),
        .pipe .client (.read 1), .pipe .client (.write 21), .pipe .client (.receive 1),
        .pipe .client (.receive 3), .pipe .client (.receive 17), .fault .server .tcpWrite,
        .pipe .server (.receive 1), .pipe .server (.receive 3), .pipe .server (.receive 17),
        .pipe .server (.flush 1), .pipe .server (.receive 0)]
    guarded noise (new input) actions = true ∧
      ((run noise input actions).pipe .server).shutdown = true ∧
      ((run noise input actions).pipe .server).eof = true ∧
        ((run noise input actions).pipe .server).written =
        ((run noise input actions).pipe .server).read := by
  intro noise input actions
  have hguarded : guarded noise (new input) actions = true := by decide +kernel
  have hshut : ((run noise input actions).pipe .server).shutdown = true := by decide +kernel
  exact ⟨hguarded, hshut,
    shutdown_means_eof noise input actions hguarded actions []
      (List.append_nil _).symm .server hshut⟩

/-- The public connection is reset after one of two bytes was read: the stream
ends between two frames, and the client shuts its local socket down. -/
theorem shutdown_without_eof :
    ¬ ∀ (noise : Leg → Cipher) (input : Leg → Bytes) (actions : List BridgeAction) (d : Leg),
      ((run noise input actions).pipe d).shutdown = true →
      ((run noise input actions).pipe d).eof = true ∧
        ((run noise input actions).pipe d).written = ((run noise input actions).pipe d).read := by
  intro h
  have hreset := h (fun _ => tagged) (fun _ => [7, 8])
    [.pipe .server (.read 1), .pipe .server (.write 21), .fault .server .tcpRead,
      .pipe .server (.receive 1), .pipe .server (.receive 3), .pipe .server (.receive 17),
      .pipe .server (.flush 1), .pipe .server (.receive 0)] .server
  revert hreset
  decide +kernel

end Bridges

end Cathole

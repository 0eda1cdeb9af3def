import FlashVis.Player.Machine

/-!
# What the moves of a player leave alone

* `enqueue_eq`, `meter_eq`   the fields that enqueueing and metering write;
* `Move.Frame p m q`         what move `m` from `p` to `q` leaves alone, posts and records;
* `apply_frame`              every move keeps its frame.
-/

namespace FlashVis
namespace Player

theorem enqueue_eq (idx : Nat) (batch : List DevEvent) (steps : List PbStep) (last : Bool)
    (ops : Nat) (p : Player) : ∃ pb fl ed fo ex q, p.enqueue idx batch steps last ops = { p with
      playbackNs := pb, flashNs := fl, entriesDrained := ed, fileOps := fo, executedTapeNs := ex
      queue := q, hist := p.hist ++ [.enqueued idx batch p.prepActive] } := by
  unfold enqueue
  dsimp only
  split <;> exact ⟨_, _, _, _, _, _, rfl⟩

/-- Enqueueing leaves the cursor, the command and the entries alone. -/
structure Kept (p q : Player) : Prop where
  cursor : q.cursor = p.cursor
  realCmd : q.realCmd = p.realCmd
  entries : q.entries = p.entries
  prepActive : q.prepActive = p.prepActive

theorem enqueue_frame (idx : Nat) (batch : List DevEvent) (steps : List PbStep) (last : Bool)
    (ops : Nat) (p : Player) : p.Kept (p.enqueue idx batch steps last ops) := by
  obtain ⟨_, _, _, _, _, _, h⟩ := enqueue_eq idx batch steps last ops p
  rw [h]
  exact ⟨rfl, rfl, rfl, rfl⟩

theorem closeStep_eq (step : PbStep) (p : Player) : ∃ ed fo,
    p.closeStep step = { p with entriesDrained := ed, fileOps := fo } := by
  unfold closeStep
  split <;> exact ⟨_, _, rfl⟩

theorem playLoop_eq (q : List PbStep) (k : Nat) (b : Limit) (p : Player) : ∃ pb fl ed fo q',
    playLoop q k b p = { p with
      playbackNs := pb, flashNs := fl, entriesDrained := ed, fileOps := fo, queue := q' } := by
  induction q generalizing k b p with
  | nil => exact ⟨_, _, _, _, _, rfl⟩
  | cons step rest ih =>
    cases k with
    | zero => exact ⟨_, _, _, _, _, rfl⟩
    | succ k =>
      obtain ⟨ed, fo, hcl⟩ := closeStep_eq step (p.advance step.unplayed)
      have hrec : ∀ k b, ∃ pb fl ed fo q', playLoop rest k b ((p.advance step.unplayed).closeStep step)
          = { p with playbackNs := pb, flashNs := fl, entriesDrained := ed, fileOps := fo, queue := q' } := by
        intro k b
        obtain ⟨pb, fl, ed', fo', q', h⟩ := ih k b ((p.advance step.unplayed).closeStep step)
        refine ⟨pb, fl, ed', fo', q', ?_⟩
        rw [h, hcl]
        rfl
      unfold playLoop
      induction b using WithTop.recTopCoe with
      | top => exact hrec _ _
      | coe b =>
        dsimp only
        split
        · exact hrec _ _
        · exact ⟨_, _, _, _, _, rfl⟩

theorem meter_eq (p : Player) : ∃ pb fl ed fo q, p.meter = { p with
    playbackNs := pb, flashNs := fl, entriesDrained := ed, fileOps := fo, queue := q } := by
  unfold meter
  split
  · exact ⟨_, _, _, _, _, rfl⟩
  split
  · exact ⟨_, _, _, _, _, rfl⟩
  · exact playLoop_eq _ _ _ _

end Player

namespace Move

/-- The messages that a move posts. -/
def posts (p : Player) : Move → List W2C
  | .ack => [.grantAck p.epoch p.ackOf]
  | .post m => [m]
  | _ => []

/-- What a move adds to the history. -/
def acts (p : Player) : Move → List Act
  | .exec call batch _ _ => (call.map (Act.ran (p.runner.getD 0) p.cursor)).toList
      ++ [.enqueued p.cursor batch p.prepActive]
  | .fail call => [.ran (p.runner.getD 0) p.cursor call]
  | .start => [.started p.cursor]
  | .syntaxError => [.started p.cursor, .enqueued p.cursor [] p.prepActive]
  | .op idx wiped batch _ => (if wiped then [.wiped p.playbackNs] else [])
      ++ [.enqueued idx batch p.prepActive]
  | .wipe => [.wiped p.playbackNs]
  | .close idx _ => [.enqueued idx [] p.prepActive]
  | .ack => [.posted (.grantAck p.epoch p.ackOf)]
  | .post m => [.posted m]
  | _ => []

/-- The cursor after a move. -/
def cursor (p : Player) : Move → Nat
  | .exec _ _ _ _ | .syntaxError | .openPrep | .closePrep _ | .commit _ _ => p.cursor + 1
  | .close idx _ => idx + 1
  | _ => p.cursor

/-- The command in flight after a move. -/
def realCmd (p : Player) : Move → Option Nat
  | .start => some p.cursor
  | .syntaxError | .close _ _ => none
  | _ => p.realCmd

/-- The prep bracket after a move. -/
def prepActive (p : Player) : Move → Bool
  | .prep v => v
  | .openPrep => true
  | .closePrep _ => false
  | _ => p.prepActive

/-- The runner after a move. -/
def runner (p : Player) : Move → Option Nat
  | .land b => some b
  | _ => p.runner

/-- The builds under way after a move. -/
def builds (p : Player) : Move → List Nat
  | .land b | .drop b => p.builds.filter (· != b)
  | _ => p.builds

end Move

/-- What move `m` of player `p` leaves alone and what it records: everything but the flash time
and the queue. -/
structure Move.Frame (p : Player) (m : Move) (q : Player) : Prop where
  epoch : q.epoch = p.epoch
  gen : q.gen = p.gen
  entries : q.entries = p.entries
  entryLimit : q.entryLimit = p.entryLimit
  playLimitNs : q.playLimitNs = p.playLimitNs
  scale : q.scale = p.scale
  round : q.round = p.round
  pageSize : q.pageSize = p.pageSize
  port : q.port = p.port ++ m.posts p
  hist : q.hist = p.hist ++ m.acts p
  cursor : q.cursor = m.cursor p
  realCmd : q.realCmd = m.realCmd p
  prepActive : q.prepActive = m.prepActive p
  runner : q.runner = m.runner p
  builds : q.builds = m.builds p

namespace Player

theorem apply_frame (p : Player) (m : Move) : m.Frame p (p.apply m) := by
  cases m with
  | exec call batch steps ops =>
    cases call with
    | none =>
      obtain ⟨_, _, _, _, _, _, h⟩ := enqueue_eq p.cursor batch steps true ops p
      constructor <;> simp [apply, h, Move.posts, Move.acts, Move.cursor, Move.realCmd,
        Move.prepActive, Move.runner, Move.builds]
    | some c =>
      obtain ⟨_, _, _, _, _, _, h⟩ := enqueue_eq p.cursor batch steps true ops
        { p with hist := p.hist ++ [.ran (p.runner.getD 0) p.cursor c] }
      constructor <;> simp [apply, h, Move.posts, Move.acts, Move.cursor, Move.realCmd,
        Move.prepActive, Move.runner, Move.builds]
  | syntaxError =>
    obtain ⟨_, _, _, _, _, _, h⟩ := enqueue_eq p.cursor [] [] true 0
      { p with realCmd := some p.cursor, hist := p.hist ++ [.started p.cursor] }
    constructor <;> simp [apply, h, Move.posts, Move.acts, Move.cursor, Move.realCmd,
      Move.prepActive, Move.runner, Move.builds]
  | op idx w batch steps =>
    cases w with
    | false =>
      obtain ⟨_, _, _, _, _, _, h⟩ := enqueue_eq idx batch steps false 0 p
      constructor <;> simp [apply, h, Move.posts, Move.acts, Move.cursor, Move.realCmd,
        Move.prepActive, Move.runner, Move.builds]
    | true =>
      obtain ⟨_, _, _, _, _, _, h⟩ := enqueue_eq idx batch steps false 0 p.wipe
      rw [show p.apply (.op idx true batch steps) = _ from h]
      constructor <;> simp [wipe, Move.posts, Move.acts, Move.cursor, Move.realCmd,
        Move.prepActive, Move.runner, Move.builds]
  | close idx ops =>
    obtain ⟨_, _, _, _, _, _, h⟩ := enqueue_eq idx [] [] true ops p
    constructor <;> simp [apply, h, Move.posts, Move.acts, Move.cursor, Move.realCmd,
      Move.prepActive, Move.runner, Move.builds]
  | prep v =>
    cases v <;> constructor <;> simp [apply, setPrep, Move.posts, Move.acts, Move.cursor,
      Move.realCmd, Move.prepActive, Move.runner, Move.builds]
  | meter =>
    obtain ⟨_, _, _, _, _, h⟩ := meter_eq p
    constructor <;> simp [apply, h, Move.posts, Move.acts, Move.cursor, Move.realCmd,
      Move.prepActive, Move.runner, Move.builds]
  | _ =>
    constructor <;> simp [apply, post, wipe, commit, setPrep, advance, Move.posts, Move.acts,
      Move.cursor, Move.realCmd, Move.prepActive, Move.runner, Move.builds]

end Player
end FlashVis

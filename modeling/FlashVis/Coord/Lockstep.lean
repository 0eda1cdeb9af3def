import FlashVis.Coord.Proxy
import FlashVis.Model.Prng
import Mathlib.Logic.Function.Iterate

/-!
# The lockstep coordinator (lockstep.js)

One canonical sequence for `n` sessions, the clock-release algebra of the grants (`computeGrants`),
the two modes (`paceAdvance` is the Pace join) and the round barrier of `frame`.  The churn model
is injected, as in `createLockstep({ churn })`.  The display signals (`csActive`, `holding`,
`opsPerSec`) read acks and write nothing that a grant depends on; they are left out.
-/

namespace FlashVis

def GEN_SEED : UInt32 := 0x5eed0001
def CMD_SEED : UInt32 := 0x900d5eed
def MAX_SCALE : ℚ := 10000000
def RACE_LOOKAHEAD : Nat := 1
def RACE_LEAD_BOUND_FRAMES : ℚ := 2

/-- The injected generator model: `next`, `apply`, `reset`. -/
structure Churn (γ : Type) where
  next : γ → ChurnEvent × γ
  apply : ChurnEvent → γ → γ
  reset : γ → γ

/-- An entry of the canonical sequence. -/
inductive SeqEntry where
  | gc
  | event (ev : ChurnEvent)
  | command (payload : Payload) (seed : UInt32)
  deriving DecidableEq, Repr

inductive Mode where
  | race | pace
  deriving DecidableEq, Repr

/-- `wireEntry`: the entry at index `i` as it is shipped. -/
def wireEntry (i : Nat) : SeqEntry → Entry
  | .command payload seed => { index := i, kind := .command, payload := payload, seed := seed }
  | .event ev => { index := i, kind := .event, payload := .event ev, seed := 0 }
  | .gc => { index := i, kind := .gc, payload := .null, seed := 0 }

/-- The coordinator over the sessions `Fin n`. `raceStepLimit = -1` is `none`. -/
structure Lockstep (γ : Type) (n : Nat) where
  proxies : Fin n → Proxy
  churn : γ
  sequence : List SeqEntry := []
  rnd : UInt32 := GEN_SEED
  cmdRng : UInt32 := CMD_SEED
  ratio : ℚ := 1 / 2
  mode : Mode := .pace
  running : Bool := false
  scale : ℚ := 20000
  epoch : Int := 0
  baseline : Fin n → ℚ := fun _ => 0
  cached : Fin n → Option Grant := fun _ => none
  shipped : Fin n → Nat := fun _ => 0
  round : Int := 0
  lastComputedRound : Int := -1
  sharedIndex : Nat := 0
  frontier : Nat := 0
  forceProduce : Bool := false
  raceStepLimit : Option Nat := none

/-- The sequence on the wire. -/
def wire (l : List SeqEntry) : List Entry := l.mapIdx wireEntry

namespace Lockstep
variable {γ : Type} {n : Nat} (G : Churn γ)

def acked (c : Lockstep γ n) (s : Fin n) : Acked := (c.proxies s).acked

/-- `genStep`: the seeded coin, then a gc step or the churn model's next event. -/
def genStep (c : Lockstep γ n) : SeqEntry × Lockstep γ n :=
  let (s, u) := mulberry32 c.rnd
  let c := { c with rnd := s }
  if unitOf u < c.ratio then (.gc, c)
  else
    let (ev, g) := G.next c.churn
    let g := match ev.type with
      | .write | .delete => G.apply ev g
      | _ => g
    (.event ev, { c with churn := g })

/-- One turn of the loop of `ensure`. -/
def extend (c : Lockstep γ n) : Lockstep γ n :=
  { (c.genStep G).2 with sequence := c.sequence ++ [(c.genStep G).1] }

/-- `k` turns of the loop of `ensure`. -/
def generate (k : Nat) (c : Lockstep γ n) : Lockstep γ n := (extend G)^[k] c

/-- `ensure(n)` -/
def ensure (len : Nat) (c : Lockstep γ n) : Lockstep γ n := generate G (len - c.sequence.length) c

/-- `shipEntries`: everything past what a session already has. -/
def shipEntries (c : Lockstep γ n) : Lockstep γ n :=
  { c with
    proxies := fun s => (c.proxies s).entries ((wire c.sequence).drop (c.shipped s))
    shipped := fun s => max (c.shipped s) c.sequence.length }

/-- `chunkNs` -/
def chunkNs (c : Lockstep γ n) : ℚ := c.scale * MS_PER_FRAME

/-- The Pace join: every session has drained the shared index. -/
def joined (c : Lockstep γ n) : Bool :=
  decide (0 < n) && decide (∀ s, (c.sharedIndex : Int) ≤ (c.acked s).entriesDrained)

/-- The loop of `paceAdvance`. -/
def advanceLoop : Nat → Lockstep γ n → Lockstep γ n
  | 0, c => c
  | k + 1, c =>
    if c.joined then
      advanceLoop k { c with
        baseline := fun s => (c.acked s).playbackNs, sharedIndex := c.sharedIndex + 1 }
    else c

/-- Every turn of the loop passes an entry that session 0 has drained. -/
def advanceFuel (c : Lockstep γ n) : Nat :=
  if h : 0 < n then ((c.acked ⟨0, h⟩).entriesDrained + 1 - c.sharedIndex).toNat else 0

/-- `paceAdvance` -/
def paceAdvance (c : Lockstep γ n) : Lockstep γ n :=
  let c := advanceLoop c.advanceFuel c
  let c := if (c.running || c.forceProduce) && decide (c.sequence.length ≤ c.sharedIndex) then
    c.ensure G (c.sharedIndex + 1) else c
  { c with forceProduce := false }

/-- `Math.max(...cursors, 0)` -/
def maxCursor (c : Lockstep γ n) : Nat := ((List.finRange n).map fun s => (c.acked s).cursor).foldl max 0

/-- Race: the frontier is held one entry ahead of the furthest session while the generator runs. -/
def raceFrontier (c : Lockstep γ n) : Lockstep γ n :=
  let c := if c.running then c.ensure G (c.maxCursor + RACE_LOOKAHEAD) else c
  { c with frontier := c.sequence.length }

/-- `acked_s - baseline_s` of every session. -/
def rels (c : Lockstep γ n) : List ℚ :=
  (List.finRange n).map fun s => (c.acked s).playbackNs - c.baseline s

def relMax (c : Lockstep γ n) : ℚ := c.rels.max?.getD 0
def relMin (c : Lockstep γ n) : ℚ := c.rels.min?.getD 0

/-- `rel`: the leader's position plus one chunk, in Race at most two chunks past the slowest. -/
def rel (c : Lockstep γ n) : ℚ :=
  match c.mode with
  | .race => max (min (c.relMax + c.chunkNs) (c.relMin + RACE_LEAD_BOUND_FRAMES * c.chunkNs)) c.chunkNs
  | .pace => c.relMax + c.chunkNs

/-- The watermark of session `s`, never below its acked position. -/
def playLimit (c : Lockstep γ n) (s : Fin n) : ℚ :=
  if c.baseline s + c.rel < (c.acked s).playbackNs then (c.acked s).playbackNs
  else c.baseline s + c.rel

def entryLimit (c : Lockstep γ n) (s : Fin n) : Nat :=
  match c.mode with
  | .pace => max (c.sharedIndex + 1) (c.acked s).cursor
  | .race => c.frontier

/-- The grant of session `s`; the one-shot Race step is ungated. -/
def grantOf (r : Int) (c : Lockstep γ n) (s : Fin n) : Grant :=
  match c.raceStepLimit with
  | some k => { round := r, entryLimit := k, playLimitNs := ⊤, scale := c.scale }
  | none =>
    { round := r, entryLimit := c.entryLimit s, playLimitNs := (c.playLimit s : ℚ), scale := c.scale }

/-- What `computeGrants` does before it derives the grants. -/
def prepareGrants (c : Lockstep γ n) : Lockstep γ n :=
  match c.mode with
  | .pace => c.paceAdvance G
  | .race => c.raceFrontier G

/-- `computeGrants(r)` -/
def computeGrants (r : Int) (c : Lockstep γ n) : Lockstep γ n :=
  let c := c.prepareGrants G
  { c with cached := fun s => some (c.grantOf r s), raceStepLimit := none }

/-- The barrier: every session has acked the current round. -/
def roundAcked (c : Lockstep γ n) : Bool := decide (∀ s, c.round ≤ (c.acked s).round)

/-- The round step of `frame`. -/
def advanceRound (c : Lockstep γ n) : Lockstep γ n :=
  if c.lastComputedRound < c.round then
    { c.computeGrants G c.round with lastComputedRound := c.round }
  else if c.roundAcked then
    { { c with round := c.round + 1 }.computeGrants G (c.round + 1) with
      lastComputedRound := c.round + 1 }
  else c

/-- A grant to every session, every frame (I10). -/
def sendGrants (c : Lockstep γ n) : Lockstep γ n :=
  { c with proxies := fun s =>
      match c.cached s with
      | some g => (c.proxies s).grant g
      | none => c.proxies s }

/-- `frame` -/
def frame (c : Lockstep γ n) : Lockstep γ n :=
  if n = 0 then c else ((c.shipEntries.advanceRound G).shipEntries).sendGrants

/-- `broadcast(payload)` -/
def broadcast (payload : Payload) (c : Lockstep γ n) : Lockstep γ n :=
  let (s, u) := mulberry32 c.cmdRng
  { c with cmdRng := s, sequence := c.sequence ++ [SeqEntry.command payload u] }.shipEntries

/-- `setMode(m)` -/
def setMode (m : Mode) (c : Lockstep γ n) : Lockstep γ n :=
  if m = c.mode then c
  else
    match m with
    | .race =>
      let minPb := (((List.finRange n).map fun s => (c.acked s).playbackNs).min?).getD 0
      { c with
        baseline := fun _ => minPb, frontier := c.sequence.length, lastComputedRound := -1
        mode := .race }
    | .pace =>
      let minCursor := (((List.finRange n).map fun s => (c.acked s).cursor).min?).getD 0
      { c with
        sharedIndex := minCursor, baseline := fun s => (c.acked s).playbackNs
        lastComputedRound := -1, mode := .pace }

/-- `setSpeed(next)`: a negative speed throws, a large one is clamped. -/
def setSpeed (next : ℚ) (c : Lockstep γ n) : Lockstep γ n :=
  if next < 0 then c else { c with scale := min next MAX_SCALE, lastComputedRound := -1 }

/-- `step()` -/
def step (c : Lockstep γ n) : Lockstep γ n :=
  let c := match c.mode with
    | .pace => { c with forceProduce := true }
    | .race =>
      let base := c.maxCursor
      let c := c.ensure G (base + 1)
      { c with frontier := c.sequence.length, raceStepLimit := some (base + 1) }
  { c with lastComputedRound := -1 }.frame G

/-- `reset()` -/
def reset (c : Lockstep γ n) : Lockstep γ n :=
  { c with
    epoch := c.epoch + 1, round := 0, lastComputedRound := -1, sharedIndex := 0, frontier := 0
    forceProduce := false, raceStepLimit := none, sequence := [], rnd := GEN_SEED
    cmdRng := CMD_SEED, churn := G.reset c.churn, baseline := fun _ => 0, shipped := fun _ => 0
    cached := fun _ => none, proxies := fun s => (c.proxies s).reset (c.epoch + 1) }

/-- `setSessions(list)`: a kept session keeps what the coordinator has of it, any other starts at
baseline 0 and is sent an INIT. -/
def setSessions {m : Nat} (list : Fin m → Fin n ⊕ Proxy) (c : Lockstep γ n) : Lockstep γ m where
  proxies s := match list s with
    | .inl t => c.proxies t
    | .inr p => (p.setEpoch c.epoch).init
  churn := c.churn
  sequence := c.sequence
  rnd := c.rnd
  cmdRng := c.cmdRng
  ratio := c.ratio
  mode := c.mode
  running := c.running
  scale := c.scale
  epoch := c.epoch
  baseline s := match list s with
    | .inl t => c.baseline t
    | .inr _ => 0
  cached s := match list s with
    | .inl t => c.cached t
    | .inr _ => none
  shipped s := match list s with
    | .inl t => c.shipped t
    | .inr _ => 0
  round := c.round
  lastComputedRound := -1
  sharedIndex := c.sharedIndex
  frontier := c.frontier
  forceProduce := c.forceProduce
  raceStepLimit := c.raceStepLimit

/-- `setSessions` without and then with session `s` again: it starts over in the current epoch. -/
def rejoin (s : Fin n) (c : Lockstep γ n) : Lockstep γ n :=
  { c with
    baseline := Function.update c.baseline s 0, shipped := Function.update c.shipped s 0
    cached := Function.update c.cached s none, lastComputedRound := -1
    proxies := Function.update c.proxies s ((c.proxies s).setEpoch c.epoch).init }

/-- `createLockstep` and the first `setSessions` over sessions with these ids and geometries. -/
def create (churn : γ) (ratio : ℚ) (info : Fin n → String × Geometry) : Lockstep γ n where
  proxies := fun s =>
    (Proxy.setEpoch 0 { fsId := (info s).1, geometry := (info s).2 }).init
  churn := churn
  ratio := ratio

end Lockstep

end FlashVis

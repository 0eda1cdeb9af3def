import FlashVis.Player.History
import FlashVis.Player.Standing

/-!
# What was dispatched

The runner calls of event and gc entries, and the starts of commands, as the history of a life
records them: exactly those of the entries before the cursor, in order, with the command in flight
after them.

* `dispatched h`     the dispatches of a history;
* `Entry.dispatch`   the dispatch of an entry;
* `Dispatched p`     the invariant;
* `Authorized h`     every dispatch follows a grant that authorizes it;
* `Player.Licensed L p`   the invariant behind it, and every runner call is on a build in `L`.
-/

namespace FlashVis

/-- The dispatch that an action is: an entry's runner call, or the start of a command. -/
def Act.dispatch : Act → Option (Nat × Option RCall)
  | .ran _ index call => some (index, some call)
  | .started index => some (index, none)
  | _ => none

def dispatched (h : List Act) : List (Nat × Option RCall) := h.filterMap Act.dispatch

theorem dispatched_append (h h' : List Act) : dispatched (h ++ h') = dispatched h ++ dispatched h' :=
  List.filterMap_append

/-- How an entry is dispatched: a declared-cost entry never reaches the runner, and neither does an
event that is done or has no slot. -/
def Entry.dispatch (e : Entry) : Option (Nat × Option RCall) :=
  if e.synthetic then none
  else
    match e.kind with
    | .command => some (e.index, none)
    | .event | .gc => (entryCall e).map fun c => (e.index, some c.1)

namespace Player

/-- The start of the command in flight. -/
def inFlight (p : Player) : List (Nat × Option RCall) := (p.realCmd.map fun k => (k, none)).toList

/-- The history has dispatched the entries before the cursor and the command in flight. -/
structure Dispatched (p : Player) : Prop extends Standing p where
  hist : dispatched p.hist = (p.entries.take p.cursor).filterMap Entry.dispatch ++ p.inFlight

namespace Dispatched
variable {p : Player}

theorem fresh (p : Player) (e : Int) (keep : Bool) (ps : Option Nat) :
    (p.fresh e keep ps).Dispatched := ⟨.fresh p e keep ps, rfl⟩

theorem receive (h : p.Dispatched) (ps : Option Nat) (m : C2W) : (p.receive ps m).Dispatched := by
  refine ⟨h.toStanding.receive ps m, ?_⟩
  cases m with
  | init e f g => rfl
  | reset e => rfl
  | pull e sel => exact h.hist
  | entries e es =>
    unfold Player.receive
    dsimp only
    split
    · obtain ⟨l', hl⟩ := takeEntries_append p.entries es
      rw [show (p.feed es).entries = p.entries ++ l' from hl,
        show (p.feed es).cursor = p.cursor from rfl, List.take_append_of_le_length h.arrived]
      exact h.hist
    · exact h.hist
  | grant e g =>
    unfold Player.receive
    dsimp only
    split
    · show dispatched (p.hist ++ [.granted g]) = _
      rw [dispatched_append, h.hist]
      exact List.append_nil _
    · exact h.hist

theorem take_succ (h : p.Dispatched) {e : Entry} (he : p.entries[p.cursor]? = some e) :
    (p.entries.take (p.cursor + 1)).filterMap Entry.dispatch
        = (p.entries.take p.cursor).filterMap Entry.dispatch ++ e.dispatch.toList ∧
      e.index = p.cursor := by
  refine ⟨?_, h.indexed _ _ he⟩
  rw [List.take_add_one, he, List.filterMap_append]
  cases hd : e.dispatch <;> simp [hd]

/-- Every move but a failing call keeps the account. -/
theorem apply (h : p.Dispatched) {m : Move} (he : p.Enabled m) (hm : ∀ call, m ≠ .fail call) :
    (p.apply m).Dispatched := by
  refine ⟨h.toStanding.apply he, ?_⟩
  have hf := apply_frame p m
  -- a move that neither dispatches nor touches the cursor and the command
  have keep : m.cursor p = p.cursor → m.realCmd p = p.realCmd → dispatched (m.acts p) = [] →
      dispatched (p.apply m).hist = ((p.apply m).entries.take (p.apply m).cursor).filterMap
        Entry.dispatch ++ (p.apply m).inFlight := by
    intro h1 h2 h3
    unfold inFlight
    rw [hf.hist, hf.entries, hf.cursor, hf.realCmd, h1, h2, dispatched_append, h3, List.append_nil]
    exact h.hist
  -- a move that passes the entry at the cursor
  have pass : ∀ e, p.entries[p.cursor]? = some e → m.cursor p = p.cursor + 1 → m.realCmd p = none →
      p.inFlight ++ dispatched (m.acts p) = e.dispatch.toList →
      dispatched (p.apply m).hist = ((p.apply m).entries.take (p.apply m).cursor).filterMap
        Entry.dispatch ++ (p.apply m).inFlight := by
    intro e hent h1 h2 h3
    obtain ⟨htake, -⟩ := h.take_succ hent
    unfold inFlight
    rw [hf.hist, hf.entries, hf.cursor, hf.realCmd, h1, h2, dispatched_append, h.hist, htake,
      List.append_assoc, h3]
    simp
  -- no command is in flight beside the entry at the cursor
  have idle : ∀ e, p.due e → (e.kind ≠ .command ∨ e.synthetic = true ∨ p.realCmd ≠ some p.cursor) →
      p.realCmd = none ∧ p.inFlight = [] := by
    intro e hdue hne
    have hnone := h.toStanding.idle hdue hne
    exact ⟨hnone, by simp [inFlight, hnone]⟩
  cases m with
  | exec call batch steps ops =>
    obtain ⟨e, hdue, hreal, -, -, hcall, -⟩ := he
    obtain ⟨hnone, hfl⟩ := idle e hdue (.inl hreal.1)
    refine pass e hdue.2 rfl hnone ?_
    have hd : e.dispatch = call.map fun c => (p.cursor, some c) := by
      unfold Entry.dispatch
      rw [hreal.synthetic, if_neg (by simp), ← (h.take_succ hdue.2).2, ← hcall]
      cases hk : e.kind with
      | command => exact absurd hk hreal.1
      | event | gc => cases entryCall e <;> rfl
    rw [hfl, hd]
    cases call <;> rfl
  | fail call => exact absurd rfl (hm call)
  | start =>
    obtain ⟨e, hdue, hkind, hs, hne, -⟩ := he
    obtain ⟨hnone, hfl⟩ := idle e hdue (.inr (.inr hne))
    show dispatched (p.hist ++ [.started p.cursor]) = _
    rw [dispatched_append, h.hist, hfl, List.append_nil]
    rfl
  | syntaxError =>
    obtain ⟨e, hdue, hkind, hs, hne, -⟩ := he
    obtain ⟨hnone, hfl⟩ := idle e hdue (.inr (.inr hne))
    refine pass e hdue.2 rfl rfl ?_
    have hsyn : e.synthetic = false := by simp [Entry.synthetic, hkind, hs]
    rw [hfl, Entry.dispatch, hsyn, if_neg (by simp), hkind]
    dsimp only
    rw [(h.take_succ hdue.2).2]
    rfl
  | close idx ops =>
    obtain ⟨rfl, e, hent, hkind, hsyn⟩ := h.cmd idx he
    refine pass e hent rfl rfl ?_
    have hr : p.realCmd = some p.cursor := he
    rw [Entry.dispatch, hsyn, if_neg (by simp), hkind, (h.take_succ hent).2, inFlight, hr]
    rfl
  | openPrep | closePrep _ | commit _ _ =>
    obtain ⟨e, hdue, hsyn⟩ := synthetic_due rfl he
    obtain ⟨hnone, hfl⟩ := idle e hdue (.inr (.inl hsyn))
    refine pass e hdue.2 rfl hnone ?_
    rw [hfl, Entry.dispatch, hsyn]
    rfl
  | op idx w batch steps => cases w <;> exact keep rfl rfl rfl
  | wipe | prep _ | meter | ack | post _ | land _ | drop _ => exact keep rfl rfl rfl

theorem dispatch_index {e : Entry} {d : Nat × Option RCall} (h : e.dispatch = some d) :
    d.1 = e.index := by
  unfold Entry.dispatch at h
  split at h
  · exact absurd h (by simp)
  · split at h
    · exact (Option.some.inj h) ▸ rfl
    all_goals
      obtain ⟨c, -, hc⟩ := Option.map_eq_some_iff.mp h
      exact hc ▸ rfl

/-- Every entry is dispatched at most once, in index order. -/
theorem increasing (h : p.Dispatched) : ((dispatched p.hist).map Prod.fst).Pairwise (· < ·) := by
  have hindex : ∀ i (hi : i < (p.entries.take p.cursor).length),
      (p.entries.take p.cursor)[i].index = i ∧ i < p.cursor := by
    intro i hi
    have hlt : i < p.cursor := lt_of_lt_of_le hi (by simp)
    have he := List.getElem?_eq_getElem hi
    rw [List.getElem?_take_of_lt hlt] at he
    exact ⟨h.indexed i _ he, hlt⟩
  rw [h.hist, List.map_append, List.pairwise_append]
  refine ⟨?_, ?_, ?_⟩
  · rw [List.pairwise_map, List.pairwise_filterMap, List.pairwise_iff_getElem]
    intro i j hi hj hij d hd d' hd'
    rw [dispatch_index hd, dispatch_index hd', (hindex i hi).1, (hindex j hj).1]
    exact hij
  · unfold inFlight
    cases p.realCmd <;> simp
  · intro x hx y hy
    obtain ⟨d, hd, rfl⟩ := List.mem_map.mp hx
    obtain ⟨e, he, hde⟩ := List.mem_filterMap.mp hd
    obtain ⟨i, hi, rfl⟩ := List.getElem_of_mem he
    rw [dispatch_index hde, (hindex i hi).1]
    unfold inFlight at hy
    cases hr : p.realCmd with
    | none => simp [hr] at hy
    | some k =>
      have hyk : y = k := by simpa [hr] using hy
      rw [hyk, (h.cmd k hr).1]
      exact (hindex i hi).2

end Dispatched
end Player

/-! ## on whose authority, and on which runner -/

/-- Every dispatch follows a grant that authorizes its index. -/
def Authorized (h : List Act) : Prop :=
  ∀ h₁ a h₂ d, h = h₁ ++ a :: h₂ → a.dispatch = some d →
    ∃ g, Act.granted g ∈ h₁ ∧ d.1 < g.entryLimit

theorem Authorized.append {h h' : List Act} (hh : Authorized h)
    (hnew : ∀ a ∈ h', ∀ d, a.dispatch = some d → ∃ g, Act.granted g ∈ h ∧ d.1 < g.entryLimit) :
    Authorized (h ++ h') := by
  intro h₁ a h₂ d heq hd
  rcases List.append_eq_append_iff.mp heq with ⟨t, ht, ht'⟩ | ⟨t, ht, ht'⟩
  · obtain ⟨g, hg, hlt⟩ := hnew a (ht' ▸ by simp) d hd
    exact ⟨g, ht ▸ List.mem_append_left t hg, hlt⟩
  · cases t with
    | nil =>
      rw [List.nil_append] at ht'
      rw [List.append_nil] at ht
      exact ht ▸ hnew a (ht' ▸ List.mem_cons_self) d hd
    | cons x t =>
      rw [List.cons_append, List.cons.injEq] at ht'
      exact hh h₁ a t d (by rw [ht, ht'.1]) hd

namespace Player

/-- What a move dispatches stands at the cursor, below the granted limit. -/
theorem acts_dispatch {p : Player} {m : Move} (he : p.Enabled m) {a : Act} (ha : a ∈ m.acts p)
    {d : Nat × Option RCall} (hd : a.dispatch = some d) : d.1 = p.cursor ∧ p.cursor < p.entryLimit := by
  cases m with
  | exec call batch steps ops =>
    obtain ⟨e, hdue, -⟩ := he
    rcases List.mem_append.mp ha with ha | ha
    · obtain ⟨c, -, rfl⟩ := Option.map_eq_some_iff.mp (Option.mem_toList.mp ha)
      exact ⟨(Option.some.inj hd) ▸ rfl, hdue.1⟩
    · rw [List.mem_singleton.mp ha] at hd
      exact absurd hd (by simp [Act.dispatch])
  | fail call =>
    obtain ⟨e, hdue, -⟩ := he
    rw [List.mem_singleton.mp ha] at hd
    exact ⟨(Option.some.inj hd) ▸ rfl, hdue.1⟩
  | start =>
    obtain ⟨e, hdue, -⟩ := he
    rw [List.mem_singleton.mp ha] at hd
    exact ⟨(Option.some.inj hd) ▸ rfl, hdue.1⟩
  | syntaxError =>
    obtain ⟨e, hdue, -⟩ := he
    rcases List.mem_cons.mp ha with rfl | ha
    · exact ⟨(Option.some.inj hd) ▸ rfl, hdue.1⟩
    · rw [List.mem_singleton.mp ha] at hd
      exact absurd hd (by simp [Act.dispatch])
  | op idx w batch steps =>
    rcases List.mem_append.mp ha with ha | ha
    · cases w
      · exact absurd ha (by simp)
      · rw [List.mem_singleton.mp ha] at hd
        exact absurd hd (by simp [Act.dispatch])
    · rw [List.mem_singleton.mp ha] at hd
      exact absurd hd (by simp [Act.dispatch])
  | wipe | close _ _ | ack | post _ =>
    rw [List.mem_singleton.mp ha] at hd
    exact absurd hd (by simp [Act.dispatch])
  | _ => exact absurd ha (by simp [Move.acts])

theorem acts_ran {p : Player} {m : Move} (he : p.Enabled m) {b k : Nat} {c : RCall}
    (ha : .ran b k c ∈ m.acts p) : p.runner = some b := by
  have hget : p.runner.isSome → b = p.runner.getD 0 → p.runner = some b := by
    rintro hsome rfl
    obtain ⟨r, hr⟩ := Option.isSome_iff_exists.mp hsome
    simp [hr]
  cases m with
  | exec call batch steps ops =>
    obtain ⟨e, -, -, hrun, -⟩ := he
    cases call with
    | none => exact absurd ha (by simp [Move.acts])
    | some c' =>
      rcases List.mem_append.mp ha with ha | ha
      · exact hget hrun (Act.ran.inj (List.mem_singleton.mp ha)).1
      · exact absurd ha (by simp)
  | fail call =>
    obtain ⟨e, -, -, hrun, -⟩ := he
    exact hget hrun (Act.ran.inj (List.mem_singleton.mp ha)).1
  | op idx w batch steps => cases w <;> exact absurd ha (by simp [Move.acts])
  | _ => exact absurd ha (by simp [Move.acts])

/-- The granted limit has been granted, dispatches are authorized, and runner calls are on builds
in `L`. -/
structure Licensed (L : Nat → Prop) (p : Player) : Prop where
  limit : p.entryLimit = 0 ∨ ∃ g, .granted g ∈ p.hist ∧ g.entryLimit = p.entryLimit
  authorized : Authorized p.hist
  runner : ∀ b, p.runner = some b → L b
  ran : ∀ b k c, .ran b k c ∈ p.hist → L b

namespace Licensed
variable {L L' : Nat → Prop} {p : Player}

theorem mono (h : Licensed L p) (hL : ∀ b, L b → L' b) : Licensed L' p :=
  ⟨h.limit, h.authorized, fun b hb => hL b (h.runner b hb), fun b k c hb => hL b (h.ran b k c hb)⟩

theorem fresh (h : Licensed L p) (e : Int) (keep : Bool) (ps : Option Nat) :
    Licensed L (p.fresh e keep ps) where
  limit := .inl rfl
  authorized := by
    intro h₁ a h₂ d heq
    exact absurd heq (by simp [Player.fresh])
  runner := by
    intro b hb
    cases keep with
    | true => exact h.runner b hb
    | false => exact absurd hb (by simp [Player.fresh])
  ran := fun _ _ _ hb => absurd hb (by simp [Player.fresh])

theorem receive (h : Licensed L p) (ps : Option Nat) (m : C2W) : Licensed L (p.receive ps m) := by
  cases m with
  | init e f g => exact h.fresh e false ps
  | reset e => exact h.fresh e true ps
  | pull e sel => exact h
  | entries e es =>
    unfold Player.receive
    dsimp only
    split
    · exact ⟨h.limit, h.authorized, h.runner, h.ran⟩
    · exact h
  | grant e g =>
    unfold Player.receive
    dsimp only
    split
    · refine ⟨.inr ⟨g, List.mem_append_right _ List.mem_cons_self, rfl⟩, ?_, h.runner, ?_⟩
      · refine h.authorized.append fun a ha d hd => ?_
        rw [List.mem_singleton.mp ha] at hd
        exact absurd hd (by simp [Act.dispatch])
      · intro b k c hb
        rcases List.mem_append.mp hb with hb | hb
        · exact h.ran b k c hb
        · exact absurd hb (by simp)
    · exact h

theorem apply (h : Licensed L p) {m : Move} (he : p.Enabled m) (hland : ∀ b, m = .land b → L b) :
    Licensed L (p.apply m) := by
  have hf := apply_frame p m
  refine ⟨?_, ?_, ?_, ?_⟩
  · rw [hf.entryLimit, hf.hist]
    rcases h.limit with h0 | ⟨g, hg, hl⟩
    · exact .inl h0
    · exact .inr ⟨g, List.mem_append_left _ hg, hl⟩
  · rw [hf.hist]
    refine h.authorized.append fun a ha d hd => ?_
    obtain ⟨hk, hlt⟩ := acts_dispatch he ha hd
    obtain ⟨g, hg, hl⟩ := h.limit.resolve_left (by omega)
    exact ⟨g, hg, by omega⟩
  · rw [hf.runner]
    cases m with
    | land b => exact fun b' hb => Option.some.inj hb ▸ hland b rfl
    | _ => exact h.runner
  · rw [hf.hist]
    intro b k c hb
    rcases List.mem_append.mp hb with hb | hb
    · exact h.ran b k c hb
    · exact h.runner b (acts_ran he hb)

end Licensed
end Player
end FlashVis

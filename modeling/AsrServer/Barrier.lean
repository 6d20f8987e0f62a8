import AsrServer.Transition

/-!
A barrier for as many parties as there are. A party that comes to it waits until all of
them have come, and then each may go on whenever it gets to run, while others come to it
again. Rounds do not mix: no party has gone through more often than any other has come.
-/

namespace AsrServer.Barrier

open Transition

variable {Party : Type*}

/-- `inside` is the round in which a party waits, `rounds` how often it has gone through. -/
structure State (Party : Type*) where
  arrived : Nat
  round : Nat
  inside : Party → Option Nat
  rounds : Party → Nat

def State.initial : State Party := ⟨0, 0, fun _ => none, fun _ => 0⟩

/-- How often a party has come. -/
def State.begun (state : State Party) (party : Party) : Nat :=
  state.rounds party + if (state.inside party).isSome then 1 else 0

section Step
variable [DecidableEq Party]

/-- The last of the parties ends the round. -/
def enter (count : Nat) (state : State Party) (party : Party) : Option (State Party) :=
  match state.inside party with
  | some _ => none
  | none =>
      let inside := Function.update state.inside party (some state.round)
      if state.arrived + 1 = count then
        some { state with arrived := 0, round := state.round + 1, inside := inside }
      else some { state with arrived := state.arrived + 1, inside := inside }

def leave (state : State Party) (party : Party) : Option (State Party) :=
  match state.inside party with
  | none => none
  | some round =>
      if round < state.round then
        some { state with
          inside := Function.update state.inside party none
          rounds := Function.update state.rounds party (state.rounds party + 1) }
      else none

variable {state : State Party} {party : Party}

theorem enter_spec {count : Nat} {after : State Party}
    (entered : enter count state party = some after) :
    state.inside party = none ∧
      after.inside = Function.update state.inside party (some state.round) ∧
      after.rounds = state.rounds := by
  unfold enter at entered
  split at entered
  · cases entered
  · rename_i outside
    dsimp only at entered
    split at entered <;> cases entered <;> exact ⟨outside, rfl, rfl⟩

theorem enter_enabled (count : Nat) (outside : state.inside party = none) :
    (enter count state party).isSome := by
  rw [enter, outside]
  dsimp only
  split <;> rfl

theorem leave_spec {after : State Party} (left : leave state party = some after) :
    state.inside party ≠ none ∧
      after.inside = Function.update state.inside party none ∧
      after.rounds = Function.update state.rounds party (state.rounds party + 1) := by
  unfold leave at left
  split at left
  · cases left
  · rename_i inside
    split at left <;> cases left
    exact ⟨by simp [inside], rfl, rfl⟩

end Step

section Sound
variable [Fintype Party]

def waits (round : Nat) (place : Option Nat) : Nat := if place = some round then 1 else 0

structure Sound (state : State Party) : Prop where
  room : state.arrived < Fintype.card Party
  arrived : ∑ party, waits state.round (state.inside party) = state.arrived
  inside : ∀ party round, state.inside party = some round →
    state.rounds party = round ∧ (round = state.round ∨ round + 1 = state.round)
  outside : ∀ party, state.inside party = none → state.rounds party = state.round

theorem initial_sound [Nonempty Party] : Sound (State.initial : State Party) where
  room := Fintype.card_pos
  arrived := by simp [State.initial, waits]
  inside := by simp [State.initial]
  outside := by simp [State.initial]

variable [DecidableEq Party] {state : State Party}

omit [DecidableEq Party] in
theorem full_sum {round : Nat} {inside : Party → Option Nat}
    (full : ∑ party, waits round (inside party) = Fintype.card Party) (party : Party) :
    inside party = some round := by
  have most : ∀ other ∈ Finset.univ, waits round (inside other) ≤ 1 := by
    intro other _
    unfold waits
    split <;> omega
  have each := (Finset.sum_eq_sum_iff_of_le most).mp (by simpa using full) party
    (Finset.mem_univ party)
  by_contra elsewhere
  simp [waits, elsewhere] at each

theorem enter_sound (sound : Sound state) (party : Party) (after : State Party)
    (entered : enter (Fintype.card Party) state party = some after) : Sound after := by
  unfold enter at entered
  cases place : state.inside party with
  | some round =>
      rw [place] at entered
      cases entered
  | none =>
      rw [place] at entered
      have moved := sum_update (waits state.round) state.inside party (some state.round)
      rw [sound.arrived, place] at moved
      have weighed : ∑ other, waits state.round
          (Function.update state.inside party (some state.round) other) = state.arrived + 1 := by
        simpa [waits] using moved
      have within : ∀ other round,
          Function.update state.inside party (some state.round) other = some round →
          state.rounds other = round ∧ (round = state.round ∨ round + 1 = state.round) := by
        intro other round there
        rcases update_cases id there with ⟨rfl, same⟩ | ⟨_, held⟩
        · cases same
          exact ⟨sound.outside other place, Or.inl rfl⟩
        · exact sound.inside other round held
      have without : ∀ other,
          Function.update state.inside party (some state.round) other = none →
          state.rounds other = state.round := by
        intro other there
        rcases update_cases id there with ⟨_, same⟩ | ⟨_, held⟩
        · cases same
        · exact sound.outside other held
      dsimp only at entered
      -- The last party to come opens the next round; the others wait in this one.
      split at entered
      · rename_i last
        cases entered
        have all := full_sum (weighed.trans last)
        refine ⟨Fintype.card_pos_iff.mpr ⟨party⟩, ?_, ?_, ?_⟩
        · apply Finset.sum_eq_zero
          intro other _
          simp [waits, all other]
        · intro other round there
          obtain ⟨same, _⟩ := within other round there
          cases (all other).symm.trans there
          exact ⟨same, Or.inr rfl⟩
        · intro other there
          cases (all other).symm.trans there
      · rename_i more
        cases entered
        have room := sound.room
        exact ⟨by dsimp only; omega, weighed, within, without⟩

theorem leave_sound (sound : Sound state) (party : Party) (after : State Party)
    (left : leave state party = some after) : Sound after := by
  unfold leave at left
  cases place : state.inside party with
  | none =>
      rw [place] at left
      cases left
  | some round =>
      rw [place] at left
      dsimp only at left
      split at left
      · rename_i past
        cases left
        -- Who may go is in a round that is over, so it has no weight in the present one.
        obtain ⟨same, now | before⟩ := sound.inside party round place
        · omega
        · have moved := sum_update (waits state.round) state.inside party none
          rw [sound.arrived, place] at moved
          have elsewhere : waits state.round (some round) = 0 := by
            simp [waits]
            omega
          refine ⟨sound.room, ?_, ?_, ?_⟩
          · rw [elsewhere] at moved
            exact moved
          · intro other later there
            rcases update_cases id there with ⟨_, same⟩ | ⟨differs, held⟩
            · cases same
            · dsimp only
              rw [Function.update_of_ne differs]
              exact sound.inside other later held
          · intro other there
            dsimp only
            rcases update_cases id there with ⟨rfl, _⟩ | ⟨differs, held⟩
            · rw [Function.update_self]
              omega
            · rw [Function.update_of_ne differs]
              exact sound.outside other held
      · cases left

omit [DecidableEq Party] in
theorem Sound.most (sound : Sound state) (party : Party) : state.rounds party ≤ state.round := by
  cases place : state.inside party with
  | none => exact (sound.outside party place).le
  | some round =>
      obtain ⟨same, now | before⟩ := sound.inside party round place <;> omega

omit [DecidableEq Party] in
theorem Sound.together (sound : Sound state) (party other : Party) :
    state.rounds party ≤ state.begun other := by
  have least : state.round ≤ state.begun other := by
    unfold State.begun
    cases place : state.inside other with
    | none => simp [sound.outside other place]
    | some round =>
        obtain ⟨same, now | before⟩ := sound.inside other round place <;> simp <;> omega
  exact (sound.most party).trans least

theorem Sound.opens (sound : Sound state) {party : Party} (other : Party)
    (inside : state.inside party ≠ none) (ahead : state.rounds party < state.rounds other) :
    (leave state party).isSome := by
  obtain ⟨round, place⟩ := Option.ne_none_iff_exists'.mp inside
  obtain ⟨same, _⟩ := sound.inside party round place
  have past : round < state.round :=
    (same ▸ ahead).trans_le (sound.most other)
  rw [leave, place]
  simp [past]

/-- If all wait, one can go: not all can be in the round that is still open. -/
theorem Sound.goes (sound : Sound state) (all : ∀ party, state.inside party ≠ none) :
    ∃ party, (leave state party).isSome := by
  by_contra stuck
  push Not at stuck
  have here : ∀ party, waits state.round (state.inside party) = 1 := by
    intro party
    obtain ⟨round, place⟩ := Option.ne_none_iff_exists'.mp (all party)
    obtain ⟨_, now | before⟩ := sound.inside party round place
    · simp [waits, place, now]
    · have blocked := stuck party
      rw [leave, place] at blocked
      simp at blocked
      omega
  have total := sound.arrived
  rw [Finset.sum_congr rfl fun party _ => here party, ← Finset.card_eq_sum_ones,
    Finset.card_univ] at total
  have := sound.room
  omega

end Sound

end AsrServer.Barrier

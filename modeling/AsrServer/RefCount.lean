import Mathlib.Data.BitVec

/-!
Reference counts of a fixed width. An account sets what memory holds of a counted
object, its count and the mark that lets the last release delete it, against the
references that are really held and those that were lost: taken and never given
back. The count is exact up to its width, so the object outlives its users as
long as no release finds the count at one with users besides its own.
-/

namespace AsrServer.RefCount

variable {width : Nat}

structure Account (width : Nat) where
  object : Option (BitVec width × Bool)
  users : Nat
  lost : Nat

inductive Step : Account width → Account width → Prop where
  | same (account) : Step account account
  | create : Step ⟨none, 0, 0⟩ ⟨some (0, false), 0, 0⟩
  | acquire (count users lost) :
      Step ⟨some (count, false), users, lost⟩ ⟨some (count + 1, false), users + 1, lost⟩
  | lose (count users lost) :
      Step ⟨some (count, false), users + 1, lost⟩ ⟨some (count, false), users, lost + 1⟩
  | mark (count users lost) :
      Step ⟨some (count, false), users + 1, lost⟩ ⟨some (count, true), users + 1, lost⟩
  | release (count marked users lost) (still : ¬ (count - 1 = 0 ∧ marked = true)) :
      Step ⟨some (count, marked), users + 1, lost⟩ ⟨some (count - 1, marked), users, lost⟩
  | delete (count users lost) (last : count - 1 = 0) :
      Step ⟨some (count, true), users + 1, lost⟩ ⟨none, users, lost⟩

/-- The stored count is the references held and lost, and an object that is marked
and unused would have been deleted if it were at zero. -/
structure Exact (account : Account width) : Prop where
  counted : ∀ count marked, account.object = some (count, marked) →
    count = BitVec.ofNat width (account.users + account.lost)
  kept : ∀ count, account.object = some (count, true) → account.users = 0 → count ≠ 0

theorem Exact.absent (account : Account width) (absent : account.object = none) :
    Exact account := by
  constructor
  · intro count marked found
    rw [absent] at found
    cases found
  · intro count found
    rw [absent] at found
    cases found

/-- A marked object whose count reads one has no user but the one that reads it. -/
def Covered (account : Account width) : Prop :=
  ∀ count, account.object = some (count, true) →
    (account.users + account.lost) % 2 ^ width = 1 % 2 ^ width → account.users ≤ 1

def Alive (account : Account width) : Prop := 0 < account.users → account.object ≠ none

theorem ofNat_pred (total : Nat) :
    BitVec.ofNat width (total + 1) - 1 = BitVec.ofNat width total := by
  rw [BitVec.ofNat_add]
  exact BitVec.add_sub_cancel _ _

theorem Step.exact {before after : Account width} (step : Step before after)
    (exact : Exact before) : Exact after := by
  -- The count goes with the users and the lost references; only a release can bring it to zero.
  cases step with
  | same => assumption
  | create => exact ⟨by rintro count marked ⟨⟩; rfl, by rintro count ⟨⟩⟩
  | acquire count users lost =>
      refine ⟨?_, by rintro count ⟨⟩⟩
      rintro _ _ ⟨⟩
      rw [exact.counted count false rfl]
      dsimp only
      rw [Nat.add_right_comm, BitVec.ofNat_add (users + lost) 1]
      rfl
  | lose count users lost =>
      refine ⟨?_, by rintro count ⟨⟩⟩
      rintro _ _ ⟨⟩
      rw [exact.counted count false rfl]
      dsimp only
      rw [Nat.add_right_comm, Nat.add_assoc]
  | mark count users lost =>
      refine ⟨?_, nofun⟩
      rintro _ _ ⟨⟩
      exact exact.counted count false rfl
  | release count marked users lost still =>
      have counted := exact.counted count marked rfl
      dsimp only at counted
      rw [Nat.add_right_comm] at counted
      constructor
      · rintro _ _ ⟨⟩
        rw [counted, ofNat_pred]
      · rintro _ ⟨⟩ _ zero
        exact still ⟨zero, rfl⟩
  | delete count users lost last => exact Exact.absent _ rfl

theorem Step.alive {before after : Account width} (step : Step before after)
    (exact : Exact before) (covered : Covered before) (alive : Alive before) : Alive after := by
  cases step with
  | same => assumption
  | create => exact fun used => (by cases used)
  | acquire | lose | mark | release => exact fun _ => by simp
  | delete count users lost last =>
      intro used
      have one : count = 1 := by
        have sum := congrArg (· + 1) last
        simpa using sum
      have reads := exact.counted count true rfl
      rw [one] at reads
      have total := congrArg BitVec.toNat reads
      rw [BitVec.toNat_ofNat] at total
      have few := covered count rfl (by rw [← total]; simp)
      dsimp only at few used
      omega

/-- Read as a signed number, the count is the number of users when no more
references are lost than a multiple of its range. -/
theorem Exact.signed {account : Account width} (exact : Exact account) (count : BitVec width)
    (marked : Bool) (object : account.object = some (count, marked)) :
    count.toInt = account.users ↔
      account.lost % 2 ^ width = 0 ∧ 2 * account.users < 2 ^ width := by
  have total : count.toNat = (account.users + account.lost) % 2 ^ width := by
    rw [exact.counted count marked object, BitVec.toNat_ofNat]
  have bound := count.isLt
  rw [BitVec.toInt_eq_toNat_cond]
  constructor
  · intro same
    split at same
    · have users : account.users = count.toNat := by omega
      refine ⟨?_, by omega⟩
      have shifted : account.users + account.lost ≡ account.users + 0 [MOD 2 ^ width] := by
        rw [Nat.ModEq, ← total, Nat.add_zero, users, Nat.mod_eq_of_lt bound]
      have lost := Nat.ModEq.add_left_cancel' _ shifted
      simpa [Nat.ModEq] using lost
    · omega
  · rintro ⟨lost, fits⟩
    have users : count.toNat = account.users := by
      rw [total, Nat.add_mod, lost, Nat.add_zero, Nat.mod_mod, Nat.mod_eq_of_lt (by omega)]
    rw [users, if_pos fits]

/-- An unused marked object is gone unless references to it are lost. -/
theorem Exact.reclaimed {account : Account width} (exact : Exact account)
    (lost : account.lost % 2 ^ width = 0) (count : BitVec width)
    (object : account.object = some (count, true)) : 0 < account.users := by
  by_contra unused
  have zero : account.users = 0 := by omega
  apply exact.kept count object zero
  rw [exact.counted count true object, zero, Nat.zero_add]
  apply BitVec.eq_of_toNat_eq
  simpa using lost

end AsrServer.RefCount

import Mathlib.Data.Set.Insert
import Mathlib.Data.List.Nodup

/-!
A first-in first-out queue with any number of servers. Jobs are taken in the order
they arrived in; how long a server has one is open. Two jobs that are never in
the hands of two servers at once are finished in the order they arrived in.
-/

namespace AsrServer.ServicePool

variable {Job : Type*}

/-- What has arrived, what of it waits, what the servers have and what they have
finished, in this order. -/
structure Pool (Job : Type*) where
  arrived : List Job
  waiting : List Job
  active : Set Job
  finished : List Job

inductive Step : Pool Job → Pool Job → Prop where
  | arrive {pool : Pool Job} (job : Job) (fresh : job ∉ pool.arrived) :
      Step pool { pool with
        arrived := pool.arrived ++ [job]
        waiting := pool.waiting ++ [job] }
  | take {pool : Pool Job} {job : Job} {rest : List Job} (queue : pool.waiting = job :: rest) :
      Step pool { pool with waiting := rest, active := insert job pool.active }
  | finish {pool : Pool Job} {job : Job} (left : Set Job) (working : job ∈ pool.active)
      (fewer : left ⊆ pool.active) (others : pool.active ⊆ insert job left) :
      Step pool { pool with active := left, finished := pool.finished ++ [job] }

structure Fifo (pool : Pool Job) : Prop where
  once : pool.arrived.Nodup
  line : ∃ taken, pool.arrived = taken ++ pool.waiting ∧
    ∀ job, job ∈ taken ↔ job ∈ pool.finished ∨ job ∈ pool.active

def Ordered (first second : Job) (pool : Pool Job) : Prop :=
  [first, second].Sublist pool.arrived → second ∈ pool.finished →
    [first, second].Sublist pool.finished

theorem Step.fifo {pool next : Pool Job} (step : Step pool next) (fifo : Fifo pool) :
    Fifo next := by
  obtain ⟨taken, line, started⟩ := fifo.line
  cases step with
  | arrive job fresh =>
      refine ⟨?_, taken, by simp [line], started⟩
      exact fifo.once.append (List.nodup_singleton job)
        (fun other here new => fresh (List.mem_singleton.mp new ▸ here))
  | @take job rest queue =>
      refine ⟨fifo.once, taken ++ [job], by simp [line, queue], ?_⟩
      intro other
      simp only [List.mem_append, List.mem_singleton, Set.mem_insert_iff, started]
      tauto
  | @finish job left working fewer others =>
      refine ⟨fifo.once, taken, line, ?_⟩
      intro other
      simp only [List.mem_append, List.mem_singleton, started]
      constructor
      · rintro (finished | active)
        · exact Or.inl (Or.inl finished)
        · rcases others active with same | active
          · exact Or.inl (Or.inr same)
          · exact Or.inr active
      · rintro ((finished | same) | active)
        · exact Or.inl finished
        · exact Or.inr (same ▸ working)
        · exact Or.inr (fewer active)

theorem Fifo.earlier {pool : Pool Job} (fifo : Fifo pool) (first second : Job)
    (arrived : [first, second].Sublist pool.arrived)
    (started : second ∈ pool.finished ∨ second ∈ pool.active) :
    first ∈ pool.finished ∨ first ∈ pool.active := by
  obtain ⟨taken, line, exact'⟩ := fifo.line
  have behind : second ∉ pool.waiting := by
    have once := fifo.once
    rw [line] at once
    exact fun waits => List.disjoint_of_nodup_append once ((exact' second).mpr started) waits
  rw [line] at arrived
  obtain ⟨front, back, parts, early, late⟩ := List.sublist_append_iff.mp arrived
  cases front with
  | nil =>
      rw [List.nil_append] at parts
      exact absurd (late.subset (by simp [← parts])) behind
  | cons job rest =>
      obtain ⟨same, _⟩ := List.cons.inj parts
      exact (exact' first).mp (early.subset (by simp [same]))

theorem Step.ordered {pool next : Pool Job} (step : Step pool next) (fifo : Fifo pool)
    (first second : Job) (apart : ¬ (first ∈ pool.active ∧ second ∈ pool.active))
    (ordered : Ordered first second pool) : Ordered first second next := by
  intro arrived finished
  cases step with
  | arrive job fresh =>
      refine ordered ?_ finished
      -- The second has been finished, so it is not the job that has just arrived.
      obtain ⟨taken, line, started⟩ := fifo.line
      have known : second ∈ pool.arrived := by
        rw [line]
        exact List.mem_append_left _ ((started second).mpr (Or.inl finished))
      obtain ⟨front, back, parts, early, late⟩ := List.sublist_append_iff.mp arrived
      cases back with
      | nil => rwa [parts, List.append_nil]
      | cons other rest =>
          have last : second ∈ other :: rest := by
            have shape := congrArg List.getLast? parts
            rw [List.getLast?_append_of_ne_nil _ (List.cons_ne_nil other rest)] at shape
            exact List.mem_of_getLast? shape.symm
          have new := List.mem_singleton.mp (late.subset last)
          exact absurd (new ▸ known) fresh
  | take queue => exact ordered arrived finished
  | @finish job left working fewer others =>
      rcases List.mem_append.mp finished with earlier | now
      · exact (ordered arrived earlier).trans (List.sublist_append_left _ _)
      · cases List.mem_singleton.mp now
        rcases fifo.earlier first second arrived (Or.inr working) with done | active
        · exact List.Sublist.append (List.singleton_sublist.mpr done)
            (List.Sublist.refl [second])
        · exact absurd ⟨active, working⟩ apart

end AsrServer.ServicePool

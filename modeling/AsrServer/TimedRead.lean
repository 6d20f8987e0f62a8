import AsrServer.HttpResponse

/-!
`read_nReal_timeout` with the clock. Each coming `recv` has a bound on the bytes it
returns, or fails, and the two readings of the clock around it, in microseconds; the
clock may go back. A `recv` beyond the end of the plan returns 0. The buffer is an object,
so a count of its bytes is the same in a `size_t` and in a `ssize_t`.
-/

namespace AsrServer.TimedRead

open Bytes RequestHeader HttpResponse

structure Recv where
  size : Option Nat
  t1 : Int
  t2 : Int
  deriving DecidableEq, Repr

/-- What one `recv` for `asked` bytes stores and returns. -/
def Recv.bytes (recv : Recv) (asked : Nat) (unread : List Byte) : List Byte :=
  received (recv.size.getD 0) asked unread

def Recv.n (recv : Recv) (asked : Nat) (unread : List Byte) : Int :=
  if recv.size = none then -1 else (recv.bytes asked unread).length

def Recv.later (recv : Recv) (asked : Nat) (unread : List Byte) : List Byte :=
  remaining (recv.size.getD 0) asked unread

/-- The variables of the loop: the count, the bytes that `recv` has put into `buf`,
`*timeout` and the result of the last `recv`, if there was one. -/
structure Read where
  bytes_transferred : Nat
  buf : List Byte
  timeout : Int
  n : Option Int
  deriving DecidableEq, Repr

/-- One pass of the loop: the value returned, or none where the loop goes on. -/
def read_round (len : Nat) (read : Read) (unread : List Byte) (recv : Recv) :
    Option Int × Read :=
  let asked := len - read.bytes_transferred
  let n := recv.n asked unread
  if n ≤ 0 then (some n, { read with n := some n })
  else
    let read : Read :=
      { read with
        buf := read.buf.take read.bytes_transferred ++ recv.bytes asked unread
        n := some n }
    -- Both breaks leave before the increment of the loop.
    if recv.t2 < recv.t1 then (some read.bytes_transferred, read)
    else
      let t := recv.t2 - recv.t1
      if read.timeout ≤ t then (some read.bytes_transferred, { read with timeout := 0 })
      else
        let read : Read :=
          { read with
            bytes_transferred := read.bytes_transferred + n.toNat
            timeout := read.timeout - t }
        if read.bytes_transferred < len then (none, read)
        else (some read.bytes_transferred, read)

/-- The loop from its `recv` on. -/
def read_loop (len : Nat) (read : Read) (unread : List Byte) : List Recv → Int × Read
  | [] => (0, { read with n := some 0 })
  | recv :: later =>
      match read_round len read unread recv with
      | (some returned, read) => (returned, read)
      | (none, after) =>
          read_loop len after (recv.later (len - read.bytes_transferred) unread) later

def read_nReal_timeout (len : Nat) (timeout : Int) (unread : List Byte) (plan : List Recv) :
    Int × Read :=
  let read : Read := ⟨0, [], timeout, none⟩
  if 0 < len then read_loop len read unread plan else (0, read)

/-- A return that has counted what was stored. -/
structure Counted (len : Nat) (returned : Int) (read : Read) : Prop where
  stored : read.bytes_transferred = read.buf.length
  told : (∀ n, read.n = some n → 0 < n) → returned = read.buf.length
  whole : read.buf.length = len → returned = len

def offered (plan : List Recv) : Nat := (plan.map fun recv => recv.size.getD 0).sum

def elapsed (plan : List Recv) : Int := (plan.map fun recv => recv.t2 - recv.t1).sum

/-- Over no `recv` that brings bytes the clock goes back, and with none of them the time
spent reaches the budget. -/
def InTime (len : Nat) (timeout : Int) (unread : List Byte) (plan : List Recv) : Prop :=
  ∀ before recv later, plan = before ++ recv :: later →
    (∀ earlier ∈ before ++ [recv], 0 < earlier.size.getD 0) →
    offered before < min len unread.length →
    recv.t1 ≤ recv.t2 ∧ elapsed (before ++ [recv]) < timeout

/-! One pass. -/

theorem recv_n (recv : Recv) (asked : Nat) (unread : List Byte)
    (brings : 0 < recv.n asked unread) :
    recv.n asked unread = (recv.bytes asked unread).length := by
  unfold Recv.n at brings ⊢
  split
  · rename_i closed
    simp [closed] at brings
  · rfl

theorem recv_brings (recv : Recv) (asked : Nat) (unread : List Byte) :
    0 < recv.n asked unread ↔ 0 < recv.size.getD 0 ∧ 0 < min asked unread.length := by
  unfold Recv.n Recv.bytes
  rw [received_length]
  cases size : recv.size with
  | none => simp
  | some size =>
      simp only [reduceCtorEq, ↓reduceIte, Option.getD_some]
      omega

/-- What the `recv` of a pass returns, and the buffer behind it if that is some bytes. -/
def Read.got (read : Read) (len : Nat) (unread : List Byte) (recv : Recv) : Int :=
  recv.n (len - read.bytes_transferred) unread

def Read.all (read : Read) (len : Nat) (unread : List Byte) (recv : Recv) : List Byte :=
  read.buf ++ recv.bytes (len - read.bytes_transferred) unread

def Timely (timeout : Int) (recv : Recv) : Prop :=
  recv.t1 ≤ recv.t2 ∧ recv.t2 - recv.t1 < timeout

inductive Passed (len : Nat) (read : Read) (unread : List Byte) (recv : Recv) :
    Option Int × Read → Prop where
  | stopped (last : ¬ 0 < read.got len unread recv) :
      Passed len read unread recv
        (some (read.got len unread recv), { read with n := some (read.got len unread recv) })
  | late {timeout} (brings : 0 < read.got len unread recv) (late : ¬ Timely read.timeout recv)
      (left : timeout = 0 ∨ timeout = read.timeout) :
      Passed len read unread recv (some read.bytes_transferred,
        ⟨read.bytes_transferred, read.all len unread recv, timeout,
          some (read.got len unread recv)⟩)
  | more (brings : 0 < read.got len unread recv) (timely : Timely read.timeout recv)
      (short : (read.all len unread recv).length < len) :
      Passed len read unread recv (none, ⟨(read.all len unread recv).length,
        read.all len unread recv, read.timeout - (recv.t2 - recv.t1),
          some (read.got len unread recv)⟩)
  | full (brings : 0 < read.got len unread recv) (timely : Timely read.timeout recv)
      (enough : ¬ (read.all len unread recv).length < len) :
      Passed len read unread recv (some (read.all len unread recv).length,
        ⟨(read.all len unread recv).length, read.all len unread recv,
          read.timeout - (recv.t2 - recv.t1), some (read.got len unread recv)⟩)

theorem round_passed (len : Nat) (read : Read) (unread : List Byte) (recv : Recv)
    (stored : read.bytes_transferred = read.buf.length) :
    Passed len read unread recv (read_round len read unread recv) := by
  have whole : read.buf.take read.bytes_transferred = read.buf := by
    rw [stored, List.take_length]
  unfold read_round
  dsimp only
  rw [← Read.got]
  by_cases brings : 0 < read.got len unread recv
  · have count : read.bytes_transferred + (read.got len unread recv).toNat =
        (read.all len unread recv).length := by
      rw [Read.got, recv_n _ _ _ brings, Int.toNat_natCast, Read.all, List.length_append, stored]
    rw [if_neg (by omega), whole, ← Read.all]
    split
    · exact .late brings (fun timely => by have forth := timely.1; omega) (.inr rfl)
    · split
      · exact .late brings (fun timely => by have below := timely.2; omega) (.inl rfl)
      · have timely : Timely read.timeout recv := ⟨by omega, by omega⟩
        rw [count]
        split
        · exact .more brings timely (by assumption)
        · exact .full brings timely (by assumption)
  · rw [if_pos (by omega)]
    exact .stopped brings

theorem all_length (len : Nat) (read : Read) (unread : List Byte) (recv : Recv) :
    (read.all len unread recv).length = read.buf.length +
      min (min (recv.size.getD 0) (len - read.bytes_transferred)) unread.length := by
  rw [Read.all, List.length_append, Recv.bytes, received_length]

/-! The condition, a `recv` at a time. -/

theorem inTime_none (len : Nat) (timeout : Int) (unread : List Byte) :
    InTime len timeout unread [] := by
  intro before recv later split
  simp at split

theorem inTime_cons (len : Nat) (timeout : Int) (unread : List Byte) (recv : Recv)
    (later : List Recv) :
    InTime len timeout unread (recv :: later) ↔
      (0 < recv.n len unread → Timely timeout recv ∧
        InTime (len - (recv.bytes len unread).length) (timeout - (recv.t2 - recv.t1))
          (recv.later len unread) later) := by
  have count : (recv.bytes len unread).length = min (min (recv.size.getD 0) len) unread.length :=
    received_length _ _ _
  have rest : (recv.later len unread).length = unread.length - min (recv.size.getD 0) len :=
    List.length_drop
  rw [recv_brings]
  -- A `recv` that brings nothing ends the loop; otherwise the first one and then the rest is in
  -- time.
  constructor
  · intro timely brings
    have first := timely [] recv later rfl (by simpa using brings.1)
      (by simpa [offered] using brings.2)
    refine ⟨⟨first.1, by simpa [elapsed] using first.2⟩, ?_⟩
    intro before other later split offers below
    subst split
    have next := timely (recv :: before) other later rfl
      (by
        intro earlier member
        rcases List.mem_cons.mp member with rfl | among
        · exact brings.1
        · exact offers earlier among)
      (by
        simp only [offered, List.map_cons, List.sum_cons] at below ⊢
        omega)
    refine ⟨next.1, ?_⟩
    have spent := next.2
    simp only [elapsed, List.cons_append, List.map_cons, List.sum_cons] at spent ⊢
    omega
  · intro timely before other rest' split offers below
    have offers_first : 0 < recv.size.getD 0 := by
      apply offers
      cases before with
      | nil => simp_all
      | cons earlier before => simp_all
    obtain ⟨⟨forth, inside⟩, next⟩ := timely ⟨offers_first, by omega⟩
    cases before with
    | nil =>
        simp only [List.nil_append, List.cons.injEq] at split
        rw [← split.1]
        exact ⟨forth, by simpa [elapsed] using inside⟩
    | cons earlier before =>
        simp only [List.cons_append, List.cons.injEq] at split
        obtain ⟨rfl, rfl⟩ := split
        simp only [offered, List.map_cons, List.sum_cons] at below
        obtain ⟨forth, inside⟩ := next before other rest' rfl
          (fun earlier member => offers earlier (List.mem_cons_of_mem _ member))
          (by
            rw [offered]
            omega)
        refine ⟨forth, ?_⟩
        simp only [elapsed, List.cons_append, List.map_cons, List.sum_cons] at inside ⊢
        omega

/-! The loop. -/

theorem read_loop_counted (len : Nat) (plan : List Recv) (read : Read) (unread : List Byte)
    (stored : read.bytes_transferred = read.buf.length) (short : read.buf.length < len) :
    Counted len (read_loop len read unread plan).1 (read_loop len read unread plan).2 ↔
      InTime (len - read.bytes_transferred) read.timeout unread plan := by
  -- On the plan, by the four ways a pass can go.
  induction plan generalizing read unread with
  | nil =>
      simp only [inTime_none, iff_true]
      constructor
      · exact stored
      · intro brings
        have low := brings 0 rfl
        omega
      · intro whole
        exact absurd whole (Nat.ne_of_lt short)
  | cons recv later ih =>
      have count := all_length len read unread recv
      rw [inTime_cons, ← Read.got]
      rw [read_loop]
      generalize passed : read_round len read unread recv = after
      have cases := round_passed len read unread recv stored
      rw [passed] at cases
      cases cases with
      | stopped last =>
          simp only [last, false_imp_iff, iff_true]
          constructor
          · exact stored
          · intro brings
            exact absurd (brings _ rfl) last
          · intro whole
            exact absurd whole (Nat.ne_of_lt short)
      | late brings late left =>
          have more := (recv_brings recv _ unread).mp brings
          simp only [brings, late, false_and, forall_const, iff_false]
          intro counted
          have same := counted.stored
          dsimp only at same
          omega
      | more brings timely below =>
          simp only [brings, timely, true_and, forall_const]
          have rest : len - (read.all len unread recv).length =
              len - read.bytes_transferred -
                (recv.bytes (len - read.bytes_transferred) unread).length := by
            rw [Read.all, List.length_append]
            omega
          rw [← rest]
          exact ih _ _ rfl below
      | full brings timely enough =>
          simp only [brings, timely, true_and, forall_const]
          have asked : len - read.bytes_transferred -
              (recv.bytes (len - read.bytes_transferred) unread).length = 0 := by
            rw [Read.all, List.length_append] at enough
            omega
          constructor
          · rw [asked]
            intro _ before other later split offers below
            omega
          · intro _
            constructor
            · rfl
            · intro _
              rfl
            · intro whole
              dsimp only at whole
              rw [whole]

/-- The count is what was stored if and only if all that came, came in time. -/
theorem counts_stored_iff (len : Nat) (timeout : Int) (unread : List Byte) (plan : List Recv) :
    Counted len (read_nReal_timeout len timeout unread plan).1
        (read_nReal_timeout len timeout unread plan).2 ↔ InTime len timeout unread plan := by
  unfold read_nReal_timeout
  by_cases positive : 0 < len
  · simp only [positive, ↓reduceIte]
    exact read_loop_counted len plan ⟨0, [], timeout, none⟩ unread rfl positive
  · simp only [positive, ↓reduceIte]
    constructor
    · intro _ before recv later split offers below
      omega
    · intro _
      exact ⟨rfl, fun _ => rfl, fun whole => by simp at whole ⊢; omega⟩

/-- All the bytes in one `recv` that takes the whole budget: 0 is returned. -/
theorem last_bytes_uncounted :
    ¬ ∀ (len : Nat) (timeout : Int) (unread : List Byte) (plan : List Recv),
      Counted len (read_nReal_timeout len timeout unread plan).1
        (read_nReal_timeout len timeout unread plan).2 := by
  intro counted
  have whole := (counted 2 1000 [0x4f, 0x4b] [⟨some 2, 0, 1000⟩]).whole (by decide)
  revert whole
  decide

end AsrServer.TimedRead

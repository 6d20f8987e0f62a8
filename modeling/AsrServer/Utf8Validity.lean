import Mathlib.Data.List.GetD
import AsrServer.JsonString
import AsrServer.PrefixCode
import AsrServer.Utf8Substr

/-!
Which strings end the process in `substr_utf8` and `format_json_string`, against the units
of one to six bytes that the two check for. The check on a continuation byte lets every
byte above 0x7F pass, the one on the second byte of five stops units it should not, and the
bytes that count are as many as the length is as an `int`.
-/

namespace AsrServer.Utf8Validity

open Bytes PrefixCode JsonString Utf8Substr Utf8Units
open scoped Computability

def follow (lead : Byte) : Option Nat :=
  if lead < 0x80 then some 0
  else if lead < 0xc2 then none
  else if lead < 0xe0 then some 1
  else if lead < 0xf0 then some 2
  else if lead < 0xf8 then some 3
  else if lead < 0xfc then some 4
  else if lead < 0xfe then some 5
  else none

/-- Units with continuation bytes up to `top`, the first of them from `second` on. -/
def units (second : Byte → Byte) (top : Byte) : Language Byte :=
  {unit | ∃ lead tail, unit = lead :: tail ∧ follow lead = some tail.length ∧
    (∀ byte ∈ tail, 0x80 ≤ byte ∧ byte ≤ top) ∧ ∀ byte ∈ tail.head?, second lead ≤ byte}

/-- The least second byte of a unit that is not longer than it has to be. -/
def second (lead : Byte) : Byte :=
  if lead = 0xe0 then 0xa0
  else if lead = 0xf0 then 0x90
  else if lead = 0xf8 then 0x88
  else if lead = 0xfc then 0x84
  else 0x80

def wellFormed : Language Byte := units second 0xbf

def second_taken (lead : Byte) : Byte :=
  if 0xf8 ≤ lead ∧ lead < 0xfc then 0x88 else second lead

def taken : Language Byte := units second_taken 0xff

def seen (s : List Byte) : Nat := (toInt s.length).toNat

def Ends {Result : Type*} (run : Except Ret Result) : Prop := ∃ ret, run = .error ret

/-- The strings on which the loop is wrong. -/
inductive Misjudged (s : List Byte) : Prop where
  /-- Well formed, with a unit that has a low second byte behind 0xF9 to 0xFB. -/
  | low (front unit back : List Byte) (split : s = front ++ unit ++ back)
      (ahead : front ∈ wellFormed∗) (here : unit ∈ wellFormed) (behind : back ∈ wellFormed∗)
      (read : (front ++ unit).length ≤ seen s)
      (early : ∃ lead byte tail, unit = lead :: byte :: tail ∧ 0xf9 ≤ lead ∧ lead ≤ 0xfb ∧
        byte < 0x88)
  /-- Well formed, and the length as an `int` falls into a unit. -/
  | cut (front unit back : List Byte) (split : s = front ++ unit ++ back)
      (ahead : front ∈ wellFormed∗) (here : unit ∈ wellFormed) (behind : back ∈ wellFormed∗)
      (starts : front.length < seen s) (stops : seen s < (front ++ unit).length)
  /-- Units that the loop takes, one of them with a byte from 0xC0 on behind its lead. -/
  | wide (front unit back : List Byte) (split : s.take (seen s) = front ++ unit ++ back)
      (ahead : front ∈ taken∗) (here : unit ∈ taken) (behind : back ∈ taken∗)
      (byte : ∃ byte ∈ unit.tail, 0xc0 ≤ byte)
  /-- Units that the loop takes, ahead of bytes that it leaves out and that are no units. -/
  | unread (read : s.take (seen s) ∈ taken∗) (left_out : s.drop (seen s) ∉ wellFormed∗)

/-! Classes of units. -/

theorem units_mono {first other : Byte → Byte} {top high : Byte}
    (lower : ∀ lead, other lead ≤ first lead) (upper : top ≤ high) :
    units first top ≤ units other high := by
  rintro unit ⟨lead, tail, rfl, count, tails, least⟩
  refine ⟨lead, tail, rfl, count, ?_, ?_⟩
  · intro byte member
    exact ⟨(tails byte member).1, UInt8.le_trans (tails byte member).2 upper⟩
  · intro byte member
    exact UInt8.le_trans (lower lead) (least byte member)

/-- The lead byte says how long a unit is, so none is the front of another. -/
theorem units_code (second : Byte → Byte) (top : Byte) : IsPrefixCode (units second top) := by
  constructor
  · rintro ⟨lead, tail, empty, _⟩
    cases empty
  · rintro word ⟨lead, tail, rfl, count, _⟩ other ⟨first, rest, rfl, long, _⟩ within
    obtain ⟨rfl, front⟩ := List.cons_prefix_cons.mp within
    rw [count, Option.some.injEq] at long
    rw [front.eq_of_length long]

/-- Both kinds of units are cut by their lead bytes. -/
def shaped : Language Byte := units (fun _ => 0x80) 0xff

theorem shaped_code : IsPrefixCode shaped := units_code _ _

theorem second_least (lead : Byte) : 0x80 ≤ second lead := by
  revert lead
  exact forall_byte (by decide +kernel)

theorem second_taken_least (lead : Byte) : second lead ≤ second_taken lead := by
  revert lead
  exact forall_byte (by decide +kernel)

theorem wellFormed_shaped : wellFormed ≤ shaped := units_mono second_least (by decide)

theorem taken_shaped : taken ≤ shaped :=
  units_mono (fun lead => UInt8.le_trans (second_least lead) (second_taken_least lead)) (by decide)

/-- What the loop takes and is no unit has a byte from 0xC0 on behind its lead. -/
theorem wide_of_taken (unit : List Byte) (here : unit ∈ taken) (other : unit ∉ wellFormed) :
    ∃ byte ∈ unit.tail, 0xc0 ≤ byte := by
  obtain ⟨lead, tail, rfl, count, tails, least⟩ := here
  by_contra narrow
  apply other
  refine ⟨lead, tail, rfl, count, ?_, ?_⟩
  · intro byte member
    refine ⟨(tails byte member).1, ?_⟩
    by_contra high
    exact narrow ⟨byte, member, by grind⟩
  · intro byte member
    exact UInt8.le_trans (second_taken_least lead) (least byte member)

/-- A unit that the loop does not take has a low second byte behind 0xF9 to 0xFB. -/
theorem low_of_wellFormed (unit : List Byte) (here : unit ∈ wellFormed) (other : unit ∉ taken) :
    ∃ lead byte tail, unit = lead :: byte :: tail ∧ 0xf9 ≤ lead ∧ lead ≤ 0xfb ∧ byte < 0x88 := by
  obtain ⟨lead, tail, rfl, count, tails, least⟩ := here
  have stops : ¬ ∀ byte ∈ tail.head?, second_taken lead ≤ byte := by
    intro starts
    apply other
    refine ⟨lead, tail, rfl, count, ?_, starts⟩
    intro byte member
    exact ⟨(tails byte member).1, UInt8.le_trans (tails byte member).2 (by decide)⟩
  cases tail with
  | nil => exact absurd (fun byte member => by simp at member) stops
  | cons byte tail =>
      have start := least byte rfl
      have early : ¬ second_taken lead ≤ byte := by
        intro starts
        apply stops
        intro first member
        cases member
        exact starts
      unfold second_taken at early
      split at early
      · rename_i five
        refine ⟨lead, byte, tail, rfl, ?_, by grind, by grind⟩
        -- Behind 0xF8 both ask for the same.
        by_contra first
        obtain rfl : lead = 0xf8 := by grind
        exact early start
      · exact absurd start early

theorem not_taken_low (lead byte : Byte) (tail : List Byte) (five : 0xf9 ≤ lead)
    (last : lead ≤ 0xfb) (early : byte < 0x88) : lead :: byte :: tail ∉ taken := by
  rintro ⟨first, rest, same, _, _, least⟩
  cases same
  have starts := least byte rfl
  rw [second_taken, if_pos (by grind)] at starts
  grind

theorem not_wellFormed_wide (unit : List Byte) (byte : Byte) (member : byte ∈ unit.tail)
    (high : 0xc0 ≤ byte) : unit ∉ wellFormed := by
  rintro ⟨lead, tail, rfl, _, tails, _⟩
  have low := (tails byte member).2
  grind

/-! What the loop takes. -/

theorem tails_ok_iff (size n : Nat) (sin : List Byte) (lead : Bool) (found : Nat) :
    tails size n sin lead = .ok found ↔
      found = size ∧ size ≤ n ∧ (∀ k, 1 ≤ k → k < size → 0x80 ≤ sin.getD k 0) ∧ lead = true := by
  have all : (List.range' 1 (size - 1)).all (fun k => continues (sin.getD k 0)) = true ↔
      ∀ k, 1 ≤ k → k < size → 0x80 ≤ sin.getD k 0 := by
    simp only [List.all_eq_true, List.mem_range'_1, continues_eq, decide_eq_true_eq]
    constructor
    · intro each k start stop
      exact each k ⟨start, by omega⟩
    · intro each k within
      exact each k within.1 (by omega)
  rw [tails]
  split
  · simp only [reduceCtorEq, false_iff]
    omega
  · rename_i long
    simp only [Bool.and_eq_true, all]
    split
    · rename_i passed
      constructor
      · rintro ⟨⟩
        exact ⟨rfl, by omega, passed⟩
      · rintro ⟨rfl, _⟩
        rfl
    · rename_i failed
      simp only [reduceCtorEq, false_iff]
      rintro ⟨_, _, each, led⟩
      exact failed ⟨each, led⟩

theorem tails_unit (k n : Nat) (lead : Byte) (sin : List Byte) (size : Nat) (test : Bool)
    (more : 0 < k)
    (tested : 0x80 ≤ sin.getD 0 0 → (test = true ↔ second_taken lead ≤ sin.getD 0 0)) :
    tails (k + 1) n (lead :: sin) test = .ok size ↔
      size = k + 1 ∧ k < n ∧ (∀ i < k, 0x80 ≤ sin.getD i 0) ∧
        second_taken lead ≤ sin.getD 0 0 := by
  have shifted : (∀ i, 1 ≤ i → i < k + 1 → 0x80 ≤ (lead :: sin).getD i 0) ↔
      ∀ i < k, 0x80 ≤ sin.getD i 0 := by
    constructor
    · intro each i within
      exact each (i + 1) (by omega) (by omega)
    · intro each i start stop
      obtain ⟨i, rfl⟩ := Nat.exists_eq_add_of_le' start
      exact each i (by omega)
  rw [tails_ok_iff, shifted]
  constructor
  · rintro ⟨rfl, long, each, led⟩
    exact ⟨rfl, long, each, (tested (each 0 more)).mp led⟩
  · rintro ⟨rfl, long, each, least⟩
    exact ⟨rfl, long, each, (tested (each 0 more)).mpr least⟩

theorem second_taken_eq (lead : Byte) :
    second_taken lead =
      if lead = 0xe0 then 0xa0
      else if lead = 0xf0 then 0x90
      else if 0xf8 ≤ lead ∧ lead < 0xfc then 0x88
      else if lead = 0xfc then 0x84
      else 0x80 := by
  revert lead
  exact forall_byte (by decide +kernel)

theorem unit_size_iff (n : Nat) (lead : Byte) (sin : List Byte) (size : Nat) (positive : 0 < n) :
    unit_size n (lead :: sin) = .ok size ↔
      ∃ k, follow lead = some k ∧ size = k + 1 ∧ k < n ∧ (∀ i < k, 0x80 ≤ sin.getD i 0) ∧
        (0 < k → second_taken lead ≤ sin.getD 0 0) := by
  -- A branch of the source with bytes behind the lead, and its test of the second byte.
  have branch (k : Nat) (test : Bool) (more : 0 < k) (count : follow lead = some k)
      (sized : unit_size n (lead :: sin) = tails (k + 1) n (lead :: sin) test)
      (tested : 0x80 ≤ sin.getD 0 0 → (test = true ↔ second_taken lead ≤ sin.getD 0 0)) :
      unit_size n (lead :: sin) = .ok size ↔
        ∃ k, follow lead = some k ∧ size = k + 1 ∧ k < n ∧ (∀ i < k, 0x80 ≤ sin.getD i 0) ∧
          (0 < k → second_taken lead ≤ sin.getD 0 0) := by
    rw [sized, tails_unit k n lead sin size test more tested, count]
    simp [more]
  by_cases one : lead < 0x80
  · have count : follow lead = some 0 := if_pos one
    rw [unit_one n lead sin one, count]
    simp only [Except.ok.injEq, Option.some.injEq, ↓existsAndEq, true_and]
    grind
  by_cases stray : lead < 0xc2
  · simp [unit_size, follow, one, stray]
  by_cases two : lead < 0xe0
  · refine branch 1 true (by decide) (by simp [follow, one, stray, two])
      (by simp [unit_size, one, stray, two]) ?_
    rw [second_taken_eq]
    grind
  by_cases three : lead < 0xf0
  · refine branch 2 _ (by decide) (by simp [follow, one, stray, two, three])
      (by simp only [unit_size, List.getD_cons_zero, one, stray, two, three, ↓reduceIte]; rfl) ?_
    rw [second_taken_eq, List.getD_cons_succ]
    grind
  by_cases four : lead < 0xf8
  · refine branch 3 _ (by decide) (by simp [follow, one, stray, two, three, four])
      (by simp only [unit_size, List.getD_cons_zero, one, stray, two, three, four, ↓reduceIte]
          rfl) ?_
    rw [second_taken_eq, List.getD_cons_succ]
    grind
  by_cases five : lead < 0xfc
  · refine branch 4 _ (by decide) (by simp [follow, one, stray, two, three, four, five])
      (by simp only [unit_size, List.getD_cons_zero, one, stray, two, three, four, five,
            ↓reduceIte]
          rfl) ?_
    rw [second_taken_eq, List.getD_cons_succ]
    grind
  by_cases six : lead < 0xfe
  · refine branch 5 _ (by decide) (by simp [follow, one, stray, two, three, four, five, six])
      (by simp only [unit_size, List.getD_cons_zero, one, stray, two, three, four, five, six,
            ↓reduceIte]
          rfl) ?_
    rw [second_taken_eq, List.getD_cons_succ]
    grind
  simp [unit_size, follow, one, stray, two, three, four, five, six]

theorem unit_size_taken (n : Nat) (sin : List Byte) (size : Nat) (positive : 0 < n)
    (inside : n ≤ sin.length) :
    unit_size n sin = .ok size ↔ size ≤ n ∧ sin.take size ∈ taken := by
  cases sin with
  | nil => exact absurd inside (by rw [List.length_nil]; omega)
  | cons lead sin =>
      rw [List.length_cons] at inside
      rw [unit_size_iff n lead sin size positive]
      constructor
      · rintro ⟨k, count, rfl, long, each, least⟩
        have length : (sin.take k).length = k := List.length_take_of_le (by omega)
        refine ⟨by omega, lead, sin.take k, List.take_succ_cons, by rw [length, count], ?_, ?_⟩
        · intro byte member
          obtain ⟨i, within, rfl⟩ := List.mem_iff_getElem.mp member
          rw [length] at within
          have continued := each i within
          rw [List.getD_eq_getElem _ _ (by omega)] at continued
          rw [List.getElem_take]
          exact ⟨continued, by grind⟩
        · intro byte member
          rw [List.head?_take] at member
          split at member
          · cases member
          · have starts := least (by omega)
            rw [List.getD_eq_getElem?_getD, ← List.head?_eq_getElem?, member] at starts
            exact starts
      · rintro ⟨long, first, tail, same, count, tails, least⟩
        have sized := congrArg List.length same
        rw [List.length_take, List.length_cons, List.length_cons] at sized
        have counted : size = tail.length + 1 := by omega
        subst counted
        rw [List.take_succ_cons, List.cons.injEq] at same
        obtain ⟨rfl, same⟩ := same
        refine ⟨tail.length, count, rfl, by omega, ?_, ?_⟩
        · intro i within
          have here : sin.getD i 0 ∈ sin.take tail.length := by
            rw [List.getD_eq_getElem _ _ (by omega)]
            exact List.mem_take_iff_getElem.mpr ⟨i, by omega, rfl⟩
          exact (tails _ (same ▸ here)).1
        · intro more
          apply least
          rw [← same, List.head?_take, if_neg (by omega), List.getD_eq_getElem _ _ (by omega),
            List.head?_eq_getElem?]
          exact List.getElem?_eq_getElem (by omega)

/-- The loop goes through if and only if the bytes that count are units it takes. -/
theorem split_loop_iff (n : Nat) (sin : List Byte) (inside : n ≤ sin.length) :
    (∃ ret, split_loop n sin = .ok ret) ↔ sin.take n ∈ taken∗ := by
  -- On the bytes that count: a unit in front, and fewer behind it.
  induction n using Nat.strong_induction_on generalizing sin with
  | _ n ih =>
      rcases Nat.eq_zero_or_pos n with rfl | positive
      · simp only [split_loop_zero, List.take_zero, Language.nil_mem_kstar, iff_true]
        exact ⟨[], rfl⟩
      constructor
      · rintro ⟨ret, ran⟩
        cases sized : unit_size n sin with
        | error failed =>
            rw [split_loop_error n sin failed positive sized] at ran
            cases ran
        | ok size =>
            have positive_size := unit_size_positive n sin size sized
            obtain ⟨long, here⟩ := (unit_size_taken n sin size positive inside).mp sized
            rw [split_loop_ok n sin size positive sized] at ran
            have later : ∃ ret, split_loop (n - size) (sin.drop size) = .ok ret := by
              cases rest : split_loop (n - size) (sin.drop size) with
              | error failed =>
                  rw [rest] at ran
                  cases ran
              | ok ret => exact ⟨ret, rfl⟩
            rw [ih (n - size) (by omega) _ (by rw [List.length_drop]; omega)] at later
            have whole := kstar_append (kstar_word here) later
            rwa [← List.take_add, Nat.add_sub_of_le long] at whole
      · intro texts
        obtain ⟨words, same, members⟩ := Language.mem_kstar.mp texts
        have lengths := congrArg List.length same
        rw [List.length_take, Nat.min_eq_left inside] at lengths
        cases words with
        | nil =>
            rw [List.flatten_nil, List.length_nil] at lengths
            omega
        | cons word words =>
            obtain ⟨here, members⟩ := List.forall_mem_cons.mp members
            rw [List.flatten_cons] at same
            rw [List.flatten_cons, List.length_append] at lengths
            have front : sin.take word.length = word := by
              have cut := congrArg (List.take word.length) same
              rwa [List.take_left, List.take_take, Nat.min_eq_left (by omega)] at cut
            have rest : (sin.drop word.length).take (n - word.length) = words.flatten := by
              have cut := congrArg (List.drop word.length) same
              rwa [List.drop_left, List.drop_take] at cut
            have sized : unit_size n sin = .ok word.length := by
              rw [unit_size_taken n sin word.length positive inside, front]
              exact ⟨by omega, here⟩
            have positive_size := unit_size_positive n sin word.length sized
            have later := (ih (n - word.length) (by omega) (sin.drop word.length)
              (by rw [List.length_drop]; omega)).mpr (rest ▸ Language.join_mem_kstar members)
            obtain ⟨ret, ran⟩ := later
            rw [split_loop_ok n sin word.length positive sized, ran]
            exact ⟨_, rfl⟩

/-! The two functions. -/

theorem seen_le (s : List Byte) : seen s ≤ s.length := by
  have low := toInt_le s.length
  rw [seen]
  omega

theorem ends_map {Result Other : Type*} (run : Except Ret Result) (after : Result → Other) :
    Ends (run.map after) ↔ ¬ ∃ result, run = .ok result := by
  cases run with
  | error ret => simp [Ends, Except.map]
  | ok result => simp [Ends, Except.map]

theorem substr_ends_iff (s : List Byte) (len : Nat) :
    Ends (substr_utf8 s len) ↔ s.take (seen s) ∉ taken∗ := by
  rw [substr_utf8, ends_map, ← split_loop_iff (seen s) s (seen_le s)]
  rfl

theorem format_ends_iff (s rlt : List Byte) :
    Ends (format_json_string s rlt) ↔ s.take (seen s) ∉ taken∗ := by
  rw [format_json_string, ends_map, ← split_loop_iff (seen s) s (seen_le s)]
  rfl

/-! Where the loop is wrong. -/

theorem misjudged_not (s : List Byte) (wrong : Misjudged s) :
    ¬ (s.take (seen s) ∈ taken∗ ↔ s ∈ wellFormed∗) := by
  have parts := List.take_append_drop (seen s) s
  cases wrong with
  | low front unit back split ahead here behind read early =>
      have valid := kstar_append (kstar_append ahead (kstar_word here)) behind
      intro judged
      have loop := judged.mpr (split ▸ valid)
      generalize seen s = count at read loop
      rw [split, List.take_append, List.take_of_length_le read, List.append_assoc] at loop
      have later := shaped_code.rest wellFormed_shaped taken_shaped ahead loop
      obtain ⟨lead, byte, tail, rfl, five, last, below⟩ := early
      exact not_taken_low lead byte tail five last below
        (shaped_code.head taken_shaped (wellFormed_shaped here) later)
  | cut front unit back split ahead here behind starts stops =>
      have valid := kstar_append (kstar_append ahead (kstar_word here)) behind
      intro judged
      have loop := judged.mpr (split ▸ valid)
      generalize seen s = count at starts stops loop
      rw [List.length_append] at stops
      rw [split, List.append_assoc, List.take_append, List.take_of_length_le (by omega),
        List.take_append_of_le_length (by omega)] at loop
      have later := shaped_code.rest wellFormed_shaped taken_shaped ahead loop
      -- What the loop sees of the unit is not a text.
      have whole := wellFormed_shaped here
      rw [← List.take_append_drop (count - front.length) unit] at whole
      refine shaped_code.part taken_shaped whole ?_ ?_ later
      · rw [← List.length_pos_iff, List.length_take]
        omega
      · rw [← List.length_pos_iff, List.length_drop]
        omega
  | wide front unit back split ahead here behind byte =>
      have loop := kstar_append (kstar_append ahead (kstar_word here)) behind
      intro judged
      have valid := judged.mp (split ▸ loop)
      rw [← parts, split, List.append_assoc, List.append_assoc] at valid
      have later := shaped_code.rest taken_shaped wellFormed_shaped ahead valid
      obtain ⟨byte, member, high⟩ := byte
      exact not_wellFormed_wide unit byte member high
        (shaped_code.head wellFormed_shaped (taken_shaped here) later)
  | unread read left_out =>
      intro judged
      have valid := judged.mp read
      rw [← parts] at valid
      exact left_out (shaped_code.rest taken_shaped wellFormed_shaped read valid)

theorem misjudged_of_taken (s : List Byte) (loop : s.take (seen s) ∈ taken∗)
    (broken : s ∉ wellFormed∗) : Misjudged s := by
  by_cases behind : s.drop (seen s) ∈ wellFormed∗
  · obtain ⟨words, same, members⟩ := Language.mem_kstar.mp loop
    have other : ∃ unit ∈ words, unit ∉ wellFormed := by
      by_contra all
      push Not at all
      apply broken
      rw [← List.take_append_drop (seen s) s]
      exact kstar_append (same ▸ Language.join_mem_kstar all) behind
    obtain ⟨unit, member, other⟩ := other
    obtain ⟨front, back, rfl⟩ := List.append_of_mem member
    rw [List.forall_mem_append, List.forall_mem_cons] at members
    refine .wide front.flatten unit back.flatten ?_ (Language.join_mem_kstar members.1)
      members.2.1 (Language.join_mem_kstar members.2.2) (wide_of_taken unit members.2.1 other)
    rw [same, List.flatten_append, List.flatten_cons, List.append_assoc]
  · exact .unread loop behind

theorem misjudged_of_wellFormed (s : List Byte) (stopped : s.take (seen s) ∉ taken∗)
    (valid : s ∈ wellFormed∗) : Misjudged s := by
  obtain ⟨words, same, members⟩ := Language.mem_kstar.mp valid
  rcases place words (seen s) (by rw [← same]; exact seen_le s) with
    ⟨front, back, rfl, count⟩ | ⟨front, unit, back, rfl, starts, stops⟩
  · rw [List.forall_mem_append] at members
    have other : ∃ unit ∈ front, unit ∉ taken := by
      by_contra all
      push Not at all
      apply stopped
      rw [count]
      conv in s => rw [same]
      rw [List.flatten_append, List.take_left]
      exact Language.join_mem_kstar all
    obtain ⟨unit, member, other⟩ := other
    obtain ⟨first, later, rfl⟩ := List.append_of_mem member
    rw [List.forall_mem_append, List.forall_mem_cons] at members
    obtain ⟨⟨ahead, here, behind⟩, last⟩ := members
    refine .low first.flatten unit (later.flatten ++ back.flatten) ?_
      (Language.join_mem_kstar ahead) here
      (kstar_append (Language.join_mem_kstar behind) (Language.join_mem_kstar last)) ?_
      (low_of_wellFormed unit here other)
    · rw [same]
      simp
    · rw [count, List.flatten_append, List.flatten_cons, List.length_append, List.length_append,
        List.length_append]
      omega
  · rw [List.forall_mem_append, List.forall_mem_cons] at members
    refine .cut front.flatten unit back.flatten ?_ (Language.join_mem_kstar members.1)
      members.2.1 (Language.join_mem_kstar members.2.2) starts stops
    rw [same, List.flatten_append, List.flatten_cons, List.append_assoc]

theorem misjudged_iff (s : List Byte) :
    Misjudged s ↔ ¬ (s.take (seen s) ∈ taken∗ ↔ s ∈ wellFormed∗) := by
  constructor
  · exact misjudged_not s
  · intro different
    by_cases loop : s.take (seen s) ∈ taken∗
    · exact misjudged_of_taken s loop (fun valid => different (iff_of_true loop valid))
    · by_cases valid : s ∈ wellFormed∗
      · exact misjudged_of_wellFormed s loop valid
      · exact absurd (iff_of_false loop valid) different

/-- The process ends for the strings that are not well formed, and for these alone, if and
only if the string is none of the four kinds. -/
theorem validates_iff (s rlt : List Byte) (len : Nat) :
    ((Ends (substr_utf8 s len) ↔ s ∉ wellFormed∗) ∧
      (Ends (format_json_string s rlt) ↔ s ∉ wellFormed∗)) ↔ ¬ Misjudged s := by
  rw [substr_ends_iff, format_ends_iff, misjudged_iff, not_not, not_iff_not, and_self]

/-- A single unit that only one kind has is judged the other way. -/
theorem single_judged {part other : Language Byte} (included : part ≤ shaped)
    (within : other ≤ shaped) (unit : List Byte) (here : unit ∈ part) (outside : unit ∉ other) :
    unit ∈ part∗ ∧ unit ∉ other∗ := by
  refine ⟨kstar_word here, ?_⟩
  intro text
  rw [← List.append_nil unit] at text
  exact outside (shaped_code.head within (included here) text)

theorem take_seen (s : List Byte) (short : s.length < 2 ^ 31) : s.take (seen s) = s := by
  rw [seen, toInt_eq _ (by omega) (by omega), Int.toNat_natCast, List.take_length]

/-- A lead byte passes for a continuation byte, and a unit of five bytes is stopped. -/
theorem validators_wrong :
    ¬ (Ends (substr_utf8 [0xc3, 0xc3] 1) ↔ [0xc3, 0xc3] ∉ wellFormed∗) ∧
      ¬ (Ends (format_json_string [0xf9, 0x80, 0x80, 0x80, 0x80] []) ↔
        [0xf9, 0x80, 0x80, 0x80, 0x80] ∉ wellFormed∗) := by
  rw [substr_ends_iff, format_ends_iff, take_seen _ (by decide), take_seen _ (by decide)]
  constructor
  · have wide : [0xc3, 0xc3] ∈ taken :=
      ⟨0xc3, [0xc3], rfl, by decide, by decide +kernel, by decide +kernel⟩
    have judged := single_judged taken_shaped wellFormed_shaped _ wide
      (not_wellFormed_wide _ 0xc3 (by decide) (by decide))
    exact fun same => same.mpr judged.2 judged.1
  · have low : [0xf9, 0x80, 0x80, 0x80, 0x80] ∈ wellFormed :=
      ⟨0xf9, [0x80, 0x80, 0x80, 0x80], rfl, by decide, by decide +kernel, by decide +kernel⟩
    have judged := single_judged wellFormed_shaped taken_shaped _ low
      (not_taken_low 0xf9 0x80 _ (by decide) (by decide) (by decide))
    exact fun same => same.mp judged.2 judged.1

end AsrServer.Utf8Validity

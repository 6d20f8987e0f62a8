import AsrServer.ConfigFile
import AsrServer.HttpResponse
import AsrServer.Numbers

/-!
`Configuration::open` and what becomes of the numbers it reads. The port goes through
`strtol`, an `unsigned int` member, an `int` parameter of `Http_Server::open` and an
`unsigned short` of `create_listen`; the stack size through `atoi`, a product of `int`s
and a `size_t`. The product wraps where it overflows.
-/

namespace AsrServer.Configured

open Bytes RequestHeader Numbers ConfigMap ConfigFile

structure Configuration where
  listen_port : UInt32
  thread_stack_size : UInt64
  receiver_num : UInt64
  worker_loader_num : UInt64
  deriving DecidableEq, Repr

/-- `strtol(value, &end, 10)`: the number, and `end - value`. -/
def strtol (value : List Byte) : Int × Nat :=
  match scanNumber value with
  | none => (0, 0)
  | some (number, rest) =>
      (max (-2 ^ 63) (min number (2 ^ 63 - 1)), value.length - rest.length)

/-- `readParameter` behind the import of the file. -/
def readSection (config : Config) (before : Configuration) : Int × Configuration :=
  match get_value config (text "ListenPort") with
  | none => (-1, before)
  | some value =>
      let scanned := strtol (cstr value)
      let after := { before with listen_port := UInt32.ofInt scanned.1 }
      -- An unsigned member is never below 0.
      if scanned.2 = 0 ∨ after.listen_port < 0 then (-1, after)
      else
        match get_value config (text "threadstacksize") with
        | none => (0, { after with thread_stack_size := UInt64.ofInt (16 * 2 ^ 20) })
        | some value =>
            (0, { after with
              thread_stack_size := UInt64.ofInt (toInt (HttpResponse.atoi value * 2 ^ 10)) })

def readParameter (file : Option (List Byte)) (key : List Byte) (before : Configuration) :
    Int × Configuration :=
  let imported := import_file config_map file
  if imported.1 ≠ 0 then (-1, before)
  else readSection (set_section imported.2 (cstr key ++ text "/Parameter")) before

def readThreadNumber (file : Option (List Byte)) (key : List Byte) (before : Configuration) :
    Int × Configuration :=
  let imported := import_file config_map file
  if imported.1 ≠ 0 then (-1, before)
  else
    let config := set_section imported.2 (cstr key ++ text "/ThreadNumber")
    let number (name : List Byte) (default : UInt64) : UInt64 :=
      match get_value config name with
      | none => default
      | some value => UInt64.ofInt (HttpResponse.atoi value)
    (0, { before with
      receiver_num := number (text "ReceiverThread") 3
      worker_loader_num := number (text "WorkerLoaderThread") 16 })

/-- `Configuration::open`, with the file as it is when both functions import it. -/
def open_ (file : Option (List Byte)) (key : List Byte) (before : Configuration) :
    Int × Configuration :=
  let parameter := readParameter file key before
  if parameter.1 ≠ 0 then (-1, parameter.2)
  else
    let threads := readThreadNumber file key parameter.2
    if threads.1 ≠ 0 then (-1, threads.2) else (0, threads.2)

/-- The port in `addr.sin_port`, as the network reads it. -/
def create_listen (port : UInt16) : Nat := port.toNat

/-- The port that `Http_Server::open(.., listen_port)` listens on, through its `int`
parameter. -/
def bound_port (listen_port : UInt32) : Nat :=
  create_listen (UInt16.ofInt (toInt listen_port.toNat))

/-! The two values in the file. -/

def parameter (file : Option (List Byte)) (key name : List Byte) : Option (List Byte) :=
  get_value (set_section (import_file config_map file).2 (cstr key ++ text "/Parameter")) name

def Begins (value : List Byte) (written : Int) : Prop :=
  digits (cstr value) ≠ [] ∧ number (cstr value) = written

def UsedExactly (file : Option (List Byte)) (key : List Byte) (before : Configuration) : Prop :=
  (open_ file key before).1 = 0 →
    (∃ port n, parameter file key (text "ListenPort") = some port ∧ Begins port n ∧
      0 ≤ n ∧ n ≤ 65535 ∧ (bound_port (open_ file key before).2.listen_port : Int) = n) ∧
    ∀ stack m, parameter file key (text "threadstacksize") = some stack → Begins stack m →
      0 ≤ m ∧ ((open_ file key before).2.thread_stack_size.toNat : Int) = 1024 * m

/-! The conversions. -/

theorem strtol_digits (value : List Byte) :
    strtol value = if digits value = [] then (0, 0)
      else (max (-2 ^ 63) (min (number value) (2 ^ 63 - 1)),
        value.length - ((unsigned value).drop (digits value).length).length) := by
  rw [strtol, scanNumber_parts]
  split <;> simp_all

theorem strtol_end (value : List Byte) : (strtol value).2 = 0 ↔ digits value = [] := by
  rw [strtol_digits]
  by_cases empty : digits value = []
  · simp [empty]
  · have positive : 0 < (digits value).length := List.length_pos_iff.mpr empty
    have front : (digits value).length ≤ (unsigned value).length :=
      (List.takeWhile_prefix isDigit).length_le
    have behind : (unsigned value).length ≤ value.length := by
      have skipped : (skipSpace value).length ≤ value.length :=
        (List.dropWhile_suffix isSpace).length_le
      unfold unsigned
      split
      · rw [List.length_drop]
        omega
      · exact skipped
    rw [if_neg empty, List.length_drop]
    constructor
    · intro zero
      omega
    · intro absent
      exact absurd absent empty

theorem atoi_digits (value : List Byte) (nonempty : digits (cstr value) ≠ []) :
    HttpResponse.atoi value = storeInt (number (cstr value)) := by
  rw [HttpResponse.atoi, scanNumber_parts, if_neg nonempty]

theorem unsigned_long (value : Int) : ((UInt64.ofInt value).toNat : Int) = value % 2 ^ 64 := by
  rw [UInt64.ofInt, UInt64.toNat_ofNat']
  omega

theorem unsigned_int (value : Int) : ((UInt32.ofInt value).toNat : Int) = value % 2 ^ 32 := by
  rw [UInt32.ofInt, UInt32.toNat_ofNat']
  omega

theorem unsigned_short (value : Int) : ((UInt16.ofInt value).toNat : Int) = value % 2 ^ 16 := by
  rw [UInt16.ofInt, UInt16.toNat_ofNat']
  omega

theorem bound_small (n : Int) (low : 0 ≤ n) (high : n ≤ 65535) :
    (bound_port (UInt32.ofInt (max (-2 ^ 63) (min n (2 ^ 63 - 1)))) : Int) = n := by
  have long : max (-2 ^ 63) (min n (2 ^ 63 - 1)) = n := by omega
  have member : ((UInt32.ofInt n).toNat : Int) = n := by
    rw [unsigned_int]
    omega
  rw [long, bound_port, create_listen, unsigned_short, member, toInt_eq n (by omega) (by omega)]
  omega

/-- The numbers that the stack size keeps: those whose product is an `int`, and a band where the
product wraps to what a `size_t` makes of it. -/
def Kept (m : Int) : Prop := (0 ≤ m ∧ m < 2 ^ 21) ∨ (2 ^ 54 - 2 ^ 21 ≤ m ∧ m < 2 ^ 54)

theorem toInt_turns (value : Int) : ∃ turns : Int, toInt value = value + turns * 2 ^ 32 := by
  refine ⟨-value.bdiv (2 ^ 32), ?_⟩
  have parts : value.bmod (2 ^ 32) + 2 ^ 32 * value.bdiv (2 ^ 32) = value :=
    Int.bmod_add_bdiv value (2 ^ 32)
  unfold toInt
  omega

theorem product_wraps (m : Int) (low : 0 ≤ m) (high : m < 2 ^ 63) :
    ∃ turns : Int, toInt (storeInt m * 2 ^ 10) = 1024 * m + turns * 2 ^ 32 := by
  have long : max (-2 ^ 63) (min m (2 ^ 63 - 1)) = m := by omega
  obtain ⟨first, inner⟩ := toInt_turns m
  obtain ⟨second, outer⟩ := toInt_turns ((m + first * 2 ^ 32) * 2 ^ 10)
  refine ⟨first * 2 ^ 10 + second, ?_⟩
  rw [storeInt, long, inner, outer]
  omega

theorem stack_kept (m : Int) :
    (0 ≤ m ∧ ((UInt64.ofInt (toInt (storeInt m * 2 ^ 10))).toNat : Int) = 1024 * m) ↔ Kept m := by
  have low := toInt_low (storeInt m * 2 ^ 10)
  have high := toInt_high (storeInt m * 2 ^ 10)
  rw [unsigned_long]
  constructor
  · rintro ⟨natural, same⟩
    unfold Kept
    omega
  · intro kept
    have natural : 0 ≤ m := by
      unfold Kept at kept
      omega
    have bound : m < 2 ^ 63 := by
      unfold Kept at kept
      omega
    obtain ⟨turns, wraps⟩ := product_wraps m natural bound
    refine ⟨natural, ?_⟩
    rcases kept with ⟨_, small⟩ | ⟨first, last⟩
    · have zero : turns = 0 := by omega
      rw [wraps, zero]
      omega
    · have once : turns = -2 ^ 32 := by omega
      rw [wraps, once]
      omega

/-! What `open` returns. -/

theorem open_members (content key : List Byte) (before : Configuration) (port : List Byte)
    (found : parameter (some content) key (text "ListenPort") = some port)
    (nonempty : digits (cstr port) ≠ []) :
    let after := open_ (.some content) key before
    after.1 = 0 ∧
      after.2.listen_port =
        UInt32.ofInt (max (-2 ^ 63) (min (number (cstr port)) (2 ^ 63 - 1))) ∧
      ∀ stack, parameter (.some content) key (text "threadstacksize") = .some stack →
        after.2.thread_stack_size =
          UInt64.ofInt (toInt (HttpResponse.atoi stack * 2 ^ 10)) := by
  have imported : (import_file config_map (.some content)).1 = 0 := rfl
  have passed : (strtol (cstr port)).2 ≠ 0 := fun zero => nonempty ((strtol_end _).mp zero)
  have value : (strtol (cstr port)).1 =
      max (-2 ^ 63) (min (number (cstr port)) (2 ^ 63 - 1)) := by
    rw [strtol_digits, if_neg nonempty]
  unfold parameter at found ⊢
  simp only [open_, readParameter, readThreadNumber, imported, ne_eq, not_true_eq_false, if_false,
    readSection, found, passed, UInt32.not_lt_zero, or_self, value]
  cases get_value (set_section (import_file config_map (.some content)).2
      (cstr key ++ text "/Parameter")) (text "threadstacksize") with
  | none => simp
  | some stack => simp

theorem open_fails (file : Option (List Byte)) (key : List Byte) (before : Configuration)
    (opened : (open_ file key before).1 = 0) : ∃ content port, file = some content ∧
      parameter file key (text "ListenPort") = some port ∧ digits (cstr port) ≠ [] := by
  cases file with
  | none => simp [open_, readParameter, import_file] at opened
  | some content =>
      have imported : (import_file config_map (some content)).1 = 0 := rfl
      refine ⟨content, ?_⟩
      unfold parameter
      cases found : get_value (set_section (import_file config_map (some content)).2
          (cstr key ++ text "/Parameter")) (text "ListenPort") with
      | none => simp [open_, readParameter, imported, readSection, found] at opened
      | some port =>
          refine ⟨port, rfl, rfl, fun absent => ?_⟩
          have ends := (strtol_end (cstr port)).mpr absent
          simp [open_, readParameter, imported, readSection, found, ends] at opened

/-- The numbers of a file that are used as they are written: a port that is one, and a stack size
whose product is kept. -/
def InRange (file : Option (List Byte)) (key : List Byte) : Prop :=
  ∀ port n, file ≠ none → parameter file key (text "ListenPort") = some port → Begins port n →
    0 ≤ n ∧ n ≤ 65535 ∧
    ∀ stack m, parameter file key (text "threadstacksize") = some stack → Begins stack m → Kept m

theorem used_exactly_iff (file : Option (List Byte)) (key : List Byte) (before : Configuration) :
    UsedExactly file key before ↔ InRange file key := by
  constructor
  · intro used port n present found begins
    obtain ⟨content, rfl⟩ := Option.ne_none_iff_exists'.mp present
    obtain ⟨opened, _, size⟩ := open_members content key before port found begins.1
    obtain ⟨⟨other, m, same, written, low, high, _⟩, stack_used⟩ := used opened
    rw [found, Option.some.injEq] at same
    rw [← same] at written
    have equal : n = m := begins.2.symm.trans written.2
    refine ⟨by omega, by omega, ?_⟩
    intro stack m given number
    have product := stack_used stack m given number
    rwa [size stack given, atoi_digits stack number.1, number.2, stack_kept] at product
  · intro ranged opened
    obtain ⟨content, port, rfl, found, numbered⟩ := open_fails file key before opened
    obtain ⟨_, bound, size⟩ := open_members content key before port found numbered
    obtain ⟨low, high, sizes⟩ := ranged port _ (Option.some_ne_none content) found ⟨numbered, rfl⟩
    refine ⟨⟨port, _, found, ⟨numbered, rfl⟩, low, high, ?_⟩, ?_⟩
    · rw [bound, bound_small _ low high]
    · intro stack m given number
      rw [size stack given, atoi_digits stack number.1, number.2, stack_kept]
      exact sizes stack m given number

/-- Port -1 passes the test for negative numbers, and port 65535 is bound. -/
theorem port_wraps : ¬ ∀ (file : Option (List Byte)) (key : List Byte) (before : Configuration),
    UsedExactly file key before := by
  intro all
  have found : parameter (some (text "[Worker/Parameter]\n\"ListenPort\" = \"-1\""))
      (text "Worker") (text "ListenPort") = some (text "-1") := by
    decide +kernel
  have written : Begins (text "-1") (-1) := by
    unfold Begins
    decide +kernel
  obtain ⟨opened, _⟩ := open_members _ (text "Worker") ⟨0, 0, 0, 0⟩ _ found written.1
  obtain ⟨⟨port, n, same, begins, low, _⟩, _⟩ := all _ _ _ opened
  rw [found, Option.some.injEq] at same
  rw [← same] at begins
  have equal : (-1 : Int) = n := written.2.symm.trans begins.2
  omega

end AsrServer.Configured

import AsrServer.RequestHeader

/-!
`base64_encode` and `base64_decode`. The encoder collects three bytes in `char_array_3`
before it writes four characters, the decoder four characters in `char_array_4` before it
writes three bytes; what is left over at the end is filled up. The arithmetic is done in
`unsigned char`, as the arrays keep its low byte only.
-/

namespace AsrServer.Base64

open Bytes RequestHeader

def base64_chars : List Byte :=
  text "ABCDEFGHIJKLMNOPQRSTUVWXYZabcdefghijklmnopqrstuvwxyz0123456789+/"

def isalnum (c : Byte) : Bool := isDigit c || (65 ≤ c && c ≤ 90) || (97 ≤ c && c ≤ 122)

def is_base64 (c : Byte) : Bool := isalnum c || c == 43 || c == 47

/-- `char_array_4` from `char_array_3`. -/
def sextets (char_array_3 : List Byte) : List Byte :=
  let a := char_array_3.getD 0 0
  let b := char_array_3.getD 1 0
  let c := char_array_3.getD 2 0
  [(a &&& 0xfc) >>> 2, ((a &&& 0x03) <<< 4) + ((b &&& 0xf0) >>> 4),
    ((b &&& 0x0f) <<< 2) + ((c &&& 0xc0) >>> 6), c &&& 0x3f]

/-- `base64_chars[char_array_4[i]]`. -/
def letter (sextet : Byte) : Byte := base64_chars.getD sextet.toNat 0

/-- The loop of `base64_encode`: the group it ends in and `ret`. -/
def encode_loop (char_array_3 ret : List Byte) : List Byte → List Byte × List Byte
  | [] => (char_array_3, ret)
  | byte :: rest =>
      let char_array_3 := char_array_3 ++ [byte]
      if char_array_3.length = 3 then
        encode_loop [] (ret ++ (sextets char_array_3).map letter) rest
      else encode_loop char_array_3 ret rest

/-- What follows the loop. -/
def encode_last (char_array_3 ret : List Byte) : List Byte :=
  let i := char_array_3.length
  if i ≠ 0 then
    ret ++ ((sextets (char_array_3 ++ List.replicate (3 - i) 0)).take (i + 1)).map letter ++
      List.replicate (3 - i) 61
  else ret

def base64_encode (bytes_to_encode : List Byte) : List Byte :=
  let last := encode_loop [] [] bytes_to_encode
  encode_last last.1 last.2

/-- `base64_chars.find(char)` in an `unsigned char`; `npos` becomes 255. -/
def sextet (char : Byte) : Byte :=
  match find base64_chars [char] with
  | some pos => UInt8.ofNat pos
  | none => 255

/-- `char_array_3` from `char_array_4`. -/
def octets (char_array_4 : List Byte) : List Byte :=
  let a := char_array_4.getD 0 0
  let b := char_array_4.getD 1 0
  let c := char_array_4.getD 2 0
  let d := char_array_4.getD 3 0
  [(a <<< 2) + ((b &&& 0x30) >>> 4), ((b &&& 0xf) <<< 4) + ((c &&& 0x3c) >>> 2),
    ((c &&& 0x3) <<< 6) + d]

/-- The loop of `base64_decode`. At the end of the string stands its NUL, which is no
base64 character. -/
def decode_loop (in_len : Int) (char_array_4 ret : List Byte) :
    List Byte → List Byte × List Byte
  | [] => (char_array_4, ret)
  | char :: rest =>
      if in_len ≠ 0 ∧ char ≠ 61 ∧ is_base64 char then
        let char_array_4 := char_array_4 ++ [char]
        if char_array_4.length = 4 then
          decode_loop (in_len - 1) [] (ret ++ octets (char_array_4.map sextet)) rest
        else decode_loop (in_len - 1) char_array_4 ret rest
      else (char_array_4, ret)

def decode_last (char_array_4 ret : List Byte) : List Byte :=
  let i := char_array_4.length
  if i ≠ 0 then
    ret ++ (octets ((char_array_4 ++ List.replicate (4 - i) 0).map sextet)).take (i - 1)
  else ret

def base64_decode (encoded_string : List Byte) : List Byte :=
  let last := decode_loop (toInt encoded_string.length) [] [] encoded_string
  decode_last last.1 last.2

/-! The groups. -/

def groups : List Byte → List Byte
  | a :: b :: c :: rest => (sextets [a, b, c]).map letter ++ groups rest
  | [a, b] => ((sextets [a, b, 0]).take 3).map letter ++ [61]
  | [a] => ((sextets [a, 0, 0]).take 2).map letter ++ [61, 61]
  | [] => []

theorem encode_loop_groups (bytes ret : List Byte) :
    encode_last (encode_loop [] ret bytes).1 (encode_loop [] ret bytes).2 =
      ret ++ groups bytes := by
  induction bytes using groups.induct generalizing ret with
  | case1 a b c rest ih =>
      rw [groups, ← List.append_assoc]
      exact ih (ret ++ (sextets [a, b, c]).map letter)
  | case2 a b => simp [encode_loop, encode_last, groups]
  | case3 a => simp [encode_loop, encode_last, groups]
  | case4 => simp [encode_loop, encode_last, groups]

theorem base64_encode_groups (bytes : List Byte) : base64_encode bytes = groups bytes :=
  encode_loop_groups bytes []

/-! One letter. -/

theorem letter_sextet (value : Byte) (small : value.toNat < 64) :
    sextet (letter value) = value ∧ is_base64 (letter value) = true ∧ letter value ≠ 61 := by
  have all : ∀ code < 64, sextet (letter (UInt8.ofNat code)) = UInt8.ofNat code ∧
      is_base64 (letter (UInt8.ofNat code)) = true ∧ letter (UInt8.ofNat code) ≠ 61 := by
    decide +kernel
  have here := all value.toNat small
  rwa [UInt8.ofNat_toNat] at here

/-! One group. -/

theorem encoder_masks (byte : Byte) :
    ((byte &&& 0xfc) >>> 2).toNat = byte.toNat / 4 ∧
      ((byte &&& 0x03) <<< 4).toNat = byte.toNat % 4 * 16 ∧
      ((byte &&& 0xf0) >>> 4).toNat = byte.toNat / 16 ∧
      ((byte &&& 0x0f) <<< 2).toNat = byte.toNat % 16 * 4 ∧
      ((byte &&& 0xc0) >>> 6).toNat = byte.toNat / 64 ∧
      (byte &&& 0x3f).toNat = byte.toNat % 64 := by
  revert byte
  exact forall_byte (by decide +kernel)

theorem decoder_masks (byte : Byte) :
    (byte <<< 2).toNat = byte.toNat * 4 % 256 ∧
      ((byte &&& 0x30) >>> 4).toNat = byte.toNat / 16 % 4 ∧
      ((byte &&& 0xf) <<< 4).toNat = byte.toNat % 16 * 16 ∧
      ((byte &&& 0x3c) >>> 2).toNat = byte.toNat / 4 % 16 ∧
      ((byte &&& 0x3) <<< 6).toNat = byte.toNat % 4 * 64 := by
  revert byte
  exact forall_byte (by decide +kernel)

theorem toNat_ext {one other : List Byte} (same : one.map UInt8.toNat = other.map UInt8.toNat) :
    one = other :=
  List.map_injective_iff.mpr (fun _ _ => UInt8.toNat_inj.mp) same

theorem sextets_toNat (a b c : Byte) : (sextets [a, b, c]).map UInt8.toNat =
    [a.toNat / 4, a.toNat % 4 * 16 + b.toNat / 16, b.toNat % 16 * 4 + c.toNat / 64,
      c.toNat % 64] := by
  have first := encoder_masks a
  have second := encoder_masks b
  have third := encoder_masks c
  have bounds := And.intro a.toNat_lt (And.intro b.toNat_lt c.toNat_lt)
  simp only [sextets, List.getD_cons_zero, List.getD_cons_succ, List.map_cons, List.map_nil,
    UInt8.toNat_add, first, second, third]
  have upper : a.toNat % 4 * 16 + b.toNat / 16 < 2 ^ 8 := by omega
  have lower : b.toNat % 16 * 4 + c.toNat / 64 < 2 ^ 8 := by omega
  rw [Nat.mod_eq_of_lt upper, Nat.mod_eq_of_lt lower]

theorem sextets_small (a b c value : Byte) (member : value ∈ sextets [a, b, c]) :
    value.toNat < 64 := by
  have values := sextets_toNat a b c
  have bounds := And.intro a.toNat_lt (And.intro b.toNat_lt c.toNat_lt)
  have inside := List.mem_map_of_mem (f := UInt8.toNat) member
  rw [values] at inside
  simp only [List.mem_cons, List.not_mem_nil, or_false] at inside
  omega

theorem octets_toNat (a b c d : Byte) : (octets [a, b, c, d]).map UInt8.toNat =
    [(a.toNat * 4 + b.toNat / 16 % 4) % 256, (b.toNat % 16 * 16 + c.toNat / 4 % 16) % 256,
      (c.toNat % 4 * 64 + d.toNat) % 256] := by
  have first := decoder_masks a
  have second := decoder_masks b
  have third := decoder_masks c
  simp only [octets, List.getD_cons_zero, List.getD_cons_succ, List.map_cons, List.map_nil,
    UInt8.toNat_add, first, second, third]
  simp only [List.cons.injEq, and_true]
  omega

theorem octets_sextets (a b c : Byte) : octets (sextets [a, b, c]) = [a, b, c] := by
  have bounds := And.intro a.toNat_lt (And.intro b.toNat_lt c.toNat_lt)
  have values := sextets_toNat a b c
  obtain ⟨w, x, y, z, shape⟩ : ∃ w x y z, sextets [a, b, c] = [w, x, y, z] := ⟨_, _, _, _, rfl⟩
  rw [shape] at values ⊢
  simp only [List.map_cons, List.map_nil, List.cons.injEq, and_true] at values
  obtain ⟨first, second, third, fourth⟩ := values
  apply toNat_ext
  rw [octets_toNat, first, second, third, fourth]
  simp only [List.map_cons, List.map_nil, List.cons.injEq, and_true]
  omega

/-! The round trip. -/

theorem sextet_letters (values : List Byte) (small : ∀ value ∈ values, value.toNat < 64) :
    (values.map letter).map sextet = values := by
  induction values with
  | nil => rfl
  | cons value values ih =>
      rw [List.map_cons, List.map_cons, (letter_sextet value (small value (by simp))).1,
        ih fun other member => small other (List.mem_cons_of_mem _ member)]

theorem decode_loop_keeps (values more : List Byte) (in_len : Int) (group ret : List Byte)
    (small : ∀ value ∈ values, value.toNat < 64) (room : group.length + values.length < 4)
    (enough : values.length ≤ in_len) :
    decode_loop in_len group ret (values.map letter ++ more) =
      decode_loop (in_len - values.length) (group ++ values.map letter) ret more := by
  induction values generalizing group in_len with
  | nil => simp
  | cons value values ih =>
      have plain := letter_sextet value (small value (by simp))
      rw [List.length_cons] at room enough
      have open_group : (group ++ [letter value]).length ≠ 4 := by
        rw [List.length_append, List.length_singleton]
        omega
      rw [List.map_cons, List.cons_append, decode_loop,
        if_pos ⟨by omega, plain.2.2, plain.2.1⟩]
      dsimp only
      rw [if_neg open_group, ih]
      · simp only [List.length_cons, List.append_assoc, List.singleton_append]
        congr 1
        omega
      · exact fun other member => small other (List.mem_cons_of_mem _ member)
      · rw [List.length_append, List.length_singleton]
        omega
      · omega

theorem decode_loop_four (w x y z : Byte) (more : List Byte) (in_len : Int) (ret : List Byte)
    (small : ∀ value ∈ [w, x, y, z], value.toNat < 64) (enough : 4 ≤ in_len) :
    decode_loop in_len [] ret ([w, x, y, z].map letter ++ more) =
      decode_loop (in_len - 4) [] (ret ++ octets [w, x, y, z]) more := by
  have fourth := letter_sextet z (small z (by simp))
  have kept := decode_loop_keeps [w, x, y] (letter z :: more) in_len [] ret
    (fun value member => small value (List.mem_append_left [z] member)) (by simp)
    (by simpa using Int.le_trans (by decide) enough)
  change decode_loop in_len [] ret ([w, x, y].map letter ++ letter z :: more) = _
  rw [kept, decode_loop, if_pos ⟨by simp; omega, fourth.2.2, fourth.2.1⟩]
  have whole : [] ++ [w, x, y].map letter ++ [letter z] = [w, x, y, z].map letter := rfl
  have full : ([w, x, y, z].map letter).length = 4 := rfl
  dsimp only
  rw [whole, if_pos full, sextet_letters _ small]
  congr 1
  simp
  omega

theorem decode_loop_stops (in_len : Int) (group ret more : List Byte)
    (ends : ∀ char ∈ more.head?, is_base64 char = false) :
    decode_loop in_len group ret more = (group, ret) := by
  cases more with
  | nil => rfl
  | cons char rest =>
      have foreign := ends char rfl
      rw [decode_loop, if_neg (by simp [foreign])]

/-- A group that is cut short: the slots left over hold what `npos` becomes. -/
theorem decode_partial (values more : List Byte) (in_len : Int) (ret : List Byte)
    (small : ∀ value ∈ values, value.toNat < 64) (short : values.length < 4)
    (enough : values.length ≤ in_len) (ends : ∀ char ∈ more.head?, is_base64 char = false) :
    decode_last (decode_loop in_len [] ret (values.map letter ++ more)).1
        (decode_loop in_len [] ret (values.map letter ++ more)).2 =
      ret ++ (octets (values ++ List.replicate (4 - values.length) 255)).take
        (values.length - 1) := by
  have npos : sextet 0 = 255 := by decide +kernel
  rw [decode_loop_keeps values more in_len [] ret small (by simpa using short) enough,
    decode_loop_stops _ _ _ _ ends]
  dsimp only [decode_last]
  rw [List.nil_append, List.map_append, sextet_letters values small, List.map_replicate, npos,
    List.length_map]
  split
  · rfl
  · rename_i empty
    rw [not_not] at empty
    simp [empty]

def unpacked : List Byte → List Byte
  | a :: b :: c :: d :: rest => octets [a, b, c, d] ++ unpacked rest
  | [a, b, c] => (octets [a, b, c, 255]).take 2
  | [a, b] => (octets [a, b, 255, 255]).take 1
  | [_] => []
  | [] => []

/-- The decoder takes letters apart group by group, up to anything that is no letter. -/
theorem decode_values (values more : List Byte) (ret : List Byte) (in_len : Int)
    (small : ∀ value ∈ values, value.toNat < 64) (enough : values.length ≤ in_len)
    (ends : ∀ char ∈ more.head?, is_base64 char = false) :
    decode_last (decode_loop in_len [] ret (values.map letter ++ more)).1
      (decode_loop in_len [] ret (values.map letter ++ more)).2 = ret ++ unpacked values := by
  induction values using unpacked.induct generalizing ret in_len with
  | case1 a b c d rest ih =>
      -- Four letters fill `char_array_4`, and the loop goes on with it empty.
      have group : ∀ value ∈ [a, b, c, d], value.toNat < 64 := fun value member =>
        small value (List.mem_append_left rest member)
      simp only [List.length_cons] at enough
      have loop := decode_loop_four a b c d (rest.map letter ++ more) in_len ret group (by omega)
      have split : (a :: b :: c :: d :: rest).map letter ++ more =
          [a, b, c, d].map letter ++ (rest.map letter ++ more) := rfl
      rw [split, loop, ih _ _ (fun value member => small value (by simp [member])) (by omega),
        unpacked, List.append_assoc]
  | case2 a b c => exact decode_partial [a, b, c] more in_len ret small (by simp) enough ends
  | case3 a b => exact decode_partial [a, b] more in_len ret small (by simp) enough ends
  | case4 a => exact decode_partial [a] more in_len ret small (by simp) enough ends
  | case5 => exact decode_partial [] more in_len ret small (by simp) enough ends

/-- Values and padding that fill their last group, with no bit set behind the last byte. -/
structure Filled (values : List Byte) (pad : Nat) : Prop where
  small : ∀ value ∈ values, value.toNat < 64
  short : pad ≤ 2
  whole : (values.length + pad) % 4 = 0
  unused : ∀ last ∈ values.getLast?, last.toNat % 2 ^ (6 * values.length % 8) = 0

theorem Filled.pad_eq {values : List Byte} {pad : Nat} (filled : Filled values pad) :
    pad = (4 - values.length % 4) % 4 := by
  have whole := filled.whole
  have short := filled.short
  omega

theorem unused_append (group values : List Byte) (four : group.length = 4) :
    (∀ last ∈ (group ++ values).getLast?,
        last.toNat % 2 ^ (6 * (group ++ values).length % 8) = 0) ↔
      ∀ last ∈ values.getLast?, last.toNat % 2 ^ (6 * values.length % 8) = 0 := by
  cases values with
  | nil => simp [four, Nat.mod_one]
  | cons value values =>
      have same : 6 * (group ++ value :: values).length % 8 =
          6 * (value :: values).length % 8 := by
        rw [List.length_append, four]
        omega
      rw [same, List.getLast?_append_of_ne_nil group (List.cons_ne_nil value values)]

theorem Filled.append {group values : List Byte} {pad : Nat} (four : group.length = 4) :
    Filled (group ++ values) pad ↔ (∀ value ∈ group, value.toNat < 64) ∧ Filled values pad := by
  have lengths : ((group ++ values).length + pad) % 4 = (values.length + pad) % 4 := by
    rw [List.length_append, four]
    omega
  constructor
  · intro filled
    refine ⟨fun value member => filled.small value (List.mem_append_left _ member),
      fun value member => filled.small value (List.mem_append_right _ member), filled.short,
      lengths ▸ filled.whole, (unused_append group values four).mp filled.unused⟩
  · rintro ⟨small, filled⟩
    refine ⟨?_, filled.short, lengths.trans filled.whole,
      (unused_append group values four).mpr filled.unused⟩
    intro value member
    rcases List.mem_append.mp member with front | behind
    · exact small value front
    · exact filled.small value behind

theorem groups_filled (bytes : List Byte) : ∃ values pad, Filled values pad ∧
    groups bytes = values.map letter ++ List.replicate pad 61 ∧ unpacked values = bytes := by
  induction bytes using groups.induct with
  | case1 a b c rest ih =>
      obtain ⟨values, pad, filled, shape, back⟩ := ih
      have small := sextets_small a b c
      have bytes := octets_sextets a b c
      obtain ⟨w, x, y, z, letters⟩ : ∃ w x y z, sextets [a, b, c] = [w, x, y, z] :=
        ⟨_, _, _, _, rfl⟩
      rw [letters] at small bytes
      refine ⟨[w, x, y, z] ++ values, pad, (Filled.append rfl).mpr ⟨small, filled⟩, ?_, ?_⟩
      · rw [groups, letters, shape, List.map_append, List.append_assoc]
      · change octets [w, x, y, z] ++ unpacked values = a :: b :: c :: rest
        rw [bytes, back]
        rfl
  | case2 a b =>
      have small := sextets_small a b 0
      have bytes := octets_sextets a b 0
      have values := sextets_toNat a b 0
      obtain ⟨w, x, y, z, letters⟩ : ∃ w x y z, sextets [a, b, 0] = [w, x, y, z] :=
        ⟨_, _, _, _, rfl⟩
      rw [letters] at small bytes values
      -- The last value has four bits of `b` and two zeros.
      have third : y.toNat = b.toNat % 16 * 4 := by
        simp only [List.map_cons, List.cons.injEq] at values
        simpa using values.2.2.1
      refine ⟨[w, x, y], 1, ⟨?_, by decide, by simp, ?_⟩, ?_, congrArg (List.take 2) bytes⟩
      · exact fun value member => small value (List.mem_append_left [z] member)
      · intro last member
        have same : y = last := Option.some.inj member
        have width : 2 ^ (6 * [w, x, y].length % 8) = 4 := by simp
        rw [← same, width]
        omega
      · rw [groups, letters]
        rfl
  | case3 a =>
      have small := sextets_small a 0 0
      have bytes := octets_sextets a 0 0
      have values := sextets_toNat a 0 0
      obtain ⟨w, x, y, z, letters⟩ : ∃ w x y z, sextets [a, 0, 0] = [w, x, y, z] :=
        ⟨_, _, _, _, rfl⟩
      rw [letters] at small bytes values
      -- The last value has two bits of `a` and four zeros.
      have second : x.toNat = a.toNat % 4 * 16 := by
        simp only [List.map_cons, List.cons.injEq] at values
        simpa using values.2.1
      refine ⟨[w, x], 2, ⟨?_, by decide, by simp, ?_⟩, ?_, congrArg (List.take 1) bytes⟩
      · exact fun value member => small value (List.mem_append_left [y, z] member)
      · intro last member
        have same : x = last := Option.some.inj member
        have width : 2 ^ (6 * [w, x].length % 8) = 16 := by simp
        rw [← same, width]
        omega
      · rw [groups, letters]
        rfl
  | case4 => exact ⟨[], 0, ⟨by simp, by decide, rfl, by simp⟩, rfl, rfl⟩

theorem sextets_octets (a b c d : Byte) (small : ∀ value ∈ [a, b, c, d], value.toNat < 64) :
    sextets (octets [a, b, c, d]) = [a, b, c, d] := by
  have values := octets_toNat a b c d
  obtain ⟨x, y, z, bytes⟩ : ∃ x y z, octets [a, b, c, d] = [x, y, z] := ⟨_, _, _, rfl⟩
  rw [bytes] at values ⊢
  simp only [List.map_cons, List.map_nil, List.cons.injEq, and_true] at values
  simp only [List.mem_cons, List.not_mem_nil, or_false, forall_eq_or_imp, forall_eq] at small
  apply toNat_ext
  rw [sextets_toNat]
  simp only [List.map_cons, List.map_nil, List.cons.injEq, and_true]
  omega

/-- Without the bits behind it, the byte that the padding cuts is zero. -/
theorem octets_three (a b c : Byte) (zero : c.toNat % 4 = 0) :
    octets [a, b, c, 0] = (octets [a, b, c, 255]).take 2 ++ [0] := by
  apply toNat_ext
  rw [List.map_append, List.map_take, octets_toNat, octets_toNat, zero]
  rfl

theorem octets_two (a b : Byte) (zero : b.toNat % 16 = 0) :
    octets [a, b, 0, 0] = (octets [a, b, 255, 255]).take 1 ++ [0, 0] := by
  apply toNat_ext
  rw [List.map_append, List.map_take, octets_toNat, octets_toNat, zero]
  rfl

theorem filled_groups (values : List Byte) (pad : Nat) (filled : Filled values pad) :
    groups (unpacked values) = values.map letter ++ List.replicate pad 61 := by
  induction values using unpacked.induct with
  | case1 a b c d rest ih =>
      have four : [a, b, c, d].length = 4 := rfl
      obtain ⟨small, behind⟩ := (Filled.append four).mp filled
      have back := sextets_octets a b c d small
      obtain ⟨x, y, z, bytes⟩ : ∃ x y z, octets [a, b, c, d] = [x, y, z] := ⟨_, _, _, rfl⟩
      rw [bytes] at back
      rw [unpacked, bytes]
      change (sextets [x, y, z]).map letter ++ groups (unpacked rest) = _
      rw [back, ih behind]
      rfl
  | case2 a b c =>
      obtain rfl : pad = 1 := filled.pad_eq
      have small := filled.small
      -- The bits behind the second byte are zero, so the encoder gives `c` back.
      have zero : c.toNat % 4 = 0 := by simpa using filled.unused c rfl
      have back := sextets_octets a b c 0 (by simpa using small)
      obtain ⟨x, y, z, bytes⟩ : ∃ x y z, octets [a, b, c, 255] = [x, y, z] := ⟨_, _, _, rfl⟩
      rw [octets_three a b c zero, bytes] at back
      change sextets [x, y, 0] = [a, b, c, 0] at back
      rw [unpacked, bytes]
      change ((sextets [x, y, 0]).take 3).map letter ++ [61] = _
      rw [back]
      rfl
  | case3 a b =>
      obtain rfl : pad = 2 := filled.pad_eq
      have small := filled.small
      have zero : b.toNat % 16 = 0 := by simpa using filled.unused b rfl
      have back := sextets_octets a b 0 0 (by simpa using small)
      obtain ⟨x, y, z, bytes⟩ : ∃ x y z, octets [a, b, 255, 255] = [x, y, z] := ⟨_, _, _, rfl⟩
      rw [octets_two a b zero, bytes] at back
      change sextets [x, 0, 0] = [a, b, 0, 0] at back
      rw [unpacked, bytes]
      change ((sextets [x, 0, 0]).take 2).map letter ++ [61, 61] = _
      rw [back]
      rfl
  | case4 a =>
      -- One value alone fills no byte.
      have whole := filled.whole
      have short := filled.short
      simp only [List.length_cons, List.length_nil] at whole
      omega
  | case5 =>
      obtain rfl : pad = 0 := filled.pad_eq
      rfl

/-- What is decoded is what was encoded. -/
theorem base64_round_trip (bytes : List Byte) (short : (base64_encode bytes).length < 2 ^ 31) :
    base64_decode (base64_encode bytes) = bytes := by
  have length := toInt_eq (base64_encode bytes).length (by omega) (by omega)
  obtain ⟨values, pad, filled, shape, back⟩ := groups_filled bytes
  rw [base64_encode_groups, shape] at length ⊢
  have ends : ∀ char ∈ (List.replicate pad (61 : Byte)).head?, is_base64 char = false := by
    intro char member
    rw [List.eq_of_mem_replicate (List.mem_of_mem_head? member)]
    rfl
  dsimp only [base64_decode]
  rw [length, decode_values values _ [] _ filled.small (by simp) ends, back, List.nil_append]

/-- A group and one byte more. -/
theorem base64_round_trip_four :
    base64_encode [0, 255, 61, 16] = text "AP89EA==" ∧
      base64_decode (base64_encode [0, 255, 61, 16]) = [0, 255, 61, 16] :=
  ⟨by decide +kernel, base64_round_trip [0, 255, 61, 16] (by decide +kernel)⟩

end AsrServer.Base64

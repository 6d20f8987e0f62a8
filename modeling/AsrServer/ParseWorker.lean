import AsrServer.UrlCode

/-!
`Worker_Loader::parse_worker` up to the JSON texts: the body is decoded as a whole
through a buffer of 2048 bytes, then `parse_content` looks up each parameter in the
decoded text and decodes its value once more. Positions and lengths are kept in
`int`, as in the source.
-/

namespace AsrServer.ParseWorker

open Bytes UrlCode

inductive REQUEST_SOURCE where
  | DEFAULT_SOURCE
  | PLUGIN_SOURCE
  deriving DecidableEq, Repr

/-- What `parse_worker` makes of `worker->request` first. -/
def decode_request (request : List Byte) : List Byte :=
  let buf := url_utf8_decode request (toInt request.length) 2048
  if buf.length ≠ 0 then cstr buf else request

/-- A position stored in an `int`; `npos` becomes -1. -/
def intPos : Option Nat → Int
  | some pos => toInt pos
  | none => -1

@[simp] theorem intPos_none : intPos none = -1 := rfl

@[simp] theorem intPos_some (pos : Nat) : intPos (some pos) = toInt pos := rfl

/-- `parse_content`: the text it stores in `result` when it returns 0. -/
def parse_content (source : REQUEST_SOURCE) (key request : List Byte) : Option (List Byte) :=
  let found := intPos (find request key)
  if found < 0 then none
  else
    let key_start := toInt (found + key.length)
    let next := intPos (findFrom request (text "&") key_start)
    let key_end := if next < 0 then toInt request.length else next
    let key_len := toInt (key_end - key_start)
    let value := request.drop key_start.toNat
    let buf := match source with
      | .DEFAULT_SOURCE => url_utf8_decode value key_len 8191
      | .PLUGIN_SOURCE => url_utf16_decode value key_len 8191
    if 0 < buf.length ∧ buf.length ≤ 8191 then some (cstr buf) else none

/-- The strings `parse_worker` keeps the parameters in. -/
structure Texts where
  encode : List Byte
  type : List Byte
  deviceCxt : List Byte
  request : List Byte
  deriving DecidableEq, Repr

/-- `result` is cleared before the parameter is looked up. -/
def content (source : REQUEST_SOURCE) (key : String) (request : List Byte) : List Byte :=
  (parse_content source (text key) request).getD []

def texts (source : REQUEST_SOURCE) (request : List Byte) : Texts where
  encode := content source "encode=" request
  type := content source "type=" request
  deviceCxt := content source "deviceCxt=" request
  request := content source "request=" request

def force_query (source : REQUEST_SOURCE) (request : List Byte) : Bool :=
  content source "forcequery=" request == text "true"

/-! The first decoding step. -/

theorem decode_request_eq (request : List Byte) (short : request.length < 2 ^ 31) :
    decode_request request = cstr ((URLDecode request).take 2047) := by
  have whole := decode_loop_eq request [] 2047 (by decide)
  rw [List.append_nil] at whole
  rw [decode_request, url_utf8_decode, toInt_eq _ (by omega) (by omega), whole]
  by_cases nothing : request = []
  · simp [nothing, URLDecode, cstr]
  · rw [if_pos]
    rw [← decode_eq_nil request] at nothing
    simp [nothing]

theorem decode_loop_nil (room : Nat) (url : List Byte) (left : Int) (roomy : 0 < room) :
    decode_loop room url left = [] ↔ left ≤ 0 := by
  cases room with
  | zero => omega
  | succ room =>
      rw [decode_loop]
      split
      · split
        · simpa
        · split <;> simpa
      · simp only [true_iff]
        omega

theorem cstr_length (bytes : List Byte) : (cstr bytes).length ≤ bytes.length :=
  (List.takeWhile_sublist _).length_le

theorem cstr_clean (bytes : List Byte) : 0 ∉ cstr bytes := by
  intro member
  have nonzero := List.mem_takeWhile_imp member
  simp at nonzero

/-- The first step keeps the whole decoded body exactly when that fits the buffer
and holds no zero, or when the length wraps and there is nothing to decode. -/
theorem decode_request_iff (request : List Byte) :
    decode_request request = URLDecode request ↔
      ((URLDecode request).length ≤ 2047 ∧ 0 ∉ URLDecode request) ∨
        (toInt request.length ≤ 0 ∧ Unescaped request) := by
  have sizes := decode_length request
  rw [← decode_eq_self_iff]
  -- Below 2^31 bytes the length is the `int` it is stored in; beyond, the text is too long anyway.
  by_cases short : request.length < 2 ^ 31
  · rw [decode_request_eq request short, toInt_eq _ (by omega) (by omega)]
    constructor
    · intro same
      left
      constructor
      · have cut := cstr_length ((URLDecode request).take 2047)
        rw [same, List.length_take] at cut
        omega
      · rw [← same]
        exact cstr_clean _
    · rintro (⟨fits, clean⟩ | ⟨empty, _⟩)
      · rw [List.take_of_length_le fits, cstr_eq _ clean]
      · have nothing : request = [] := List.length_eq_zero_iff.mp (by omega)
        simp [nothing, URLDecode, cstr]
  · have long : ¬ (URLDecode request).length ≤ 2047 := by omega
    have room := decode_loop_length 2047 request (toInt request.length)
    have empty := decode_loop_nil 2047 request (toInt request.length) (by decide)
    simp only [long, false_and, false_or]
    -- A length that has wrapped below one decodes nothing, and the request stays as it is.
    by_cases wraps : toInt request.length ≤ 0
    · have nothing := empty.mpr wraps
      simp only [decode_request, url_utf8_decode, nothing, wraps, true_and]
      simp only [List.length_nil, ne_eq, not_true_eq_false, ↓reduceIte]
      exact eq_comm
    · simp only [wraps, false_and, iff_false]
      intro same
      have cut := cstr_length (decode_loop 2047 request (toInt request.length))
      have nonzero : (decode_loop 2047 request (toInt request.length)).length ≠ 0 := by
        rw [ne_eq, List.length_eq_zero_iff, empty]
        exact wraps
      rw [decode_request, url_utf8_decode] at same
      simp only [nonzero, ne_eq, not_false_eq_true, ↓reduceIte] at same
      rw [same] at cut
      omega

/-- A body of 2048 letters loses the last one, and an escaped zero loses everything. -/
theorem long_body_cut :
    decode_request (List.replicate 2048 97) ≠ URLDecode (List.replicate 2048 97) ∧
      decode_request (text "%00request=5") ≠ URLDecode (text "%00request=5") := by
  constructor
  · decide +kernel
  · decide +kernel

end AsrServer.ParseWorker

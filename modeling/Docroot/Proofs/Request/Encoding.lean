import Docroot.Request
import Mathlib.Data.List.Basic

/-!
# Encoded requests

A target can spell one request in many ways. Each character of the request
stands in it as it is, or as its UTF-8 bytes with `%` and two hexadecimal digits
for each, in either case (`Request.Encodes`); slashes can be put in front, and a
query or a fragment behind (`Request.IsTargetOf`).

All these targets are read as the same request (`ofTarget?_of_isTargetOf`): the
path is cut off before anything is decoded, it is decoded once, and what is
decoded is not cut again, so that an encoded `?`, `#` or `%` is a character of
the request.
-/

namespace Docroot.Request

/-- The hexadecimal digits for a value below sixteen, one in each case. -/
def hexDigits (value : Nat) : List Char := [value.digitChar, value.digitChar.toUpper]

/-- The characters spell these bytes, each as `%` and two hexadecimal digits. -/
inductive Escapes : List Char → List UInt8 → Prop
  | nil : Escapes [] []
  | cons {high low : Char} {code : List Char} {b : UInt8} {bytes : List UInt8} :
      high ∈ hexDigits (b.toNat / 16) → low ∈ hexDigits (b.toNat % 16) →
      Escapes code bytes → Escapes ('%' :: high :: low :: code) (b :: bytes)

/-- The characters spell this text: each character of the text as it is, or with
    all its bytes escaped. `%`, `?` and `#` never stand as they are. -/
inductive Encodes : List Char → List Char → Prop
  | nil : Encodes [] []
  | plain {c : Char} {code text : List Char} :
      c ∉ ['%', '?', '#'] → Encodes code text → Encodes (c :: code) (c :: text)
  | escaped {c : Char} {escapes code text : List Char} :
      Escapes escapes (String.utf8EncodeChar c) → Encodes code text →
      Encodes (escapes ++ code) (c :: text)

/-- The target asks for the request: it is the request encoded, with any number
    of slashes in front, and with nothing, a query or a fragment behind. -/
def IsTargetOf (request target : String) : Prop :=
  ∃ slashes code suffix,
    target.toList = List.replicate slashes '/' ++ code ++ suffix ∧
      Encodes code request.toList ∧ ∀ c ∈ suffix.head?, c = '?' ∨ c = '#'

/-- The request without the slashes it starts with. -/
def withoutSlashes (request : String) : String :=
  String.ofList (request.toList.dropWhile (· == '/'))

variable {code text rest suffix : List Char} {bytes : List UInt8} {c : Char}
  {request target : String}

/-! ## Decoding -/

/-- The digits for a value stand for it, and none of them ends a path. -/
theorem of_mem_hexDigits {value : Nat} {digit : Char} (hvalue : value < 16)
    (h : digit ∈ hexDigits value) :
    hexValue? digit = some (UInt8.ofNat value) ∧ endsPath digit = false := by
  have hall : ∀ v < 16, (hexDigits v).all (fun c =>
      hexValue? c == some (UInt8.ofNat v) && !endsPath c) = true := by decide
  simpa using List.all_eq_true.1 (hall value hvalue) digit h

/-- Two digits are read as the byte they spell. -/
theorem hexByte?_of_mem_hexDigits {high low : Char} {b : UInt8}
    (hhigh : high ∈ hexDigits (b.toNat / 16)) (hlow : low ∈ hexDigits (b.toNat % 16)) :
    hexByte? high low = some b := by
  have hb := b.toNat_lt
  rw [hexByte?, (of_mem_hexDigits (by omega) hhigh).1, (of_mem_hexDigits (by omega) hlow).1]
  simp only [Option.some.injEq]
  rw [← UInt8.toNat_inj]
  simp
  omega

/-- Escapes are decoded to the bytes they spell. -/
theorem percentDecode_escapes (h : Escapes code bytes) :
    percentDecode (code ++ rest) = bytes ++ percentDecode rest := by
  induction h with
  | nil => rfl
  | cons hhigh hlow _ ih =>
    simp only [List.cons_append, percentDecode, hexByte?_of_mem_hexDigits hhigh hlow, ih]

theorem percentDecode_cons_of_ne (hc : c ≠ '%') :
    percentDecode (c :: rest) = String.utf8EncodeChar c ++ percentDecode rest := by
  rw [percentDecode]
  exact fun _ _ _ h => absurd h hc

/-- What spells a text is decoded to the bytes of the text. -/
theorem percentDecode_encodes (h : Encodes code text) :
    percentDecode code = text.flatMap String.utf8EncodeChar := by
  induction h with
  | nil => rfl
  | plain hc _ ih =>
    rw [percentDecode_cons_of_ne (List.ne_of_not_mem_cons hc), ih, List.flatMap_cons]
  | escaped hescapes _ ih => rw [percentDecode_escapes hescapes, ih, List.flatMap_cons]

/-- The bytes of a text are read as the text. -/
theorem fromUTF8?_bytes (text : List Char) :
    String.fromUTF8? (text.flatMap String.utf8EncodeChar).toByteArray =
      some (String.ofList text) := by
  rw [String.fromUTF8?]
  exact dif_pos (String.ofList text).isValidUTF8

/-! ## Cutting -/

theorem endsPath_of_mem_escapes (h : Escapes code bytes) : ∀ c ∈ code, endsPath c = false := by
  induction h with
  | nil => exact fun c hc => absurd hc List.not_mem_nil
  | @cons high low code b bytes hhigh hlow _ ih =>
    have hb := b.toNat_lt
    intro c hc
    simp only [List.mem_cons] at hc
    rcases hc with rfl | rfl | rfl | hc
    · rfl
    · exact (of_mem_hexDigits (by omega) hhigh).2
    · exact (of_mem_hexDigits (by omega) hlow).2
    · exact ih c hc

/-- Nothing in what spells a text ends the path of a target. -/
theorem endsPath_of_mem_encodes (h : Encodes code text) : ∀ c ∈ code, endsPath c = false := by
  induction h with
  | nil => exact fun c hc => absurd hc List.not_mem_nil
  | plain hplain _ ih =>
    intro c hc
    rcases List.mem_cons.1 hc with rfl | hc
    · simp only [List.mem_cons, not_or] at hplain
      simp [endsPath, hplain]
    · exact ih c hc
  | escaped hescapes _ ih =>
    intro c hc
    exact (List.mem_append.1 hc).elim (endsPath_of_mem_escapes hescapes c) (ih c)

/-- The path of a target ends where a query or a fragment starts. -/
theorem takeWhile_append_suffix (hcode : ∀ c ∈ code, endsPath c = false)
    (hsuffix : ∀ c ∈ suffix.head?, c = '?' ∨ c = '#') :
    (code ++ suffix).takeWhile (fun c => !endsPath c) = code := by
  rw [List.takeWhile_append_of_pos fun c hc => by simp [hcode c hc]]
  cases suffix with
  | nil => simp
  | cons c suffix =>
    have hc : endsPath c = true := by
      simpa [endsPath] using hsuffix c rfl
    simp [hc]

/-! ## Targets -/

theorem Encodes.replicate_append (h : Encodes code text) (slashes : Nat) :
    Encodes (List.replicate slashes '/' ++ code) (List.replicate slashes '/' ++ text) := by
  induction slashes with
  | zero => exact h
  | succ slashes ih => exact .plain (by decide) ih

/-- A text without `%`, `?` and `#` spells itself. -/
theorem encodes_self (h : text.all (· ∉ ['%', '?', '#']) = true) : Encodes text text := by
  induction text with
  | nil => exact .nil
  | cons c text ih =>
    rw [List.all_cons, Bool.and_eq_true, decide_eq_true_iff] at h
    exact .plain h.1 (ih h.2)

/-- All targets that ask for a request are read as that request, without the
    slashes it starts with. -/
theorem ofTarget?_of_isTargetOf (h : IsTargetOf request target) :
    ofTarget? target = some (withoutSlashes request) := by
  obtain ⟨slashes, code, suffix, htarget, hencodes, hsuffix⟩ := h
  have hall := hencodes.replicate_append slashes
  have hslashes : (List.replicate slashes '/' ++ request.toList).dropWhile (· == '/') =
      request.toList.dropWhile (· == '/') := by
    rw [List.dropWhile_append_of_pos fun c hc => by simp [List.eq_of_mem_replicate hc]]
  simp only [ofTarget?, htarget, takeWhile_append_suffix (endsPath_of_mem_encodes hall) hsuffix,
    percentDecode_encodes hall, fromUTF8?_bytes, Option.map_some, String.toList_ofList, hslashes,
    withoutSlashes]

end Docroot.Request

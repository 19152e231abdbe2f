import Mathlib.Data.List.Basic
import Mathlib.Data.Nat.Basic

/-!
The base64 encoding with padding, and a decoder that takes it back.
-/
namespace Fries.Base64

variable {data : List UInt8} {b : UInt8} {i : Nat}

/-- The character of a number below 64. -/
def symbol (i : Nat) : UInt8 :=
  if i < 26 then (65 + i).toUInt8
  else if i < 52 then (71 + i).toUInt8
  else if i < 62 then (i - 4).toUInt8
  else if i = 62 then 43
  else 47

def padding : UInt8 := 61

def byte (n : Nat) : UInt8 := n.toUInt8

/-- Three bytes become four characters; one or two bytes at the end are padded. -/
def encode : List UInt8 → List UInt8
  | [] => []
  | [a] => [symbol (a.toNat / 4), symbol (a.toNat % 4 * 16), padding, padding]
  | [a, b] =>
    [symbol (a.toNat / 4), symbol (a.toNat % 4 * 16 + b.toNat / 16), symbol (b.toNat % 16 * 4),
      padding]
  | a :: b :: c :: rest =>
    symbol (a.toNat / 4) :: symbol (a.toNat % 4 * 16 + b.toNat / 16) ::
      symbol (b.toNat % 16 * 4 + c.toNat / 64) :: symbol (c.toNat % 64) :: encode rest

/-- The number of a character. -/
def index (b : UInt8) : Option Nat :=
  let n := b.toNat
  if 65 ≤ n ∧ n ≤ 90 then some (n - 65)
  else if 97 ≤ n ∧ n ≤ 122 then some (n - 71)
  else if 48 ≤ n ∧ n ≤ 57 then some (n + 4)
  else if n = 43 then some 62
  else if n = 47 then some 63
  else none

/-- The bytes of four characters each; padding is allowed at the end only. -/
def decode : List UInt8 → Option (List UInt8)
  | [] => some []
  | a :: b :: c :: d :: rest => do
    let i ← index a
    let j ← index b
    if c = padding ∧ d = padding ∧ rest = [] then
      return [byte (i * 4 + j / 16)]
    let k ← index c
    if d = padding ∧ rest = [] then
      return [byte (i * 4 + j / 16), byte (j % 16 * 16 + k / 4)]
    let l ← index d
    let tail ← decode rest
    return byte (i * 4 + j / 16) :: byte (j % 16 * 16 + k / 4) :: byte (k % 4 * 64 + l) :: tail
  | _ => none

theorem length_encode (data : List UInt8) :
    (encode data).length = 4 * ((data.length + 2) / 3) := by
  induction data using encode.induct with
  | case1 => rfl
  | case2 | case3 => simp [encode]
  | case4 a b c rest ih =>
    simp only [encode, List.length_cons, ih]
    omega

theorem symbol_visible (h : i < 64) : 33 ≤ (symbol i).toNat ∧ (symbol i).toNat ≤ 126 := by
  have hall : ∀ i < 64, 33 ≤ (symbol i).toNat ∧ (symbol i).toNat ≤ 126 := by decide
  exact hall i h

/-- The encoding has visible ASCII characters only. -/
theorem encode_visible (hb : b ∈ encode data) : 33 ≤ b.toNat ∧ b.toNat ≤ 126 := by
  induction data using encode.induct with
  | case1 => cases hb
  | case2 a =>
    have ha := a.toNat_lt
    simp only [encode, List.mem_cons, List.not_mem_nil, or_false] at hb
    rcases hb with rfl | rfl | rfl | rfl
    · exact symbol_visible (by omega)
    · exact symbol_visible (by omega)
    · decide
    · decide
  | case3 a b' =>
    have ha := a.toNat_lt
    have hb' := b'.toNat_lt
    simp only [encode, List.mem_cons, List.not_mem_nil, or_false] at hb
    rcases hb with rfl | rfl | rfl | rfl
    · exact symbol_visible (by omega)
    · exact symbol_visible (by omega)
    · exact symbol_visible (by omega)
    · decide
  | case4 a b' c rest ih =>
    have ha := a.toNat_lt
    have hb' := b'.toNat_lt
    have hc := c.toNat_lt
    simp only [encode, List.mem_cons] at hb
    rcases hb with rfl | rfl | rfl | rfl | hb
    · exact symbol_visible (by omega)
    · exact symbol_visible (by omega)
    · exact symbol_visible (by omega)
    · exact symbol_visible (by omega)
    · exact ih hb

theorem index_symbol (h : i < 64) : index (symbol i) = some i := by
  have hall : ∀ i < 64, index (symbol i) = some i := by decide
  exact hall i h

theorem symbol_ne_padding (h : i < 64) : symbol i ≠ padding := by
  have hall : ∀ i < 64, symbol i ≠ padding := by decide
  exact hall i h

theorem byte_eq {n : Nat} (h : n = b.toNat) : byte n = b := by
  subst h
  exact UInt8.ofNat_toNat

/-- What was encoded is decoded again. -/
theorem decode_encode (data : List UInt8) : decode (encode data) = some data := by
  induction data using encode.induct with
  | case1 => rfl
  | case2 a =>
    have ha := a.toNat_lt
    have hi : a.toNat / 4 < 64 := by omega
    have hj : a.toNat % 4 * 16 < 64 := by omega
    have hbyte : byte (a.toNat / 4 * 4 + a.toNat % 4 * 16 / 16) = a := byte_eq (by omega)
    simp only [encode, decode, index_symbol hi, index_symbol hj, Option.bind_eq_bind,
      Option.bind_some, and_self, if_true, Option.pure_def, hbyte]
  | case3 a b =>
    have ha := a.toNat_lt
    have hb := b.toNat_lt
    have hi : a.toNat / 4 < 64 := by omega
    have hj : a.toNat % 4 * 16 + b.toNat / 16 < 64 := by omega
    have hk : b.toNat % 16 * 4 < 64 := by omega
    have hfirst : byte (a.toNat / 4 * 4 + (a.toNat % 4 * 16 + b.toNat / 16) / 16) = a :=
      byte_eq (by omega)
    have hsecond : byte ((a.toNat % 4 * 16 + b.toNat / 16) % 16 * 16 +
        b.toNat % 16 * 4 / 4) = b := byte_eq (by omega)
    simp only [encode, decode, index_symbol hi, index_symbol hj, index_symbol hk,
      symbol_ne_padding hk, Option.bind_eq_bind, Option.bind_some, false_and, and_self, if_false,
      if_true, Option.pure_def, hfirst, hsecond]
  | case4 a b c rest ih =>
    have ha := a.toNat_lt
    have hb := b.toNat_lt
    have hc := c.toNat_lt
    have hi : a.toNat / 4 < 64 := by omega
    have hj : a.toNat % 4 * 16 + b.toNat / 16 < 64 := by omega
    have hk : b.toNat % 16 * 4 + c.toNat / 64 < 64 := by omega
    have hl : c.toNat % 64 < 64 := by omega
    have hfirst : byte (a.toNat / 4 * 4 + (a.toNat % 4 * 16 + b.toNat / 16) / 16) = a :=
      byte_eq (by omega)
    have hsecond : byte ((a.toNat % 4 * 16 + b.toNat / 16) % 16 * 16 +
        (b.toNat % 16 * 4 + c.toNat / 64) / 4) = b := byte_eq (by omega)
    have hthird : byte ((b.toNat % 16 * 4 + c.toNat / 64) % 4 * 64 + c.toNat % 64) = c :=
      byte_eq (by omega)
    simp only [encode, decode, index_symbol hi, index_symbol hj, index_symbol hk, index_symbol hl,
      symbol_ne_padding hk, symbol_ne_padding hl, Option.bind_eq_bind, Option.bind_some, false_and,
      if_false, Option.pure_def, hfirst, hsecond, hthird, ih]

end Fries.Base64

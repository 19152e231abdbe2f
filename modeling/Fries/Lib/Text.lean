import Mathlib.Data.List.Basic
import Mathlib.Data.Nat.Basic

/-!
Byte strings: cutting at a separator, splitting into fields around white space, and decimal
numbers of 64 bits.
-/
namespace Fries.Text

variable {α : Type}

/-- The bytes of a text that has only ASCII characters. -/
def ascii (s : String) : List UInt8 := s.toList.map fun c => c.toNat.toUInt8

section Cut

variable [DecidableEq α] {s : α} {x y x' y' l : List α}

/-- What stands before and after the first separator. -/
def cut (s : α) : List α → Option (List α × List α)
  | [] => none
  | a :: rest =>
    if a = s then some ([], rest) else (cut s rest).map fun p => (a :: p.1, p.2)

theorem eq_of_cut (h : cut s l = some (x, y)) : l = x ++ s :: y := by
  induction l generalizing x with
  | nil => cases h
  | cons a rest ih =>
    simp only [cut] at h
    split at h
    · rename_i heq
      cases h
      rw [heq]
      rfl
    · obtain ⟨⟨before, after⟩, hcut, hp⟩ := Option.map_eq_some_iff.mp h
      cases hp
      rw [ih hcut]
      rfl

theorem cut_append (hx : s ∉ x) : cut s (x ++ s :: y) = some (x, y) := by
  induction x with
  | nil => simp [cut]
  | cons a rest ih =>
    obtain ⟨hne, hrest⟩ := not_or.mp (mt List.mem_cons.mpr hx)
    simp [cut, Ne.symm hne, ih hrest]

/-- Texts without the separator in front of it are determined by the whole. -/
theorem append_cons_inj (hx : s ∉ x) (hx' : s ∉ x') (h : x ++ s :: y = x' ++ s :: y') :
    x = x' ∧ y = y' := by
  have hcut : cut s (x ++ s :: y) = some (x', y') := by rw [h, cut_append hx']
  rw [cut_append hx] at hcut
  cases hcut
  exact ⟨rfl, rfl⟩

end Cut

section Fields

variable {sep : List α → Nat} {s : α} {word current rest : List α} {words : List (List α)}

/-- The fields that are left, with a field begun and so many elements of a separator still to
skip. -/
def fieldsFrom (sep : List α → Nat) : Nat → List α → List α → List (List α)
  | _, current, [] => if current.isEmpty then [] else [current]
  | skip + 1, current, _ :: rest => fieldsFrom sep skip current rest
  | 0, current, a :: rest =>
    match sep (a :: rest) with
    | 0 => fieldsFrom sep 0 (current ++ [a]) rest
    | length + 1 =>
      (if current.isEmpty then [] else [current]) ++ fieldsFrom sep length [] rest

/-- The maximal parts without separators, where `sep` is the length of the separator that a text
begins with, zero if there is none. -/
def fields (sep : List α → Nat) (text : List α) : List (List α) := fieldsFrom sep 0 [] text

/-- No separator begins inside the word. -/
def Solid (sep : List α → Nat) (word : List α) : Prop := ∀ a ∈ word, ∀ rest, sep (a :: rest) = 0

theorem fieldsFrom_word (h : Solid sep word) :
    fieldsFrom sep 0 current (word ++ rest) = fieldsFrom sep 0 (current ++ word) rest := by
  induction word generalizing current with
  | nil => simp
  | cons a word ih =>
    have ha := h a List.mem_cons_self (word ++ rest)
    simp only [List.cons_append, fieldsFrom, ha]
    rw [ih fun b hb => h b (List.mem_cons_of_mem a hb), List.append_assoc]
    rfl

theorem fieldsFrom_end (hne : current ≠ []) : fieldsFrom sep 0 current [] = [current] := by
  cases current with
  | nil => exact absurd rfl hne
  | cons => rfl

theorem intercalate_cons (s : α) (word next : List α) (words : List (List α)) :
    List.intercalate [s] (word :: next :: words) =
      word ++ s :: List.intercalate [s] (next :: words) := by
  simp [List.intercalate]

theorem length_intercalate_le {size : Nat} (h : ∀ word ∈ words, word.length ≤ size) :
    (List.intercalate [s] words).length ≤ words.length * (size + 1) := by
  induction words with
  | nil => simp [List.intercalate]
  | cons word words ih =>
    have hword := h word List.mem_cons_self
    have hrest := ih fun w hw => h w (List.mem_cons_of_mem word hw)
    cases words with
    | nil =>
      simp [List.intercalate]
      omega
    | cons next words =>
      rw [intercalate_cons, List.length_append, List.length_cons, List.length_cons, Nat.succ_mul]
      omega

/-- Words with one separator in between are the fields of the whole. -/
theorem fields_intercalate (hs : ∀ rest, sep (s :: rest) = 1)
    (hwords : ∀ word ∈ words, word ≠ [] ∧ Solid sep word) :
    fields sep (List.intercalate [s] words) = words := by
  induction words with
  | nil => rfl
  | cons word words ih =>
    obtain ⟨hne, hsolid⟩ := hwords word List.mem_cons_self
    have hrest := ih fun w hw => hwords w (List.mem_cons_of_mem word hw)
    cases words with
    | nil =>
      have hword : fieldsFrom sep 0 [] (word ++ []) = fieldsFrom sep 0 ([] ++ word) [] :=
        fieldsFrom_word hsolid
      rw [List.append_nil, List.nil_append, fieldsFrom_end hne] at hword
      simpa [fields, List.intercalate] using hword
    | cons next words =>
      rw [intercalate_cons, fields, fieldsFrom_word hsolid, List.nil_append]
      simp only [fieldsFrom, hs, List.isEmpty_eq_false_iff.mpr hne]
      exact congrArg (word :: ·) hrest

end Fields

section Spaces

variable {a : UInt8} {rest : List UInt8}

/-- The length of the white space character in UTF-8 that a text begins with. -/
def spaceLength : List UInt8 → Nat
  | a :: b :: c :: _ =>
    if 9 ≤ a ∧ a ≤ 13 ∨ a = 32 then 1
    else if a = 0xC2 ∧ (b = 0x85 ∨ b = 0xA0) then 2
    else if a = 0xE1 ∧ b = 0x9A ∧ c = 0x80 then 3
    else if a = 0xE2 ∧ b = 0x80 ∧ (0x80 ≤ c ∧ c ≤ 0x8A ∨ c = 0xA8 ∨ c = 0xA9 ∨ c = 0xAF) then 3
    else if a = 0xE2 ∧ b = 0x81 ∧ c = 0x9F then 3
    else if a = 0xE3 ∧ b = 0x80 ∧ c = 0x80 then 3
    else 0
  | [a, b] =>
    if 9 ≤ a ∧ a ≤ 13 ∨ a = 32 then 1 else if a = 0xC2 ∧ (b = 0x85 ∨ b = 0xA0) then 2 else 0
  | [a] => if 9 ≤ a ∧ a ≤ 13 ∨ a = 32 then 1 else 0
  | [] => 0

theorem spaceLength_space : spaceLength (32 :: rest) = 1 := by
  rcases rest with _ | ⟨b, _ | ⟨c, rest⟩⟩ <;> rfl

/-- The characters of ASCII that can be seen. -/
def Visible (a : UInt8) : Prop := 33 ≤ a.toNat ∧ a.toNat ≤ 126

theorem spaceLength_visible (h : Visible a) : spaceLength (a :: rest) = 0 := by
  obtain ⟨hlow, hhigh⟩ := h
  have hspace : ¬ (9 ≤ a ∧ a ≤ 13 ∨ a = 32) := by
    rw [UInt8.le_iff_toNat_le, UInt8.le_iff_toNat_le, ← UInt8.toNat_inj]
    simp only [UInt8.reduceToNat]
    omega
  have hne : ∀ b : UInt8, 126 < b.toNat → a ≠ b := by
    rintro b hb rfl
    omega
  rcases rest with _ | ⟨b, _ | ⟨c, rest⟩⟩
  · simp [spaceLength, hspace]
  · simp [spaceLength, hspace, hne 0xC2 (by decide)]
  · simp [spaceLength, hspace, hne 0xC2 (by decide), hne 0xE1 (by decide), hne 0xE2 (by decide),
      hne 0xE3 (by decide)]

theorem solid_of_visible {word : List UInt8} (h : ∀ a ∈ word, Visible a) :
    Solid spaceLength word := fun a ha _ => spaceLength_visible (h a ha)

end Spaces

section Decimal

variable {n acc : Nat} {text : List UInt8} {m : Int}

def isDigit (b : UInt8) : Bool := 48 ≤ b.toNat && b.toNat ≤ 57

def digit (c : Char) : UInt8 := c.toNat.toUInt8

/-- The decimal digits of a number. -/
def formatNat (n : Nat) : List UInt8 := (Nat.toDigits 10 n).map digit

/-- A number in decimal, as `strconv.FormatInt` writes it. -/
def formatInt (n : Int) : List UInt8 :=
  if n < 0 then 45 :: formatNat n.natAbs else formatNat n.natAbs

def parseDigits : Nat → List UInt8 → Option Nat
  | acc, [] => some acc
  | acc, b :: rest =>
    if isDigit b = true then parseDigits (10 * acc + (b.toNat - 48)) rest else none

def parseNat (text : List UInt8) : Option Nat := if text.isEmpty then none else parseDigits 0 text

/-- A decimal number of 64 bits with an optional sign, as `strconv.ParseInt` reads it; `none` for
its syntax and range errors. -/
def parseInt (text : List UInt8) : Option Int :=
  match text with
  | 43 :: rest => (parseNat rest).bind fun n => if n < 9223372036854775808 then some n else none
  | 45 :: rest => (parseNat rest).bind fun n => if n ≤ 9223372036854775808 then some (-n) else none
  | _ => (parseNat text).bind fun n => if n < 9223372036854775808 then some n else none

theorem isDigit_of_parseDigits (h : parseDigits acc text = some n) :
    ∀ b ∈ text, isDigit b = true := by
  induction text generalizing acc with
  | nil => simp
  | cons a rest ih =>
    simp only [parseDigits] at h
    split at h
    · rename_i ha
      exact List.forall_mem_cons.mpr ⟨ha, ih h⟩
    · cases h

theorem isDigit_of_parseNat (h : parseNat text = some n) : ∀ b ∈ text, isDigit b = true := by
  simp only [parseNat] at h
  split at h
  · cases h
  · exact isDigit_of_parseDigits h

/-- A text that is a number has digits and signs only. -/
theorem mem_of_parseInt (h : parseInt text = some m) :
    ∀ b ∈ text, isDigit b = true ∨ b = 43 ∨ b = 45 := by
  simp only [parseInt] at h
  split at h
  · obtain ⟨n, hn, -⟩ := Option.bind_eq_some_iff.mp h
    intro b hb
    rcases List.mem_cons.mp hb with rfl | hb
    · exact .inr (.inl rfl)
    · exact .inl (isDigit_of_parseNat hn b hb)
  · obtain ⟨n, hn, -⟩ := Option.bind_eq_some_iff.mp h
    intro b hb
    rcases List.mem_cons.mp hb with rfl | hb
    · exact .inr (.inr rfl)
    · exact .inl (isDigit_of_parseNat hn b hb)
  · obtain ⟨n, hn, -⟩ := Option.bind_eq_some_iff.mp h
    exact fun b hb => .inl (isDigit_of_parseNat hn b hb)

theorem parseInt_lt (h : parseInt text = some m) : m < 9223372036854775808 := by
  simp only [parseInt] at h
  split at h
  all_goals
    obtain ⟨n, -, hn⟩ := Option.bind_eq_some_iff.mp h
    split at hn <;> cases hn
    omega

theorem digit_toNat {c : Char} (h : c.isDigit = true) :
    (digit c).toNat = c.toNat ∧ 48 ≤ c.toNat ∧ c.toNat ≤ 57 := by
  simp only [Char.isDigit, Bool.and_eq_true, decide_eq_true_eq] at h
  have hlow : 48 ≤ c.toNat := h.1
  have hhigh : c.toNat ≤ 57 := h.2
  refine ⟨?_, hlow, hhigh⟩
  simp only [digit, Nat.toUInt8, UInt8.toNat_ofNat']
  omega

theorem parseDigits_map {cs : List Char} (h : ∀ c ∈ cs, c.isDigit = true) :
    parseDigits acc (cs.map digit) = some (Nat.ofDigitChars 10 cs acc) := by
  induction cs generalizing acc with
  | nil => rfl
  | cons c cs ih =>
    obtain ⟨hbyte, hlow, hhigh⟩ := digit_toNat (h c List.mem_cons_self)
    have hdigit : isDigit (digit c) = true := by simp [isDigit, hbyte, hlow, hhigh]
    simp only [List.map_cons, parseDigits, hdigit, if_true, hbyte]
    rw [ih fun c hc => h c (List.mem_cons_of_mem _ hc), Nat.ofDigitChars_cons]
    rfl

theorem isDigit_of_mem_formatNat {b : UInt8} (h : b ∈ formatNat n) :
    48 ≤ b.toNat ∧ b.toNat ≤ 57 := by
  obtain ⟨c, hc, rfl⟩ := List.mem_map.mp h
  obtain ⟨hbyte, hlow, hhigh⟩ :=
    digit_toNat (Nat.isDigit_of_mem_toDigits (by decide) (by decide) hc)
  omega

theorem parseNat_formatNat (n : Nat) : parseNat (formatNat n) = some n := by
  have hne : formatNat n ≠ [] := by simp [formatNat, Nat.toDigits_ne_nil]
  have hdigits : ∀ c ∈ Nat.toDigits 10 n, c.isDigit = true :=
    fun c hc => Nat.isDigit_of_mem_toDigits (by decide) (by decide) hc
  rw [parseNat, List.isEmpty_eq_false_iff.mpr hne, formatNat, if_neg (by simp),
    parseDigits_map hdigits, Nat.ofDigitChars_ten_toDigits]

/-- A non-negative number of 64 bits is read back as it was written. -/
theorem parseInt_formatInt (hpos : 0 ≤ m) (hlt : m < 9223372036854775808) :
    parseInt (formatInt m) = some m := by
  obtain ⟨n, rfl⟩ := Int.eq_ofNat_of_zero_le hpos
  have hsmall : n < 9223372036854775808 := by omega
  have hformat : formatInt n = formatNat n := by simp [formatInt, Int.not_lt.mpr hpos]
  rw [hformat]
  unfold parseInt
  split
  · rename_i rest heq
    have hsign := isDigit_of_mem_formatNat (n := n) (b := 43) (by simp [heq])
    exact absurd hsign (by decide)
  · rename_i rest heq
    have hsign := isDigit_of_mem_formatNat (n := n) (b := 45) (by simp [heq])
    exact absurd hsign (by decide)
  · simp [parseNat_formatNat, hsmall]

end Decimal

end Fries.Text

import Velox.Lib.Runs
import Mathlib.Data.Nat.Digits.Lemmas

/-! Formatted output as in `include/printk.c`. What is printed is the sequence of characters
handed to `emit_char`. -/

namespace Velox

def byte (c : Char) : UInt8 := c.toUInt8

def digitTable (uppercase : Bool) : List UInt8 :=
  (if uppercase then "0123456789ABCDEF" else "0123456789abcdef").toList.map byte

/-- The loop over the digits with `room` bytes of `buf` left, the byte written last at the
front. A write behind the buffer is `none`. -/
def emitDigits (uppercase : Bool) (base : Nat) : Nat → Nat → List UInt8 → Option (List UInt8)
  | 0, value, buf => if value > 0 then none else some buf
  | room + 1, value, buf =>
    if value > 0 then do
      let digit ← (digitTable uppercase)[value % base]?
      emitDigits uppercase base room (value / base) (digit :: buf)
    else some buf

/-- The loop that pads up to `min_digits`. -/
def padZeros (minDigits : Int) : Nat → List UInt8 → Option (List UInt8)
  | 0, buf => if buf.length < minDigits then none else some buf
  | room + 1, buf => if buf.length < minDigits then padZeros minDigits room (byte '0' :: buf) else some buf

def emitUint (value base : Nat) (uppercase : Bool) (minDigits : Int) : Option (List UInt8) :=
  (if value = 0 then some [byte '0'] else emitDigits uppercase base 64 value []).bind fun buf =>
    padZeros minDigits (64 - buf.length) buf

def emitInt (value : Int) : Option (List UInt8) :=
  if value < 0 then
    (emitUint (((-(value + 1)).toNat + 1) % 2 ^ 64) 10 false 0).map (byte '-' :: ·)
  else emitUint value.toNat 10 false 0

/-- The slots of a `va_list`, and the string that a pointer stands for. -/
structure VaList where
  word : Nat → BitVec 64
  text : BitVec 64 → List UInt8

def emitString (args : VaList) (str : BitVec 64) : List UInt8 :=
  if str = 0 then "(null)".toList.map byte else (args.text str).takeWhile (· ≠ 0)

inductive LenMod where
  | none | l | ll | z
deriving DecidableEq

/-- The modifier at `p`, where the conversion character is, and the bytes that were read. -/
def lenMod (fmt : Nat → UInt8) (p : Nat) : LenMod × Nat × List Nat :=
  if fmt p = byte 'z' then (.z, p + 1, [p])
  else if fmt p = byte 'l' then
    if fmt (p + 1) = byte 'l' then (.ll, p + 2, [p, p + 1]) else (.l, p + 1, [p, p + 1])
  else (.none, p, [p])

/-- `va_arg` with the type that the modifier stands for. -/
def LenMod.signed : LenMod → BitVec 64 → Int
  | .none, word => (word.setWidth 32).toInt
  | _, word => word.toInt

def LenMod.unsigned : LenMod → BitVec 64 → Nat
  | .none, word => (word.setWidth 32).toNat
  | _, word => word.toNat

def LenMod.chars : LenMod → List UInt8
  | .none => []
  | .l => [byte 'l']
  | .ll => [byte 'l', byte 'l']
  | .z => [byte 'z']

/-- The switch on the conversion character: what is emitted, and how many slots are taken. -/
def convert (args : VaList) (arg : Nat) (len : LenMod) (c : UInt8) : Option (List UInt8 × Nat) :=
  let word := args.word arg
  if c = byte 'd' ∨ c = byte 'i' then (emitInt (len.signed word)).map (·, 1)
  else if c = byte 'u' then (emitUint (len.unsigned word) 10 false 0).map (·, 1)
  else if c = byte 'x' then (emitUint (len.unsigned word) 16 false 0).map (·, 1)
  else if c = byte 'X' then (emitUint (len.unsigned word) 16 true 0).map (·, 1)
  else if c = byte 'p' then (emitUint word.toNat 16 false 16).map (byte '0' :: byte 'x' :: ·, 1)
  else if c = byte 's' then some (emitString args word, 1)
  else if c = byte 'c' then some ([(word.setWidth 8).toNat.toUInt8], 1)
  else if c = byte '%' then some ([byte '%'], 0)
  else some (byte '%' :: len.chars ++ [c], 0)

/-- Where `fmt` points, the next slot, what was emitted and which bytes of the format were read. -/
structure Vprintk where
  pos : Nat := 0
  arg : Nat := 0
  out : List UInt8 := []
  reads : List Nat := []

/-- One round of the loop of `vprintk`; `none` is a fault in the buffer of a number. -/
def vprintkBody (fmt : Nat → UInt8) (args : VaList) (s : Vprintk) : Vprintk ⊕ Option Vprintk :=
  let reads := s.pos :: s.reads
  if fmt s.pos = 0 then .inr (some { s with reads })
  else if fmt s.pos ≠ byte '%' then .inl { s with pos := s.pos + 1, out := s.out ++ [fmt s.pos], reads }
  else
    let (len, p, more) := lenMod fmt (s.pos + 1)
    match convert args s.arg len (fmt p) with
    | none => .inr none
    | some (chars, used) =>
      .inl { pos := p + 1, arg := s.arg + used, out := s.out ++ chars, reads := p :: more ++ reads }

/-- `vprintk` on the format at the front of `fmt`, given up behind `fuel` rounds. -/
def vprintk (fmt : Nat → UInt8) (args : VaList) (fuel : Nat) : Option (Option Vprintk) :=
  Lib.loop (vprintkBody fmt args) fuel {}

section Numbers

variable {uppercase : Bool} {base value : Nat} {buf : List UInt8}

/-- The numeral of a value, without leading zeros. -/
def numeral (uppercase : Bool) (base value : Nat) : List UInt8 :=
  (Nat.toDigits base value).map fun c => byte (if uppercase then c.toUpper else c)

theorem digitTable_eq (digit : Nat) (small : digit < 16) : (digitTable uppercase)[digit]? =
    some (byte (if uppercase then digit.digitChar.toUpper else digit.digitChar)) := by
  cases uppercase <;> interval_cases digit <;> rfl

theorem numeral_of_le {value : Nat} (two : 1 < base) (more : base ≤ value) : numeral uppercase base value =
    numeral uppercase base (value / base) ++ numeral uppercase base (value % base) := by
  rw [numeral, Nat.toDigits_eq_if two, if_neg (by omega), List.map_append]
  rw [numeral, numeral, Nat.toDigits_of_lt_base (Nat.mod_lt value (by omega)), List.map_singleton]

theorem emitDigits_eq (two : 1 < base) (known : base ≤ 16) (positive : 0 < value) {room : Nat}
    (fits : value < base ^ room) : emitDigits uppercase base room value buf = some (numeral uppercase base value ++ buf) := by
  induction room generalizing value buf with
  | zero => simp at fits; omega
  | succ room ih =>
    have below := Nat.mod_lt value (show base > 0 by omega)
    have single : numeral uppercase base (value % base) =
        [byte (if uppercase then (value % base).digitChar.toUpper else (value % base).digitChar)] := by
      rw [numeral, Nat.toDigits_of_lt_base below, List.map_singleton]
    rw [emitDigits, if_pos positive, digitTable_eq _ (by omega), Option.bind_eq_bind, Option.bind_some]
    by_cases last : value < base
    · have done : ∀ buf, emitDigits uppercase base room 0 buf = some buf := by cases room <;> simp [emitDigits]
      grind [Nat.div_eq_of_lt, Nat.mod_eq_of_lt]
    · have smaller : value / base < base ^ room := Nat.div_lt_of_lt_mul (by grind)
      rw [ih (Nat.div_pos (by omega) (by omega)) smaller, numeral_of_le two (Nat.not_lt.mp last), single]
      simp

theorem padZeros_eq {minDigits : Int} {room : Nat} (enough : minDigits ≤ buf.length + room) :
    padZeros minDigits room buf = some (List.replicate (minDigits.toNat - buf.length) (byte '0') ++ buf) := by
  induction room generalizing buf with
  | zero => simp [padZeros, show ¬ (buf.length : Int) < minDigits by omega, show minDigits.toNat - buf.length = 0 by omega]
  | succ room ih =>
    rw [padZeros]
    split
    · rw [ih (by simp; omega), List.length_cons, show minDigits.toNat - buf.length =
        minDigits.toNat - (buf.length + 1) + 1 by omega, List.replicate_succ']
      simp
    · simp [show minDigits.toNat - buf.length = 0 by omega]

theorem emitUint_eq (two : 1 < base) (known : base ≤ 16) (fits : value < base ^ 64) {minDigits : Int}
    (small : minDigits ≤ 64) : emitUint value base uppercase minDigits =
      some (List.replicate (minDigits.toNat - (numeral uppercase base value).length) (byte '0') ++
        numeral uppercase base value) := by
  have filled : (if value = 0 then some [byte '0'] else emitDigits uppercase base 64 value []) =
      some (numeral uppercase base value) := by
    split
    · rename_i zero
      subst zero
      rw [numeral, Nat.toDigits_zero]
      cases uppercase <;> rfl
    grind [emitDigits_eq]
  rw [emitUint, filled, Option.bind_some]
  exact padZeros_eq (by omega)

/-- A decimal integer as it is read: a sign, then digits. -/
def readDecimal : List UInt8 → Int
  | [] => 0
  | c :: rest =>
    if c = byte '-' then -(Nat.ofDigitChars 10 (rest.map Char.ofUInt8) 0 : Int)
    else Nat.ofDigitChars 10 ((c :: rest).map Char.ofUInt8) 0

theorem ofDigitChars_numeral (value : Nat) :
    Nat.ofDigitChars 10 ((numeral false 10 value).map Char.ofUInt8) 0 = value := by
  have same : (numeral false 10 value).map Char.ofUInt8 = Nat.toDigits 10 value := by
    rw [numeral, List.map_map]
    refine (List.map_congr_left fun c member => ?_).trans (List.map_id _)
    have digit := Nat.isDigit_of_mem_toDigits (by decide) (by decide) member
    simp only [Char.isDigit, Bool.and_eq_true, decide_eq_true_eq] at digit
    have small : c.val.toNat < 256 := Nat.lt_of_le_of_lt (UInt32.le_iff_toNat_le.mp digit.2) (by decide)
    apply Char.ext
    apply UInt32.toNat_inj.mp
    show c.val.toUInt8.toUInt32.toNat = c.val.toNat
    rw [UInt8.toNat_toUInt32, UInt32.toNat_toUInt8, Nat.mod_eq_of_lt small]
  grind [Nat.ofDigitChars_toDigits]

theorem mem_digitTable (two : 1 < base) (known : base ≤ 16) (member : c ∈ numeral uppercase base value) :
    c ∈ (digitTable uppercase).take base := by
  induction value using Nat.strongRecOn with
  | ind value ih =>
    by_cases last : value < base
    · rw [numeral, Nat.toDigits_of_lt_base last, List.map_singleton, List.mem_singleton] at member
      have found := @digitTable_eq uppercase value (by omega)
      rw [← List.getElem?_take_of_lt last, ← member] at found
      grind
    · have more := Nat.not_lt.mp last
      rw [numeral_of_le two more] at member
      rcases List.mem_append.mp member with front | back
      · grind [Nat.div_lt_self]
      · exact ih _ ((Nat.mod_lt value (by omega)).trans_le more) back

theorem emitInt_eq (value : BitVec 64) : emitInt value.toInt =
    some ((if value.toInt < 0 then [byte '-'] else []) ++ numeral false 10 value.toInt.natAbs) := by
  have low := value.le_toInt
  have high := value.toInt_lt
  have number : ∀ n < 2 ^ 64, emitUint n 10 false 0 = some (numeral false 10 n) := by
    grind [emitUint_eq]
  rw [emitInt]
  split
  · -- `-(value + 1) + 1` does not overflow at the smallest value.
    rw [show ((-(value.toInt + 1)).toNat + 1) % 2 ^ 64 = value.toInt.natAbs by omega, number _ (by omega)]
    rfl
  · rw [show value.toInt.toNat = value.toInt.natAbs by omega, number _ (by omega)]
    rfl

theorem emitInt_signed (len : LenMod) (word : BitVec 64) : emitInt (len.signed word) =
    some ((if len.signed word < 0 then [byte '-'] else []) ++ numeral false 10 (len.signed word).natAbs) := by
  cases len with
  | none =>
    have wide : LenMod.none.signed word = ((word.setWidth 32).signExtend 64).toInt := by
      simp [LenMod.signed, BitVec.toInt_signExtend_of_le]
    rw [wide]
    exact emitInt_eq _
  | l | ll | z => exact emitInt_eq word

theorem emitUint_unsigned (two : 1 < base) (known : base ≤ 16) (wide : 2 ^ 64 ≤ base ^ 64) (len : LenMod) (word : BitVec 64) :
    emitUint (len.unsigned word) base uppercase 0 = some (numeral uppercase base (len.unsigned word)) := by
  have below : len.unsigned word < 2 ^ 64 := by
    cases len with
    | none => exact (BitVec.isLt _).trans (by decide)
    | l | ll | z => exact word.isLt
  grind [emitUint_eq]

theorem readDecimal_numeral (value : Nat) : readDecimal (numeral false 10 value) = value := by
  have read := ofDigitChars_numeral value
  cases text : numeral false 10 value with
  | nil =>
    rw [numeral, List.map_eq_nil_iff] at text
    exact absurd text Nat.toDigits_ne_nil
  | cons c rest =>
    have digit := mem_digitTable (by decide) (by decide) (show c ∈ numeral false 10 value by simp [text])
    have unsigned : c ≠ byte '-' := by
      rintro rfl
      revert digit
      decide
    rw [text] at read
    rw [readDecimal, if_neg unsigned, read]

end Numbers

/-- Numbers are printed as their numerals, padded with zeros, inside the buffer; a signed number
is read back from what is printed. -/
theorem emit_number_exact :
    (∀ (value : BitVec 64) (base : Nat) (uppercase : Bool) (minDigits : Int), base = 10 ∨ base = 16 → minDigits ≤ 64 →
      emitUint value.toNat base uppercase minDigits =
        some (List.replicate (minDigits.toNat - (numeral uppercase base value.toNat).length) (byte '0') ++
          numeral uppercase base value.toNat)) ∧
    ∀ value : BitVec 64, ∃ text, emitInt value.toInt = some text ∧ readDecimal text = value.toInt := by
  refine ⟨fun value base uppercase minDigits known small => ?_, fun value => ?_⟩
  · have word := value.isLt
    grind [emitUint_eq]
  · refine ⟨_, emitInt_eq value, ?_⟩
    split
    · rw [List.singleton_append, readDecimal, if_pos rfl, ofDigitChars_numeral]
      omega
    · rw [List.nil_append, readDecimal_numeral]
      omega

theorem emit_number_exact_min : emitUint 0xFF 16 true 4 = some ("00FF".toList.map byte) ∧
    ∃ text, emitInt (-(2 ^ 63)) = some text ∧ readDecimal text = -(2 ^ 63) := by
  obtain ⟨unsigned, signed⟩ := emit_number_exact
  exact ⟨unsigned 0xFF 16 true 4 (.inr rfl) (by decide), signed (BitVec.intMin 64)⟩

end Velox

import Velox.Kernel.PrintkFormat
import Mathlib.Data.PNat.Basic

namespace Velox

inductive ConvKind where
  | d | i | u | x | upperX | p | s | c
deriving DecidableEq

def ConvKind.char : ConvKind → UInt8
  | .d => byte 'd'
  | .i => byte 'i'
  | .u => byte 'u'
  | .x => byte 'x'
  | .upperX => byte 'X'
  | .p => byte 'p'
  | .s => byte 's'
  | .c => byte 'c'

/-- `%[0][width][.precision][l|ll|z]kind`. -/
structure Conversion where
  zero : Bool := false
  width : Option ℕ+ := none
  precision : Option Nat := none
  len : LenMod := .none
  kind : ConvKind

/-- What stands between the `%` and the length modifier. -/
def Conversion.flags (conv : Conversion) : List UInt8 :=
  (if conv.zero then [byte '0'] else []) ++ conv.width.elim [] (fun width => numeral false 10 width) ++
    conv.precision.elim [] (fun precision => byte '.' :: numeral false 10 precision)

def Conversion.text (conv : Conversion) : List UInt8 :=
  byte '%' :: conv.flags ++ conv.len.chars ++ [conv.kind.char]

/-- A character of the text, `%%`, or a conversion. -/
inductive Piece where
  | literal (c : UInt8) (real : c ≠ 0) (plain : c ≠ byte '%')
  | percent
  | conversion (conv : Conversion)

def Piece.text : Piece → List UInt8
  | .literal c _ _ => [c]
  | .percent => [byte '%', byte '%']
  | .conversion conv => conv.text

namespace Conversion

variable (conv : Conversion) (args : VaList) (word : BitVec 64)

/-- Blanks on the left up to the width. -/
def field (text : List UInt8) : List UInt8 :=
  List.replicate (conv.width.elim 0 PNat.val - text.length) (byte ' ') ++ text

/-- At least as many digits as the precision says, and none for a zero of precision zero. -/
def number (uppercase : Bool) (base value : Nat) : List UInt8 :=
  match conv.precision with
  | none => numeral uppercase base value
  | some precision =>
    if precision = 0 ∧ value = 0 then []
    else List.replicate (precision - (numeral uppercase base value).length) (byte '0') ++ numeral uppercase base value

/-- The flag `0` pads behind the sign, unless there is a precision. -/
def integer (sign digits : List UInt8) : List UInt8 :=
  if conv.zero ∧ conv.precision = none then
    sign ++ List.replicate (conv.width.elim 0 PNat.val - (sign ++ digits).length) (byte '0') ++ digits
  else conv.field (sign ++ digits)

/-- What `printf` prints for the conversion; a pointer has always 16 digits. -/
def reference : List UInt8 :=
  match conv.kind with
  | .d | .i =>
    let value := conv.len.signed word
    conv.integer (if value < 0 then [byte '-'] else []) (conv.number false 10 value.natAbs)
  | .u => conv.integer [] (conv.number false 10 (conv.len.unsigned word))
  | .x => conv.integer [] (conv.number false 16 (conv.len.unsigned word))
  | .upperX => conv.integer [] (conv.number true 16 (conv.len.unsigned word))
  | .p =>
    let digits := numeral false 16 word.toNat
    conv.field (byte '0' :: byte 'x' :: (List.replicate (16 - digits.length) (byte '0') ++ digits))
  | .s => conv.field (conv.precision.elim (emitString args word) ((emitString args word).take ·))
  | .c => conv.field [(word.setWidth 8).toNat.toUInt8]

/-- Neither flag nor width nor precision. -/
def Plain : Prop := conv.zero = false ∧ conv.width = none ∧ conv.precision = none

instance : Decidable conv.Plain := inferInstanceAs (Decidable (_ ∧ _ ∧ _))

end Conversion

def formatText (pieces : List Piece) : List UInt8 := pieces.flatMap Piece.text

/-- The output of a piece where `arg` is the next argument, and how many arguments it takes. -/
def Piece.reference (args : VaList) (arg : Nat) : Piece → List UInt8 × Nat
  | .literal c _ _ => ([c], 0)
  | .percent => ([byte '%'], 0)
  | .conversion conv => (conv.reference args (args.word arg), 1)

/-- `vprintk` prints a conversion that is not plain as it stands, from no argument. -/
def Piece.printed (args : VaList) (arg : Nat) : Piece → List UInt8 × Nat
  | .conversion conv => if conv.Plain then (conv.reference args (args.word arg), 1) else (conv.text, 0)
  | piece => piece.reference args arg

def output (render : Nat → Piece → List UInt8 × Nat) : Nat → List Piece → List UInt8
  | _, [] => []
  | arg, piece :: rest => (render arg piece).1 ++ output render (arg + (render arg piece).2) rest

/-- The `k`-th conversion from the `k`-th argument, everything else unchanged. -/
def referencePrintf (args : VaList) (pieces : List Piece) : List UInt8 := output (Piece.reference args) 0 pieces

section Prints

variable {fmt : Nat → UInt8} {args : VaList} {s t : Vprintk} {rest : List UInt8} {conv : Conversion}

/-- The run goes on behind `text`, with `chars` printed from `used` arguments. -/
def Prints (fmt : Nat → UInt8) (args : VaList) (s : Vprintk) (size used : Nat) (chars : List UInt8) : Prop :=
  ∃ reads, ∀ t, s.Ends fmt args t ↔ Vprintk.Ends fmt args ⟨s.pos + size, s.arg + used, s.out ++ chars, reads⟩ t

theorem prints_literals (text : List UInt8) (string : CString fmt s.pos (text ++ rest)) (plain : byte '%' ∉ text) :
    Prints fmt args s text.length 0 text := by
  induction text generalizing s with
  | nil => exact ⟨s.reads, fun t => by simp⟩
  | cons c text ih =>
    obtain ⟨here, real, behind⟩ := string
    obtain ⟨different, plain⟩ := not_or.mp (List.mem_cons.not.mp plain)
    have pass := @body_literal fmt args s _ here real (Ne.symm different)
    obtain ⟨reads, onward⟩ := @ih ⟨s.pos + 1, s.arg, s.out ++ [c], s.pos :: s.reads⟩ behind plain
    refine ⟨reads, fun t => (ends_iff_of_inl pass).trans ((onward t).trans ?_)⟩
    grind

theorem lenMod_chars (len : LenMod) {p : Nat} (string : CString fmt p (len.chars ++ c :: rest)) (notZ : c ≠ byte 'z')
    (notL : c ≠ byte 'l') : ∃ more, lenMod fmt p = (len, p + len.chars.length, more) ∧ fmt (p + len.chars.length) = c := by
  have other : byte 'l' ≠ byte 'z' := by decide
  cases len with
  | none => exact ⟨[p], by simp [lenMod, LenMod.chars, string.1, notZ, notL], string.1⟩
  | l => exact ⟨[p, p + 1], by simp [lenMod, LenMod.chars, string.1, string.2.2.1, other, notL], string.2.2.1⟩
  | ll => exact ⟨[p, p + 1], by simp [lenMod, LenMod.chars, string.1, string.2.2.1, other], string.2.2.2.2.1⟩
  | z => exact ⟨[p], by simp [lenMod, LenMod.chars, string.1], string.2.2.1⟩

theorem convert_kind (plain : conv.Plain) (args : VaList) (arg : Nat) :
    convert args arg conv.len conv.kind.char = some (conv.reference args (args.word arg), 1) := by
  obtain ⟨zero, width, precision⟩ := plain
  obtain ⟨_, _, _, len, kind⟩ := conv
  subst zero width precision
  have pointer := @emitUint_eq false 16 (args.word arg).toNat (by decide) (by decide) ((args.word arg).isLt.trans (by decide)) 16 (by decide)
  cases kind <;> simp +decide [convert, ConvKind.char, Conversion.reference, Conversion.integer, Conversion.number,
    Conversion.field, emitInt_signed, emitUint_unsigned, pointer]

/-- The characters of flags, widths and precisions. -/
def flagChars : List UInt8 := byte '.' :: (digitTable false).take 10

theorem Conversion.mem_flags (member : c ∈ conv.flags) : c ∈ flagChars := by
  have digit : ∀ {value}, c ∈ numeral false 10 value → c ∈ flagChars := fun member =>
    List.mem_cons_of_mem _ (mem_digitTable (by decide) (by decide) member)
  rw [Conversion.flags, List.mem_append, List.mem_append] at member
  rcases member with (flag | width) | precision
  · split at flag
    · rw [List.mem_singleton.mp flag]
      decide
    · cases flag
  · cases chosen : conv.width with
    | none => simp [chosen] at width
    | some value =>
      grind
  · cases chosen : conv.precision with
    | none => grind
    | some value =>
      rw [chosen] at precision
      rcases List.mem_cons.mp precision with rfl | precision
      · decide
      · exact digit precision

theorem Conversion.flags_ne_nil (rich : ¬ conv.Plain) : conv.flags ≠ [] := by
  intro empty
  simp only [Conversion.flags, List.append_eq_nil_iff] at empty
  obtain ⟨⟨zero, width⟩, precision⟩ := empty
  refine rich ⟨by simpa using zero, ?_, ?_⟩
  · cases chosen : conv.width with
    | none => rfl
    | some value => simp [chosen, numeral] at width
  · cases chosen : conv.precision with
    | none => rfl
    | some value => grind

theorem convert_flag (flag : c ∈ flagChars) (args : VaList) (arg : Nat) :
    convert args arg .none c = some ([byte '%', c], 0) := by
  have unknown : ∀ c ∈ flagChars, (¬ (c = byte 'd' ∨ c = byte 'i') ∧ c ≠ byte 'u' ∧ c ≠ byte 'x' ∧ c ≠ byte 'X') ∧
      c ≠ byte 'p' ∧ c ≠ byte 's' ∧ c ≠ byte 'c' ∧ c ≠ byte '%' := @of_decide_eq_true _ (List.decidableBAll ..) rfl
  obtain ⟨⟨d, u, x, upperX⟩, p, s, c', percent⟩ := unknown c flag
  simp only [convert, if_neg d, if_neg u, if_neg x, if_neg upperX, if_neg p, if_neg s, if_neg c', if_neg percent]
  rfl

theorem Conversion.mem_tail (conv : Conversion) :
    ∀ c ∈ conv.flags ++ conv.len.chars ++ [conv.kind.char], c ≠ byte '%' ∧ c ≠ 0 := by
  have known : ∀ c ∈ flagChars, c ≠ byte '%' ∧ c ≠ 0 := @of_decide_eq_true _ (List.decidableBAll ..) rfl
  have modifier : ∀ len : LenMod, ∀ c ∈ len.chars, c ≠ byte '%' ∧ c ≠ 0 := by
    intro len
    cases len <;> exact @of_decide_eq_true _ (List.decidableBAll ..) rfl
  intro c member
  rcases List.mem_append.mp member with front | kind
  · rcases List.mem_append.mp front with flag | len
    · grind [mem_flags]
    grind
  · rw [List.mem_singleton.mp kind]
    cases conv.kind <;> decide

theorem Prints.of_body {p : Nat} (here : fmt s.pos = byte '%') (modifier : lenMod fmt (s.pos + 1) = (len, p, more))
    (converted : convert args s.arg len (fmt p) = some (chars, used)) (place : p + 1 = s.pos + size) :
    Prints fmt args s size used chars :=
  ⟨_, fun _ => place ▸ ends_iff_of_inl (body_conversion here modifier converted)⟩

theorem prints_piece (piece : Piece) (string : CString fmt s.pos (piece.text ++ rest)) :
    Prints fmt args s piece.text.length (piece.printed args s.arg).2 (piece.printed args s.arg).1 := by
  cases piece with
  | literal c real plain => exact prints_literals [c] string (by simpa using plain.symm)
  | percent =>
    obtain ⟨here, -, second, -, behind⟩ := string
    have modifier : lenMod fmt (s.pos + 1) = (.none, s.pos + 1, [s.pos + 1]) := by simp +decide [lenMod, second]
    refine .of_body here modifier ?_ rfl
    rw [second]
    rfl
  | conversion conv =>
    obtain ⟨here, -, behind⟩ := string
    rw [Piece.printed]
    split
    · rename_i plain
      have bare : conv.flags = [] := by simp [Conversion.flags, plain.1, plain.2.1, plain.2.2]
      have behind : CString fmt (s.pos + 1) (conv.len.chars ++ conv.kind.char :: rest) := by
        simpa [bare] using behind
      obtain ⟨more, modifier, kind⟩ := lenMod_chars conv.len behind (by cases conv.kind <;> decide) (by cases conv.kind <;> decide)
      refine .of_body here modifier (kind ▸ convert_kind plain args s.arg) ?_
      simp [Piece.text, Conversion.text, bare]
      omega
    · -- The `%` and the first character of the flags are one round, the others literals.
      rename_i rich
      have tail := conv.mem_tail
      rw [Piece.text, Conversion.text]
      cases flags : conv.flags with
      | nil => exact absurd flags (Conversion.flags_ne_nil rich)
      | cons c more =>
        have member : c ∈ conv.flags := by simp [flags]
        have flag := Conversion.mem_flags member
        have unknown : ∀ c ∈ flagChars, c ≠ byte 'z' ∧ c ≠ byte 'l' := @of_decide_eq_true _ (List.decidableBAll ..) rfl
        obtain ⟨notZ, notL⟩ := unknown c flag
        rw [flags] at behind tail
        obtain ⟨first, -, behind⟩ := behind
        have modifier : lenMod fmt (s.pos + 1) = (.none, s.pos + 1, [s.pos + 1]) := by simp [lenMod, first, notZ, notL]
        have pass := body_conversion here modifier (first ▸ convert_flag flag args s.arg)
        obtain ⟨reads, onward⟩ := @prints_literals fmt args ⟨s.pos + 1 + 1, _, _, _⟩ rest (more ++ conv.len.chars ++ [conv.kind.char]) behind
          (fun member => (tail _ (List.mem_cons_of_mem _ member)).1 rfl)
        refine ⟨reads, fun t => (ends_iff_of_inl pass).trans ((onward t).trans (Iff.of_eq ?_))⟩
        congr 2
        · simp
          omega
        · simp [first]

theorem prints_pieces (pieces : List Piece) (string : CString fmt s.pos (formatText pieces)) :
    ∃ t, s.Ends fmt args t ∧ t.out = s.out ++ output (Piece.printed args) s.arg pieces := by
  induction pieces generalizing s with
  | nil => exact ⟨_, (ends_terminator string).mpr rfl, by simp [output]⟩
  | cons piece rest ih =>
    obtain ⟨reads, onward⟩ := prints_piece piece string
    obtain ⟨t, ends, out⟩ := @ih ⟨_, _, _, reads⟩ (string.append _ _)
    exact ⟨t, (onward t).mpr ends, by rw [out, output, List.append_assoc]⟩

theorem output_of_plain {pieces : List Piece} (plain : ∀ conv, .conversion conv ∈ pieces → conv.Plain) (arg : Nat) :
    output (Piece.printed args) arg pieces = output (Piece.reference args) arg pieces := by
  induction pieces generalizing arg with
  | nil => rfl
  | cons piece rest ih =>
    have same : piece.printed args arg = piece.reference args arg := by
      cases piece with
      | conversion conv => exact if_pos (plain conv List.mem_cons_self)
      | literal | percent => rfl
    rw [output, output, same, ih fun conv member => plain conv (List.mem_cons_of_mem _ member)]

theorem Conversion.eq_zero_of_mem_number (member : c ∈ conv.number uppercase base 0) : c = byte '0' := by
  have zero : numeral uppercase base 0 = [byte '0'] := by
    rw [numeral, Nat.toDigits_zero]
    cases uppercase <;> rfl
  rw [Conversion.number, zero] at member
  grind

theorem Conversion.mem_of_mem_field (member : c ∈ conv.field chars) : c = byte ' ' ∨ c ∈ chars :=
  (List.mem_append.mp member).imp_left List.eq_of_mem_replicate

/-- Zeros do not bring a `%` into the output. -/
theorem percent_not_mem_reference (conv : Conversion) : byte '%' ∉ conv.reference noArgs 0 := by
  have field : ∀ {chars}, byte '%' ∉ chars → byte '%' ∉ conv.field chars := fun absent member =>
    (Conversion.mem_of_mem_field member).elim (by decide) absent
  have number : ∀ uppercase base, byte '%' ∉ conv.integer [] (conv.number uppercase base 0) := by
    intro uppercase base
    have digits : byte '%' ∉ conv.number uppercase base 0 := fun member =>
      absurd (Conversion.eq_zero_of_mem_number member) (by decide)
    rw [Conversion.integer]
    split
    · intro member
      rcases List.mem_append.mp member with pad | digit
      · exact absurd (List.eq_of_mem_replicate pad) (by decide)
      · exact digits digit
    · exact field digits
  have signed : conv.len.signed 0 = 0 := by cases conv.len <;> rfl
  have unsigned : conv.len.unsigned 0 = 0 := by cases conv.len <;> rfl
  rw [Conversion.reference, signed, unsigned]
  cases conv.kind with
  | d | i | u | x | upperX => exact number _ _
  | p => exact field (by decide)
  | s =>
    refine field ?_
    cases conv.precision with
    | none => decide
    | some precision => exact fun member => absurd (List.mem_of_mem_take member) (by decide)
  | c => exact field (by decide)

def Piece.rich : Piece → Bool
  | .conversion conv => !conv.Plain
  | _ => false

/-- With zeros for arguments, every conversion that is not plain is one more `%`. -/
theorem count_percent (pieces : List Piece) (arg arg' : Nat) :
    (output (Piece.reference noArgs) arg pieces).count (byte '%') + pieces.countP Piece.rich ≤
      (output (Piece.printed noArgs) arg' pieces).count (byte '%') := by
  induction pieces generalizing arg arg' with
  | nil => simp [output]
  | cons piece rest ih =>
    rw [output, output, List.count_append, List.count_append, List.countP_cons]
    have later := ih (arg + (piece.reference noArgs arg).2) (arg' + (piece.printed noArgs arg').2)
    suffices here : (piece.reference noArgs arg).1.count (byte '%') + (if piece.rich then 1 else 0) ≤
        (piece.printed noArgs arg').1.count (byte '%') by omega
    cases piece with
    | literal | percent => exact le_rfl
    | conversion conv =>
      have absent : (conv.reference noArgs 0).count (byte '%') = 0 := List.count_eq_zero.mpr (percent_not_mem_reference conv)
      simp only [Piece.reference, Piece.printed, Piece.rich, noArgs] at absent ⊢
      rw [absent]
      by_cases plain : conv.Plain
      · simp [plain]
      · simp [plain, Conversion.text]

theorem cString_getD (chars : List UInt8) (real : 0 ∉ chars) (p : Nat) (before : List UInt8) (place : before.length = p) :
    CString (fun i => (before ++ chars).getD i 0) p chars := by
  induction chars generalizing p before with
  | nil => simp [CString, ← place]
  | cons c chars ih =>
    obtain ⟨nonzero, real⟩ := not_or.mp (List.mem_cons.not.mp real)
    refine ⟨by simp [← place], fun zero => nonzero zero.symm, ?_⟩
    simpa using ih real (p + 1) (before ++ [c]) (by simp [place])

theorem zero_not_mem_text (piece : Piece) : 0 ∉ piece.text := by
  cases piece with
  | literal c real plain => simpa [Piece.text] using real.symm
  | percent => decide
  | conversion conv =>
    intro member
    rcases List.mem_cons.mp member with percent | tail
    · cases percent
    · exact (conv.mem_tail 0 tail).2 rfl

theorem cString_formatText (pieces : List Piece) :
    CString (fun i => (formatText pieces).getD i 0) 0 (formatText pieces) := by
  refine cString_getD (formatText pieces) ?_ 0 [] rfl
  intro member
  obtain ⟨piece, -, member⟩ := List.mem_flatMap.mp member
  exact zero_not_mem_text piece member

end Prints

/-- The output is that of the reference for all arguments iff no conversion of the format has a
flag, a width or a precision. -/
theorem printk_reference_iff (pieces : List Piece) :
    (∀ fmt args, CString fmt 0 (formatText pieces) →
      ∃ fuel t, vprintk fmt args fuel = some (some t) ∧ t.out = referencePrintf args pieces) ↔
      ∀ conv, .conversion conv ∈ pieces → conv.Plain := by
  constructor
  · intro same conv member
    by_contra rich
    -- With zeros for arguments the two outputs do not have the same number of `%`.
    have string : CString (fun i => (formatText pieces).getD i 0) 0 (formatText pieces) := cString_formatText pieces
    obtain ⟨fuel, t, ended, out⟩ := same _ noArgs string
    obtain ⟨t', ⟨fuel', ended'⟩, out'⟩ := @prints_pieces _ noArgs {} pieces string
    cases Lib.loop_unique ended ended'
    have count := count_percent pieces 0 0
    rw [List.nil_append, out, referencePrintf] at out'
    rw [out'] at count
    dsimp only at count
    have present : 0 < pieces.countP Piece.rich := List.countP_pos_iff.mpr ⟨_, member, by simpa [Piece.rich] using rich⟩
    omega
  · intro plain fmt args string
    obtain ⟨t, ⟨fuel, ended⟩, out⟩ := @prints_pieces fmt args {} pieces string
    exact ⟨fuel, t, ended, by rw [out, output_of_plain plain]; rfl⟩

/-- `%02x:%u` with 5 and 7: the first conversion is printed as it stands, and the second one
gets the first argument. -/
theorem printk_shifts_arguments :
    let args : VaList := ⟨fun k => if k = 0 then 5 else 7, fun _ => []⟩
    let pieces : List Piece := [.conversion { zero := true, width := some 2, kind := .x },
      .literal (byte ':') (by decide) (by decide), .conversion { kind := .u }]
    formatText pieces = "%02x:%u".toList.map byte ∧ referencePrintf args pieces = "05:7".toList.map byte ∧
      ∃ t, vprintk (inMemory "%02x:%u") args 8 = some (some t) ∧ t.out = "%02x:5".toList.map byte :=
  ⟨by decide, by decide, _, rfl, by decide⟩

end Velox

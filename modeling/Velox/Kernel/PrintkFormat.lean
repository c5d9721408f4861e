import Velox.Kernel.Printk

namespace Velox

/-- The string at `p`, up to its terminator. -/
def CString (fmt : Nat → UInt8) : Nat → List UInt8 → Prop
  | p, [] => fmt p = 0
  | p, c :: rest => fmt p = c ∧ c ≠ 0 ∧ CString fmt (p + 1) rest

section Runs

variable {fmt : Nat → UInt8} {args : VaList} {s t : Vprintk} {format rest : List UInt8}

theorem CString.append {p : Nat} (first second : List UInt8) (string : CString fmt p (first ++ second)) :
    CString fmt (p + first.length) second := by
  induction first generalizing p with
  | nil => exact string
  | cons c first ih => simpa [Nat.add_assoc, Nat.add_comm 1] using ih string.2.2

/-- The run from `s` ends in `t`. -/
def Vprintk.Ends (fmt : Nat → UInt8) (args : VaList) (s t : Vprintk) : Prop :=
  ∃ fuel, Lib.loop (vprintkBody fmt args) fuel s = some (some t)

theorem ends_iff_of_inl {s' : Vprintk} (pass : vprintkBody fmt args s = .inl s') : s.Ends fmt args t ↔ s'.Ends fmt args t := by
  constructor
  · rintro ⟨fuel, ended⟩
    cases fuel with
    | zero => cases ended
    | succ fuel =>
      rw [Lib.loop, pass] at ended
      exact ⟨fuel, ended⟩
  · rintro ⟨fuel, ended⟩
    exact ⟨fuel + 1, by rw [Lib.loop, pass]; exact ended⟩

theorem ends_terminator (stop : fmt s.pos = 0) : s.Ends fmt args t ↔ t = { s with reads := s.pos :: s.reads } := by
  have pass : vprintkBody fmt args s = .inr (some { s with reads := s.pos :: s.reads }) := by simp [vprintkBody, stop]
  constructor
  · rintro ⟨fuel, ended⟩
    cases fuel with
    | zero => cases ended
    | succ fuel =>
      rw [Lib.loop, pass] at ended
      grind
  · rintro rfl
    exact ⟨1, by rw [Lib.loop, pass]⟩

/-- The buffer of a number is never left. -/
theorem convert_isSome (args : VaList) (arg : Nat) (len : LenMod) (c : UInt8) :
    ∃ chars used, convert args arg len c = some (chars, used) := by
  simp only [convert, emitInt_signed]
  rw [emitUint_unsigned (by decide) (by decide) (by decide), emitUint_unsigned (by decide) (by decide) (by decide),
    emitUint_unsigned (by decide) (by decide) (by decide),
    emitUint_eq (by decide) (by decide) ((args.word arg).isLt.trans (by decide)) (by decide)]
  split_ifs <;> exact ⟨_, _, rfl⟩

theorem body_literal (here : fmt s.pos = c) (real : c ≠ 0) (plain : c ≠ byte '%') : vprintkBody fmt args s =
    .inl { s with pos := s.pos + 1, out := s.out ++ [c], reads := s.pos :: s.reads } := by
  subst here
  simp [vprintkBody, real, plain]

theorem body_conversion {p : Nat} (here : fmt s.pos = byte '%') (modifier : lenMod fmt (s.pos + 1) = (len, p, more))
    (converted : convert args s.arg len (fmt p) = some (chars, used)) : vprintkBody fmt args s =
      .inl ⟨p + 1, s.arg + used, s.out ++ chars, p :: more ++ s.pos :: s.reads⟩ := by
  have real : byte '%' ≠ 0 := by decide
  simp [vprintkBody, here, real, modifier, converted]

end Runs

/-- What a format string has left open: nothing, or a conversion behind its `%`, behind one `l`,
or behind the whole modifier. -/
inductive Pending where
  | text | percent | l | conversion
deriving DecidableEq

def Pending.next : Pending → UInt8 → Pending
  | .text, c => if c = byte '%' then .percent else .text
  | .percent, c => if c = byte 'z' then .conversion else if c = byte 'l' then .l else .text
  | .l, c => if c = byte 'l' then .conversion else .text
  | .conversion, _ => .text

/-- The last conversion is not cut short by the end. -/
def Complete (format : List UInt8) : Prop := format.foldl Pending.next .text = .text

instance (format : List UInt8) : Decidable (Complete format) := inferInstanceAs (Decidable (_ = _))

section Reads

variable {fmt : Nat → UInt8} {args : VaList} {s t : Vprintk} {rest : List UInt8}

/-- The conversion character is in the string, or it is its terminator. -/
theorem lenMod_cases {p : Nat} (string : CString fmt p rest) : ∃ len k more, lenMod fmt p = (len, p + k, more) ∧
    (∀ place ∈ more, place ≤ p + k) ∧
    (k < rest.length ∧ (rest.take (k + 1)).foldl Pending.next .percent = .text ∨
      k = rest.length ∧ rest.foldl Pending.next .percent ≠ .text) := by
  have z : byte 'z' ≠ 0 := by decide
  have l : byte 'l' ≠ 0 := by decide
  have other : byte 'l' ≠ byte 'z' := by decide
  cases rest with
  | nil =>
    have stop : fmt p = 0 := string
    exact ⟨.none, 0, [p], by simp [lenMod, stop, z.symm, l.symm], by simp, .inr ⟨rfl, by simp⟩⟩
  | cons c rest =>
    obtain ⟨here, -, behind⟩ := string
    by_cases isZ : c = byte 'z'
    · refine ⟨.z, 1, [p], by simp [lenMod, here, isZ], by simp, ?_⟩
      cases rest <;> simp [Pending.next, isZ]
    by_cases isL : c = byte 'l'
    · cases rest with
      | nil =>
        have stop : fmt (p + 1) = 0 := behind
        exact ⟨.l, 1, [p, p + 1], by simp [lenMod, here, isL, other, stop, l.symm], by simp,
          .inr ⟨rfl, by simp [Pending.next, isL, other]⟩⟩
      | cons d rest =>
        obtain ⟨second, -, -⟩ := behind
        by_cases again : d = byte 'l'
        · refine ⟨.ll, 2, [p, p + 1], by simp [lenMod, here, isL, other, second, again], by simp, ?_⟩
          cases rest <;> simp [Pending.next, isL, other, again]
        · exact ⟨.l, 1, [p, p + 1], by simp [lenMod, here, isL, other, second, again], by simp,
            .inl ⟨by simp, by simp [Pending.next, isL, other, again]⟩⟩
    · exact ⟨.none, 0, [p], by simp [lenMod, here, isZ, isL], by simp, .inl ⟨by simp, by simp [Pending.next, isZ, isL]⟩⟩

theorem Vprintk.Ends.reads (ends : s.Ends fmt args t) : s.pos ∈ t.reads := by
  obtain ⟨fuel, ended⟩ := ends
  refine Lib.loop_result (fun u : Vprintk => u.pos = s.pos ∨ s.pos ∈ u.reads)
    (fun result => ∀ u, result = some u → s.pos ∈ u.reads) ?_ ?_ (.inl rfl) ended t rfl
  · intro u next holds pass
    simp only [vprintkBody] at pass
    grind
  · intro u result holds pass v same
    simp only [vprintkBody] at pass
    grind

/-- From a place inside the string, the run ends and stays inside iff no conversion is cut short. -/
theorem ends_inside_iff {last : Nat} (string : CString fmt s.pos rest) (place : s.pos + rest.length = last)
    (inside : ∀ p ∈ s.reads, p ≤ last) :
    (∃ t, s.Ends fmt args t ∧ ∀ p ∈ t.reads, p ≤ last) ↔ Complete rest := by
  induction length : rest.length using Nat.strongRecOn generalizing rest s with
  | ind size ih =>
    subst length
    cases rest with
    | nil =>
      have stop : fmt s.pos = 0 := string
      simp only [ends_terminator stop, exists_eq_left, List.forall_mem_cons]
      exact iff_of_true ⟨by omega, inside⟩ rfl
    | cons c rest =>
      obtain ⟨here, real, behind⟩ := string
      rw [List.length_cons] at place
      by_cases percent : c = byte '%'
      · subst percent
        obtain ⟨len, k, more, modifier, within, open'⟩ := lenMod_cases behind
        obtain ⟨chars, used, converted⟩ := convert_isSome args s.arg len (fmt (s.pos + 1 + k))
        simp only [ends_iff_of_inl (body_conversion here modifier converted)]
        rw [Complete, List.foldl_cons, show Pending.text.next (byte '%') = .percent from rfl]
        rcases open' with ⟨shorter, closed⟩ | ⟨whole, cut⟩
        · have split' := List.take_append_drop (k + 1) rest
          rw [← split', List.foldl_append, closed]
          refine ih (rest.drop (k + 1)).length (by simp) ?_ ?_ ?_ rfl
          · rw [← split'] at behind
            have next := behind.append
            rwa [List.length_take, Nat.min_eq_left (by omega), ← Nat.add_assoc] at next
          · simp
            omega
          · intro p member
            simp only [List.cons_append, List.mem_cons, List.mem_append] at member
            rcases member with rfl | member | rfl | member
            · omega
            · grind
            · omega
            · exact inside p member
        · refine iff_of_false ?_ cut
          rintro ⟨t, ends, inside⟩
          have beyond := inside _ ends.reads
          grind
      · simp only [ends_iff_of_inl (body_literal here real percent)]
        rw [Complete, List.foldl_cons, Pending.next, if_neg percent]
        refine ih rest.length (by simp) behind (by dsimp only; omega) ?_ rfl
        grind

end Reads

/-- `vprintk` returns without a read behind the terminator iff the format does not end inside a
conversion. -/
theorem vprintk_inside_iff {fmt : Nat → UInt8} {format : List UInt8} (string : CString fmt 0 format) (args : VaList) :
    (∃ fuel t, vprintk fmt args fuel = some (some t) ∧ ∀ p ∈ t.reads, p ≤ format.length) ↔ Complete format := by
  rw [← @ends_inside_iff fmt args {} format _ string (Nat.zero_add _) (by simp)]
  constructor
  · rintro ⟨fuel, t, ended, inside⟩
    exact ⟨t, ⟨fuel, ended⟩, inside⟩
  · rintro ⟨t, ⟨fuel, ended⟩, inside⟩
    exact ⟨fuel, t, ended, inside⟩

/-- A string in memory, with another one behind its terminator. -/
def inMemory (format : String) : Nat → UInt8 := fun i => (format.toList.map byte ++ [0, byte 'A', 0]).getD i 0

def noArgs : VaList := ⟨fun _ => 0, fun _ => []⟩

theorem vprintk_inside_iff_unsigned :
    ∃ fuel t, vprintk (inMemory "%u%%") noArgs fuel = some (some t) ∧ ∀ p ∈ t.reads, p ≤ 4 := by
  have string : CString (inMemory "%u%%") 0 ("%u%%".toList.map byte) :=
    ⟨rfl, by decide, rfl, by decide, rfl, by decide, rfl, by decide, rfl⟩
  exact (vprintk_inside_iff string noArgs).mpr (by decide)

/-- The format `%`: the terminator is taken for the conversion character, and the scan goes on behind it. -/
theorem vprintk_leaves_format :
    ∃ t, vprintk (inMemory "%") noArgs 3 = some (some t) ∧ t.out = [byte '%', 0, byte 'A'] ∧ ∃ p ∈ t.reads, p > 1 :=
  ⟨_, rfl, by decide, by decide⟩

end Velox

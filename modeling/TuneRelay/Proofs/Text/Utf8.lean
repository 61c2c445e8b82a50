import TuneRelay.Text
import Mathlib.Data.List.Infix
import Mathlib.Algebra.Order.Ring.Nat

/-!
# Reading UTF-8 that may be broken

Where a character begins, it is read. Where none does, the longest part that could begin one is
replaced, or a single byte if there is no such part. This settles what any bytes are read as, and
reading one byte at a time comes to it.
-/
namespace TuneRelay.Text
open String (utf8EncodeChar)

/-- The first part of bytes with which no character begins: the longest one that begins a character,
or else one byte. -/
structure BrokenPart (piece rest : List UInt8) : Prop where
  nonempty : piece ≠ []
  unreadable : ∀ c, ¬ utf8EncodeChar c <+: piece ++ rest
  begins : piece.length = 1 ∨ ∃ c, piece <+: utf8EncodeChar c
  longest : ∀ more c, more <+: piece ++ rest → more <+: utf8EncodeChar c →
    more.length ≤ piece.length

/-- Bytes are read as characters, with one replacement for each broken part. -/
inductive LossyReading : List UInt8 → List Char → Prop
  | done : LossyReading [] []
  | char (c : Char) {rest : List UInt8} {text : List Char} (h : LossyReading rest text) :
    LossyReading (utf8EncodeChar c ++ rest) (c :: text)
  | broken {piece rest : List UInt8} {text : List Char} (hpiece : BrokenPart piece rest)
    (h : LossyReading rest text) : LossyReading (piece ++ rest) (replacement :: text)

/-- The number of bytes of a code point. -/
def codeWidth (code : Nat) : Nat :=
  if code < 0x80 then 1 else if code < 0x800 then 2 else if code < 0x10000 then 3 else 4

theorem toNat_lt (c : Char) : c.toNat < 0x110000 := by
  have hvalid : c.toNat.isValidChar := c.valid
  rcases hvalid with h | h
  · omega
  · exact h.2

theorem map_toNat_utf8EncodeChar (c : Char) : (utf8EncodeChar c).map UInt8.toNat =
    if c.toNat < 0x80 then [c.toNat]
    else if c.toNat < 0x800 then [0xC0 + c.toNat / 64, 0x80 + c.toNat % 64]
    else if c.toNat < 0x10000 then
      [0xE0 + c.toNat / 4096, 0x80 + c.toNat / 64 % 64, 0x80 + c.toNat % 64]
    else
      [0xF0 + c.toNat / 262144, 0x80 + c.toNat / 4096 % 64, 0x80 + c.toNat / 64 % 64,
        0x80 + c.toNat % 64] := by
  have hmax := toNat_lt c
  have hcode : c.val.toNat = c.toNat := rfl
  unfold utf8EncodeChar
  simp only [hcode]
  generalize c.toNat = code at hmax
  -- the masks of the encoding change nothing, as the code points of each width are small enough
  by_cases h₁ : code < 0x80
  · rw [if_pos (by omega), if_pos h₁]
    simp only [List.map_cons, List.map_nil, UInt8.toNat_ofNat']
    congr 1
    omega
  by_cases h₂ : code < 0x800
  · rw [if_neg (by omega), if_pos (by omega), if_neg h₁, if_pos h₂]
    simp only [List.map_cons, List.map_nil, UInt8.toNat_ofNat', List.cons.injEq, and_true]
    omega
  by_cases h₃ : code < 0x10000
  · rw [if_neg (by omega), if_neg (by omega), if_pos (by omega), if_neg h₁, if_neg h₂, if_pos h₃]
    simp only [List.map_cons, List.map_nil, UInt8.toNat_ofNat', List.cons.injEq, and_true]
    omega
  · rw [if_neg (by omega), if_neg (by omega), if_neg (by omega), if_neg h₁, if_neg h₂, if_neg h₃]
    simp only [List.map_cons, List.map_nil, UInt8.toNat_ofNat', List.cons.injEq, and_true]
    omega

theorem length_eq_codeWidth (c : Char) : (utf8EncodeChar c).length = codeWidth c.toNat := by
  rw [← List.length_map UInt8.toNat, map_toNat_utf8EncodeChar, codeWidth]
  split
  · rfl
  · split
    · rfl
    · split <;> rfl

/-- The first byte of a character tells its width. -/
theorem singleton_prefix_iff {b : UInt8} {c : Char} : [b] <+: utf8EncodeChar c ↔ b.toNat =
    if c.toNat < 0x80 then c.toNat
    else if c.toNat < 0x800 then 0xC0 + c.toNat / 64
    else if c.toNat < 0x10000 then 0xE0 + c.toNat / 4096
    else 0xF0 + c.toNat / 262144 := by
  have hbytes := map_toNat_utf8EncodeChar c
  have hhead : [b] <+: utf8EncodeChar c ↔
      ((utf8EncodeChar c).map UInt8.toNat).head? = some b.toNat := by
    cases utf8EncodeChar c with
    | nil => simp
    | cons a rest => simp [UInt8.toNat_inj, eq_comm]
  rw [hhead, hbytes]
  split
  · simp [eq_comm]
  · split
    · simp [eq_comm]
    · split <;> simp [eq_comm]

/-- All later bytes hold six bits each, the highest first. -/
theorem getElem?_utf8EncodeChar {c : Char} {j m : Nat} (hj : 0 < j)
    (hwidth : codeWidth c.toNat = j + (m + 1)) :
    ((utf8EncodeChar c)[j]?).map UInt8.toNat = some (0x80 + c.toNat / 64 ^ m % 64) := by
  rw [← List.getElem?_map, map_toNat_utf8EncodeChar]
  unfold codeWidth at hwidth
  split at hwidth
  · omega
  · split at hwidth
    · obtain ⟨rfl, rfl⟩ : j = 1 ∧ m = 0 := by omega
      simp [*]
    · split at hwidth
      · obtain ⟨rfl, rfl⟩ | ⟨rfl, rfl⟩ : (j = 1 ∧ m = 1) ∨ (j = 2 ∧ m = 0) := by omega
        all_goals simp [*]
      · obtain ⟨rfl, rfl⟩ | ⟨rfl, rfl⟩ | ⟨rfl, rfl⟩ :
          (j = 1 ∧ m = 2) ∨ (j = 2 ∧ m = 1) ∨ (j = 3 ∧ m = 0) := by omega
        all_goals simp [*]

theorem eq_of_prefix {c d : Char} {bytes : List UInt8} (hc : utf8EncodeChar c <+: bytes)
    (hd : utf8EncodeChar d <+: bytes) : c = d := by
  obtain ⟨rest, rfl⟩ := hc
  obtain ⟨rest', hsame⟩ := hd
  have hread : ∀ (x : Char) (tail : List UInt8),
      (utf8EncodeChar x ++ tail).toByteArray.utf8DecodeChar? 0 = some x := by
    intro x tail
    rw [List.toByteArray_append, ByteArray.utf8DecodeChar?_utf8EncodeChar_append]
  have hboth := hread d rest'
  rw [hsame, hread c rest] at hboth
  exact Option.some.inj hboth

theorem toNat_ofNat {code : Nat} (h : code.isValidChar) : (Char.ofNat code).toNat = code := by
  rw [Char.ofNat, dif_pos h]
  rfl

theorem utf8EncodeChar_ofNat_toNat {b : UInt8} (hb : b.toNat < 0x80) :
    utf8EncodeChar (Char.ofNat b.toNat) = [b] := by
  have hcode : (Char.ofNat b.toNat).toNat = b.toNat := toNat_ofNat (.inl (by omega))
  have hstart : [b] <+: utf8EncodeChar (Char.ofNat b.toNat) := by
    rw [singleton_prefix_iff, hcode, if_pos hb]
  refine (hstart.eq_of_length ?_).symm
  rw [length_eq_codeWidth, hcode, codeWidth, if_pos hb, List.length_singleton]

/-- A byte of ASCII occurs in no character but its own. -/
theorem eq_of_mem_utf8EncodeChar {b : UInt8} {c : Char} (hb : b.toNat < 0x80)
    (hmem : b ∈ utf8EncodeChar c) : c = Char.ofNat b.toNat := by
  have hmem := List.mem_map_of_mem (f := UInt8.toNat) hmem
  rw [map_toNat_utf8EncodeChar] at hmem
  have hcode : b.toNat = c.toNat := by
    split_ifs at hmem <;> simp only [List.mem_cons, List.not_mem_nil, or_false] at hmem <;> omega
  rw [hcode, Char.ofNat_toNat]

theorem concat_prefix_iff {piece bytes : List UInt8} {b : UInt8} :
    piece ++ [b] <+: bytes ↔ piece <+: bytes ∧ bytes[piece.length]? = some b := by
  constructor
  · rintro ⟨rest, rfl⟩
    exact ⟨⟨b :: rest, by simp⟩, by simp⟩
  · rintro ⟨⟨rest, rfl⟩, hb⟩
    cases rest with
    | nil => simp at hb
    | cons a rest =>
      obtain rfl : a = b := by simpa using hb
      exact ⟨rest, by simp⟩

/-- What begins a character without holding one is broken where the next byte does not go on with
it. -/
theorem BrokenPart.of_refused {piece rest : List UInt8} (hne : piece ≠ [])
    (hbegins : piece.length = 1 ∨ ∃ c, piece <+: utf8EncodeChar c)
    (hshort : ∀ c, ¬ utf8EncodeChar c <+: piece)
    (hrefused : ∀ b, rest.head? = some b → ∀ c, ¬ piece ++ [b] <+: utf8EncodeChar c) :
    BrokenPart piece rest := by
  have hlongest : ∀ more c, more <+: piece ++ rest → more <+: utf8EncodeChar c →
      more.length ≤ piece.length := by
    intro more c hmore hc
    by_contra! hlong
    cases rest with
    | nil => exact absurd hmore.length_le (by simpa using hlong)
    | cons b rest =>
      have hnext : piece ++ [b] <+: piece ++ b :: rest := ⟨rest, by simp⟩
      have hinside : piece ++ [b] <+: more :=
        List.prefix_of_prefix_length_le hnext hmore (by rw [List.length_append]; exact hlong)
      exact hrefused b rfl c (hinside.trans hc)
  refine ⟨hne, fun c hc => ?_, hbegins, hlongest⟩
  exact hshort c (List.prefix_of_prefix_length_le hc (List.prefix_append _ _)
    (hlongest _ c hc (List.prefix_refl _)))

/-- A byte that begins no character is broken by itself. -/
theorem BrokenPart.single {b : UInt8} {rest : List UInt8}
    (hrefused : ∀ c, ¬ [b] <+: utf8EncodeChar c) : BrokenPart [b] rest := by
  refine .of_refused (by simp) (.inl rfl) (fun c hc => ?_) fun a _ c hc => ?_
  · have hwhole := hc.eq_of_length_le (List.length_pos_iff.2 String.utf8EncodeChar_ne_nil)
    exact hrefused c (by rw [hwhole])
  · exact hrefused c (List.IsPrefix.trans (List.prefix_append _ _) hc)

theorem BrokenPart.length_le {piece rest piece' rest' : List UInt8} (h : BrokenPart piece rest)
    (h' : BrokenPart piece' rest') (hsame : piece' ++ rest' = piece ++ rest) :
    piece'.length ≤ piece.length := by
  rcases h'.begins with hone | ⟨c, hc⟩
  · rw [hone]
    exact List.length_pos_iff.2 h.nonempty
  · exact h.longest piece' c ⟨rest', hsame⟩ hc

/-- No byte of ASCII is lost with a broken part. -/
theorem BrokenPart.le_of_mem {piece rest : List UInt8} (h : BrokenPart piece rest) {b : UInt8}
    (hmem : b ∈ piece) : 0x80 ≤ b.toNat := by
  by_contra! hb
  have hsingle : piece = [b] := by
    rcases h.begins with hone | ⟨c, hc⟩
    · obtain ⟨a, rfl⟩ := List.length_eq_one_iff.1 hone
      rw [List.mem_singleton.1 hmem]
    · obtain rfl := eq_of_mem_utf8EncodeChar hb (hc.mem hmem)
      rw [utf8EncodeChar_ofNat_toNat hb] at hc
      exact hc.eq_of_length_le (List.length_pos_iff.2 h.nonempty)
  refine h.unreadable (Char.ofNat b.toNat) ?_
  rw [hsingle, utf8EncodeChar_ofNat_toNat hb]
  exact List.prefix_append _ _

theorem LossyReading.unique {bytes : List UInt8} {text : List Char} (h : LossyReading bytes text) :
    ∀ {bytes' text'}, LossyReading bytes' text' → bytes' = bytes → text' = text := by
  induction h with
  | done =>
    intro bytes' text' h' hsame
    cases h' with
    | done => rfl
    | char c h' => exact absurd (List.append_eq_nil_iff.1 hsame).1 String.utf8EncodeChar_ne_nil
    | broken hpiece h' => exact absurd (List.append_eq_nil_iff.1 hsame).1 hpiece.nonempty
  | char c h ih =>
    intro bytes' text' h' hsame
    cases h' with
    | done => exact absurd (List.append_eq_nil_iff.1 hsame.symm).1 String.utf8EncodeChar_ne_nil
    | char d h' =>
      obtain rfl : d = c := eq_of_prefix ⟨_, hsame⟩ (List.prefix_append _ _)
      rw [ih h' (List.append_cancel_left hsame)]
    | broken hpiece h' => exact absurd ⟨_, hsame.symm⟩ (hpiece.unreadable c)
  | broken hpiece h ih =>
    intro bytes' text' h' hsame
    cases h' with
    | done => exact absurd (List.append_eq_nil_iff.1 hsame.symm).1 hpiece.nonempty
    | char d h' => exact absurd ⟨_, hsame⟩ (hpiece.unreadable d)
    | broken hpiece' h' =>
      have hlength := Nat.le_antisymm (hpiece.length_le hpiece' hsame)
        (hpiece'.length_le hpiece hsame.symm)
      rw [ih h' (List.append_inj hsame hlength).2]

/-- The sequence after a byte that is not its last. -/
def OpenSequence.push (s : OpenSequence) (b : UInt8) : OpenSequence :=
  { bits := s.bits * 64 + (b.toNat - 0x80), missing := s.missing - 1 }

/-- A sequence has been opened by the bytes of `piece`, with `m + 1` more to come: the characters
they begin have its bits, and the range of the next byte holds just the six bits that go on to a
character of that width. -/
structure Opens (piece : List UInt8) (s : OpenSequence) (m : Nat) : Prop where
  nonempty : piece ≠ []
  missing : s.missing = m + 1
  continues : 0x80 ≤ s.low ∧ s.low ≤ s.high ∧ s.high ≤ 0xBF
  begins : ∀ c, piece <+: utf8EncodeChar c ↔
    codeWidth c.toNat = piece.length + (m + 1) ∧ c.toNat / 64 ^ (m + 1) = s.bits
  values : ∀ code, code / 64 ^ (m + 1) = s.bits →
    (s.low ≤ 0x80 + code / 64 ^ m % 64 ∧ 0x80 + code / 64 ^ m % 64 ≤ s.high ↔
      code.isValidChar ∧ codeWidth code = piece.length + (m + 1))

namespace Opens
variable {piece : List UInt8} {s : OpenSequence} {m : Nat} {b : UInt8}

/-- One more byte must hold the next six bits. -/
theorem begins_concat (h : Opens piece s m) (c : Char) : piece ++ [b] <+: utf8EncodeChar c ↔
    (codeWidth c.toNat = piece.length + (m + 1) ∧ c.toNat / 64 ^ (m + 1) = s.bits) ∧
      b.toNat = 0x80 + c.toNat / 64 ^ m % 64 := by
  rw [concat_prefix_iff, h.begins]
  refine and_congr_right fun ⟨hwidth, _⟩ => ?_
  have hnext := getElem?_utf8EncodeChar (List.length_pos_iff.2 h.nonempty) hwidth
  cases hat : (utf8EncodeChar c)[piece.length]? with
  | none => simp [hat] at hnext
  | some a =>
    have ha : a.toNat = 0x80 + c.toNat / 64 ^ m % 64 := by simpa [hat] using hnext
    rw [← ha, Option.some.injEq, UInt8.toNat_inj, eq_comm]

theorem begins_next (h : Opens piece s m) (hb : 0x80 ≤ b.toNat ∧ b.toNat ≤ 0xBF) (c : Char) :
    piece ++ [b] <+: utf8EncodeChar c ↔ codeWidth c.toNat = piece.length + (m + 1) ∧
      c.toNat / 64 ^ m = s.bits * 64 + (b.toNat - 0x80) := by
  have hpow : c.toNat / 64 ^ (m + 1) = c.toNat / 64 ^ m / 64 := by
    rw [pow_succ, Nat.div_div_eq_div_mul]
  rw [h.begins_concat, hpow, and_assoc]
  refine and_congr_right fun _ => ?_
  omega

theorem refused (h : Opens piece s m) (hb : ¬ (s.low ≤ b.toNat ∧ b.toNat ≤ s.high)) (c : Char) :
    ¬ piece ++ [b] <+: utf8EncodeChar c := by
  intro hc
  obtain ⟨⟨hwidth, hbits⟩, hvalue⟩ := (h.begins_concat c).1 hc
  rw [hvalue] at hb
  exact hb ((h.values c.toNat hbits).2 ⟨c.valid, hwidth⟩)

/-- Some character goes on from the bytes with any byte in the range. -/
theorem exists_char (h : Opens piece s m) (hb : s.low ≤ b.toNat ∧ b.toNat ≤ s.high) :
    ∃ c : Char, c.toNat = (s.bits * 64 + (b.toNat - 0x80)) * 64 ^ m ∧
      piece ++ [b] <+: utf8EncodeChar c := by
  obtain ⟨hlow, -, hhigh⟩ := h.continues
  have hmul : (s.bits * 64 + (b.toNat - 0x80)) * 64 ^ m / 64 ^ m =
      s.bits * 64 + (b.toNat - 0x80) := Nat.mul_div_cancel _ (Nat.pow_pos (by decide))
  generalize hcode : (s.bits * 64 + (b.toNat - 0x80)) * 64 ^ m = code at hmul
  have hbits : code / 64 ^ (m + 1) = s.bits := by
    rw [pow_succ, ← Nat.div_div_eq_div_mul]
    omega
  obtain ⟨hvalid, hwidth⟩ := (h.values code hbits).1 (by omega)
  have htoNat : (Char.ofNat code).toNat = code := toNat_ofNat hvalid
  refine ⟨Char.ofNat code, htoNat, (h.begins_next (by omega) _).2 ?_⟩
  rw [htoNat]
  exact ⟨hwidth, hmul⟩

theorem begins_char (h : Opens piece s m) : ∃ c, piece <+: utf8EncodeChar c := by
  obtain ⟨-, hle, hhigh⟩ := h.continues
  have hbyte : (UInt8.ofNat s.low).toNat = s.low := by
    rw [UInt8.toNat_ofNat']
    omega
  obtain ⟨c, -, hc⟩ := h.exists_char (by rw [hbyte]; exact ⟨Nat.le_refl _, hle⟩)
  exact ⟨c, (concat_prefix_iff.1 hc).1⟩

/-- The bytes of an open sequence hold no character. -/
theorem short (h : Opens piece s m) (c : Char) : ¬ utf8EncodeChar c <+: piece := by
  intro hc
  obtain ⟨d, hpiece⟩ := h.begins_char
  obtain rfl : c = d := eq_of_prefix (hc.trans hpiece) (List.prefix_refl _)
  have hwidth := ((h.begins c).1 hpiece).1
  rw [← length_eq_codeWidth] at hwidth
  have := hc.length_le
  omega

theorem brokenPart (h : Opens piece s m) {rest : List UInt8}
    (hrefused : ∀ b, rest.head? = some b → ¬ (s.low ≤ b.toNat ∧ b.toNat ≤ s.high)) :
    BrokenPart piece rest :=
  .of_refused h.nonempty (.inr h.begins_char) h.short fun b hb => h.refused (hrefused b hb)

/-- The last byte completes a character. -/
theorem last (h : Opens piece s 0) (hb : s.low ≤ b.toNat ∧ b.toNat ≤ s.high) :
    piece ++ [b] = utf8EncodeChar (Char.ofNat (s.bits * 64 + (b.toNat - 0x80))) := by
  obtain ⟨c, hc, hstart⟩ := h.exists_char hb
  have hwidth := ((h.begins c).1 (concat_prefix_iff.1 hstart).1).1
  rw [← length_eq_codeWidth] at hwidth
  have hwhole := hstart.eq_of_length (by simp [hwidth])
  rw [hwhole, ← Nat.mul_one (s.bits * 64 + _), ← pow_zero 64, ← hc, Char.ofNat_toNat]

/-- Any byte but the last leaves a sequence open. -/
theorem next (h : Opens piece s (m + 1)) (hb : s.low ≤ b.toNat ∧ b.toNat ≤ s.high) :
    Opens (piece ++ [b]) (s.push b) m := by
  obtain ⟨hlow, -, hhigh⟩ := h.continues
  have hlength : (piece ++ [b]).length + (m + 1) = piece.length + (m + 1 + 1) := by
    rw [List.length_append, List.length_singleton]
    omega
  have hmissing : (s.push b).missing = m + 1 := congrArg (· - 1) h.missing
  have hrange : 0x80 ≤ 0x80 ∧ 0x80 ≤ 0xBF ∧ 0xBF ≤ 0xBF := by decide
  refine ⟨by simp, hmissing, hrange, ?_, ?_⟩
  · intro c
    rw [hlength, h.begins_next (by omega)]
    rfl
  · intro code hcode
    dsimp only [OpenSequence.push] at hcode ⊢
    have hpow : code / 64 ^ (m + 1 + 1) = code / 64 ^ (m + 1) / 64 := by
      rw [pow_succ _ (m + 1), Nat.div_div_eq_div_mul]
    rw [hlength, ← h.values code (by omega)]
    omega

/-- A byte opens a sequence if it begins just the characters of one width that have its bits. -/
theorem of_lead {b : UInt8} {s : OpenSequence} {m : Nat} (hmissing : s.missing = m + 1)
    (hcontinues : 0x80 ≤ s.low ∧ s.low ≤ s.high ∧ s.high ≤ 0xBF)
    (hbegins : ∀ code < 0x110000, (b.toNat =
      if code < 0x80 then code
      else if code < 0x800 then 0xC0 + code / 64
      else if code < 0x10000 then 0xE0 + code / 4096
      else 0xF0 + code / 262144) ↔ codeWidth code = m + 2 ∧ code / 64 ^ (m + 1) = s.bits)
    (hvalues : ∀ code, code / 64 ^ (m + 1) = s.bits →
      (s.low ≤ 0x80 + code / 64 ^ m % 64 ∧ 0x80 + code / 64 ^ m % 64 ≤ s.high ↔
        code.isValidChar ∧ codeWidth code = m + 2)) : Opens [b] s m := by
  have hwidth : [b].length + (m + 1) = m + 2 := by
    rw [List.length_singleton]
    omega
  refine ⟨by simp, hmissing, hcontinues, fun c => ?_, ?_⟩
  · rw [hwidth, singleton_prefix_iff, hbegins _ (toNat_lt c)]
  · rw [hwidth]
    exact hvalues

theorem of_lead_two (hb : 0xC2 ≤ b.toNat ∧ b.toNat ≤ 0xDF) :
    Opens [b] { bits := b.toNat - 0xC0, missing := 1 } 0 := by
  refine of_lead rfl (by simp) (fun code hcode => ?_) (fun code hbits => ?_)
  · unfold codeWidth
    dsimp only
    split_ifs <;> omega
  · unfold codeWidth Nat.isValidChar
    dsimp only at hbits ⊢
    split_ifs <;> omega

/-- The ranges after the first and the thirteenth rule out overlong forms and surrogates. -/
theorem of_lead_three (hb : 0xE0 ≤ b.toNat ∧ b.toNat ≤ 0xEF) (hbits : s.bits = b.toNat - 0xE0)
    (hmissing : s.missing = 2) (hlow : s.low = if b.toNat = 0xE0 then 0xA0 else 0x80)
    (hhigh : s.high = if b.toNat = 0xED then 0x9F else 0xBF) : Opens [b] s 1 := by
  refine of_lead hmissing (by split_ifs at hlow hhigh <;> omega) (fun code hcode => ?_)
    (fun code hcode => ?_)
  · unfold codeWidth
    split_ifs <;> omega
  · unfold codeWidth Nat.isValidChar
    split_ifs at hlow hhigh ⊢ <;> omega

/-- The ranges after the first and the last rule out overlong forms and what is no code point. -/
theorem of_lead_four (hb : 0xF0 ≤ b.toNat ∧ b.toNat ≤ 0xF4) (hbits : s.bits = b.toNat - 0xF0)
    (hmissing : s.missing = 3) (hlow : s.low = if b.toNat = 0xF0 then 0x90 else 0x80)
    (hhigh : s.high = if b.toNat = 0xF4 then 0x8F else 0xBF) : Opens [b] s 2 := by
  refine of_lead hmissing (by split_ifs at hlow hhigh <;> omega) (fun code hcode => ?_)
    (fun code hcode => ?_)
  · unfold codeWidth
    split_ifs <;> omega
  · unfold codeWidth Nat.isValidChar
    split_ifs at hlow hhigh ⊢ <;> omega

end Opens

namespace Utf8Reader

/-- A byte where a character must begin is one, opens one, or is broken by itself. -/
theorem begin_cases (r : Utf8Reader) (b : UInt8) :
    (∃ c, utf8EncodeChar c = [b] ∧ r.begin b = r.put c) ∨
    (∃ s m, Opens [b] s m ∧ r.begin b = { r with pending := some s }) ∨
    (∀ c, ¬ [b] <+: utf8EncodeChar c) ∧ r.begin b = r.breakOff := by
  generalize hnext : r.begin b = next
  simp only [begin, Bool.and_eq_true, decide_eq_true_eq, beq_iff_eq] at hnext
  split_ifs at hnext with hascii htwo h0 h13 hthree hf0 hf4 hfour
  · exact .inl ⟨Char.ofNat b.toNat, utf8EncodeChar_ofNat_toNat hascii, hnext.symm⟩
  · exact .inr (.inl ⟨_, 0, .of_lead_two htwo, hnext.symm⟩)
  · have hopens : Opens [b] { bits := 0, missing := 2, low := 0xA0 } 1 :=
      .of_lead_three (by omega) (by rw [h0]) rfl (if_pos h0).symm (if_neg (by omega)).symm
    exact .inr (.inl ⟨_, 1, hopens, hnext.symm⟩)
  · have hopens : Opens [b] { bits := 13, missing := 2, high := 0x9F } 1 :=
      .of_lead_three (by omega) (by rw [h13]) rfl (if_neg h0).symm (if_pos h13).symm
    exact .inr (.inl ⟨_, 1, hopens, hnext.symm⟩)
  · have hopens : Opens [b] { bits := b.toNat - 0xE0, missing := 2 } 1 :=
      .of_lead_three (by omega) rfl rfl (if_neg h0).symm (if_neg h13).symm
    exact .inr (.inl ⟨_, 1, hopens, hnext.symm⟩)
  · have hopens : Opens [b] { bits := 0, missing := 3, low := 0x90 } 2 :=
      .of_lead_four (by omega) (by rw [hf0]) rfl (if_pos hf0).symm (if_neg (by omega)).symm
    exact .inr (.inl ⟨_, 2, hopens, hnext.symm⟩)
  · have hopens : Opens [b] { bits := 4, missing := 3, high := 0x8F } 2 :=
      .of_lead_four (by omega) (by rw [hf4]) rfl (if_neg hf0).symm (if_pos hf4).symm
    exact .inr (.inl ⟨_, 2, hopens, hnext.symm⟩)
  · have hopens : Opens [b] { bits := b.toNat - 0xF0, missing := 3 } 2 :=
      .of_lead_four (by omega) rfl rfl (if_neg hf0).symm (if_neg hf4).symm
    exact .inr (.inl ⟨_, 2, hopens, hnext.symm⟩)
  · refine .inr (.inr ⟨fun c => ?_, hnext.symm⟩)
    have hmax := toNat_lt c
    rw [singleton_prefix_iff]
    split_ifs <;> omega

/-- The bytes that have been read but do not show in the characters yet. -/
inductive Holds (r : Utf8Reader) : List UInt8 → Prop
  | nothing (hr : r.pending = none) : Holds r []
  | opened {piece : List UInt8} {s : OpenSequence} {m : Nat} (hr : r.pending = some s)
    (hopens : Opens piece s m) : Holds r piece

/-- From one state to another, the bytes that are no longer held show as characters, whatever
follows them. -/
def Reads (r : Utf8Reader) (bytes : List UInt8) (r' : Utf8Reader) : Prop :=
  ∃ held text, Holds r' held ∧ r'.chars = text.reverse ++ r.chars ∧
    ∀ rest more, LossyReading (held ++ rest) more → LossyReading (bytes ++ rest) (text ++ more)

variable {r : Utf8Reader} {piece : List UInt8} {s : OpenSequence} {m : Nat} {b : UInt8}

theorem reads_put {c : Char} (hpiece : utf8EncodeChar c = piece) : Reads r piece (r.put c) := by
  refine ⟨[], [c], .nothing rfl, rfl, fun rest more h => ?_⟩
  rw [← hpiece]
  exact h.char c

theorem Reads.of_broken {r' : Utf8Reader} {bytes : List UInt8} (h : Reads r.breakOff bytes r')
    (hpiece : ∀ rest, BrokenPart piece (bytes ++ rest)) : Reads r (piece ++ bytes) r' := by
  obtain ⟨held, text, hheld, hchars, htext⟩ := h
  refine ⟨held, replacement :: text, hheld, ?_, fun rest more hmore => ?_⟩
  · rw [hchars, List.reverse_cons, List.append_assoc]
    rfl
  · rw [List.append_assoc]
    exact .broken (hpiece rest) (htext rest more hmore)

theorem reads_breakOff (hpiece : ∀ rest, BrokenPart piece rest) : Reads r piece r.breakOff := by
  have hnothing : Reads r.breakOff [] r.breakOff :=
    ⟨[], [], .nothing rfl, rfl, fun rest more h => h⟩
  simpa using hnothing.of_broken fun rest => hpiece rest

theorem reads_begin (r : Utf8Reader) (b : UInt8) : Reads r [b] (r.begin b) := by
  rcases begin_cases r b with ⟨c, hc, hnext⟩ | ⟨s, m, hopens, hnext⟩ | ⟨hrefused, hnext⟩
  · rw [hnext]
    exact reads_put hc
  · rw [hnext]
    exact ⟨[b], [], .opened rfl hopens, rfl, fun rest more h => h⟩
  · rw [hnext]
    exact reads_breakOff fun rest => .single hrefused

theorem reads_continue (hr : r.pending = some s) (hopens : Opens piece s m)
    (hb : s.low ≤ b.toNat ∧ b.toNat ≤ s.high) : Reads r (piece ++ [b]) (r.read b) := by
  cases m with
  | zero =>
    have hread : r.read b = r.put (Char.ofNat (s.bits * 64 + (b.toNat - 0x80))) := by
      simp [read, hr, hb, hopens.missing]
    rw [hread]
    exact reads_put (hopens.last hb).symm
  | succ m =>
    have hmore : s.missing ≠ 1 := by
      rw [hopens.missing]
      omega
    have hread : r.read b = { r with pending := some (s.push b) } := by
      simp only [read, hr, hb, hmore, if_false, Bool.and_self, decide_true, if_true]
      rfl
    rw [hread]
    exact ⟨piece ++ [b], [], .opened rfl (hopens.next hb), rfl, fun rest more h => h⟩

theorem Holds.read (h : Holds r piece) (b : UInt8) : Reads r (piece ++ [b]) (r.read b) := by
  cases h with
  | nothing hr =>
    have hread : r.read b = r.begin b := by rw [Utf8Reader.read, hr]
    rw [hread]
    exact reads_begin r b
  | @opened _ s m hr hopens =>
    by_cases hb : s.low ≤ b.toNat ∧ b.toNat ≤ s.high
    · exact reads_continue hr hopens hb
    · have hread : r.read b = r.breakOff.begin b := by
        simp [Utf8Reader.read, hr, hb]
      rw [hread]
      refine (reads_begin r.breakOff b).of_broken fun rest => hopens.brokenPart ?_
      rintro a ⟨⟩
      exact hb

theorem Holds.foldl_read (h : Holds r piece) (bytes : List UInt8) :
    ∃ text, LossyReading (piece ++ bytes) text ∧
      (bytes.foldl Utf8Reader.read r).finish.chars = text.reverse ++ r.chars := by
  induction bytes generalizing r piece with
  | nil =>
    cases h with
    | nothing hr => exact ⟨[], .done, by simp [finish, hr]⟩
    | opened hr hopens =>
      exact ⟨[replacement], .broken (hopens.brokenPart (by simp)) .done,
        by simp [finish, hr, breakOff, put]⟩
  | cons b bytes ih =>
    obtain ⟨held, text, hheld, hchars, htext⟩ := h.read b
    obtain ⟨more, hmore, hlast⟩ := ih hheld
    refine ⟨text ++ more, ?_, ?_⟩
    · rw [List.append_cons]
      exact htext bytes more hmore
    · rw [List.foldl_cons, hlast, hchars, List.reverse_append, List.append_assoc]

end Utf8Reader

/-- Bytes have just one reading, and it is what the reader makes of them. -/
theorem lossyReading_iff {bytes : List UInt8} {text : List Char} :
    LossyReading bytes text ↔ text = decodeLossy bytes := by
  obtain ⟨text', htext', hchars⟩ := (Utf8Reader.Holds.nothing (r := {}) rfl).foldl_read bytes
  have hdecoded : decodeLossy bytes = text' := by
    simp [decodeLossy, readUtf8, hchars]
  rw [hdecoded]
  constructor
  · intro htext
    exact htext'.unique htext rfl
  · rintro rfl
    exact htext'

/-- A text is read from its own bytes as it is. -/
theorem decodeLossy_encodeUtf8 (text : List Char) : decodeLossy (encodeUtf8 text) = text := by
  refine (lossyReading_iff.1 ?_).symm
  induction text with
  | nil => exact .done
  | cons c text ih => exact .char c ih

/-- Bytes are a text just if they are that text's bytes. -/
theorem decodeUtf8?_eq_some_iff {bytes : List UInt8} {text : List Char} :
    decodeUtf8? bytes = some text ↔ encodeUtf8 text = bytes := by
  unfold decodeUtf8?
  constructor
  · intro h
    split_ifs at h with hbytes
    cases h
    exact hbytes
  · rintro rfl
    rw [decodeLossy_encodeUtf8, if_pos rfl]

end TuneRelay.Text

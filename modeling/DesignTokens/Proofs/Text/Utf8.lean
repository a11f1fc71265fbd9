import DesignTokens.Text.Utf8

/-!
# Decoding what has been encoded

The decoder takes the bytes of one character at a time: the lead byte tells how many bytes are to
come and bounds the next one, and every byte after it adds six bits. The bounds are those of the
scalar values, so no encoded character is refused, and a text comes back from its bytes. They keep
out overlong forms and surrogates as well, so what is decoded are the bytes of a text.
-/

namespace DesignTokens.Text.Utf8

/-- A number below 256 is a byte. -/
private theorem toNat_toUInt8 {n : Nat} (h : n < 256) : n.toUInt8.toNat = n := by
  simp only [Nat.toUInt8_eq, UInt8.toNat_ofNat']
  omega

/-- A lead byte leaves a character under way. -/
theorem decodeFrom_lead {b : UInt8} {p : Pending} (h : start b = some (.inr p)) (position : Nat)
    (done : List Char) (rest : List UInt8) :
    decodeFrom position none done (b :: rest) = decodeFrom position (some p) done rest := by
  simp only [decodeFrom, h]

/-- A byte within the bounds is taken into a character that needs more of them. -/
theorem decodeFrom_more {n : Nat} {p : Pending} (hbyte : n < 256) (hlow : p.low ≤ n)
    (hhigh : n ≤ p.high) (hmissing : p.missing ≠ 1) (position : Nat) (done : List Char)
    (rest : List UInt8) :
    decodeFrom position (some p) done (n.toUInt8 :: rest) =
      decodeFrom position
        (some ⟨p.lead, p.seen + 1, p.missing - 1, 0x80, 0xBF, p.bits * 64 + (n - 0x80)⟩)
        done rest := by
  simp only [decodeFrom, toNat_toUInt8 hbyte, hlow, hhigh, hmissing, decide_true, Bool.and_self,
    if_true, if_false]

/-- The last byte within the bounds completes a character. -/
theorem decodeFrom_last {n : Nat} {p : Pending} (hbyte : n < 256) (hlow : p.low ≤ n)
    (hhigh : n ≤ p.high) (hmissing : p.missing = 1) (position : Nat) (done : List Char)
    (rest : List UInt8) :
    decodeFrom position (some p) done (n.toUInt8 :: rest) =
      decodeFrom (position + p.seen + 1) none
        (Char.ofNat (p.bits * 64 + (n - 0x80)) :: done) rest := by
  simp only [decodeFrom, toNat_toUInt8 hbyte, hlow, hhigh, hmissing, decide_true, Bool.and_self,
    if_true]

/-- No character is a half of a pair. -/
private theorem isScalar (c : Char) :
    c.toNat < 0xD800 ∨ 0xDFFF < c.toNat ∧ c.toNat < 0x110000 := c.valid

/-- A byte below 128 is a character. -/
private theorem start_one {n : Nat} (h : n < 0x80) :
    start n.toUInt8 = some (.inl (Char.ofNat n)) := by
  have hbyte : n.toUInt8.toNat = n := toNat_toUInt8 (by omega)
  simp only [start, hbyte, h, if_true]

/-- The first of two bytes says how the other continues. -/
private theorem start_two {k : Nat} (hlow : 2 ≤ k) (hhigh : k ≤ 0x1F) :
    start (0xC0 + k).toUInt8 = some (.inr ⟨(0xC0 + k).toUInt8, 1, 1, 0x80, 0xBF, k⟩) := by
  have hbyte : (0xC0 + k).toUInt8.toNat = 0xC0 + k := toNat_toUInt8 (by omega)
  have hone : ¬0xC0 + k < 0x80 := by omega
  have htwo : 0xC2 ≤ 0xC0 + k ∧ 0xC0 + k ≤ 0xDF := by omega
  simp only [start, hbyte, hone, htwo, if_false, decide_true, Bool.and_self, if_true,
    Nat.add_sub_cancel_left]

/-- The first of three bytes says how the second continues; some ranges are cut short. -/
private theorem start_three {k : Nat} (hhigh : k ≤ 0xF) :
    start (0xE0 + k).toUInt8 = some (.inr ⟨(0xE0 + k).toUInt8, 1, 2,
      if k = 0 then 0xA0 else 0x80, if k = 0xD then 0x9F else 0xBF, k⟩) := by
  have hbyte : (0xE0 + k).toUInt8.toNat = 0xE0 + k := toNat_toUInt8 (by omega)
  have hone : ¬0xE0 + k < 0x80 := by omega
  have htwo : ¬0xE0 + k ≤ 0xDF := by omega
  have hthree : 0xE0 ≤ 0xE0 + k ∧ 0xE0 + k ≤ 0xEF := by omega
  have hfirst : (0xE0 + k = 0xE0) = (k = 0) := propext (by omega)
  have hsurrogate : (0xE0 + k = 0xED) = (k = 0xD) := propext (by omega)
  simp only [start, hbyte, hone, htwo, hthree, hfirst, hsurrogate, if_false, decide_true,
    decide_false, Bool.and_false, Bool.and_self, Bool.false_eq_true, if_true,
    Nat.add_sub_cancel_left]

/-- The first of four bytes says how the second continues; some ranges are cut short. -/
private theorem start_four {k : Nat} (hhigh : k ≤ 4) :
    start (0xF0 + k).toUInt8 = some (.inr ⟨(0xF0 + k).toUInt8, 1, 3,
      if k = 0 then 0x90 else 0x80, if k = 4 then 0x8F else 0xBF, k⟩) := by
  have hbyte : (0xF0 + k).toUInt8.toNat = 0xF0 + k := toNat_toUInt8 (by omega)
  have hone : ¬0xF0 + k < 0x80 := by omega
  have htwo : ¬0xF0 + k ≤ 0xDF := by omega
  have hthree : ¬0xF0 + k ≤ 0xEF := by omega
  have hfour : 0xF0 ≤ 0xF0 + k ∧ 0xF0 + k ≤ 0xF4 := by omega
  have hfirst : (0xF0 + k = 0xF0) = (k = 0) := propext (by omega)
  have hlast : (0xF0 + k = 0xF4) = (k = 4) := propext (by omega)
  simp only [start, hbyte, hone, htwo, hthree, hfour, hfirst, hlast, if_false, decide_true,
    decide_false, Bool.and_false, Bool.and_self, Bool.false_eq_true, if_true,
    Nat.add_sub_cancel_left]

/-- The bytes of a character are decoded to it. -/
theorem decodeFrom_encodeChar (c : Char) (position : Nat) (done : List Char)
    (rest : List UInt8) :
    decodeFrom position none done (encodeChar c ++ rest) =
      decodeFrom (position + (encodeChar c).length) none (c :: done) rest := by
  have hscalar := isScalar c
  have hc := Char.ofNat_toNat c
  unfold encodeChar
  generalize c.toNat = n at hscalar hc
  by_cases hone : n < 0x80
  · simp only [hone, if_true, List.cons_append, List.nil_append, List.length_singleton]
    simp only [decodeFrom, start_one hone, hc]
  by_cases htwo : n < 0x800
  · simp only [hone, htwo, if_false, if_true, List.cons_append, List.nil_append]
    have hbits : n / 64 * 64 + (0x80 + n % 64 - 0x80) = n := by omega
    rw [decodeFrom_lead (start_two (by omega) (by omega)),
      decodeFrom_last (by omega) (by simp) (by simp only; omega) rfl]
    simp only [hbits, hc]
    rfl
  by_cases hthree : n < 0x10000
  · simp only [hone, htwo, hthree, if_false, if_true, List.cons_append, List.nil_append]
    have hbits : (n / 4096 * 64 + (0x80 + n / 64 % 64 - 0x80)) * 64 + (0x80 + n % 64 - 0x80) =
      n := by omega
    rw [decodeFrom_lead (start_three (by omega)),
      decodeFrom_more (by omega) (by simp only; split <;> omega) (by simp only; split <;> omega)
        (by simp),
      decodeFrom_last (by omega) (by simp) (by simp only; omega) rfl]
    simp only [hbits, hc]
    rfl
  · simp only [hone, htwo, hthree, if_false, List.cons_append, List.nil_append]
    have hbits : ((n / 262144 * 64 + (0x80 + n / 4096 % 64 - 0x80)) * 64 +
      (0x80 + n / 64 % 64 - 0x80)) * 64 + (0x80 + n % 64 - 0x80) = n := by omega
    rw [decodeFrom_lead (start_four (by omega)),
      decodeFrom_more (by omega) (by simp only; split <;> omega) (by simp only; split <;> omega)
        (by simp),
      decodeFrom_more (by omega) (by simp) (by simp only; omega) (by simp),
      decodeFrom_last (by omega) (by simp) (by simp only; omega) rfl]
    simp only [hbits, hc]
    rfl

/-- The bytes of a text are decoded to its characters, one after the other. -/
theorem decodeFrom_encode (s : List Char) (position : Nat) (done : List Char) :
    decodeFrom position none done (encode s) = .ok (done.reverse ++ s) := by
  induction s generalizing position done with
  | nil =>
    rw [List.append_nil]
    rfl
  | cons c s ih =>
    have hcons : encode (c :: s) = encodeChar c ++ encode s := List.flatMap_cons
    rw [hcons, decodeFrom_encodeChar, ih, List.reverse_cons, List.append_assoc]
    rfl

/-- A text comes back from its bytes. -/
theorem decode_encode (s : List Char) : decode (encode s) = .ok s :=
  decodeFrom_encode s 0 []

/-! ## What is decoded -/

/-- A byte is determined by its number. -/
private theorem toUInt8_eq {n : Nat} {b : UInt8} (h : n = b.toNat) : n.toUInt8 = b := by
  rw [h, Nat.toUInt8_eq, UInt8.ofNat_toNat]

/-- A number that is no half is the number of its character. -/
private theorem toNat_ofNat {n : Nat} (h : n < 0xD800 ∨ 0xDFFF < n ∧ n < 0x110000) :
    (Char.ofNat n).toNat = n := by
  unfold Char.ofNat
  rw [dif_pos h]
  rfl

/-- A byte below 128 is the encoding of its character. -/
private theorem encodeChar_one {b : UInt8} (h : b.toNat < 0x80) :
    encodeChar (Char.ofNat b.toNat) = [b] := by
  have hchar := toNat_ofNat (n := b.toNat) (by omega)
  simp only [encodeChar, hchar, h, if_true]
  rw [toUInt8_eq rfl]

/-- Two bytes that belong together are the encoding of their character. -/
private theorem encodeChar_two {b b₁ : UInt8} (hlow : 0xC2 ≤ b.toNat) (hhigh : b.toNat ≤ 0xDF)
    (hlow₁ : 0x80 ≤ b₁.toNat) (hhigh₁ : b₁.toNat ≤ 0xBF) :
    encodeChar (Char.ofNat ((b.toNat - 0xC0) * 64 + (b₁.toNat - 0x80))) = [b, b₁] := by
  generalize hn : (b.toNat - 0xC0) * 64 + (b₁.toNat - 0x80) = n
  have hchar := toNat_ofNat (n := n) (by omega)
  have hone : ¬n < 0x80 := by omega
  have htwo : n < 0x800 := by omega
  simp only [encodeChar, hchar, hone, htwo, if_true, if_false]
  rw [toUInt8_eq (b := b) (by omega), toUInt8_eq (b := b₁) (by omega)]

/-- Three bytes that belong together are the encoding of their character. -/
private theorem encodeChar_three {b b₁ b₂ : UInt8} (hlow : 0xE0 ≤ b.toNat) (hhigh : b.toNat ≤ 0xEF)
    (hlow₁ : (if b.toNat = 0xE0 then 0xA0 else 0x80) ≤ b₁.toNat)
    (hhigh₁ : b₁.toNat ≤ if b.toNat = 0xED then 0x9F else 0xBF)
    (hlow₂ : 0x80 ≤ b₂.toNat) (hhigh₂ : b₂.toNat ≤ 0xBF) :
    encodeChar (Char.ofNat (((b.toNat - 0xE0) * 64 + (b₁.toNat - 0x80)) * 64 +
      (b₂.toNat - 0x80))) = [b, b₁, b₂] := by
  generalize hn : ((b.toNat - 0xE0) * 64 + (b₁.toNat - 0x80)) * 64 + (b₂.toNat - 0x80) = n
  have hlow₁' : 0x80 ≤ b₁.toNat ∧ b₁.toNat ≤ 0xBF := by
    constructor
    · split at hlow₁ <;> omega
    · split at hhigh₁ <;> omega
  have hfirst : 0x800 ≤ n := by split at hlow₁ <;> omega
  have hsurrogate : n < 0xD800 ∨ 0xDFFF < n ∧ n < 0x110000 := by split at hhigh₁ <;> omega
  have hchar := toNat_ofNat hsurrogate
  have hone : ¬n < 0x80 := by omega
  have htwo : ¬n < 0x800 := by omega
  have hthree : n < 0x10000 := by omega
  simp only [encodeChar, hchar, hone, htwo, hthree, if_true, if_false]
  rw [toUInt8_eq (b := b) (by omega), toUInt8_eq (b := b₁) (by omega),
    toUInt8_eq (b := b₂) (by omega)]

/-- Four bytes that belong together are the encoding of their character. -/
private theorem encodeChar_four {b b₁ b₂ b₃ : UInt8} (hlow : 0xF0 ≤ b.toNat)
    (hhigh : b.toNat ≤ 0xF4) (hlow₁ : (if b.toNat = 0xF0 then 0x90 else 0x80) ≤ b₁.toNat)
    (hhigh₁ : b₁.toNat ≤ if b.toNat = 0xF4 then 0x8F else 0xBF)
    (hlow₂ : 0x80 ≤ b₂.toNat) (hhigh₂ : b₂.toNat ≤ 0xBF)
    (hlow₃ : 0x80 ≤ b₃.toNat) (hhigh₃ : b₃.toNat ≤ 0xBF) :
    encodeChar (Char.ofNat ((((b.toNat - 0xF0) * 64 + (b₁.toNat - 0x80)) * 64 +
      (b₂.toNat - 0x80)) * 64 + (b₃.toNat - 0x80))) = [b, b₁, b₂, b₃] := by
  generalize hn : (((b.toNat - 0xF0) * 64 + (b₁.toNat - 0x80)) * 64 +
    (b₂.toNat - 0x80)) * 64 + (b₃.toNat - 0x80) = n
  have hlow₁' : 0x80 ≤ b₁.toNat ∧ b₁.toNat ≤ 0xBF := by
    constructor
    · split at hlow₁ <;> omega
    · split at hhigh₁ <;> omega
  have hfirst : 0x10000 ≤ n := by split at hlow₁ <;> omega
  have hlast : n < 0x110000 := by split at hhigh₁ <;> omega
  have hchar := toNat_ofNat (n := n) (by omega)
  have hone : ¬n < 0x80 := by omega
  have htwo : ¬n < 0x800 := by omega
  have hthree : ¬n < 0x10000 := by omega
  simp only [encodeChar, hchar, hone, htwo, hthree, if_false]
  rw [toUInt8_eq (b := b) (by omega), toUInt8_eq (b := b₁) (by omega),
    toUInt8_eq (b := b₂) (by omega), toUInt8_eq (b := b₃) (by omega)]

/-- A character under way goes on with a byte within its bounds. -/
theorem exists_of_decodeFrom_some {position : Nat} {p : Pending} {done s : List Char}
    {bytes : List UInt8} (h : decodeFrom position (some p) done bytes = .ok s) :
    ∃ b rest, bytes = b :: rest ∧ (p.low ≤ b.toNat ∧ b.toNat ≤ p.high) ∧
      (if p.missing = 1 then
        decodeFrom (position + p.seen + 1) none
          (Char.ofNat (p.bits * 64 + (b.toNat - 0x80)) :: done) rest
      else
        decodeFrom position (some ⟨p.lead, p.seen + 1, p.missing - 1, 0x80, 0xBF,
          p.bits * 64 + (b.toNat - 0x80)⟩) done rest) = .ok s := by
  cases bytes with
  | nil => cases h
  | cons b rest =>
    unfold decodeFrom at h
    dsimp only at h
    split at h
    · rename_i hbounds
      simp only [Bool.and_eq_true, decide_eq_true_eq] at hbounds
      exact ⟨b, rest, rfl, hbounds, h⟩
    · cases h

/-- Every character has a byte at least. -/
theorem length_encodeChar_pos (c : Char) : 0 < (encodeChar c).length := by
  unfold encodeChar
  dsimp only
  split
  · exact Nat.one_pos
  split
  · exact Nat.two_pos
  split <;> exact Nat.succ_pos _

/-- Bytes that are decoded are none, or those of a character and then more of them. -/
theorem exists_of_decodeFrom_none {position : Nat} {done s : List Char} {bytes : List UInt8}
    (h : decodeFrom position none done bytes = .ok s) :
    bytes = [] ∧ s = done.reverse ∨
      ∃ c rest position', bytes = encodeChar c ++ rest ∧
        decodeFrom position' none (c :: done) rest = .ok s := by
  cases bytes with
  | nil => exact .inl ⟨rfl, (Except.ok.inj h).symm⟩
  | cons b rest =>
    refine .inr ?_
    by_cases hone : b.toNat < 0x80
    · simp only [decodeFrom, start, hone, if_true] at h
      exact ⟨_, rest, _, by rw [encodeChar_one hone]; rfl, h⟩
    unfold decodeFrom start at h
    simp only [hone, if_false, Bool.and_eq_true, decide_eq_true_eq] at h
    by_cases htwo : 0xC2 ≤ b.toNat ∧ b.toNat ≤ 0xDF
    · simp only [htwo, and_self, if_true] at h
      obtain ⟨b₁, rest, rfl, ⟨hlow₁, hhigh₁⟩, h⟩ := exists_of_decodeFrom_some h
      exact ⟨_, rest, _, by rw [encodeChar_two htwo.1 htwo.2 hlow₁ hhigh₁]; rfl, h⟩
    by_cases hthree : 0xE0 ≤ b.toNat ∧ b.toNat ≤ 0xEF
    · simp only [htwo, hthree, and_self, if_false, if_true] at h
      obtain ⟨b₁, rest, rfl, ⟨hlow₁, hhigh₁⟩, h⟩ := exists_of_decodeFrom_some h
      obtain ⟨b₂, rest, rfl, ⟨hlow₂, hhigh₂⟩, h⟩ := exists_of_decodeFrom_some h
      refine ⟨_, rest, _, ?_, h⟩
      rw [encodeChar_three hthree.1 hthree.2 hlow₁ hhigh₁ hlow₂ hhigh₂]
      rfl
    by_cases hfour : 0xF0 ≤ b.toNat ∧ b.toNat ≤ 0xF4
    · simp only [htwo, hthree, hfour, and_self, if_false, if_true] at h
      obtain ⟨b₁, rest, rfl, ⟨hlow₁, hhigh₁⟩, h⟩ := exists_of_decodeFrom_some h
      obtain ⟨b₂, rest, rfl, ⟨hlow₂, hhigh₂⟩, h⟩ := exists_of_decodeFrom_some h
      obtain ⟨b₃, rest, rfl, ⟨hlow₃, hhigh₃⟩, h⟩ := exists_of_decodeFrom_some h
      refine ⟨_, rest, _, ?_, h⟩
      rw [encodeChar_four hfour.1 hfour.2 hlow₁ hhigh₁ hlow₂ hhigh₂ hlow₃ hhigh₃]
      rfl
    · simp only [htwo, hthree, hfour, if_false] at h
      cases h

/-- Bytes that are decoded are those of a text. -/
theorem exists_encode_of_decodeFrom {position : Nat} {done s : List Char} {bytes : List UInt8}
    (h : decodeFrom position none done bytes = .ok s) :
    ∃ t, s = done.reverse ++ t ∧ bytes = encode t := by
  induction hlength : bytes.length using Nat.strongRecOn generalizing position done bytes with
  | ind length ih =>
    rcases exists_of_decodeFrom_none h with ⟨rfl, rfl⟩ | ⟨c, rest, position', rfl, hrest⟩
    · exact ⟨[], (List.append_nil _).symm, rfl⟩
    · have hshorter : rest.length < length := by
        rw [← hlength, List.length_append]
        have := length_encodeChar_pos c
        omega
      obtain ⟨t, rfl, rfl⟩ := ih _ hshorter hrest rfl
      exact ⟨c :: t, by rw [List.reverse_cons, List.append_assoc]; rfl, List.flatMap_cons.symm⟩

/-- The bytes that have a meaning are those of a text. -/
theorem decode_eq_ok_iff {bytes : List UInt8} {s : List Char} :
    decode bytes = .ok s ↔ bytes = encode s := by
  refine ⟨fun h => ?_, fun h => h ▸ decode_encode s⟩
  obtain ⟨t, rfl, hbytes⟩ := exists_encode_of_decodeFrom h
  exact hbytes

end DesignTokens.Text.Utf8

import DesignTokens.Proofs.Number.Binary64
import DesignTokens.Terminal.Color
import DesignTokens.Value.Parser
import DesignTokens.Value.Printer

/-!
# The grammar of documents

What a JSON document is, apart from any reader or writer of it: one value, with spacing around it
and between its parts. The words for values, the escapes and the spacing are those that the reader
knows, so an infinity and what is no number are values as well. Every written value is a document,
whatever the value is. A text that begins with a sequence for the terminal is none.

A value is written unless a whole number in it has more digits than the limit.
-/

namespace DesignTokens

namespace Value

/-- Spaces and line breaks, perhaps none. -/
def IsSpace (s : List Char) : Prop := ∀ c ∈ s, isSpacing c = true

/-- One or more digits. -/
def IsDigits (s : List Char) : Prop := s ≠ [] ∧ ∀ c ∈ s, isDecimal c = true

/-- The digits before a point: a zero stands at their beginning only if it is alone. -/
def IsWhole (s : List Char) : Prop := IsDigits s ∧ (s.head? = some '0' → s = ['0'])

/-- A number after its sign. -/
inductive IsUnsigned : List Char → Prop
  | whole {s : List Char} (h : IsWhole s) : IsUnsigned s
  | fraction {s t : List Char} (hs : IsWhole s) (ht : IsDigits t) : IsUnsigned (s ++ '.' :: t)
  | power {s t sign : List Char} {e : Char} (hs : IsWhole s) (he : e = 'e' ∨ e = 'E')
    (hsign : sign = [] ∨ sign = ['-'] ∨ sign = ['+']) (ht : IsDigits t) :
    IsUnsigned (s ++ e :: (sign ++ t))
  | both {s t u sign : List Char} {e : Char} (hs : IsWhole s) (ht : IsDigits t)
    (he : e = 'e' ∨ e = 'E') (hsign : sign = [] ∨ sign = ['-'] ∨ sign = ['+'])
    (hu : IsDigits u) : IsUnsigned (s ++ '.' :: (t ++ e :: (sign ++ u)))

/-- A number. -/
inductive IsNumber : List Char → Prop
  | positive {s : List Char} (h : IsUnsigned s) : IsNumber s
  | negative {s : List Char} (h : IsUnsigned s) : IsNumber ('-' :: s)

/-- What stands between the quotes of a text: characters as they are, and escapes. -/
inductive IsRun : List Char → Prop
  | nil : IsRun []
  | plain {c : Char} {s : List Char} (hlow : 0x20 ≤ c.toNat) (hquote : c ≠ '"') (hslash : c ≠ '\\')
    (hs : IsRun s) : IsRun (c :: s)
  | short {c : Char} {s : List Char} (hc : (shortEscape? c).isSome = true) (hs : IsRun s) :
    IsRun ('\\' :: c :: s)
  | unit {digits s : List Char} (hlength : digits.length = 4)
    (hdigits : ∀ c ∈ digits, (hexValue? c).isSome = true) (hs : IsRun s) :
    IsRun ('\\' :: 'u' :: (digits ++ s))

/-- A text between its quotes. -/
inductive IsQuoted : List Char → Prop
  | quotes {s : List Char} (h : IsRun s) : IsQuoted ('"' :: (s ++ ['"']))

mutual

/-- A value. -/
inductive IsValue : List Char → Prop
  | word {w : String} (h : w ∈ wordValues.map (·.1)) : IsValue w.toList
  | number {s : List Char} (h : IsNumber s) : IsValue s
  | text {s : List Char} (h : IsQuoted s) : IsValue s
  | noItems {s : List Char} (h : IsSpace s) : IsValue ('[' :: (s ++ [']']))
  | items {s : List Char} (h : IsItems s) : IsValue ('[' :: (s ++ [']']))
  | noMembers {s : List Char} (h : IsSpace s) : IsValue ('\x7b' :: (s ++ ['\x7d']))
  | members {s : List Char} (h : IsMembers s) : IsValue ('\x7b' :: (s ++ ['\x7d']))

/-- Values with commas between them. -/
inductive IsItems : List Char → Prop
  | last {a v b : List Char} (ha : IsSpace a) (hv : IsValue v) (hb : IsSpace b) :
    IsItems (a ++ (v ++ b))
  | more {a v b rest : List Char} (ha : IsSpace a) (hv : IsValue v) (hb : IsSpace b)
    (hrest : IsItems rest) : IsItems (a ++ (v ++ (b ++ ',' :: rest)))

/-- Keys with their values, and commas between them. -/
inductive IsMembers : List Char → Prop
  | last {a k b c v d : List Char} (ha : IsSpace a) (hk : IsQuoted k) (hb : IsSpace b)
    (hc : IsSpace c) (hv : IsValue v) (hd : IsSpace d) :
    IsMembers (a ++ (k ++ (b ++ ':' :: (c ++ (v ++ d)))))
  | more {a k b c v d rest : List Char} (ha : IsSpace a) (hk : IsQuoted k) (hb : IsSpace b)
    (hc : IsSpace c) (hv : IsValue v) (hd : IsSpace d) (hrest : IsMembers rest) :
    IsMembers (a ++ (k ++ (b ++ ':' :: (c ++ (v ++ (d ++ ',' :: rest))))))

end

/-- A document: one value, and nothing else but spacing. -/
inductive IsDocument : List Char → Prop
  | value {a v b : List Char} (ha : IsSpace a) (hv : IsValue v) (hb : IsSpace b) :
    IsDocument (a ++ (v ++ b))

section Digits

variable {s t : List Char}

/-- More digits may follow digits. -/
theorem IsDigits.append_of_forall (h : IsDigits s) (ht : ∀ c ∈ t, isDecimal c = true) :
    IsDigits (s ++ t) :=
  ⟨List.append_ne_nil_of_left_ne_nil h.1 t, List.forall_mem_append.mpr ⟨h.2, ht⟩⟩

/-- Digits that do not begin with a zero stand before a point. -/
theorem IsDigits.isWhole (h : IsDigits s) (hzero : s.head? ≠ some '0') : IsWhole s :=
  ⟨h, fun he => absurd he hzero⟩

/-- A zero is a digit. -/
theorem isDigits_zero : IsDigits ['0'] := ⟨nofun, List.forall_mem_singleton.mpr rfl⟩

/-- A zero alone is a whole number. -/
theorem isWhole_zero : IsWhole ['0'] := ⟨isDigits_zero, fun _ => rfl⟩

/-- Decimal digits are digits. -/
theorem isDigits_toDigits (n : Nat) : IsDigits (Nat.toDigits 10 n) := by
  refine ⟨Nat.toDigits_ne_nil, fun c hc => ?_⟩
  have hdigit := Nat.isDigit_of_mem_toDigits (by decide) (by decide) hc
  simpa [isDecimal, Char.isDigit, Char.le_def] using hdigit

/-- A number that is not zero does not begin with a zero. -/
theorem head?_toDigits_ne {n : Nat} (h : n ≠ 0) : (Nat.toDigits 10 n).head? ≠ some '0' := by
  induction n using Nat.strongRecOn with
  | ind n ih =>
    by_cases hlow : n < 10
    · rw [Nat.toDigits_of_lt_base hlow]
      have hsmall : ∀ k < 10, k ≠ 0 → [Nat.digitChar k].head? ≠ some '0' := by decide
      exact hsmall n hlow h
    · rw [Nat.toDigits_of_base_le (by decide) (by omega),
        List.head?_append_of_ne_nil _ Nat.toDigits_ne_nil]
      exact ih (n / 10) (by omega) (by omega)

/-- Decimal digits are a whole number, with no zero before others. -/
theorem isWhole_toDigits (n : Nat) : IsWhole (Nat.toDigits 10 n) := by
  by_cases h : n = 0
  · rw [h]
    exact isWhole_zero
  · exact (isDigits_toDigits n).isWhole (head?_toDigits_ne h)

/-- Whole numbers are written as numbers. -/
theorem isNumber_toString (n : Int) : IsNumber (toString n).toList := by
  cases n with
  | ofNat n =>
    have hwritten : (toString (Int.ofNat n)).toList = Nat.toDigits 10 n := by
      simp [toString, Int.repr, Nat.repr]
    rw [hwritten]
    exact .positive (.whole (isWhole_toDigits n))
  | negSucc n =>
    have hwritten : (toString (Int.negSucc n)).toList = '-' :: Nat.toDigits 10 (n + 1) := by
      simp [toString, Int.repr, Nat.repr]
    rw [hwritten]
    exact .negative (.whole (isWhole_toDigits (n + 1)))

end Digits

section Reals

variable {digits : List Char} {point : Int}

/-- The grid next to a number that is not zero has its multiples away from zero. -/
theorem ne_zero_of_onGrid? {mantissa d : Nat} {exponent unit : Int} (hm : mantissa ≠ 0)
    (h : Binary64.onGrid? mantissa exponent unit = some d) : d ≠ 0 := by
  rintro rfl
  unfold Binary64.onGrid? at h
  extract_lets below decimalScale binaryScale value low high inside d at h
  -- zero is outside the interval, since the lower end of the interval is positive
  have hlow : 0 < low := by
    refine Nat.mul_pos ?_ (Nat.mul_pos (Binary64.scaleUp_pos _) (Nat.pow_pos (by decide)))
    have hbelow : below ≤ 2 := by
      unfold below
      split <;> decide
    omega
  have houtside : inside 0 = false := by
    unfold inside
    simp only [Nat.zero_mul]
    split
    · simp [Nat.not_le.mpr hlow]
    · simp
  split at h
  next hd _ =>
    split at h
    · rw [Option.some.inj h, houtside] at hd
      cases hd
    · cases h
  next hd _ =>
    rw [Option.some.inj h, houtside] at hd
    cases hd
  · cases h
  · cases h

/-- Zeros are dropped from the end up to the first digit at most. -/
theorem reverse_dropWhile_cons {x : Char} {rest : List Char} (hx : x ≠ '0') :
    ((x :: rest).reverse.dropWhile (· = '0')).reverse =
      x :: (rest.reverse.dropWhile (· = '0')).reverse := by
  rw [List.reverse_cons, List.dropWhile_append]
  split
  next hnone =>
    have hkept : [x].dropWhile (· = '0') = [x] := by simp [hx]
    rw [hkept, List.isEmpty_iff.mp hnone]
    rfl
  · rw [List.reverse_append]
    rfl

/-- The shortest digits of a number that is not zero do not begin with a zero, unless there is
nothing but a zero before the point. -/
theorem shortest_cases {mantissa : Nat} (hm : mantissa ≠ 0) (exponent : Int) :
    Binary64.shortest mantissa exponent = (['0'], 1) ∨
      IsDigits (Binary64.shortest mantissa exponent).1 ∧
        (Binary64.shortest mantissa exponent).1.head? ≠ some '0' := by
  unfold Binary64.shortest
  dsimp only
  split
  · exact .inl rfl
  next d unit hfound =>
    obtain ⟨i, _, hi⟩ := List.exists_of_findSome?_eq_some hfound
    obtain ⟨d', hgrid, heq⟩ := Option.map_eq_some_iff.mp hi
    obtain rfl : d' = d := congrArg Prod.fst heq
    have hzero := head?_toDigits_ne (ne_zero_of_onGrid? hm hgrid)
    have hdigits := isDigits_toDigits d'
    obtain ⟨x, rest, hx⟩ := List.exists_cons_of_ne_nil hdigits.1
    rw [hx] at hzero hdigits
    rw [hx, reverse_dropWhile_cons fun heq => hzero (congrArg some heq)]
    refine .inr ⟨⟨nofun, fun c hc => hdigits.2 c ?_⟩, hzero⟩
    refine List.mem_cons.mpr ((List.mem_cons.mp hc).imp id fun hc => ?_)
    exact List.mem_reverse.mp ((List.dropWhile_sublist _).mem (List.mem_reverse.mp hc))

/-- Zeros are digits. -/
theorem isDecimal_replicate (n : Nat) : ∀ c ∈ List.replicate n '0', isDecimal c = true := by
  intro c hc
  rw [List.eq_of_mem_replicate hc]
  rfl

/-- Digits with a point among them. -/
theorem isUnsigned_pointed {n : Nat} (h : IsDigits digits) (hzero : digits.head? ≠ some '0')
    (hpos : 0 < n) (hn : n < digits.length) :
    IsUnsigned (digits.take n ++ '.' :: digits.drop n) := by
  obtain ⟨d, rest, rfl⟩ := List.exists_cons_of_ne_nil h.1
  obtain ⟨hfirst, hrest⟩ := List.forall_mem_cons.mp h.2
  obtain ⟨m, rfl⟩ := Nat.exists_eq_succ_of_ne_zero hpos.ne'
  rw [List.take_succ_cons, List.drop_succ_cons]
  have hd : IsDigits [d] := ⟨nofun, List.forall_mem_singleton.mpr hfirst⟩
  have htake : IsDigits (d :: rest.take m) :=
    hd.append_of_forall fun c hc => hrest c (List.mem_of_mem_take hc)
  have hdrop : IsDigits (rest.drop m) :=
    ⟨List.drop_eq_nil_iff.not.mpr (Nat.not_le.mpr (Nat.lt_of_succ_lt_succ hn)),
      fun c hc => hrest c (List.mem_of_mem_drop hc)⟩
  exact .fraction (htake.isWhole hzero) hdrop

/-- A power of ten is written with two digits at least. -/
theorem isDigits_power (n : Nat) :
    IsDigits (if (Nat.toDigits 10 n).length < 2 then '0' :: Nat.toDigits 10 n
      else Nat.toDigits 10 n) := by
  have hdigits := isDigits_toDigits n
  split
  · exact ⟨nofun, List.forall_mem_cons.mpr ⟨rfl, hdigits.2⟩⟩
  · exact hdigits

/-- Digits are laid out as a number, wherever the point belongs. -/
theorem isUnsigned_layout (h : IsDigits digits) (hzero : digits.head? ≠ some '0') (point : Int) :
    IsUnsigned (Binary64.layout digits point) := by
  unfold Binary64.layout
  split
  · split
    · refine .fraction isWhole_zero ⟨?_, List.forall_mem_append.mpr ⟨isDecimal_replicate _, h.2⟩⟩
      exact List.append_ne_nil_of_right_ne_nil _ h.1
    · split
      · have hlong := h.append_of_forall (isDecimal_replicate (point.toNat - digits.length))
        refine .fraction (hlong.isWhole ?_) isDigits_zero
        rw [List.head?_append_of_ne_nil _ h.1]
        exact hzero
      · exact isUnsigned_pointed h hzero (by omega) (by omega)
  · obtain ⟨d, rest, rfl⟩ := List.exists_cons_of_ne_nil h.1
    obtain ⟨hfirst, hrest⟩ := List.forall_mem_cons.mp h.2
    have hd : IsDigits [d] := ⟨nofun, List.forall_mem_singleton.mpr hfirst⟩
    have hwhole := hd.isWhole hzero
    have hpower := isDigits_power (point - 1).natAbs
    have hsign : [if point - 1 < 0 then '-' else '+'] = ['-'] ∨
        [if point - 1 < 0 then '-' else '+'] = ['+'] := by
      split
      · exact .inl rfl
      · exact .inr rfl
    cases rest with
    | nil => simpa using IsUnsigned.power hwhole (.inl rfl) (.inr hsign) hpower
    | cons x more =>
      have hmore : IsDigits (x :: more) := ⟨nofun, hrest⟩
      simpa using IsUnsigned.both hwhole hmore (.inl rfl) (.inr hsign) hpower

/-- The text of a finite number is a number. -/
theorem isNumber_finiteText (negative : Bool) (mantissa : Nat) (exponent : Int) :
    IsNumber (Binary64.finiteText negative mantissa exponent) := by
  have hunsigned : IsUnsigned (if mantissa = 0 then ['0', '.', '0']
      else
        let s := Binary64.shortest mantissa exponent
        Binary64.layout s.1 s.2) := by
    split
    · exact .fraction isWhole_zero isDigits_zero
    next hm =>
      rcases shortest_cases hm exponent with heq | ⟨hdigits, hzero⟩
      · rw [heq]
        exact .fraction isWhole_zero isDigits_zero
      · exact isUnsigned_layout hdigits hzero _
  unfold Binary64.finiteText
  cases negative with
  | false => exact .positive hunsigned
  | true => exact .negative hunsigned

end Reals

section Texts

variable {s t : List Char}

/-- Two runs of characters of a text make one. -/
theorem IsRun.append (hs : IsRun s) (ht : IsRun t) : IsRun (s ++ t) := by
  induction hs with
  | nil => exact ht
  | plain hlow hquote hslash _ ih => exact .plain hlow hquote hslash ih
  | short hc _ ih => exact .short hc ih
  | @unit digits s hlength hdigits _ ih =>
    rw [List.cons_append, List.cons_append, List.append_assoc]
    exact .unit hlength hdigits ih

/-- Runs for all items make one run. -/
theorem isRun_flatMap {α : Type} {f : α → List Char} (h : ∀ a, IsRun (f a)) (items : List α) :
    IsRun (items.flatMap f) := by
  induction items with
  | nil => exact .nil
  | cons a items ih => exact (h a).append ih

/-- An escaped code unit can stand in a text. -/
theorem isRun_unitEscape (n : Nat) : IsRun (unitEscape n) := by
  have hdigit : ∀ k < 16, (hexValue? (Text.hexDigit k)).isSome = true := by decide
  have hhex : ∀ width n, ∀ c ∈ Text.hex width n, (hexValue? c).isSome = true := by
    intro width
    induction width with
    | zero => exact fun _ => nofun
    | succ width ih =>
      refine fun n => List.forall_mem_append.mpr ⟨ih (n / 16), ?_⟩
      exact List.forall_mem_singleton.mpr (hdigit _ (Nat.mod_lt n (by decide)))
  have hescape : unitEscape n = '\\' :: 'u' :: (Text.hex 4 n ++ []) := by
    rw [List.append_nil]
    rfl
  rw [hescape]
  exact .unit rfl (hhex 4 n) .nil

/-- Every character is written as what can stand in a text. -/
theorem isRun_writtenChar (c : Char) : IsRun (writtenChar c) := by
  unfold writtenChar
  dsimp only
  split_ifs with hquote hslash _ _ _ _ _ hplain
  · exact .short rfl .nil
  · exact .short rfl .nil
  · exact .short rfl .nil
  · exact .short rfl .nil
  · exact .short rfl .nil
  · exact .short rfl .nil
  · exact .short rfl .nil
  · exact .plain hplain.1 hquote hslash .nil
  · exact isRun_unitEscape _
  · exact (isRun_unitEscape _).append (isRun_unitEscape _)

/-- A text is written between quotation marks. -/
theorem isQuoted_writtenText (s : Spelling) : IsQuoted (writtenText s) := by
  refine .quotes ((isRun_flatMap isRun_writtenChar _).append (isRun_flatMap ?_ _))
  rintro ⟨half, text⟩
  exact (isRun_unitEscape _).append (isRun_flatMap isRun_writtenChar _)

end Texts

section Written

theorem isSpace_nil : IsSpace [] := nofun

theorem isSpace_blank : IsSpace [' '] := List.forall_mem_singleton.mpr rfl

/-- The end of a line and the indentation of the next are space. -/
theorem isSpace_lineBreak (level : Nat) : IsSpace (lineBreak level) := by
  intro c hc
  rcases List.mem_cons.mp hc with rfl | hc
  · rfl
  · rw [List.eq_of_mem_replicate hc]
    rfl

/-- A number with a fraction is written as a value. -/
theorem isValue_written_real (x : Binary64) : IsValue x.written := by
  cases x with
  | finite negative m e => exact .number (isNumber_finiteText negative m e)
  | infinite negative => cases negative <;> exact .word (by decide)
  | nan => exact .word (by decide)

theorem textOf_singleton (piece : Piece) : textOf [piece] = piece.written := by
  simp only [textOf, List.flatMap_cons, List.flatMap_nil, List.append_nil]

mutual

/-- The pieces of a value make up a value. -/
theorem isValue_pieces (level : Nat) : (v : Value) → IsValue (textOf (piecesAt level v))
  | .null => by
    rw [piecesAt, textOf_singleton]
    exact .word (by decide)
  | .bool b => by
    rw [piecesAt, textOf_singleton]
    cases b <;> exact .word (by decide)
  | .int n => by
    rw [piecesAt, textOf_singleton]
    exact .number (isNumber_toString n)
  | .real x => by
    rw [piecesAt, textOf_singleton]
    exact isValue_written_real x
  | .text s => by
    rw [piecesAt, textOf_singleton]
    exact .text (isQuoted_writtenText s)
  | .list [] => .noItems isSpace_nil
  | .list (v :: rest) => by
    have hitems := isItems_pieces (level + 1) rest (isValue_pieces (level + 1) v)
      (isSpace_lineBreak level)
    simpa [piecesAt, textOf, Piece.written] using IsValue.items hitems
  | .object [] => .noMembers isSpace_nil
  | .object ((k, v) :: rest) => by
    have hmembers := isMembers_pieces (level + 1) rest (isQuoted_writtenText k)
      (isValue_pieces (level + 1) v) (isSpace_lineBreak level)
    simpa [piecesAt, textOf, Piece.written] using IsValue.members hmembers

/-- A value on a line of its own and the pieces of the items after it. -/
theorem isItems_pieces (level : Nat) : (rest : List Value) → {v after : List Char} →
    IsValue v → IsSpace after →
      IsItems (lineBreak level ++ (v ++ (textOf (piecesOfItems level rest) ++ after)))
  | [], v, after, hv, hafter => .last (isSpace_lineBreak level) hv hafter
  | w :: rest, v, after, hv, hafter => by
    have hrest := isItems_pieces level rest (isValue_pieces level w) hafter
    have hmore := IsItems.more (isSpace_lineBreak level) hv isSpace_nil hrest
    simpa [piecesOfItems, textOf, Piece.written] using hmore

/-- A key with its value on a line of its own and the pieces of the members after it. -/
theorem isMembers_pieces (level : Nat) : (rest : List (Spelling × Value)) →
    {k v after : List Char} → IsQuoted k → IsValue v → IsSpace after →
      IsMembers (lineBreak level ++
        (k ++ (": ".toList ++ (v ++ (textOf (piecesOfMembers level rest) ++ after)))))
  | [], k, v, after, hk, hv, hafter =>
    .last (isSpace_lineBreak level) hk isSpace_nil isSpace_blank hv hafter
  | (key, w) :: rest, k, v, after, hk, hv, hafter => by
    have hrest := isMembers_pieces level rest (isQuoted_writtenText key)
      (isValue_pieces level w) hafter
    have hmore :=
      IsMembers.more (isSpace_lineBreak level) hk isSpace_nil isSpace_blank hv isSpace_nil hrest
    simpa [piecesOfMembers, textOf, Piece.written] using hmore

end

/-- The document that holds a value, with spacing after it, is a document. -/
theorem isDocument_written (v : Value) {after : List Char} (hafter : IsSpace after) :
    IsDocument (v.written.toList ++ after) := by
  have hwritten : v.written.toList = textOf (piecesAt 0 v) := String.toList_ofList
  rw [hwritten]
  exact .value isSpace_nil (isValue_pieces 0 v) hafter

end Written

section Numbers

/-- A whole number stands somewhere in a value. -/
inductive Holds (n : Int) : Value → Prop
  | whole : Holds n (.int n)
  | item {v : Value} {items : List Value} (hmem : v ∈ items) (h : Holds n v) :
    Holds n (.list items)
  | member {k : Spelling} {v : Value} {members : List (Spelling × Value)}
    (hmem : (k, v) ∈ members) (h : Holds n v) : Holds n (.object members)

/-- No whole number in a value has more digits than the limit. -/
def IsWritable (v : Value) : Prop := ∀ n, Holds n v → n.natAbs < 10 ^ Text.Integer.digitLimit

variable {n : Int} {v : Value}

/-- A list holds what its items hold. -/
theorem holds_list_iff {items : List Value} : Holds n (.list items) ↔ ∃ v ∈ items, Holds n v := by
  constructor
  · rintro (_ | ⟨hmem, h⟩)
    exact ⟨_, hmem, h⟩
  · rintro ⟨v, hmem, h⟩
    exact .item hmem h

/-- An object holds what its members hold. -/
theorem holds_object_iff {members : List (Spelling × Value)} :
    Holds n (.object members) ↔ ∃ member ∈ members, Holds n member.2 := by
  constructor
  · rintro (_ | _ | ⟨hmem, h⟩)
    exact ⟨_, hmem, h⟩
  · rintro ⟨⟨k, v⟩, hmem, h⟩
    exact .member hmem h

/-- A plain piece is no whole number. -/
theorem whole_notMem_plain (s : List Char) : Piece.whole n ∉ [Piece.plain s] := by
  rw [List.mem_singleton]
  exact nofun

mutual

/-- The whole numbers among the pieces of a value are those in the value. -/
theorem whole_mem_piecesAt_iff (level : Nat) : (v : Value) →
    (.whole n ∈ piecesAt level v ↔ Holds n v)
  | .null => by
    rw [piecesAt]
    exact iff_of_false (whole_notMem_plain _) nofun
  | .bool b => by
    rw [piecesAt]
    exact iff_of_false (whole_notMem_plain _) nofun
  | .int m => by
    rw [piecesAt, List.mem_singleton, Piece.whole.injEq]
    constructor
    · rintro rfl
      exact .whole
    · rintro ⟨⟩
      rfl
  | .real x => by
    rw [piecesAt]
    exact iff_of_false (whole_notMem_plain _) nofun
  | .text s => by
    rw [piecesAt]
    exact iff_of_false (whole_notMem_plain _) nofun
  | .list [] => by
    rw [holds_list_iff]
    simp [piecesAt]
  | .list (v :: rest) => by
    have hv := whole_mem_piecesAt_iff (level + 1) v
    have hrest := whole_mem_piecesOfItems_iff (level + 1) rest
    rw [holds_list_iff, List.exists_mem_cons_iff, ← hv, ← hrest]
    simp [piecesAt]
  | .object [] => by
    rw [holds_object_iff]
    simp [piecesAt]
  | .object ((k, v) :: rest) => by
    have hv := whole_mem_piecesAt_iff (level + 1) v
    have hrest := whole_mem_piecesOfMembers_iff (level + 1) rest
    rw [holds_object_iff, List.exists_mem_cons_iff, ← hv, ← hrest]
    simp [piecesAt]

/-- The whole numbers among the pieces of the items after the first. -/
theorem whole_mem_piecesOfItems_iff (level : Nat) : (items : List Value) →
    (.whole n ∈ piecesOfItems level items ↔ ∃ v ∈ items, Holds n v)
  | [] => by simp [piecesOfItems]
  | v :: rest => by
    have hv := whole_mem_piecesAt_iff level v
    have hrest := whole_mem_piecesOfItems_iff level rest
    rw [List.exists_mem_cons_iff, ← hv, ← hrest]
    simp [piecesOfItems]

/-- The whole numbers among the pieces of the members after the first. -/
theorem whole_mem_piecesOfMembers_iff (level : Nat) : (members : List (Spelling × Value)) →
    (.whole n ∈ piecesOfMembers level members ↔ ∃ member ∈ members, Holds n member.2)
  | [] => by simp [piecesOfMembers]
  | (k, v) :: rest => by
    have hv := whole_mem_piecesAt_iff level v
    have hrest := whole_mem_piecesOfMembers_iff level rest
    rw [List.exists_mem_cons_iff, ← hv, ← hrest]
    simp [piecesOfMembers]

end

/-- A whole number is long if it has more digits than are written. -/
theorem isLong_whole_iff : (Piece.whole n).isLong = true ↔
    10 ^ Text.Integer.digitLimit ≤ n.natAbs := by
  rw [Piece.isLong, isLong, decide_eq_true_iff, Nat.pow_eq]

/-- A document is cut exactly if its value cannot be written. -/
theorem cut?_eq_none_iff : v.cut? = none ↔ v.IsWritable := by
  have hany : (piecesAt 0 v).any Piece.isLong = true ↔
      ∃ n, Holds n v ∧ 10 ^ Text.Integer.digitLimit ≤ n.natAbs := by
    rw [List.any_eq_true]
    constructor
    · rintro ⟨piece, hmem, hlong⟩
      cases piece with
      | plain s => cases hlong
      | whole n => exact ⟨n, (whole_mem_piecesAt_iff 0 v).mp hmem, isLong_whole_iff.mp hlong⟩
    · rintro ⟨n, hholds, hlong⟩
      exact ⟨.whole n, (whole_mem_piecesAt_iff 0 v).mpr hholds, isLong_whole_iff.mpr hlong⟩
  unfold cut? IsWritable
  dsimp only
  split_ifs with hlong
  · obtain ⟨n, hholds, hn⟩ := hany.mp hlong
    exact iff_of_false nofun fun h => absurd (h n hholds) (Nat.not_lt.mpr hn)
  · refine iff_of_true rfl fun n hholds => ?_
    by_contra hn
    exact hlong (hany.mpr ⟨n, hholds, Nat.not_lt.mp hn⟩)

end Numbers

section Foreign

/-- A text that begins with something else than a sequence for the terminal. -/
def BeginsPlainly (s : List Char) : Prop := ∃ c, s.head? = some c ∧ c ≠ Terminal.escape

/-- A whole number begins no sequence, whatever follows. -/
theorem IsWhole.beginsPlainly {s : List Char} (h : IsWhole s) (t : List Char) :
    BeginsPlainly (s ++ t) := by
  obtain ⟨d, rest, rfl⟩ := List.exists_cons_of_ne_nil h.1.1
  refine ⟨d, rfl, ?_⟩
  rintro rfl
  cases h.1.2 _ List.mem_cons_self

/-- A number without a sign begins no sequence. -/
theorem IsUnsigned.beginsPlainly {s : List Char} (h : IsUnsigned s) : BeginsPlainly s := by
  cases h with
  | whole h => exact List.append_nil s ▸ h.beginsPlainly []
  | fraction h => exact h.beginsPlainly _
  | power h => exact h.beginsPlainly _
  | both h => exact h.beginsPlainly _

/-- A value begins no sequence. -/
theorem IsValue.beginsPlainly {s : List Char} (h : IsValue s) : BeginsPlainly s := by
  cases h with
  | @word w h =>
    have hwords : ∀ w ∈ wordValues.map (·.1),
        w.toList.head?.any (· ≠ Terminal.escape) = true := by decide
    obtain ⟨c, hc, hne⟩ := (Option.any_eq_true _ _).mp (hwords w h)
    exact ⟨c, hc, of_decide_eq_true hne⟩
  | number h =>
    cases h with
    | positive h => exact h.beginsPlainly
    | negative h => exact ⟨'-', rfl, by decide⟩
  | text h =>
    cases h
    exact ⟨'"', rfl, by decide⟩
  | noItems _ | items _ => exact ⟨'[', rfl, by decide⟩
  | noMembers _ | members _ => exact ⟨'\x7b', rfl, by decide⟩

/-- A text that begins with a sequence for the terminal is no document. -/
theorem not_isDocument_of_head? {s : List Char} (h : s.head? = some Terminal.escape) :
    ¬IsDocument s := by
  rintro @⟨a, v, b, ha, hv, hb⟩
  cases a with
  | nil =>
    obtain ⟨c, hc, hne⟩ := hv.beginsPlainly
    rw [List.nil_append, List.head?_append, hc] at h
    exact hne (Option.some.inj h)
  | cons c a =>
    have hc := ha c List.mem_cons_self
    rw [Option.some.inj h] at hc
    cases hc

end Foreign

end Value

end DesignTokens

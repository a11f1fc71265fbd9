import DesignTokens.Proofs.Token.Place

/-!
# References to mixins

What the format for mixins finds at a place: a rule, white space and a name. A name with a prefix of
the design system and something after it is told by the prefix alone; any other reference is told by
its whole text.
-/

namespace DesignTokens

open Pattern

namespace TokenFormat

/-- The format of the mixins. -/
def mixins : TokenFormat := canon.get ⟨3, by decide⟩

/-- The rules that refer to a mixin. -/
def mixinRules : List String := ["include", "mixin"]

/-- The prefixes of the design system. -/
def mixinPrefixes : List String := ["cds-", "canon-"]

/-- The prefix of the design system before the rest of a name. -/
def mixinPrefix? (name : List Char) : Option String :=
  mixinPrefixes.find? fun p => p.toList.isPrefixOf name && p.toList != name

/-- The name that a reference is given by its rule, the white space and the name of the mixin. -/
def mixinName (rule : String) (blank name : List Char) : List Char :=
  match mixinPrefix? name with
  | some p => p.toList
  | none => '@' :: (rule.toList ++ (blank ++ name))

theorem keepsApart_mixins : mixins.pattern.KeepsApart :=
  keepsApart_seq_lit (c := '@') rfl (by decide) rfl

/-- A character of a name is no white space. -/
theorem isBlank_of_isNameChar {c : Char} (h : isNameChar c = true) : Text.isBlank c = false := by
  have hrange : 0x2D ≤ c.toNat ∧ c.toNat ≤ 0x7A := by
    simp only [isNameChar, isAlphanumeric, Bool.or_eq_true, Bool.and_eq_true, decide_eq_true_eq,
      beq_iff_eq, Char.le_def, UInt32.le_iff_toNat_le] at h
    rcases h with (((h | h) | h) | rfl) | rfl
    · exact ⟨Nat.le_trans (by decide) h.1, h.2⟩
    · exact ⟨Nat.le_trans (by decide) h.1, Nat.le_trans h.2 (by decide)⟩
    · exact ⟨Nat.le_trans (by decide) h.1, Nat.le_trans h.2 (by decide)⟩
    · decide
    · decide
  rw [Bool.eq_false_iff]
  intro hblank
  simp only [Text.isBlank, Bool.or_eq_true, Bool.and_eq_true, decide_eq_true_eq, beq_iff_eq]
    at hblank
  omega

/-- The prefixes consist of characters of names. -/
theorem isNameChar_of_mem_mixinPrefixes :
    ∀ p ∈ mixinPrefixes, ∀ c ∈ p.toList, isNameChar c = true := by
  have hall : ∀ p ∈ mixinPrefixes, p.toList.all isNameChar = true := by decide
  exact fun p hp => List.all_eq_true.mp (hall p hp)

variable {rule : String} {t blank tail : List Char} {m : Match}

/-- White space ends where a name begins. -/
theorem dropWhile_blank_append (hblank : ∀ c ∈ blank, Text.isBlank c = true)
    (hname : tail.takeWhile isNameChar ≠ []) : (blank ++ tail).dropWhile Text.isBlank = tail := by
  rw [List.dropWhile_append_of_pos hblank]
  cases tail with
  | nil => rfl
  | cons c rest =>
    have hc : isNameChar c = true := by
      by_contra hc
      rw [List.takeWhile_cons_of_neg hc] at hname
      exact hname rfl
    rw [List.dropWhile_cons_of_neg (Bool.eq_false_iff.mp (isBlank_of_isNameChar hc))]

/-- Something of the name is left after its prefix. -/
theorem exists_of_mixinPrefix? {p : String}
    (h : mixinPrefix? (tail.takeWhile isNameChar) = some p) :
    p ∈ mixinPrefixes ∧ ∃ after, tail = p.toList ++ after ∧ after.takeWhile isNameChar ≠ [] := by
  have hp := List.mem_of_find?_eq_some h
  have hproper := List.find?_some h
  rw [Bool.and_eq_true_iff, List.isPrefixOf_iff_prefix, bne_iff_ne] at hproper
  obtain ⟨after, rfl⟩ := hproper.1.trans (List.takeWhile_prefix isNameChar)
  refine ⟨hp, after, rfl, fun hnil => hproper.2 ?_⟩
  rw [List.takeWhile_append_of_pos (isNameChar_of_mem_mixinPrefixes p hp), hnil, List.append_nil]

/-- Where a name has no prefix, nothing of it is left after one. -/
theorem takeWhile_eq_nil_of_mixinPrefix? {p : String} {after : List Char} (hp : p ∈ mixinPrefixes)
    (h : mixinPrefix? ((p.toList ++ after).takeWhile isNameChar) = none) :
    after.takeWhile isNameChar = [] := by
  have hproper := List.find?_eq_none.mp h p hp
  rw [List.takeWhile_append_of_pos (isNameChar_of_mem_mixinPrefixes p hp), Bool.and_eq_true_iff,
    List.isPrefixOf_iff_prefix, bne_iff_ne, not_and_not_right] at hproper
  exact List.self_eq_append_right.mp (hproper (List.prefix_append _ _))

private theorem exec_name (t s : List Char) (g : Captures) :
    exec (seq (group 2 (many1 isNameChar)) empty) s g
        (fun rest g => some (⟨before t rest, rest, g⟩ : Match)) =
      if s.takeWhile isNameChar = [] then none
      else some ⟨before t (s.dropWhile isNameChar), s.dropWhile isNameChar,
        ⟨2, s, s.dropWhile isNameChar⟩ :: g⟩ := by
  rw [exec.eq_4, exec.eq_7]
  exact exec_many1 rfl

/-- The name after the white space is told by its prefix, or else by the whole text. -/
private theorem exists_exec_prefix (opening : List Char) (hname : tail.takeWhile isNameChar ≠ []) :
    ∃ m, exec (seq (opt (group 1 (words mixinPrefixes))) (seq (group 2 (many1 isNameChar)) empty))
        tail [] (fun rest g => some (⟨before (opening ++ tail) rest, rest, g⟩ : Match)) = some m ∧
      m.tokenName = match mixinPrefix? (tail.takeWhile isNameChar) with
        | some p => p.toList
        | none => opening ++ tail.takeWhile isNameChar := by
  rw [exec.eq_4]
  simp only [exec_name]
  cases h : mixinPrefix? (tail.takeWhile isNameChar) with
  | some p =>
    obtain ⟨hp, after, rfl, hafter⟩ := exists_of_mixinPrefix? h
    have hfree : PrefixFree mixinPrefixes := by decide
    refine ⟨⟨before (opening ++ (p.toList ++ after)) (after.dropWhile isNameChar),
      after.dropWhile isNameChar, [⟨2, after, after.dropWhile isNameChar⟩,
        ⟨1, p.toList ++ after, after⟩]⟩, exec_opt_of_some ?_, ?_⟩
    · rw [exec.eq_7, exec_words_of_mem hfree hp, if_neg hafter]
    · have hempty : ∀ p ∈ mixinPrefixes, p.toList ≠ [] := by decide
      have hcapture : ∀ text rest, (Match.mk text rest [⟨2, after, rest⟩,
          ⟨1, p.toList ++ after, after⟩]).capture 1 = p.toList := fun _ _ => before_append _ _
      rw [Match.tokenName_of_capture (by rw [hcapture]; exact hempty p hp), hcapture]
  | none =>
    refine ⟨_, (exec_opt_of_none ?_).trans (if_neg hname), ?_⟩
    · rw [exec.eq_7, exec_words, List.findSome?_eq_none_iff]
      intro p hp
      rw [Option.eq_none_iff_forall_ne_some]
      intro m hm
      obtain ⟨after, rfl, hafter⟩ := exists_of_exec_lit hm
      rw [if_pos (takeWhile_eq_nil_of_mixinPrefix? hp h)] at hafter
      cases hafter
    · rw [Match.tokenName_of_capture_eq_nil rfl]
      exact before_append_dropWhile isNameChar opening tail

/-- A reference to a mixin is found under its name. -/
theorem exists_matchAt_mixins (hrule : rule ∈ mixinRules) (hne : blank ≠ [])
    (hblank : ∀ c ∈ blank, Text.isBlank c = true) (hname : tail.takeWhile isNameChar ≠ []) :
    ∃ m, mixins.pattern.matchAt ('@' :: (rule.toList ++ (blank ++ tail))) = some m ∧
      m.tokenName = mixinName rule blank (tail.takeWhile isNameChar) := by
  have hrun := dropWhile_blank_append hblank hname
  have hstart : (blank ++ tail).takeWhile Text.isBlank ≠ [] := by
    rw [List.takeWhile_append_of_pos hblank]
    exact List.append_ne_nil_of_left_ne_nil hne _
  have hsplit : '@' :: (rule.toList ++ blank) ++ tail =
      "@".toList ++ (rule.toList ++ (blank ++ tail)) := by
    rw [List.cons_append, List.append_assoc]
    rfl
  have hfree : PrefixFree mixinRules := by decide
  obtain ⟨m, hm, htoken⟩ := exists_exec_prefix ('@' :: (rule.toList ++ blank)) hname
  rw [hsplit] at hm
  refine ⟨m, ?_, ?_⟩
  · change exec (seq (lit "@") (seq (words mixinRules) (seq (many1 Text.isBlank)
      (seq (opt (group 1 (words mixinPrefixes))) (seq (group 2 (many1 isNameChar)) empty)))))
      ("@".toList ++ (rule.toList ++ (blank ++ tail))) [] _ = _
    rw [exec.eq_4, exec_lit_append_left, exec.eq_4, exec_words_of_mem hfree hrule, exec.eq_4,
      exec_many1 (r := m), if_neg hstart]
    rw [hrun]
    exact hm
  · rw [htoken]
    unfold mixinName
    split
    · rfl
    · rw [List.cons_append, List.append_assoc]

/-- Nothing else is a reference to a mixin. -/
theorem exists_of_matchAt_mixins (h : mixins.pattern.matchAt t = some m) :
    ∃ rule ∈ mixinRules, ∃ blank tail, t = '@' :: (rule.toList ++ (blank ++ tail)) ∧
      blank ≠ [] ∧ (∀ c ∈ blank, Text.isBlank c = true) ∧ tail.takeWhile isNameChar ≠ [] := by
  change exec (seq (lit "@") (seq (words mixinRules) (seq (many1 Text.isBlank)
    (seq (opt (group 1 (words mixinPrefixes))) (seq (group 2 (many1 isNameChar)) empty)))))
    t [] _ = _ at h
  rw [exec.eq_4] at h
  obtain ⟨after, rfl, h⟩ := exists_of_exec_lit h
  rw [exec.eq_4] at h
  obtain ⟨rule, hrule, rest, rfl, h⟩ := exists_of_exec_words h
  rw [exec.eq_4] at h
  obtain ⟨blank, tail, rfl, hne, hblank, h⟩ := exists_of_exec_many1 h
  refine ⟨rule, hrule, blank, tail, rfl, hne, hblank, ?_⟩
  rw [exec.eq_4, opt, exec_alt, Option.or_eq_some_iff] at h
  rcases h with hprefix | ⟨-, hwhole⟩
  · rw [exec.eq_7] at hprefix
    obtain ⟨p, hp, rest, rfl, -⟩ := exists_of_exec_words hprefix
    rw [List.takeWhile_append_of_pos (isNameChar_of_mem_mixinPrefixes p hp)]
    have hempty : ∀ p ∈ mixinPrefixes, p.toList ≠ [] := by decide
    exact List.append_ne_nil_of_left_ne_nil (hempty p hp) _
  · rw [exec.eq_1, exec.eq_4, exec.eq_7] at hwhole
    exact takeWhile_ne_nil_of_exec_many1 hwhole

/-- A reference to a mixin in a content. -/
structure MixinReference (content : String) where
  line : Nat
  start : Nat
  rule : String
  /-- The white space after the rule. -/
  blank : List Char
  /-- What follows the white space on its line. -/
  tail : List Char
  mem : rule ∈ mixinRules
  blank_ne : blank ≠ []
  isBlank : ∀ c ∈ blank, Text.isBlank c = true
  name_ne : tail.takeWhile isNameChar ≠ []
  here : textAt content line start = '@' :: (rule.toList ++ (blank ++ tail))

namespace MixinReference

variable {content : String}

/-- The name of the mixin. -/
def name (r : MixinReference content) : List Char := r.tail.takeWhile isNameChar

/-- Where the reference is. -/
def place (r : MixinReference content) : Nat × Nat := (r.line, r.start)

/-- The name that the reference is given. -/
def tokenName (r : MixinReference content) : List Char := mixinName r.rule r.blank r.name

/-- Both names have the same prefix of the design system. -/
def ToldAlike (r r' : MixinReference content) : Prop :=
  ∃ p, mixinPrefix? r.name = some p ∧ mixinPrefix? r'.name = some p

/-- References that are told alike have one name. -/
theorem tokenName_of_toldAlike {r r' : MixinReference content} (h : r.ToldAlike r') :
    r.tokenName = r'.tokenName := by
  obtain ⟨p, hp, hp'⟩ := h
  unfold tokenName mixinName
  rw [hp, hp']

/-- References with one name are told alike, or have one text. -/
theorem toldAlike_or_of_tokenName {r r' : MixinReference content}
    (h : r.tokenName = r'.tokenName) :
    r.ToldAlike r' ∨ '@' :: (r.rule.toList ++ (r.blank ++ r.name)) =
      '@' :: (r'.rule.toList ++ (r'.blank ++ r'.name)) := by
  have hletters : ∀ p ∈ mixinPrefixes, p.toList.head? ≠ some '@' := by decide
  unfold tokenName mixinName at h
  cases hp : mixinPrefix? r.name with
  | some p =>
    rw [hp] at h
    cases hp' : mixinPrefix? r'.name with
    | some p' =>
      rw [hp'] at h
      obtain rfl := String.toList_injective h
      exact .inl ⟨p, hp, hp'⟩
    | none =>
      rw [hp'] at h
      exact absurd (congrArg List.head? h) (hletters p (exists_of_mixinPrefix? hp).1)
  | none =>
    rw [hp] at h
    cases hp' : mixinPrefix? r'.name with
    | some p' =>
      rw [hp'] at h
      exact absurd (congrArg List.head? h.symm) (hletters p' (exists_of_mixinPrefix? hp').1)
    | none =>
      rw [hp'] at h
      exact .inr h

end MixinReference

/-- The format finds the references to mixins. -/
theorem finds_mixins (content : String) :
    mixins.Finds content (@MixinReference.place content) (@MixinReference.tokenName content) := by
  refine ⟨fun r => ?_, fun line start m hm => ?_⟩
  · obtain ⟨m, hm, hname⟩ := exists_matchAt_mixins r.mem r.blank_ne r.isBlank r.name_ne
    rw [← r.here] at hm
    exact ⟨m, hm, hname⟩
  · obtain ⟨rule, hrule, blank, tail, htext, hne, hblank, hname⟩ := exists_of_matchAt_mixins hm
    exact ⟨⟨line, start, rule, blank, tail, hrule, hne, hblank, hname, htext⟩, rfl⟩

end TokenFormat

end DesignTokens

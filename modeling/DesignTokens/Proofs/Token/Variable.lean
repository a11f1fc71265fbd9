import DesignTokens.Proofs.Token.Place
import Mathlib.Data.List.TakeWhile

/-!
# References to variables

What the formats for stylesheet variables find at a place. A variable of the design system is its
whole name. A variable with a stem is the number after the stem, or the stem with its dash where no
number follows, whatever else belongs to its identifier.
-/

namespace DesignTokens

open Pattern

namespace TokenFormat

/-- The format of the variables of the design system. -/
def system : TokenFormat := canon.get ⟨0, by decide⟩

/-- The format of the variables with the stems of the framework. -/
def bootstrap : TokenFormat := canon.get ⟨1, by decide⟩

/-- The format of the variables with the stems of colors. -/
def color : TokenFormat := canon.get ⟨2, by decide⟩

/-- The text before the names of the design system. -/
def systemOpening : List Char := "$cds-".toList

/-- The stems of the framework. -/
def bootstrapStems : List String :=
  ["gray", "white", "black", "primary", "secondary", "success", "info", "warning", "danger"]

/-- The names of the colors. -/
def colorWords : List String :=
  ["red", "blue", "green", "yellow", "purple", "orange", "gray", "black", "white"]

/-- The stems of colors: their names, perhaps with the prefix of the design system. -/
def colorStems : List String := colorWords.map ("cds-" ++ ·) ++ colorWords

/-- The path is one of a stylesheet whose variables have the sigil. -/
def IsSass (path : String) : Prop :=
  Text.lowerString (PathText.extension path) ∈ [".scss", ".sass"]

instance (path : String) : Decidable (IsSass path) :=
  inferInstanceAs (Decidable (_ ∈ _))

/-- A format for both file types of Sass applies to a file of Sass. -/
theorem appliesTo_of_isSass {f : TokenFormat} {path : String}
    (hf : f.extensions = [".scss", ".sass"]) (hpath : IsSass path) : f.appliesTo path = true := by
  unfold appliesTo
  rw [hf]
  exact List.contains_iff_mem.mpr hpath

/-- The formats of the design system have different names. -/
theorem nodup_name_canon : (canon.map (·.name)).Nodup := by decide

/-- So have the general ones. -/
theorem nodup_name_general : (general.map (·.name)).Nodup := by decide

/-- Variables of the design system are kept apart. -/
theorem keepsApart_system : system.pattern.KeepsApart :=
  keepsApart_seq_lit (c := '$') rfl (by decide) rfl

/-- Framework variables are kept apart. -/
theorem keepsApart_bootstrap : bootstrap.pattern.KeepsApart :=
  keepsApart_seq_lit (c := '$') rfl (by decide) rfl

/-- Color variables are kept apart. -/
theorem keepsApart_color : color.pattern.KeepsApart :=
  keepsApart_seq_lit (c := '$') rfl (by decide) rfl

section System

variable {t tail : List Char} {m : Match}

/-- A variable of the design system is its whole name. -/
theorem exists_matchAt_system (h : tail.takeWhile isNameChar ≠ []) :
    ∃ m, system.pattern.matchAt (systemOpening ++ tail) = some m ∧
      m.tokenName = tail.takeWhile isNameChar := by
  -- After the longest run of name characters there is no dash.
  have hdash : ("-".toList.isPrefixOf (tail.dropWhile isNameChar)) = false := by
    have hstop := List.head?_dropWhile_not isNameChar tail
    cases hrest : tail.dropWhile isNameChar with
    | nil => rfl
    | cons c rest =>
      rw [hrest] at hstop
      by_cases hc : c = '-'
      · subst hc
        cases hstop
      · simp [List.isPrefixOf, beq_false_of_ne (Ne.symm hc)]
  refine ⟨⟨systemOpening ++ tail.takeWhile isNameChar, tail.dropWhile isNameChar,
    [⟨1, tail, tail.dropWhile isNameChar⟩]⟩, ?_, ?_⟩
  · change exec (seq (lit "$cds-") (group 1 (seq (many1 isNameChar) (opt _)))) _ [] _ = _
    unfold systemOpening
    rw [exec.eq_4, exec_lit_append_left, exec.eq_7, exec.eq_4, exec_many1, if_neg h]
    rw [exec_opt_of_none]
    · rw [before_append_dropWhile]
    · rw [exec.eq_4, exec_lit, hdash]
      rfl
  · have hcapture := before_dropWhile isNameChar tail
    exact (Match.tokenName_of_capture (hcapture ▸ h)).trans hcapture

/-- Nothing else is a variable of the design system. -/
theorem exists_of_matchAt_system (h : system.pattern.matchAt t = some m) :
    ∃ tail, t = systemOpening ++ tail ∧ tail.takeWhile isNameChar ≠ [] := by
  change exec (seq (lit "$cds-") (group 1 _)) t [] _ = _ at h
  rw [exec.eq_4] at h
  obtain ⟨tail, rfl, h⟩ := exists_of_exec_lit h
  rw [exec.eq_7, exec.eq_4] at h
  exact ⟨tail, rfl, takeWhile_ne_nil_of_exec_many1 h⟩

/-- A variable of the design system in a content. -/
structure SystemReference (content : String) where
  line : Nat
  start : Nat
  /-- What follows the text before the names of the design system on the line. -/
  tail : List Char
  name_ne : tail.takeWhile isNameChar ≠ []
  here : textAt content line start = systemOpening ++ tail

namespace SystemReference

variable {content : String}

/-- Where the reference is. -/
def place (r : SystemReference content) : Nat × Nat := (r.line, r.start)

/-- The name of the variable in the design system. -/
def name (r : SystemReference content) : List Char := r.tail.takeWhile isNameChar

end SystemReference

/-- The format finds the variables of the design system. -/
theorem finds_system (content : String) :
    system.Finds content (@SystemReference.place content) (@SystemReference.name content) := by
  refine ⟨fun r => ?_, fun line start m hm => ?_⟩
  · obtain ⟨m, hm, hname⟩ := exists_matchAt_system r.name_ne
    rw [← r.here] at hm
    exact ⟨m, hm, hname⟩
  · obtain ⟨tail, htext, htail⟩ := exists_of_matchAt_system hm
    exact ⟨⟨line, start, tail, htail, htext⟩, rfl⟩

end System

section Stems

variable {stems : List String} {stem : String} {t tail : List Char} {m : Match}

/-- The pattern of a variable with one of some stems. -/
def stemmed (stems : List String) : Pattern := all [lit "$", words stems, scaleDigits]

/-- The dash after a stem, if there is one. -/
def dash : List Char → List Char
  | '-' :: _ => ['-']
  | _ => []

/-- What follows the dash after a stem, or the stem itself where there is no dash. -/
def afterDash : List Char → List Char
  | '-' :: rest => rest
  | tail => tail

/-- A tail is its dash and what comes after it. -/
theorem dash_append_afterDash (tail : List Char) : dash tail ++ afterDash tail = tail := by
  unfold dash afterDash
  split <;> rfl

/-- The number after a stem, perhaps after a dash; it is empty where there is none. -/
def number (tail : List Char) : List Char := (afterDash tail).takeWhile Text.isDigit

/-- The name that a variable is given by its stem and what follows the stem. -/
def variableName (stem : String) (tail : List Char) : List Char :=
  if number tail = [] then '$' :: (stem.toList ++ dash tail) else number tail

theorem bootstrap_pattern : bootstrap.pattern = stemmed bootstrapStems := rfl

section Scale

variable {α : Type} {k : List Char → Captures → Option α}

/-- A number that may be missing takes all digits there are. -/
private theorem exec_digits (hk : ∀ s g, k s g ≠ none) (s : List Char) (g : Captures) :
    exec (opt (group 1 (many1 Text.isDigit))) s g k = k (s.dropWhile Text.isDigit)
      (if s.takeWhile Text.isDigit = [] then g
        else ⟨1, s, s.dropWhile Text.isDigit⟩ :: g) := by
  obtain ⟨r, hr⟩ := Option.ne_none_iff_exists'.mp
    (hk (s.dropWhile Text.isDigit) (⟨1, s, s.dropWhile Text.isDigit⟩ :: g))
  have hgroup : exec (group 1 (many1 Text.isDigit)) s g k =
      if s.takeWhile Text.isDigit = [] then none else some r := exec_many1 hr
  by_cases hnone : s.takeWhile Text.isDigit = []
  · have hall := List.takeWhile_append_dropWhile (p := Text.isDigit) (l := s)
    rw [hnone, List.nil_append] at hall
    rw [if_pos hnone] at hgroup ⊢
    rw [exec_opt_of_none hgroup, hall]
  · rw [if_neg hnone] at hgroup ⊢
    rw [exec_opt_of_some hgroup, hr]

/-- Where the rest succeeds, a dash and a number are taken as far as they go. -/
theorem exec_scaleDigits (hk : ∀ s g, k s g ≠ none) (tail : List Char) (g : Captures) :
    exec scaleDigits tail g k = k ((afterDash tail).dropWhile Text.isDigit)
      (if number tail = [] then g
        else ⟨1, afterDash tail, (afterDash tail).dropWhile Text.isDigit⟩ :: g) := by
  unfold scaleDigits number
  rw [exec.eq_4, ← exec_digits hk]
  unfold afterDash
  split
  · rename_i rest
    have hsome : exec (opt (group 1 (many1 Text.isDigit))) rest g k ≠ none := by
      rw [exec_digits hk]
      exact hk _ _
    obtain ⟨r, hr⟩ := Option.ne_none_iff_exists'.mp hsome
    rw [hr]
    exact exec_opt_of_some hr
  · rename_i hdash
    refine exec_opt_of_none ?_
    rw [exec_lit, if_neg]
    intro hprefix
    obtain ⟨rest, rfl⟩ := List.isPrefixOf_iff_prefix.mp hprefix
    exact hdash rest rfl

end Scale

/-- A variable with a stem is found under its name. -/
theorem exists_matchAt_stemmed (hfree : PrefixFree stems) (hstem : stem ∈ stems)
    (tail : List Char) :
    ∃ m, (stemmed stems).matchAt ('$' :: (stem.toList ++ tail)) = some m ∧
      m.tokenName = variableName stem tail := by
  have hsplit : '$' :: (stem.toList ++ tail) =
      ('$' :: (stem.toList ++ dash tail)) ++ afterDash tail := by
    rw [List.cons_append, List.append_assoc, dash_append_afterDash]
  refine ⟨⟨'$' :: (stem.toList ++ dash tail) ++ number tail,
    (afterDash tail).dropWhile Text.isDigit,
    if number tail = [] then []
      else [⟨1, afterDash tail, (afterDash tail).dropWhile Text.isDigit⟩]⟩, ?_, ?_⟩
  · change exec (seq (lit "$") (seq (words stems) (seq scaleDigits empty)))
      ("$".toList ++ (stem.toList ++ tail)) [] _ = _
    rw [exec.eq_4, exec_lit_append_left, exec.eq_4, exec_words_of_mem hfree hstem,
      exec.eq_4, exec_scaleDigits, exec.eq_1, hsplit, before_append_dropWhile]
    · rfl
    · exact fun s g => Option.some_ne_none _
  · unfold variableName
    by_cases hnone : number tail = []
    · rw [if_pos hnone, hnone, List.append_nil, if_pos rfl]
      exact Match.tokenName_of_capture_eq_nil rfl
    · rw [if_neg hnone, if_neg hnone]
      have hcapture : ∀ text, (Match.mk text ((afterDash tail).dropWhile Text.isDigit)
          [⟨1, afterDash tail, (afterDash tail).dropWhile Text.isDigit⟩]).capture 1 = number tail :=
        fun _ => before_dropWhile Text.isDigit (afterDash tail)
      rw [Match.tokenName_of_capture (by rwa [hcapture]), hcapture]

/-- Nothing else is a variable with a stem. -/
theorem exists_of_matchAt_stemmed (h : (stemmed stems).matchAt t = some m) :
    ∃ stem ∈ stems, ∃ tail, t = '$' :: (stem.toList ++ tail) := by
  change exec (seq (lit "$") (seq (words stems) _)) t [] _ = _ at h
  rw [exec.eq_4] at h
  obtain ⟨after, rfl, h⟩ := exists_of_exec_lit h
  rw [exec.eq_4] at h
  obtain ⟨stem, hstem, tail, rfl, -⟩ := exists_of_exec_words h
  exact ⟨stem, hstem, tail, rfl⟩

/-- A variable with one of some stems in a content. -/
structure StemReference (stems : List String) (content : String) where
  line : Nat
  start : Nat
  stem : String
  /-- What follows the stem on its line. -/
  tail : List Char
  mem : stem ∈ stems
  here : textAt content line start = '$' :: (stem.toList ++ tail)

namespace StemReference

variable {stems : List String} {content : String}

/-- Where the reference is. -/
def place (r : StemReference stems content) : Nat × Nat := (r.line, r.start)

/-- The name that the reference is given. -/
def tokenName (r : StemReference stems content) : List Char := variableName r.stem r.tail

/-- The whole identifier of the variable. -/
def identifier (r : StemReference stems content) : List Char :=
  (r.stem.toList ++ r.tail).takeWhile isNameChar

/-- The same number follows both stems, or no number, and then the stems are the same, with a dash
after both or after neither. -/
def ToldAlike (r r' : StemReference stems content) : Prop :=
  number r.tail = number r'.tail ∧
    (number r.tail = [] → r.stem = r'.stem ∧ dash r.tail = dash r'.tail)

/-- References have one name exactly if they are told alike. -/
theorem toldAlike_iff (hfree : PrefixFree stems) {r r' : StemReference stems content} :
    r.ToldAlike r' ↔ r.tokenName = r'.tokenName := by
  have hdigits : ∀ tail rest, number tail ≠ '$' :: rest := by
    intro tail rest hnumber
    have hsigil : '$' ∈ number tail := hnumber ▸ List.mem_cons_self
    exact absurd (List.mem_takeWhile_imp hsigil) (by decide)
  unfold ToldAlike tokenName variableName
  by_cases h : number r.tail = []
  · by_cases h' : number r'.tail = []
    · rw [if_pos h, if_pos h', h, h']
      simp only [true_and, forall_const, List.cons.injEq]
      constructor
      · rintro ⟨hstem, hdash⟩
        rw [hstem, hdash]
      · intro heq
        have hstem : r.stem = r'.stem := by
          rcases List.prefix_or_prefix_of_prefix ⟨_, heq⟩ (List.prefix_append _ _) with hp | hp
          · exact hfree _ r.mem _ r'.mem hp
          · exact (hfree _ r'.mem _ r.mem hp).symm
        rw [hstem] at heq
        exact ⟨hstem, List.append_cancel_left heq⟩
    · rw [if_pos h, if_neg h']
      refine iff_of_false (fun halike => h' (halike.1 ▸ h)) fun heq => ?_
      exact hdigits _ _ heq.symm
  · rw [if_neg h]
    by_cases h' : number r'.tail = []
    · rw [if_pos h']
      exact iff_of_false (fun halike => h (halike.1.trans h')) (hdigits _ _)
    · rw [if_neg h']
      exact ⟨And.left, fun heq => ⟨heq, fun hnil => absurd hnil h⟩⟩

end StemReference

/-- A format for variables with stems finds these. -/
theorem finds_of_stemmed {f : TokenFormat} (hfree : PrefixFree stems)
    (hpattern : ∀ t, f.pattern.matchAt t = (stemmed stems).matchAt t) (content : String) :
    f.Finds content (@StemReference.place stems content)
      (@StemReference.tokenName stems content) := by
  refine ⟨fun r => ?_, fun line start m hm => ?_⟩
  · obtain ⟨m, hm, hname⟩ := exists_matchAt_stemmed hfree r.mem r.tail
    rw [← hpattern, ← r.here] at hm
    exact ⟨m, hm, hname⟩
  · rw [hpattern] at hm
    obtain ⟨stem, hstem, tail, htext⟩ := exists_of_matchAt_stemmed hm
    exact ⟨⟨line, start, stem, tail, hstem, htext⟩, rfl⟩

/-- A color is one of the words, or one of them after the prefix of the design system. -/
theorem matchAt_color (t : List Char) :
    color.pattern.matchAt t = (stemmed colorStems).matchAt t := by
  change exec (seq (lit "$") (seq (opt (lit "cds-")) (seq (words colorWords) _))) t [] _ =
    exec (seq (lit "$") (seq (words colorStems) _)) t [] _
  rw [exec.eq_4, exec.eq_4, exec_lit, exec_lit]
  split
  · rw [exec.eq_4, exec.eq_4]
    exact exec_opt_lit_words "cds-" colorWords _ [] _
  · rfl

end Stems

end TokenFormat

end DesignTokens

import DesignTokens.Proofs.Token.Mixin
import DesignTokens.Proofs.Token.Variable
import Mathlib.Data.List.Infix
import Mathlib.Data.List.TakeWhile

/-!
# Which references share a usage

A usage should be about one identifier. The name of a variable of the design system is enough for
that, but a variable with a stem is told by the number after the stem alone, or by the stem without
what else follows it, and a mixin with a prefix of the design system by the prefix alone. So the
usages of a stylesheet are each about one identifier exactly if no two references of these kinds
that are told alike are about different ones.
-/

namespace DesignTokens

open Pattern TokenFormat

/-- The identifier that a reference is about: the longest run of name characters after the sigil, or
after the white space behind the rule of a mixin. -/
def referenced : List Char → List Char
  | '@' :: s =>
    ((s.dropWhile fun c => !Text.isBlank c).dropWhile Text.isBlank).takeWhile isNameChar
  | _ :: s => s.takeWhile isNameChar
  | [] => []

/-- The identifier at the place of an occurrence. -/
def Occurrence.identifier (o : Occurrence) (content : String) : List Char :=
  referenced (textAt content (o.line - 1) (o.column - 1))

/-- All occurrences are about one identifier. -/
def Usage.IsUnmixed (u : Usage) (content : String) : Prop :=
  ∀ o ∈ u.occurrences, ∀ o' ∈ u.occurrences, o.identifier content = o'.identifier content

namespace TokenFormat

variable {f : TokenFormat} {content path : String} {contextLength : Int}
  {categorizer : Option Categorizer} {us : List Usage}

/-- The text of a reference to a mixin is about its name. -/
theorem referenced_mixin {rule : String} {blank tail : List Char} (hrule : rule ∈ mixinRules)
    (hne : blank ≠ []) (hblank : ∀ c ∈ blank, Text.isBlank c = true)
    (hname : tail.takeWhile isNameChar ≠ []) :
    referenced ('@' :: (rule.toList ++ (blank ++ tail))) = tail.takeWhile isNameChar := by
  have hletters : ∀ rule ∈ mixinRules, (rule.toList.all fun c => !Text.isBlank c) = true := by
    decide
  have hspace : (blank ++ tail).dropWhile (fun c => !Text.isBlank c) = blank ++ tail := by
    obtain ⟨c, cs, rfl⟩ := List.exists_cons_of_ne_nil hne
    rw [List.cons_append, List.dropWhile_cons_of_neg (by simp [hblank c List.mem_cons_self])]
  rw [referenced, List.dropWhile_append_of_pos (List.all_eq_true.mp (hletters _ hrule)), hspace,
    dropWhile_blank_append hblank hname]

/-- References in a content that have one name are about one identifier. -/
def TellsApart (f : TokenFormat) (content : String) : Prop :=
  ∀ line start m line' start' m', f.pattern.matchAt (textAt content line start) = some m →
    f.pattern.matchAt (textAt content line' start') = some m' → m.tokenName = m'.tokenName →
      referenced (textAt content line start) = referenced (textAt content line' start')

/-- The usages of a format are unmixed if it tells the references apart. -/
theorem forall_isUnmixed_iff (hf : f.pattern.KeepsApart)
    (h : f.usages content path contextLength categorizer = .ok us) :
    (∀ u ∈ us, u.IsUnmixed content) ↔ f.TellsApart content := by
  constructor
  · intro hunmixed line start m line' start' m' hm hm' hname
    have hnoted : f.noted content path contextLength line start m ∈
        f.matchesIn content path contextLength := (mem_matchesIn_iff hf).mpr ⟨_, _, m, hm, rfl⟩
    have hnoted' : f.noted content path contextLength line' start' m' ∈
        f.matchesIn content path contextLength := (mem_matchesIn_iff hf).mpr ⟨_, _, m', hm', rfl⟩
    obtain ⟨u, hu, huname⟩ := exists_mem_usages h hnoted
    have hcollects := collects_of_mem_usages h hu
    have huname' : u.tokenName = (f.noted content path contextLength line' start' m').1 :=
      huname.trans (congrArg String.ofList hname)
    exact hunmixed u hu _ (hcollects.mem_occurrences hnoted huname) _
      (hcollects.mem_occurrences hnoted' huname')
  · intro htells u hu o ho o' ho'
    have hcollects := collects_of_mem_usages h hu
    rw [hcollects.mem_iff, mem_matchesIn_iff hf] at ho ho'
    obtain ⟨line, start, m, hm, hx⟩ := ho
    obtain ⟨line', start', m', hm', hx'⟩ := ho'
    obtain ⟨hname, rfl⟩ := Prod.mk.inj hx
    obtain ⟨hname', rfl⟩ := Prod.mk.inj hx'
    exact htells _ _ _ _ _ _ hm hm' (String.ofList_injective (hname.symm.trans hname'))

/-- What a format finds is told apart if references with one name are about one identifier. -/
theorem Finds.tellsApart_iff {ρ : Type} {place : ρ → Nat × Nat} {name : ρ → List Char}
    (h : f.Finds content place name) :
    f.TellsApart content ↔ ∀ r r', name r = name r' →
      referenced (textAt content (place r).1 (place r).2) =
        referenced (textAt content (place r').1 (place r').2) := by
  constructor
  · intro htells r r' hsame
    obtain ⟨m, hm, hname⟩ := h.found r
    obtain ⟨m', hm', hname'⟩ := h.found r'
    exact htells _ _ _ _ _ _ hm hm' (hname.trans (hsame.trans hname'.symm))
  · intro hsame line start m line' start' m' hm hm' hname
    obtain ⟨r, hr⟩ := h.only _ _ _ hm
    obtain ⟨r', hr'⟩ := h.only _ _ _ hm'
    have halike := hsame r r'
    obtain ⟨found, hfound, htoken⟩ := h.found r
    obtain ⟨found', hfound', htoken'⟩ := h.found r'
    rw [hr] at halike hfound
    rw [hr'] at halike hfound'
    obtain rfl := Option.some.inj (hm.symm.trans hfound)
    obtain rfl := Option.some.inj (hm'.symm.trans hfound')
    exact halike (htoken.symm.trans (hname.trans htoken'))

/-- In a content of one line it is enough to compare what its tails begin with. -/
theorem tellsApart_of_oneLine {l : List Char} (hf : f.pattern.KeepsApart)
    (hline : Text.splitOn '\n' content.toList = [l])
    (h : ∀ t ∈ l.tails, ∀ t' ∈ l.tails, ∀ m ∈ f.pattern.matchAt t, ∀ m' ∈ f.pattern.matchAt t',
      m.tokenName = m'.tokenName → referenced t = referenced t') : f.TellsApart content := by
  have htail : ∀ line start m, f.pattern.matchAt (textAt content line start) = some m →
      textAt content line start ∈ l.tails := by
    intro line start m hm
    unfold textAt at hm ⊢
    rw [hline] at hm ⊢
    cases line with
    | zero => exact (List.mem_tails _ _).mpr (List.drop_suffix start l)
    | succ line =>
      rw [List.getElem?_cons_succ, List.getElem?_nil, Option.getD_none, List.drop_nil,
        hf.isTaking.matchAt_nil] at hm
      cases hm
  intro line start m line' start' m' hm hm'
  exact h _ (htail _ _ _ hm) _ (htail _ _ _ hm') m hm m' hm'

/-- At the place of a variable of the design system its name is referenced. -/
theorem SystemReference.referenced_place (r : SystemReference content) :
    referenced (textAt content r.place.1 r.place.2) = "cds-".toList ++ r.name := by
  have htext : textAt content r.place.1 r.place.2 = systemOpening ++ r.tail := r.here
  rw [htext]
  rfl

/-- At the place of a variable with a stem its name is referenced. -/
theorem StemReference.referenced_place {stems : List String} (r : StemReference stems content) :
    referenced (textAt content r.place.1 r.place.2) = r.identifier := by
  have htext : textAt content r.place.1 r.place.2 = '$' :: (r.stem.toList ++ r.tail) := r.here
  rw [htext]
  rfl

/-- At the place of a mixin its name is referenced. -/
theorem MixinReference.referenced_place (r : MixinReference content) :
    referenced (textAt content r.place.1 r.place.2) = r.name := by
  have htext : textAt content r.place.1 r.place.2 = '@' :: (r.rule.toList ++ (r.blank ++ r.tail)) :=
    r.here
  rw [htext]
  exact referenced_mixin r.mem r.blank_ne r.isBlank r.name_ne

/-- A variable of the design system is told by its whole name. -/
theorem tellsApart_system (content : String) : system.TellsApart content := by
  rw [(finds_system content).tellsApart_iff]
  intro r r' hname
  rw [r.referenced_place, r'.referenced_place, hname]

/-- Variables with stems are told apart if those that are told alike are about one identifier. -/
theorem tellsApart_iff_of_stemmed {stems : List String} (hfree : PrefixFree stems)
    (hpattern : ∀ t, f.pattern.matchAt t = (stemmed stems).matchAt t) :
    f.TellsApart content ↔
      ∀ r r' : StemReference stems content, r.ToldAlike r' → r.identifier = r'.identifier := by
  rw [(finds_of_stemmed hfree hpattern content).tellsApart_iff]
  simp only [StemReference.referenced_place, StemReference.toldAlike_iff hfree]

/-- The format for framework variables tells references apart if those that it tells alike are about
one identifier. -/
theorem tellsApart_bootstrap_iff : bootstrap.TellsApart content ↔
    ∀ r r' : StemReference bootstrapStems content, r.ToldAlike r' → r.identifier = r'.identifier :=
  tellsApart_iff_of_stemmed (by decide) fun t => congrArg (·.matchAt t) bootstrap_pattern

/-- The format for color variables tells references apart if those that it tells alike are about one
identifier. -/
theorem tellsApart_color_iff : color.TellsApart content ↔
    ∀ r r' : StemReference colorStems content, r.ToldAlike r' → r.identifier = r'.identifier :=
  tellsApart_iff_of_stemmed (by decide) matchAt_color

/-- Mixins are told apart if those with the same prefix have the same name. -/
theorem tellsApart_mixins_iff :
    mixins.TellsApart content ↔
      ∀ r r' : MixinReference content, r.ToldAlike r' → r.name = r'.name := by
  rw [(finds_mixins content).tellsApart_iff]
  simp only [MixinReference.referenced_place]
  have hname : ∀ r : MixinReference content, r.name.takeWhile isNameChar = r.name := by
    intro r
    unfold MixinReference.name
    rw [List.takeWhile_takeWhile]
    simp
  have hne : ∀ r : MixinReference content, r.name.takeWhile isNameChar ≠ [] := by
    intro r
    rw [hname]
    exact r.name_ne
  constructor
  · exact fun hsame r r' halike => hsame r r' (MixinReference.tokenName_of_toldAlike halike)
  · intro hsame r r' htoken
    rcases MixinReference.toldAlike_or_of_tokenName htoken with halike | htext
    · exact hsame r r' halike
    · -- References with one text are about what the text is about.
      have hboth := congrArg referenced htext
      rwa [referenced_mixin r.mem r.blank_ne r.isBlank (hne r),
        referenced_mixin r'.mem r'.blank_ne r'.isBlank (hne r'), hname, hname] at hboth

/-- The formats for the variables and the mixins of stylesheets. -/
def sass : List TokenFormat := [system, bootstrap, color, mixins]

/-- The formats for Sass are among those of the design system. -/
theorem mem_canon_of_mem_sass (hf : f ∈ sass) : f ∈ canon := by
  simp only [sass, List.mem_cons, List.not_mem_nil, or_false] at hf
  rcases hf with rfl | rfl | rfl | rfl
  · exact List.get_mem canon ⟨0, by decide⟩
  · exact List.get_mem canon ⟨1, by decide⟩
  · exact List.get_mem canon ⟨2, by decide⟩
  · exact List.get_mem canon ⟨3, by decide⟩

/-- The formats for Sass apply to a file of Sass. -/
theorem appliesTo_of_mem_sass (hf : f ∈ sass) (hpath : IsSass path) : f.appliesTo path = true := by
  simp only [sass, List.mem_cons, List.not_mem_nil, or_false] at hf
  rcases hf with rfl | rfl | rfl | rfl <;> exact appliesTo_of_isSass rfl hpath

/-- The formats for Sass have matches that are kept apart. -/
theorem keepsApart_of_mem_sass (hf : f ∈ sass) : f.pattern.KeepsApart := by
  simp only [sass, List.mem_cons, List.not_mem_nil, or_false] at hf
  rcases hf with rfl | rfl | rfl | rfl
  · exact keepsApart_system
  · exact keepsApart_bootstrap
  · exact keepsApart_color
  · exact keepsApart_mixins

/-- What the formats for stylesheets tell apart is not mixed in a stylesheet. -/
theorem forall_isUnmixed_inFile_iff (hf : f ∈ sass) (hpath : IsSass path)
    (h : Usage.inFile canon content path contextLength categorizer = .ok us) :
    (∀ u ∈ us, u.tokenType = f.name → u.IsUnmixed content) ↔ f.TellsApart content := by
  obtain ⟨found, hfound, hmem⟩ := Usage.exists_usages_of_inFile nodup_name_canon
    (mem_canon_of_mem_sass hf) (appliesTo_of_mem_sass hf hpath) h
  rw [← forall_isUnmixed_iff (keepsApart_of_mem_sass hf) hfound]
  simp only [← hmem, and_imp]

end TokenFormat

namespace Usage

variable {formats : List TokenFormat} {content path : String} {contextLength : Int}
  {categorizer : Option Categorizer} {us : List Usage}

/-- Each usage of a stylesheet is about one identifier exactly if variables with stems that are told
alike are about one identifier, and mixins that are told alike have one name. -/
theorem forall_isUnmixed_sass_iff (hpath : IsSass path)
    (h : inFile canon content path contextLength categorizer = .ok us) :
    (∀ f ∈ sass, ∀ u ∈ us, u.tokenType = f.name → u.IsUnmixed content) ↔
      (∀ stems ∈ [bootstrapStems, colorStems], ∀ r r' : StemReference stems content,
        r.ToldAlike r' → r.identifier = r'.identifier) ∧
      ∀ r r' : MixinReference content, r.ToldAlike r' → r.name = r'.name := by
  have hformats : (∀ f ∈ sass, ∀ u ∈ us, u.tokenType = f.name → u.IsUnmixed content) ↔
      ∀ f ∈ sass, f.TellsApart content :=
    forall₂_congr fun f hf => forall_isUnmixed_inFile_iff hf hpath h
  rw [hformats]
  simp only [sass, List.forall_mem_cons, List.not_mem_nil, IsEmpty.forall_iff, implies_true,
    and_true, tellsApart_system, true_and, tellsApart_bootstrap_iff,
    tellsApart_color_iff, tellsApart_mixins_iff, and_assoc]

/-- Two colors with different numbers, one of them used twice, are not mixed. -/
theorem forall_isUnmixed_twoColors : IsSass "a.scss" ∧
    ∃ us, inFile canon "$red-1 $blue-2 $red-1" "a.scss" 0 none = .ok us ∧
      ∀ f ∈ sass, ∀ u ∈ us, u.tokenType = f.name → u.IsUnmixed "$red-1 $blue-2 $red-1" := by
  have hpath : IsSass "a.scss" := by decide
  obtain ⟨us, hus⟩ := exists_inFile canon "$red-1 $blue-2 $red-1" "a.scss" 0 none nofun
  have hline : Text.splitOn '\n' "$red-1 $blue-2 $red-1".toList =
      ["$red-1 $blue-2 $red-1".toList] := by decide
  have hbootstrap := tellsApart_of_oneLine keepsApart_bootstrap hline (by decide +kernel)
  have hcolor := tellsApart_of_oneLine keepsApart_color hline (by decide +kernel)
  have hmixins := tellsApart_of_oneLine keepsApart_mixins hline (by decide +kernel)
  refine ⟨hpath, us, hus, (forall_isUnmixed_sass_iff hpath hus).mpr ⟨?_, ?_⟩⟩
  · simp only [List.forall_mem_cons, List.not_mem_nil, IsEmpty.forall_iff, implies_true, and_true]
    exact ⟨tellsApart_bootstrap_iff.mp hbootstrap, tellsApart_color_iff.mp hcolor⟩
  · exact tellsApart_mixins_iff.mp hmixins

/-- Two variables with different stems and one number share a usage. -/
theorem not_forall_isUnmixed : ¬∀ {content path : String} {contextLength : Int}
    {categorizer : Option Categorizer} {us : List Usage}, IsSass path →
      inFile canon content path contextLength categorizer = .ok us →
        ∀ f ∈ sass, ∀ u ∈ us, u.tokenType = f.name → u.IsUnmixed content := by
  intro hunmixed
  have hpath : IsSass "a.scss" := by decide
  obtain ⟨us, hus⟩ := exists_inFile canon "$primary-100 $secondary-100" "a.scss" 0 none nofun
  have hformat : bootstrap ∈ sass := List.mem_cons_of_mem _ List.mem_cons_self
  have htells := (forall_isUnmixed_inFile_iff hformat hpath hus).mp (hunmixed hpath hus _ hformat)
  let r : StemReference bootstrapStems "$primary-100 $secondary-100" :=
    ⟨0, 0, "primary", "-100 $secondary-100".toList, by decide, by decide⟩
  let r' : StemReference bootstrapStems "$primary-100 $secondary-100" :=
    ⟨0, 13, "secondary", "-100".toList, by decide, by decide⟩
  have halike : r.ToldAlike r' := by
    refine ⟨by decide, fun hnil => ?_⟩
    exact absurd hnil (by decide)
  have hsame : r.identifier = r'.identifier := tellsApart_bootstrap_iff.mp htells r r' halike
  exact absurd hsame (by decide)

end Usage

end DesignTokens

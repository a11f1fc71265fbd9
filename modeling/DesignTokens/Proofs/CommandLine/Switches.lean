import DesignTokens.CommandLine.Options
import DesignTokens.Proofs.Lists

/-!
# Switches

The options without a value, other than the one for help, are switches. A switch that is spelled out
before the mark is on in the options that are read, whatever else the arguments are, as long as they
are accepted.
-/

namespace DesignTokens.CommandLine

/-- Whether an option is a switch. -/
def OptionName.isSwitch (option : OptionName) : Bool := !option.takesValue && option != .help

/-- Whether a switch is on. -/
def Options.isOn (o : Options) : OptionName → Bool
  | .json => o.json
  | .markdown => o.markdown
  | .htmlReport => o.htmlReport
  | .noReport => o.noReport
  | .changes => o.changes
  | .quiet => o.quiet
  | _ => false

variable {switch : OptionName}

namespace Options

variable {o o' : Options}

/-- A switch that is turned on is on. -/
theorem isOn_turnOn_self (h : switch.isSwitch = true) (o : Options) :
    (o.turnOn switch).isOn switch = true := by
  cases switch <;> first | rfl | cases h

/-- A switch that is on stays on when others are turned on. -/
theorem isOn_turnOn (other : OptionName) (h : o.isOn switch = true) :
    (o.turnOn other).isOn switch = true := by
  cases other <;> cases switch <;> first | exact h | rfl

/-- An option with a value turns no switch on or off. -/
theorem isOn_give {other : OptionName} {value : String} (hgive : o.give other value = .ok o') :
    o'.isOn switch = o.isOn switch := by
  unfold give at hgive
  split at hgive
  case h_4 =>
    split at hgive
    · cases hgive
      cases switch <;> rfl
    · cases hgive
  all_goals
    cases hgive
    cases switch <;> rfl

/-- A mark for a value turns no switch on or off. -/
theorem isOn_giveMark (o : Options) (other : OptionName) :
    (o.giveMark other).isOn switch = o.isOn switch := by
  cases other <;> cases switch <;> rfl

end Options

namespace Reading

variable {r r' : Reading} {words : List Word}

/-- A plain word turns no switch on or off. -/
theorem isOn_plain (r : Reading) (text : String) :
    (r.plain text).options.isOn switch = r.options.isOn switch := by
  unfold plain
  split
  · rfl
  · cases switch <;> rfl

/-- Plain words turn no switch on or off. -/
theorem isOn_foldl_plain (r : Reading) (words : List Word) :
    (words.foldl (fun r word => r.plain word.text) r).options.isOn switch =
      r.options.isOn switch := by
  induction words generalizing r with
  | nil => rfl
  | cons word words ih => rw [List.foldl_cons, ih, isOn_plain]

/-- A switch is on already, or stands among the words before the mark. -/
def IsSwitched (switch : OptionName) (r : Reading) (words : List Word) : Prop :=
  r.options.isOn switch = true ∨ .long switch none ∈ words.takeWhile (· ≠ .mark)

/-- A word that is not the switch itself leaves the switch to the others. -/
theorem IsSwitched.of_cons {word : Word} (h : IsSwitched switch r (word :: words))
    (hword : word ≠ .long switch none)
    (hr : r.options.isOn switch = true → r'.options.isOn switch = true) :
    IsSwitched switch r' words := by
  refine h.imp hr fun hmem => ?_
  rw [List.takeWhile_cons] at hmem
  split at hmem
  · exact (List.mem_cons.mp hmem).resolve_left hword.symm
  · cases hmem

/-- A switch is on before the mark after which all words are plain. -/
theorem IsSwitched.isOn_of_mark (h : IsSwitched switch r (.mark :: words)) :
    r.options.isOn switch = true :=
  h.resolve_right (by simp)

/-- Whatever is read, a switch among the words before the mark is on in the end. -/
theorem isOn_take (hswitch : switch.isSwitch = true) (htake : take r words = .ok r')
    (h : IsSwitched switch r words) : r'.options.isOn switch = true := by
  have hvalue : switch.takesValue = false := by
    cases switch <;> first | rfl | cases hswitch
  fun_induction take r words with
  | case1 r =>
    cases htake
    exact h.resolve_right nofun
  | case2 r rest =>
    cases htake
    exact h.isOn_of_mark
  | case3 r rest =>
    cases htake
    rw [isOn_foldl_plain]
    exact h.isOn_of_mark
  | case4 r text rest =>
    cases htake
    exact (h.of_cons nofun id).isOn_of_mark
  | case5 r text rest =>
    cases htake
    rw [isOn_foldl_plain]
    exact (h.of_cons nofun fun hr => (isOn_plain r text).trans hr).isOn_of_mark
  | case6 r text rest hrest ih =>
    exact ih htake (h.of_cons nofun fun hr => (isOn_plain r text).trans hr)
  | case7 r text rest ih => exact ih htake (h.of_cons nofun id)
  | case8 r rest more => cases htake
  | case9 r option value rest => cases htake
  | case10 r option rest hoption ih =>
    exact ih htake (h.of_cons nofun fun hr => (Options.isOn_giveMark r.options option).trans hr)
  | case11 r option value rest hoption hne options hgive ih =>
    exact ih htake (h.of_cons nofun fun hr => (Options.isOn_give hgive).trans hr)
  | case12 r option value rest hoption hne refusal hgive => cases htake
  | case13 r rest => cases htake
  | case14 r option hhelp hoption text rest options hgive ih =>
    refine ih htake (IsSwitched.of_cons (h.of_cons ?_ id) nofun fun hr => ?_)
    · rintro ⟨⟩
      rw [hvalue] at hoption
      cases hoption
    · exact (Options.isOn_give hgive).trans hr
  | case15 r option hhelp hoption text rest refusal hgive => cases htake
  | case16 r option rest hhelp hoption hrest => cases htake
  | case17 r option rest hhelp hoption ih =>
    by_cases heq : option = switch
    · exact ih htake (.inl (heq ▸ Options.isOn_turnOn_self hswitch r.options))
    · exact ih htake (h.of_cons (fun he => heq (by cases he; rfl)) (Options.isOn_turnOn option))

end Reading

namespace Word

/-- A word without its spelling is not the mark. -/
theorem withoutSpelling_ne_mark (text : String) : withoutSpelling text ≠ .mark := by
  unfold withoutSpelling
  split <;> exact nofun

/-- The word for a text with two dashes before it is not the mark. -/
theorem ne_mark_of_shortened {text : String} {word : Word} (h : shortened text = .ok word) :
    word ≠ .mark := by
  unfold shortened at h
  dsimp only at h
  split at h
  · cases h
    exact withoutSpelling_ne_mark text
  · cases h
    exact nofun
  · cases h

/-- The word for a text with a dash before it is not the mark. -/
theorem ne_mark_of_dashed {text : String} {word : Word} (h : dashed text = .ok word) :
    word ≠ .mark := by
  unfold dashed at h
  dsimp only at h
  split at h
  · cases h
    exact nofun
  · split at h
    · split at h <;> cases h <;> exact nofun
    · split at h
      · exact ne_mark_of_shortened h
      · cases h
        exact nofun
      · cases h
        exact nofun
      · cases h
        exact withoutSpelling_ne_mark text

/-- Only the mark is read as one. -/
theorem exists_of_readAll_cons {text : String} {rest : List String} {words : List Word}
    (hne : text ≠ "--") (h : readAll (text :: rest) = .ok words) :
    ∃ word others, words = word :: others ∧ word ≠ .mark ∧ readAll rest = .ok others ∧
      (if text.toList.head? = some '-' then dashed text else .ok (.plain text)) = .ok word := by
  have hcons : readAll (text :: rest) =
      (if text.toList.head? = some '-' then dashed text else .ok (.plain text)) >>= fun word =>
        readAll rest >>= fun others => .ok (word :: others) := by
    rw [readAll.eq_3 _ _ hne]
    split <;> rfl
  rw [hcons] at h
  obtain ⟨word, hword, h⟩ := bind_eq_ok_iff.mp h
  obtain ⟨others, hothers, h⟩ := bind_eq_ok_iff.mp h
  cases h
  refine ⟨word, others, rfl, ?_, hothers, hword⟩
  split at hword
  · exact ne_mark_of_dashed hword
  · cases hword
    exact nofun

/-- A switch that is spelled out is read as itself. -/
theorem read_spelling {spelling : String} (h : (spelling, switch) ∈ OptionName.spellings) :
    (if spelling.toList.head? = some '-' then dashed spelling else .ok (.plain spelling)) =
      .ok (.long switch none) := by
  have hspelled : ∀ s ∈ OptionName.spellings, s.1.toList.head? = some '-' ∧
      OptionName.spellings.lookup s.1 = some s.2 := by decide
  obtain ⟨hdash, hlookup⟩ := hspelled _ h
  rw [if_pos hdash]
  unfold dashed
  simp only [hlookup]

/-- A switch that is spelled out before the mark is read as one. -/
theorem mem_takeWhile_of_readAll {arguments : List String} {words : List Word} {spelling : String}
    (hspelling : (spelling, switch) ∈ OptionName.spellings)
    (hmem : spelling ∈ arguments.takeWhile (· ≠ "--")) (h : readAll arguments = .ok words) :
    .long switch none ∈ words.takeWhile (· ≠ .mark) := by
  induction arguments generalizing words with
  | nil => cases hmem
  | cons text rest ih =>
    by_cases hmark : text = "--"
    · rw [List.takeWhile_cons_of_neg (by simpa using hmark)] at hmem
      cases hmem
    · obtain ⟨word, others, rfl, hword, hrest, hread⟩ := exists_of_readAll_cons hmark h
      rw [List.takeWhile_cons_of_pos (by simpa using hmark)] at hmem
      rw [List.takeWhile_cons_of_pos (by simpa using hword)]
      rcases List.mem_cons.mp hmem with rfl | hmem
      · rw [read_spelling hspelling] at hread
        cases hread
        exact List.mem_cons_self
      · exact List.mem_cons_of_mem _ (ih hmem hrest)

end Word

/-- A switch that is spelled out before the mark is on in the options that are read. -/
theorem Options.isOn_of_ofArguments {arguments : List String} {o : Options} {spelling : String}
    (hswitch : switch.isSwitch = true)
    (hspelling : (spelling, switch) ∈ OptionName.spellings)
    (hmem : spelling ∈ arguments.takeWhile (· ≠ "--")) (h : Options.ofArguments arguments = .ok o) :
    o.isOn switch = true := by
  unfold Options.ofArguments at h
  cases hwords : Word.readAll arguments with
  | error refusal =>
    rw [hwords] at h
    cases h
  | ok words =>
    rw [hwords] at h
    have hon := Word.mem_takeWhile_of_readAll hspelling hmem hwords
    obtain ⟨_, hsame, h⟩ := bind_eq_ok_iff.mp h
    cases hsame
    obtain ⟨reading, htake, h⟩ := bind_eq_ok_iff.mp h
    split at h
    · cases h
      exact Reading.isOn_take hswitch htake (.inr hon)
    · cases h

end DesignTokens.CommandLine

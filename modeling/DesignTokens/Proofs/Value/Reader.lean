import DesignTokens.Value.Parser
import Mathlib.Logic.Relation

/-!
# The course of the reader

The reader of documents is a recursion over values, with fuel for its depth. Beside it stands a
machine without recursion and without values: it remembers which lists and objects it is in, and
goes from one place to the next. The machine stops where the reader does. So the two limits of the
reader are a matter of where the machine comes: to a whole number with too many digits, or to one
more list or object inside as many as may be inside one another.
-/

namespace DesignTokens.Value

/-- Going on takes the characters from what is left. -/
@[simp] theorem Place.length_advance (p : Place) (n : Nat) :
    (p.advance n).rest.length = p.rest.length - n := List.length_drop

/-- Skipping space leaves no more than there was. -/
theorem Place.length_skip_le (p : Place) : p.skip.rest.length ≤ p.rest.length := by
  unfold Place.skip
  rw [Place.length_advance]
  exact Nat.sub_le _ _

/-- Whether a fault is a whole number that is too long. -/
def ParseFault.isTooLong : ParseFault → Bool
  | .tooLong _ => true
  | _ => false

/-- Whether a fault is too deep a nesting. -/
def ParseFault.isTooDeep : ParseFault → Bool
  | .tooDeep _ => true
  | _ => false

/-- What becomes of a text at a place: it is read and ends further on, or it is malformed. -/
inductive Goes {α : Type} (p : Place) : Except ParseFault (α × Place) → Prop
  | on (a : α) (q : Place) (h : q.rest.length < p.rest.length) : Goes p (.ok (a, q))
  | wrong (complaint : Complaint) (position : Nat) : Goes p (.error (.malformed complaint position))

/-- Who goes on from a later place goes on. -/
theorem Goes.of_advance {α : Type} {p : Place} {n : Nat} {r : Except ParseFault (α × Place)}
    (h : Goes (p.advance n) r) : Goes p r := by
  cases h with
  | on a q h =>
    rw [Place.length_advance] at h
    exact .on a q (by omega)
  | wrong complaint position => exact .wrong complaint position

/-- Some characters are taken from those that are there. -/
theorem goes_advance {α : Type} {p : Place} {n : Nat} (a : α) (hn : 0 < n) (hp : p.rest ≠ []) :
    Goes p (.ok (a, p.advance n)) := by
  refine .on a _ ?_
  have hlength := List.length_pos_iff.mpr hp
  rw [Place.length_advance]
  omega

section Texts

/-- An escape stands for something, or it is malformed. -/
theorem unicodeEscape_cases (p : Place) :
    (∃ read, unicodeEscape p = .ok read) ∨
      ∃ complaint position, unicodeEscape p = .error (.malformed complaint position) := by
  unfold unicodeEscape
  split
  · exact .inr ⟨_, _, rfl⟩
  · split
    · exact .inr ⟨_, _, rfl⟩
    · split
      · split
        · exact .inr ⟨_, _, rfl⟩
        · split <;> exact .inl ⟨_, rfl⟩
      · exact .inl ⟨_, rfl⟩

/-- Reading a text goes on from where it starts, or fails. -/
theorem goes_textFrom (opening fuel : Nat) (p : Place) (done : Reading) :
    Goes p (textFrom opening fuel p done) := by
  induction fuel generalizing p done with
  | zero => exact .wrong _ _
  | succ fuel ih =>
    unfold textFrom
    split
    · exact .wrong _ _
    · rename_i rest hrest
      exact goes_advance _ Nat.one_pos (by simp [hrest])
    · exact .wrong _ _
    · rcases unicodeEscape_cases (p.advance 1) with ⟨⟨c, taken⟩, hread⟩ | ⟨complaint, i, hwrong⟩
      · rw [hread]
        exact (ih _ _).of_advance
      · rw [hwrong]
        exact .wrong complaint i
    · split
      · exact (ih _ _).of_advance
      · exact .wrong _ _
    · split
      · exact .wrong _ _
      · exact (ih _ _).of_advance

/-- Reading a text from its quotation mark goes on. -/
theorem goes_readText (p : Place) : Goes p (readText p) := (goes_textFrom _ _ _ _).of_advance

end Texts

section Numbers

/-- The characters of a number after its sign. -/
def unsigned : List Char → List Char
  | '-' :: rest => rest
  | s => s

/-- Without a minus there is no sign to take away. -/
theorem unsigned_eq_self {s : List Char} (h : ∀ rest, s ≠ '-' :: rest) : unsigned s = s := by
  unfold unsigned
  split
  · exact absurd rfl (h _)
  · rfl

/-- A whole number with more digits than the limit stands at a place: neither a fraction nor an
exponent follows. -/
def Place.isOverlong (p : Place) : Bool :=
  let whole := wholeDigits (unsigned p.rest)
  let after := (unsigned p.rest).drop whole.length
  Text.Integer.digitLimit < whole.length && (fractionDigits after).isNone &&
    (exponentDigits after).isNone

/-- What becomes of a word or a number at a place: as for a text, unless it is a whole number that
is too long. -/
inductive Scans (p : Place) : Except ParseFault (Value × Place) → Prop
  | short {r : Except ParseFault (Value × Place)} (h : p.isOverlong = false) (hgoes : Goes p r) :
      Scans p r
  | long (digits : Nat) (h : p.isOverlong = true) : Scans p (.error (.tooLong digits))

/-- A number is read and ends further on, is malformed, or is too long. -/
theorem scans_readNumber (p : Place) : Scans p (readNumber p) := by
  unfold readNumber
  split
  rename_i negative body signed hsign
  obtain rfl : body = unsigned p.rest := by
    split at hsign
    · rename_i r hr
      cases hsign
      rw [hr]
      rfl
    · rename_i hr
      cases hsign
      exact (unsigned_eq_self hr).symm
  split
  · rename_i hnone
    exact .short (by simp [Place.isOverlong, hnone]) (.wrong _ _)
  · rename_i hwhole
    have hrest : p.rest ≠ [] := by
      intro hnone
      rw [hnone] at hwhole
      exact hwhole rfl
    have hpos : 0 < (wholeDigits (unsigned p.rest)).length := List.length_pos_iff.mpr hwhole
    dsimp only
    split
    · rename_i hfraction hexponent
      rw [hfraction, List.drop_zero] at hexponent
      split
      · rename_i hlimit
        exact .long _ (by simp [Place.isOverlong, hfraction, hexponent, hlimit])
      · rename_i hlimit
        exact .short (by simp [Place.isOverlong, hlimit]) (goes_advance _ (by omega) hrest)
    · rename_i hother
      refine .short ?_ ?_
      · refine Bool.eq_false_iff.mpr fun hlong => ?_
        simp only [Place.isOverlong, Bool.and_eq_true, Option.isNone_iff_eq_none] at hlong
        refine hother hlong.1.2 ?_
        rw [hlong.1.2]
        exact hlong.2
      · exact goes_advance _ (by omega) hrest

/-- No word that stands for a value begins like a number. -/
theorem wholeDigits_word {w : String × Value} (h : w ∈ wordValues) (after : List Char) :
    wholeDigits (unsigned (w.1.toList ++ after)) = [] := by
  simp only [wordValues, List.mem_cons, List.not_mem_nil, or_false] at h
  rcases h with rfl | rfl | rfl | rfl | rfl | rfl <;> rfl

/-- A word or a number is read and ends further on, is malformed, or is too long. -/
theorem scans_readScalar (p : Place) : Scans p (readScalar p) := by
  unfold readScalar
  split
  · rename_i w hw
    have hmem := List.mem_of_find?_eq_some hw
    have hprefix := List.find?_some hw
    obtain ⟨after, hafter⟩ := List.isPrefixOf_iff_prefix.mp hprefix
    have hlength : ∀ w ∈ wordValues, 0 < w.1.length := by decide
    refine .short ?_ (goes_advance _ (hlength w hmem) ?_)
    · simp [Place.isOverlong, ← hafter, wholeDigits_word hmem after]
    · intro hnone
      rw [hnone, List.append_eq_nil_iff] at hafter
      have hpos := hlength w hmem
      rw [← String.length_toList, hafter.1] at hpos
      exact absurd hpos (Nat.lt_irrefl 0)
  · exact scans_readNumber p

end Numbers

section Machine

/-- What encloses a place of a document. -/
inductive Frame
  | list
  | object

/-- Where the machine is: before a value, or behind one and the spacing after it. The frames are
those that enclose the value, the innermost first. -/
inductive Stage
  | before (frames : List Frame) (p : Place)
  | behind (frames : List Frame) (p : Place)

/-- The place of the value that belongs to the key at a place. -/
def Place.behindKey? (p : Place) : Option Place :=
  match p.rest with
  | '"' :: _ =>
    match readText p with
    | .error _ => none
    | .ok (_, q) =>
      match q.skip.rest with
      | ':' :: _ => some (q.skip.advance 1).skip
      | _ => none
  | _ => none

/-- The next stage, if the document goes on as it should. -/
def Stage.step [Nesting.Room] : Stage → Option Stage
  | .before frames p =>
    match p.rest with
    | [] => none
    | '"' :: _ => (readText p).toOption.map fun read => .behind frames read.2.skip
    | '\x7b' :: _ =>
      if Nesting.Site.settings.limit ≤ frames.length then none
      else
        let q := (p.advance 1).skip
        match q.rest with
        | '\x7d' :: _ => some (.behind frames (q.advance 1).skip)
        | _ => q.behindKey?.map (.before (.object :: frames))
    | '[' :: _ =>
      if Nesting.Site.settings.limit ≤ frames.length then none
      else
        let q := (p.advance 1).skip
        match q.rest with
        | ']' :: _ => some (.behind frames (q.advance 1).skip)
        | _ => some (.before (.list :: frames) q)
    | _ => (readScalar p).toOption.map fun read => .behind frames read.2.skip
  | .behind [] _ => none
  | .behind (.object :: frames) p =>
    match p.rest with
    | '\x7d' :: _ => some (.behind frames (p.advance 1).skip)
    | ',' :: _ => (p.advance 1).skip.behindKey?.map (.before (.object :: frames))
    | _ => none
  | .behind (.list :: frames) p =>
    match p.rest with
    | ']' :: _ => some (.behind frames (p.advance 1).skip)
    | ',' :: _ => some (.before (.list :: frames) (p.advance 1).skip)
    | _ => none

/-- The machine is before a whole number with too many digits. -/
def Stage.isOverlong : Stage → Bool
  | .before _ p => p.isOverlong
  | .behind _ _ => false

/-- The machine is before a list or an object inside as many as may be inside one another. -/
def Stage.isTooDeep [Nesting.Room] : Stage → Bool
  | .before frames p =>
    Nesting.Site.settings.limit ≤ frames.length &&
      (p.rest.head? = some '[' || p.rest.head? = some '\x7b')
  | .behind _ _ => false

/-- The machine comes from one stage to another. -/
def Leads [Nesting.Room] : Stage → Stage → Prop := Relation.ReflTransGen fun s t => s.step = some t

/-- The machine comes to a stage when it is set on a document, which must not begin with a mark of
the byte order. -/
def ComesTo [Nesting.Room] (document : List Char) (s : Stage) : Prop :=
  document.head? ≠ some (Char.ofNat 0xFEFF) ∧ Leads (.before [] (Place.skip ⟨0, document⟩)) s

end Machine

section Agreement

variable {frames : List Frame} {s t : Stage} {p q : Place}
  {r : Except ParseFault (Value × Place)}

/-- The machine and the reader agree from a stage on: it comes behind the value that is read, with
fewer than `n` characters left, or it stops for the reason for which nothing is read. -/
inductive Accords [Nesting.Room] (n : Nat) (frames : List Frame) (s : Stage) :
    Except ParseFault (Value × Place) → Prop
  | value (v : Value) (q : Place) (h : Leads s (.behind frames q.skip)) (hlt : q.rest.length < n) :
      Accords n frames s (.ok (v, q))
  | fault (fault : ParseFault) (last : Stage) (h : Leads s last) (hstop : last.step = none)
      (hlong : last.isOverlong = fault.isTooLong) (hdeep : last.isTooDeep = fault.isTooDeep) :
      Accords n frames s (.error fault)

/-- A step leads where it goes. -/
theorem leads_of_step [Nesting.Room] (h : s.step = some t) :
    Leads s t := Relation.ReflTransGen.single h

/-- Agreement from a later stage on is agreement. -/
theorem Accords.of_leads [Nesting.Room] {m n : Nat} (h : Accords m frames t r) (hlead : Leads s t)
    (hle : m ≤ n) :
    Accords n frames s r := by
  cases h with
  | value v q h hlt => exact .value v q (hlead.trans h) (Nat.lt_of_lt_of_le hlt hle)
  | fault fault last h hstop hlong hdeep =>
    exact .fault fault last (hlead.trans h) hstop hlong hdeep

/-- After a value inside a list or an object the machine goes on from behind it. -/
theorem Accords.bind [Nesting.Room] {m n : Nat} {f : Frame} (h : Accords m (f :: frames) s r)
    {more : Value × Place → Except ParseFault (Value × Place)}
    (hmore : ∀ v q, q.rest.length < m →
      Accords n frames (.behind (f :: frames) q.skip) (more (v, q))) :
    Accords n frames s (r >>= more) := by
  cases h with
  | value v q hlead hlt => exact (hmore v q hlt).of_leads hlead (Nat.le_refl n)
  | fault fault last hlead hstop hlong hdeep => exact .fault fault last hlead hstop hlong hdeep

/-- Where the document does not go on as it should, both stop. -/
theorem accords_malformed [Nesting.Room] {n : Nat} {complaint : Complaint} {position : Nat}
    (hstop : s.step = none)
    (hlong : s.isOverlong = false) (hdeep : s.isTooDeep = false) :
    Accords n frames s (.error (.malformed complaint position)) :=
  .fault _ s .refl hstop hlong hdeep

/-- A text, a word or a number. -/
theorem accords_of_scans [Nesting.Room]
    (hstep : s.step = r.toOption.map fun read => .behind frames read.2.skip)
    (hlong : s.isOverlong = p.isOverlong) (hdeep : s.isTooDeep = false) (h : Scans p r) :
    Accords p.rest.length frames s r := by
  cases h with
  | short hshort hgoes =>
    cases hgoes with
    | on v q hlt => exact .value v q (leads_of_step hstep) hlt
    | wrong complaint position => exact accords_malformed hstep (hlong.trans hshort) hdeep
  | long digits h => exact .fault _ s .refl hstep (hlong.trans h) hdeep

/-- What the parts of the reader do with some fuel. Before a value the fuel has to exceed twice the
number of characters that are left; the items and the members of a value need one more. -/
structure Agrees [Nesting.Room] (fuel : Nat) : Prop where
  value {depth : Nat} {frames : List Frame} {p : Place} :
    depth + frames.length = Nesting.Site.settings.limit → 2 * p.rest.length + 1 ≤ fuel →
      Accords p.rest.length frames (.before frames p) (readValue fuel depth p)
  /-- Before a key the machine has still to read it. -/
  members {depth : Nat} {frames : List Frame} {p : Place} {s : Stage} (done : Members) :
    depth + frames.length + 1 = Nesting.Site.settings.limit → 2 * p.rest.length + 2 ≤ fuel →
      s.step = p.behindKey?.map (.before (.object :: frames)) → s.isOverlong = false →
        s.isTooDeep = false → Accords p.rest.length frames s (readMembers fuel depth p done)
  items {depth : Nat} {frames : List Frame} {p : Place} (done : List Value) :
    depth + frames.length + 1 = Nesting.Site.settings.limit → 2 * p.rest.length + 2 ≤ fuel →
      Accords p.rest.length frames (.before (.list :: frames) p) (readItems fuel depth p done)

variable {fuel depth : Nat}

/-- The place after one more character and the spacing after it. -/
theorem length_after_lt {c : Char} {rest : List Char} (h : q.skip.rest = c :: rest) :
    (q.skip.advance 1).skip.rest.length < q.rest.length ∧
      (q.skip.advance 1).rest.length < q.rest.length := by
  have hskip := q.length_skip_le
  have hafter := (q.skip.advance 1).length_skip_le
  rw [Place.length_advance] at hafter ⊢
  rw [h, List.length_cons] at hskip hafter ⊢
  omega

/-- With more fuel the reader of the rest of a list agrees with the machine. -/
theorem Agrees.items_succ [Nesting.Room] (h : Agrees fuel) (done : List Value)
    (hdepth : depth + frames.length + 1 = Nesting.Site.settings.limit)
    (hfuel : 2 * p.rest.length + 2 ≤ fuel + 1) :
    Accords p.rest.length frames (.before (.list :: frames) p)
      (readItems (fuel + 1) depth p done) := by
  have hvalue := @Agrees.value _ _ h depth (.list :: frames) p hdepth (by omega)
  unfold readItems
  refine hvalue.bind fun v q hlt => ?_
  change Accords _ _ _ (match q.skip.rest with
    | ']' :: _ => .ok (.list (v :: done).reverse, q.skip.advance 1)
    | ',' :: _ => readItems fuel depth (q.skip.advance 1).skip (v :: done)
    | _ => q.skip.refuse .comma)
  split
  · rename_i rest hrest
    have hshort := length_after_lt hrest
    exact .value _ _ (leads_of_step (by simp only [Stage.step, hrest])) (by omega)
  · rename_i rest hrest
    have hshort := length_after_lt hrest
    refine (h.items (v :: done) hdepth (by omega)).of_leads (leads_of_step ?_) (by omega)
    simp only [Stage.step, hrest]
  · exact accords_malformed (by simp only [Stage.step]) rfl rfl

/-- Behind a key there is a value, or the document does not go on as it should. -/
theorem behindKey?_cases (p : Place) (done : Members) (fuel depth : Nat) :
    (∃ complaint position, readMembers (fuel + 1) depth p done =
        .error (.malformed complaint position) ∧ p.behindKey? = none) ∨
      ∃ key q, p.behindKey? = some q ∧ q.rest.length < p.rest.length ∧
        readMembers (fuel + 1) depth p done = (do
          let (v, q) ← readValue fuel depth q
          match q.skip.rest with
          | '\x7d' :: _ => .ok (.object (done.set key v), q.skip.advance 1)
          | ',' :: _ => readMembers fuel depth (q.skip.advance 1).skip (done.set key v)
          | _ => q.skip.refuse .comma) := by
  by_cases hquote : ∃ rest, p.rest = '"' :: rest
  · obtain ⟨rest, hquote⟩ := hquote
    have hgoes := goes_readText p
    simp only [readMembers, Place.behindKey?, hquote]
    generalize readText p = r at hgoes ⊢
    cases hgoes with
    | wrong complaint position => exact .inl ⟨complaint, position, rfl, rfl⟩
    | on key q hlt =>
      simp only [bind, Except.bind]
      by_cases hcolon : ∃ after, q.skip.rest = ':' :: after
      · obtain ⟨after, hcolon⟩ := hcolon
        have hshort := length_after_lt hcolon
        rw [hquote] at hlt
        simp only [hcolon]
        exact .inr ⟨key, _, rfl, by omega, rfl⟩
      · refine .inl ⟨.colon, q.skip.position, ?_, ?_⟩
        · split
          · exact absurd ⟨_, ‹_›⟩ hcolon
          · rfl
        · split
          · exact absurd ⟨_, ‹_›⟩ hcolon
          · rfl
  · refine .inl ⟨.propertyName, p.position, ?_, ?_⟩
    · unfold readMembers
      split
      · exact absurd ⟨_, ‹_›⟩ hquote
      · rfl
    · unfold Place.behindKey?
      split
      · exact absurd ⟨_, ‹_›⟩ hquote
      · rfl

/-- With more fuel the reader of the rest of an object agrees with the machine. -/
theorem Agrees.members_succ [Nesting.Room] (h : Agrees fuel) (done : Members)
    (hdepth : depth + frames.length + 1 = Nesting.Site.settings.limit)
    (hfuel : 2 * p.rest.length + 2 ≤ fuel + 1)
    (hstep : s.step = p.behindKey?.map (.before (.object :: frames))) (hlong : s.isOverlong = false)
    (hdeep : s.isTooDeep = false) :
    Accords p.rest.length frames s (readMembers (fuel + 1) depth p done) := by
  rcases behindKey?_cases p done fuel depth with ⟨complaint, i, hread, hnone⟩ |
    ⟨key, place, hplace, hlt, hread⟩
  · rw [hread]
    rw [hnone] at hstep
    exact accords_malformed hstep hlong hdeep
  rw [hplace, Option.map_some] at hstep
  rw [hread]
  have hvalue := @Agrees.value _ _ h depth (.object :: frames) place hdepth (by omega)
  refine (hvalue.of_leads (leads_of_step hstep) (Nat.le_refl _)).bind fun v q hq => ?_
  dsimp only
  split
  · rename_i rest hrest
    have hshort := length_after_lt hrest
    exact .value _ _ (leads_of_step (by simp only [Stage.step, hrest])) (by omega)
  · rename_i rest hrest
    have hshort := length_after_lt hrest
    refine (h.members (s := .behind (.object :: frames) q.skip) _ hdepth (by omega) ?_ rfl
      rfl).of_leads .refl (by omega)
    simp only [Stage.step, hrest]
  · exact accords_malformed (by simp only [Stage.step]) rfl rfl

/-- What begins with a quote, a brace or a bracket is no number. -/
theorem Place.isOverlong_eq_false {c : Char} {rest : List Char} (hp : p.rest = c :: rest)
    (hc : c = '"' ∨ c = '\x7b' ∨ c = '[') : p.isOverlong = false := by
  unfold Place.isOverlong
  rw [hp]
  rcases hc with rfl | rfl | rfl <;> rfl

/-- The first place inside a list or an object comes after its beginning. -/
theorem length_inside_lt {c : Char} {rest : List Char} (h : p.rest = c :: rest) :
    (p.advance 1).skip.rest.length < p.rest.length := by
  have hskip := (p.advance 1).length_skip_le
  rw [Place.length_advance] at hskip
  rw [h, List.length_cons] at hskip ⊢
  omega

variable [Nesting.Room]

/-- Both stop before a list or an object inside as many as may be inside one another. -/
theorem accords_tooDeep {n : Nat} {c : Char} {rest : List Char} (hp : p.rest = c :: rest)
    (hc : c = '[' ∨ c = '\x7b') (hlimit : Nesting.Site.settings.limit ≤ frames.length)
    (innermost : Nesting) : Accords n frames (.before frames p) (.error (.tooDeep innermost)) := by
  refine .fault _ _ .refl ?_ ?_ ?_
  · rcases hc with rfl | rfl <;> simp only [Stage.step, hp] <;> exact if_pos hlimit
  · exact p.isOverlong_eq_false hp (.inr hc.symm)
  · rcases hc with rfl | rfl <;> simp [Stage.isTooDeep, hp, hlimit, ParseFault.isTooDeep]

/-- Fewer lists and objects enclose the place: both go inside. -/
theorem accords_open {c : Char} {rest : List Char} (hp : p.rest = c :: rest)
    (hc : c = '[' ∨ c = '\x7b') (hdepth : depth + frames.length = Nesting.Site.settings.limit)
    {innermost : Nesting}
    (hinside : ¬Nesting.Site.settings.limit ≤ frames.length → 0 < depth →
      Accords p.rest.length frames (.before frames p) r) :
    Accords p.rest.length frames (.before frames p)
      (if depth = 0 then .error (.tooDeep innermost) else r) := by
  split
  next hnone => exact accords_tooDeep hp hc (by omega) _
  next hsome => exact hinside (by omega) (by omega)

/-- With more fuel the reader of an object agrees with the machine. -/
theorem Agrees.object_succ (h : Agrees fuel) {rest : List Char} (hp : p.rest = '\x7b' :: rest)
    (hdepth : depth + frames.length = Nesting.Site.settings.limit)
    (hfuel : 2 * p.rest.length + 1 ≤ fuel + 1) :
    Accords p.rest.length frames (.before frames p) (readValue (fuel + 1) depth p) := by
  have hlt := length_inside_lt hp
  have hread : readValue (fuel + 1) depth p =
      if depth = 0 then .error (.tooDeep .objects)
      else
        match (p.advance 1).skip.rest with
        | '\x7d' :: _ => .ok (.object [], (p.advance 1).skip.advance 1)
        | _ => readMembers fuel (depth - 1) (p.advance 1).skip [] := by
    obtain ⟨position, characters⟩ := p
    obtain rfl : characters = '\x7b' :: rest := hp
    rfl
  rw [hread]
  refine accords_open hp (.inr rfl) hdepth fun hlimit hpos => ?_
  split
  next rest hempty =>
    refine .value _ _ (leads_of_step ?_) (by rw [Place.length_advance]; omega)
    simp only [Stage.step, hp, hempty]
    exact if_neg hlimit
  next hmember =>
    refine (h.members (s := .before frames p) [] (by omega) (by omega) ?_ ?_ ?_).of_leads .refl
      (Nat.le_of_lt hlt)
    · simp only [Stage.step, hp]
      exact if_neg hlimit
    · exact p.isOverlong_eq_false hp (.inr (.inl rfl))
    · simp [Stage.isTooDeep, hlimit]

/-- With more fuel the reader of a list agrees with the machine. -/
theorem Agrees.list_succ (h : Agrees fuel) {rest : List Char} (hp : p.rest = '[' :: rest)
    (hdepth : depth + frames.length = Nesting.Site.settings.limit)
    (hfuel : 2 * p.rest.length + 1 ≤ fuel + 1) :
    Accords p.rest.length frames (.before frames p) (readValue (fuel + 1) depth p) := by
  have hlt := length_inside_lt hp
  have hread : readValue (fuel + 1) depth p =
      if depth = 0 then .error (.tooDeep .lists)
      else
        match (p.advance 1).skip.rest with
        | ']' :: _ => .ok (.list [], (p.advance 1).skip.advance 1)
        | _ => readItems fuel (depth - 1) (p.advance 1).skip [] := by
    obtain ⟨position, characters⟩ := p
    obtain rfl : characters = '[' :: rest := hp
    rfl
  rw [hread]
  refine accords_open hp (.inl rfl) hdepth fun hlimit hpos => ?_
  split
  next rest hempty =>
    refine .value _ _ (leads_of_step ?_) (by rw [Place.length_advance]; omega)
    simp only [Stage.step, hp, hempty, if_neg hlimit]
  next hitem =>
    refine (h.items [] (by omega) (by omega)).of_leads (leads_of_step ?_) (Nat.le_of_lt hlt)
    simp only [Stage.step, hp, if_neg hlimit]

/-- With more fuel the reader of a value agrees with the machine. -/
theorem Agrees.value_succ (h : Agrees fuel)
    (hdepth : depth + frames.length = Nesting.Site.settings.limit)
    (hfuel : 2 * p.rest.length + 1 ≤ fuel + 1) :
    Accords p.rest.length frames (.before frames p) (readValue (fuel + 1) depth p) := by
  rcases hp : p.rest with _ | ⟨c, rest⟩
  · simp only [readValue, hp]
    refine accords_malformed ?_ ?_ ?_
    · simp only [Stage.step, hp]
    · simp [Stage.isOverlong, Place.isOverlong, hp, unsigned, wholeDigits]
    · simp [Stage.isTooDeep, hp]
  rw [← hp]
  by_cases hquote : c = '"'
  · obtain rfl := hquote
    have hread :
        readValue (fuel + 1) depth p = (readText p).map fun read => (.text read.1, read.2) := by
      simp only [readValue, hp]
      rfl
    rw [hread]
    refine accords_of_scans (p := p) ?_ rfl (by simp [Stage.isTooDeep, hp]) ?_
    · simp only [Stage.step, hp]
      cases readText p <;> rfl
    · refine .short (p.isOverlong_eq_false hp (.inl rfl)) ?_
      have hgoes := goes_readText p
      generalize readText p = r at hgoes ⊢
      cases hgoes with
      | on s q hlt => exact .on _ q hlt
      | wrong complaint position => exact .wrong complaint position
  by_cases hobject : c = '\x7b'
  · obtain rfl := hobject
    exact h.object_succ hp hdepth hfuel
  by_cases hlist : c = '['
  · obtain rfl := hlist
    exact h.list_succ hp hdepth hfuel
  have hread : readValue (fuel + 1) depth p = readScalar p := by
    simp only [readValue, hp]
    split <;> simp_all
  rw [hread]
  refine accords_of_scans (p := p) ?_ rfl ?_ (scans_readScalar p)
  · simp only [Stage.step, hp]
    split <;> simp_all
  · simp [Stage.isTooDeep, hp, hobject, hlist]

/-- The reader agrees with the machine whatever the fuel. -/
theorem agrees (fuel : Nat) : Agrees fuel := by
  induction fuel with
  | zero => exact ⟨fun _ hfuel => by omega, fun _ _ hfuel => by omega, fun _ _ hfuel => by omega⟩
  | succ fuel ih => exact ⟨ih.value_succ, ih.members_succ, ih.items_succ⟩

end Agreement

variable [Nesting.Room]

section Stops

variable {frames : List Frame} {s t u : Stage} {document : List Char}

/-- A stage from which there is no step leads to itself only. -/
theorem eq_of_leads (h : Leads s t) (hstop : s.step = none) : s = t := by
  rcases Relation.ReflTransGen.cases_head h with rfl | ⟨next, hnext, -⟩
  · rfl
  · rw [hstop] at hnext
    cases hnext

/-- The machine stops at one stage. -/
theorem eq_of_leads_of_leads (hs : Leads u s) (ht : Leads u t) (hstops : s.step = none)
    (hstopt : t.step = none) : s = t := by
  have hunique : Relator.RightUnique fun s t : Stage => s.step = some t :=
    fun _ _ _ h h' => Option.some.inj (h.symm.trans h')
  rcases Relation.ReflTransGen.total_of_right_unique hunique hs ht with h | h
  · exact eq_of_leads h hstops
  · exact (eq_of_leads h hstopt).symm

/-- The machine stops before a whole number that is too long. -/
theorem step_eq_none_of_isOverlong (h : s.isOverlong = true) : s.step = none := by
  cases s with
  | behind frames p => cases h
  | before frames p =>
    change p.isOverlong = true at h
    have hother : ∀ {c : Char} {rest : List Char}, p.rest = c :: rest →
        ¬(c = '"' ∨ c = '\x7b' ∨ c = '[') := by
      intro c rest hp hc
      rw [p.isOverlong_eq_false hp hc] at h
      cases h
    simp only [Stage.step]
    split
    next => rfl
    next hp => exact absurd (.inl rfl) (hother hp)
    next hp => exact absurd (.inr (.inl rfl)) (hother hp)
    next hp => exact absurd (.inr (.inr rfl)) (hother hp)
    next =>
      have hscans := scans_readScalar p
      generalize readScalar p = r at hscans ⊢
      cases hscans with
      | short hshort hgoes =>
        rw [h] at hshort
        cases hshort
      | long digits h => rfl

/-- The machine stops before what is nested too deeply. -/
theorem step_eq_none_of_isTooDeep (h : s.isTooDeep = true) : s.step = none := by
  cases s with
  | behind frames p => cases h
  | before frames p =>
    simp only [Stage.isTooDeep, Bool.and_eq_true, Bool.or_eq_true, decide_eq_true_eq] at h
    obtain ⟨hlimit, hhead⟩ := h
    rcases hhead with hhead | hhead
    all_goals
      obtain ⟨rest, hrest⟩ := List.head?_eq_some_iff.mp hhead
      simp only [Stage.step, hrest]
      exact if_pos hlimit

/-- The machine comes to a stage where it stops, and there it shows whether a limit is the reason
for which the document has no value. -/
theorem exists_last (hmark : document.head? ≠ some (Char.ofNat 0xFEFF)) :
    ∃ last, ComesTo document last ∧ last.step = none ∧
      (last.isOverlong = true ↔ ∃ digits, parse document = .error (.tooLong digits)) ∧
        (last.isTooDeep = true ↔ ∃ innermost, parse document = .error (.tooDeep innermost)) := by
  have hlength : (Place.skip ⟨0, document⟩).rest.length ≤ document.length := Place.length_skip_le _
  have hagrees := @Agrees.value _ _ (agrees (2 * document.length + 2)) Nesting.Site.settings.limit []
    (Place.skip ⟨0, document⟩) rfl (by omega)
  unfold parse
  rw [if_neg hmark]
  generalize readValue _ _ _ = r at hagrees ⊢
  cases hagrees with
  | value v q h hlt =>
    refine ⟨_, ⟨hmark, h⟩, rfl, ?_, ?_⟩
    all_goals
      refine iff_of_false nofun ?_
      rintro ⟨limit, hparse⟩
      simp only [bind, Except.bind] at hparse
      split at hparse <;> cases hparse
  | fault fault last h hstop hlong hdeep =>
    refine ⟨last, ⟨hmark, h⟩, hstop, ?_, ?_⟩
    · rw [hlong]
      cases fault <;> simp [ParseFault.isTooLong, bind, Except.bind]
    · rw [hdeep]
      cases fault <;> simp [ParseFault.isTooDeep, bind, Except.bind]

/-- What makes the machine stop is seen where it stops. -/
theorem ComesTo.exists_iff {last : Stage} (hlast : ComesTo document last)
    (hstop : last.step = none) {reason : Stage → Bool}
    (hreason : ∀ s, reason s = true → s.step = none) :
    (∃ s, ComesTo document s ∧ reason s = true) ↔ reason last = true := by
  refine ⟨?_, fun h => ⟨last, hlast, h⟩⟩
  rintro ⟨s, hs, h⟩
  rw [eq_of_leads_of_leads hlast.2 hs.2 hstop (hreason s h)]
  exact h

/-- A document that begins with a mark of the byte order is malformed. -/
theorem parse_of_mark (hmark : document.head? = some (Char.ofNat 0xFEFF)) :
    parse document = .error (.malformed .byteOrderMark 0) := if_pos hmark

/-- The number of digits is the reason exactly when the machine comes before a whole number with too
many of them. -/
theorem exists_parse_eq_tooLong_iff : (∃ digits, parse document = .error (.tooLong digits)) ↔
    ∃ s, ComesTo document s ∧ s.isOverlong = true := by
  by_cases hmark : document.head? = some (Char.ofNat 0xFEFF)
  · rw [parse_of_mark hmark]
    refine iff_of_false nofun ?_
    rintro ⟨s, hs, -⟩
    exact hs.1 hmark
  · obtain ⟨last, hlast, hstop, hlong, -⟩ := exists_last hmark
    rw [← hlong, hlast.exists_iff hstop fun _ => step_eq_none_of_isOverlong]

/-- The nesting is the reason exactly when the machine comes before a list or an object inside as
many as may be inside one another. -/
theorem exists_parse_eq_tooDeep_iff : (∃ innermost, parse document = .error (.tooDeep innermost)) ↔
    ∃ s, ComesTo document s ∧ s.isTooDeep = true := by
  by_cases hmark : document.head? = some (Char.ofNat 0xFEFF)
  · rw [parse_of_mark hmark]
    refine iff_of_false nofun ?_
    rintro ⟨s, hs, -⟩
    exact hs.1 hmark
  · obtain ⟨last, hlast, hstop, -, hdeep⟩ := exists_last hmark
    rw [← hdeep, hlast.exists_iff hstop fun _ => step_eq_none_of_isTooDeep]

end Stops

end DesignTokens.Value

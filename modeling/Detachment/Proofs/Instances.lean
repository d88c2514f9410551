import Detachment.Proofs.SchemaSearch
import Detachment.Proofs.Unification

/-! # Instances

One-way matching finds a formula to be an instance of another exactly if it is one, also when some
variables are mapped already, and detachment passes from instances to what they are instances of.

* `Matching.Grows` says that one matching keeps what another maps. Every attempt to match does so,
  whether it succeeds or not.
* `Matching.isSome_get?_extend` says which variables are mapped after an attempt that succeeds.
* `Matching.matchFormula_exact` puts this together for a matching after any earlier attempts.
* `detach?_monotone` says that more general premises have a more general conclusion. -/

namespace Detachment

namespace Matching

variable {m m' : Matching} {allowed : Formula → Formula → Bool} {general special : Formula}

/-! ## What is kept -/

/-- The matching `m'` maps all variables that `m` maps, and to the same formulas. -/
def Grows (m m' : Matching) : Prop :=
  ∀ id f, m.get? id = some f → m'.get? id = some f

/-- A matching keeps what it maps itself. -/
theorem Grows.refl (m : Matching) : m.Grows m := fun _ _ h => h

/-- What is kept twice in turn is kept. -/
theorem Grows.trans {m'' : Matching} (h : m.Grows m') (h' : m'.Grows m'') : m.Grows m'' :=
  fun id f hf => h' id f (h id f hf)

/-- Letting a variable stand for a formula (`matchVariable`) keeps what is mapped. A variable that
is mapped already stays as it is. -/
theorem matchVariable_grows (m : Matching) (id : Nat) (special : Formula) :
    m.Grows (m.matchVariable id special).2 := by
  unfold matchVariable
  cases hid : m.get? id with
  | some f => exact .refl m
  | none =>
    -- The new binding is for a variable that was not mapped, so it hides no other.
    intro other f hf
    have hne : other ≠ id := by
      rintro rfl
      rw [hid] at hf
      cases hf
    show get? ⟨(id, special) :: m.bindings⟩ other = some f
    rw [get?_cons, if_neg hne, hf]

/-- An attempt to match two formulas (`extend`) keeps what is mapped, also if it fails on the
way. -/
theorem extend_grows (allowed : Formula → Formula → Bool) (m : Matching)
    (general special : Formula) : m.Grows (m.extend allowed general special).2 := by
  fun_induction extend allowed m general special with
  | case1 m id special => exact matchVariable_grows m id special
  | case2 m p f q f' hpass ih => exact ih
  | case3 m p f q f' hpass => exact .refl m
  | case4 m p f g q f' g' hpass m' hleft ihleft ihright =>
    rw [hleft] at ihleft
    exact ihleft.trans ihright
  | case5 m p f g q f' g' hpass m' hleft ih =>
    -- The right arguments are not looked at, but what the left ones mapped stays.
    rw [hleft] at ih
    exact ih
  | case6 m p f g q f' g' hpass => exact .refl m
  | case7 => exact .refl _

/-! ## What is mapped -/

/-- After `matchVariable` a variable is mapped if it was before or if it is the one that stands for
something. -/
theorem isSome_get?_matchVariable (m : Matching) (id : Nat) (special : Formula) (other : Nat) :
    ((m.matchVariable id special).2.get? other).isSome ↔ (m.get? other).isSome ∨ other = id := by
  unfold matchVariable
  cases hid : m.get? id with
  | some f =>
    constructor
    · exact Or.inl
    · rintro (hmapped | rfl)
      · exact hmapped
      · show (m.get? other).isSome
        rw [hid]
        rfl
  | none =>
    show (get? ⟨(id, special) :: m.bindings⟩ other).isSome ↔ _
    rw [get?_cons]
    by_cases hother : other = id
    · simp [hother]
    · simp [hother]

/-- An attempt `extend` that succeeds maps the variables of the general formula, and no others in
addition. -/
theorem isSome_get?_extend (h : (m.extend allowed general special).1 = true) (id : Nat) :
    ((m.extend allowed general special).2.get? id).isSome ↔
      (m.get? id).isSome ∨ id ∈ general.occurrences := by
  fun_induction extend allowed m general special with
  | case1 m other special =>
    rw [Formula.occurrences_var, List.mem_singleton]
    exact isSome_get?_matchVariable m other special id
  | case2 m p f q f' hpass ih => exact ih h
  | case3 m p f q f' hpass => cases h
  | case4 m p f g q f' g' hpass m' hleft ihleft ihright =>
    rw [hleft] at ihleft
    rw [ihright h, ihleft rfl, Formula.occurrences_binary, List.mem_append, or_assoc]
  | case5 m p f g q f' g' hpass m' hleft ih => cases h
  | case6 m p f g q f' g' hpass => cases h
  | case7 => cases h

/-- Replacing the mapped variables (`specialize`) gives the same in a matching that keeps them, if
all variables of the formula are mapped. -/
theorem Grows.specialize_eq (h : m.Grows m') {f : Formula}
    (hmapped : ∀ id ∈ f.occurrences, (m.get? id).isSome) : m'.specialize f = m.specialize f := by
  apply Formula.subst_congr
  intro id hid
  obtain ⟨g, hg⟩ := Option.isSome_iff_exists.mp (hmapped id hid)
  rw [hg, h id g hg]

/-! ## Matching formulas by size -/

/-- Comparing sizes never holds up a formula and its instance, so `matchFormula` does what `Narrows`
asks of an attempt. -/
theorem matchFormula_narrows (m : Matching) (general special : Formula) :
    m.Narrows general special (m.matchFormula general special) :=
  m.extend_spec _ (fun _ _ h => decide_eq_true h.size_le) general special

/-- Two formulas are matched exactly if some replacement `s` that `Agrees` with the matching sends
one to the other. -/
theorem matchFormula_eq_true_iff :
    (m.matchFormula general special).1 = true ↔
      ∃ s, m.Agrees s ∧ general.subst s = special := by
  have hspec := m.matchFormula_narrows general special
  unfold Narrows at hspec
  constructor
  · intro h
    rw [if_pos h] at hspec
    exact ⟨_, (hspec _).mp (agrees_getD _)⟩
  · rintro ⟨s, hs, hsubst⟩
    by_contra hfail
    rw [if_neg hfail] at hspec
    exact hspec s hs hsubst

/-- After two formulas were matched, replacing the mapped variables (`specialize`) turns one into
the other. -/
theorem specialize_matchFormula (h : (m.matchFormula general special).1 = true) :
    (m.matchFormula general special).2.specialize general = special := by
  have hspec := m.matchFormula_narrows general special
  unfold Narrows at hspec
  rw [if_pos h] at hspec
  exact ((hspec _).mp (agrees_getD _)).2

/-- Whether a formula is an instance of another (`isSchema`) is what `matchFormula` finds with
nothing mapped. -/
theorem isSchema_eq_matchFormula (general special : Formula) :
    isSchema general special = (empty.matchFormula general special).1 := by
  rw [Bool.eq_iff_iff, isSchema_iff, matchFormula_eq_true_iff]
  constructor
  · rintro ⟨s, hs⟩
    exact ⟨s, agrees_empty s, hs⟩
  · rintro ⟨s, -, hs⟩
    exact ⟨s, hs⟩

/-! ## Attempts in turn -/

/-- What is mapped after attempts `matchFormula` for some pairs in turn, also those that fail. -/
def matchEach (m : Matching) (pairs : List (Formula × Formula)) : Matching :=
  pairs.foldl (fun m pair => (m.matchFormula pair.1 pair.2).2) m

/-- Later attempts keep what is mapped: `Grows` along `matchEach`. -/
theorem matchEach_grows (m : Matching) (pairs : List (Formula × Formula)) :
    m.Grows (m.matchEach pairs) := by
  induction pairs generalizing m with
  | nil => exact .refl m
  | cons pair rest ih => exact (extend_grows _ m pair.1 pair.2).trans (ih _)

/-- A pair that was matched is still sent to its target after any later attempts (`Grows`). -/
theorem specialize_of_grows (h : (m.matchFormula general special).1 = true)
    (hgrows : (m.matchFormula general special).2.Grows m') : m'.specialize general = special := by
  rw [hgrows.specialize_eq fun id hid => (isSome_get?_extend h id).mpr (.inr hid)]
  exact specialize_matchFormula h

/-- After any earlier attempts (`matchEach`), two formulas are matched exactly if some replacement
that `Agrees` with what is mapped sends one to the other. Whatever comes of it, everything stays
mapped as it was (`Grows`), and earlier pairs that were matched are still sent to their targets. If
it succeeds, exactly the variables of the general formula are mapped in addition, and replacing the
mapped variables turns it into the special one. With nothing mapped before, this decides which
formulas are instances of others (`isSchema`). -/
theorem matchFormula_exact (start : Matching) (earlier : List (Formula × Formula))
    (general special : Formula) :
    (((start.matchEach earlier).matchFormula general special).1 = true ↔
      ∃ s, (start.matchEach earlier).Agrees s ∧ general.subst s = special) ∧
    (start.matchEach earlier).Grows ((start.matchEach earlier).matchFormula general special).2 ∧
    (((start.matchEach earlier).matchFormula general special).1 = true →
      (∀ id, (((start.matchEach earlier).matchFormula general special).2.get? id).isSome ↔
        ((start.matchEach earlier).get? id).isSome ∨ id ∈ general.occurrences) ∧
      ((start.matchEach earlier).matchFormula general special).2.specialize general = special) ∧
    (∀ before f g after, earlier = before ++ (f, g) :: after →
      ((start.matchEach before).matchFormula f g).1 = true →
        ((start.matchEach earlier).matchFormula general special).2.specialize f = g) ∧
    isSchema general special = (empty.matchFormula general special).1 ∧
    (isSchema general special = true ↔ ∃ s, general.subst s = special) := by
  have hgrows := extend_grows (fun f g => f.size ≤ g.size) (start.matchEach earlier) general special
  refine ⟨matchFormula_eq_true_iff, hgrows, fun h => ⟨isSome_get?_extend h,
    specialize_matchFormula h⟩, ?_, isSchema_eq_matchFormula general special, isSchema_iff⟩
  rintro before f g after rfl hmatched
  have hlater := matchEach_grows ((start.matchEach before).matchFormula f g).2 after
  have hsplit : start.matchEach (before ++ (f, g) :: after) =
      ((start.matchEach before).matchFormula f g).2.matchEach after := by
    rw [matchEach, List.foldl_append, List.foldl_cons]
    rfl
  rw [hsplit] at hgrows ⊢
  exact specialize_of_grows hmatched (hlater.trans hgrows)

/-- A pair that is matched, and one that fails after its left arguments were matched. -/
def matchedAndFailed : List (Formula × Formula) :=
  [(.implies (.var 0) (.implies (.var 1) (.var 0)),
      .implies (.unary .negation (.var 2)) (.implies (.var 3) (.unary .negation (.var 2)))),
    (.implies (.var 4) (.unary .negation (.var 0)),
      .implies (.var 5) (.implies (.var 5) (.var 5)))]

/-- After these two attempts `x₁ → x₆` matches `x₃ → x₇`, which maps `x₆` in addition to what both
attempts left behind, and the pair matched first is still sent to its target. -/
theorem matchFormula_exact_later :
    ((empty.matchEach matchedAndFailed).matchFormula (.implies (.var 1) (.var 6))
      (.implies (.var 3) (.var 7))).1 = true ∧
    (empty.matchEach matchedAndFailed).Grows ((empty.matchEach matchedAndFailed).matchFormula
      (.implies (.var 1) (.var 6)) (.implies (.var 3) (.var 7))).2 ∧
    (empty.matchEach matchedAndFailed).get? 4 = some (.var 5) ∧
    (((empty.matchEach matchedAndFailed).matchFormula (.implies (.var 1) (.var 6))
      (.implies (.var 3) (.var 7))).2.get? 6).isSome ∧
    ((empty.matchEach matchedAndFailed).matchFormula (.implies (.var 1) (.var 6))
      (.implies (.var 3) (.var 7))).2.specialize (.implies (.var 0) (.implies (.var 1) (.var 0))) =
        .implies (.unary .negation (.var 2)) (.implies (.var 3) (.unary .negation (.var 2))) := by
  have hmatched : ((empty.matchEach matchedAndFailed).matchFormula (.implies (.var 1) (.var 6))
      (.implies (.var 3) (.var 7))).1 = true := by decide
  obtain ⟨-, hgrows, hsuccess, hearlier, -⟩ := matchFormula_exact empty matchedAndFailed
    (.implies (.var 1) (.var 6)) (.implies (.var 3) (.var 7))
  refine ⟨hmatched, hgrows, by decide, ((hsuccess hmatched).1 6).mpr (.inr (by decide)), ?_⟩
  exact hearlier [] _ _ _ rfl (by decide)

end Matching

/-! ## Detachment of more general premises -/

/-- What follows from two premises by `detach?` is an instance of what follows from an implication
and a formula that are more general (`Generalizes`) and share no variable (`Apart`). -/
theorem detach?_of_generalizes {f g f' g' h : Formula} (hf : f'.Generalizes f)
    (hg : g'.Generalizes g) (himp : f'.implication? ≠ none) (hapart : f'.Apart g')
    (hdetach : detach? f g = some h) : ∃ h', detach? f' g' = some h' ∧ h'.Generalizes h := by
  have himp' : f.implication? ≠ none := by
    intro hnone
    rw [detach?_of_implication?_eq_none hnone] at hdetach
    cases hdetach
  obtain ⟨a, c, rfl⟩ := Formula.eq_implies_of_implication? himp'
  obtain ⟨a', c', rfl⟩ := Formula.eq_implies_of_implication? himp
  -- The conclusion is the consequent of an instance of the premises, although they may share
  -- variables.
  obtain ⟨s, hantecedent, hconsequent⟩ := ((detach?_eq_some hdetach).1 h).mp (.refl h)
  have hmajor : (a'.implies c').Generalizes ((g.subst s).implies h) := by
    refine hf.trans ⟨s, ?_⟩
    rw [Formula.subst, hantecedent, hconsequent]
  have hminor : g'.Generalizes (g.subst s) := hg.trans ⟨s, rfl⟩
  exact exists_detach?_of_generalizes hapart hmajor hminor

/-- If two premises can be detached (`detach?`), so can an implication and a formula that share no
variable and of which they are instances (`isSchema`), and the conclusion is an instance of the new
one. -/
theorem detach?_monotone {a b a₂ b₂ r : Formula} (himp : a₂.implication?.isSome)
    (hapart : a₂.Apart b₂) (ha : isSchema a₂ a = true) (hb : isSchema b₂ b = true)
    (h : detach? a b = some r) : ∃ r₂, detach? a₂ b₂ = some r₂ ∧ isSchema r₂ r = true := by
  rw [isSchema_iff] at ha hb
  obtain ⟨r₂, hresult, hgeneral⟩ :=
    detach?_of_generalizes ha hb (Option.isSome_iff_ne_none.mp himp) hapart h
  exact ⟨r₂, hresult, isSchema_iff.mpr hgeneral⟩

/-- From `(p → p) → (q → (p → p))` and `p → p`, which share a variable, follows an instance of what
follows from `p → (q → p)` and `r → r`. -/
theorem detach?_monotone_identity :
    detach? (.implies (.implies (.var 3) (.var 3))
        (.implies (.var 4) (.implies (.var 3) (.var 3)))) (.implies (.var 3) (.var 3)) =
      some (.implies (.var 4) (.implies (.var 3) (.var 3))) ∧
    ∃ r₂, detach? (.implies (.var 0) (.implies (.var 1) (.var 0))) (.implies (.var 2) (.var 2)) =
        some r₂ ∧ isSchema r₂ (.implies (.var 4) (.implies (.var 3) (.var 3))) = true := by
  have hdetach : detach? (.implies (.implies (.var 3) (.var 3))
        (.implies (.var 4) (.implies (.var 3) (.var 3)))) (.implies (.var 3) (.var 3)) =
      some (.implies (.var 4) (.implies (.var 3) (.var 3))) := by decide
  have hapart : (Formula.implies (.var 0) (.implies (.var 1) (.var 0))).Apart
      (.implies (.var 2) (.var 2)) := by
    unfold Formula.Apart
    decide
  exact ⟨hdetach, detach?_monotone rfl hapart rfl rfl hdetach⟩

end Detachment

import Mathlib.Data.List.Basic
import Detachment.Formula.Canonical
import Detachment.Proofs.PrefixNotation

/-! # Reading prefix notation

What is written in prefix notation is read as the formula that was written, as long as its variables
fit into 32 bits.

* `Text.readDigits?_digits` reads a numeral back.
* `Formula.readFormula_polishChars` reads a formula in front of other characters, with the dot that
  may follow it.
* `Formula.parse_polish` reads a formula back. -/

namespace Detachment

/-! ## Numerals -/

namespace Text

/-- A number only grows with more digits, so `readDigits?` can stop at the first that is too
many. -/
theorem le_ofDigitChars (cs : List Char) (value : Nat) : value ≤ Nat.ofDigitChars 10 cs value := by
  induction cs generalizing value with
  | nil => exact Nat.le_refl _
  | cons c cs ih =>
    rw [Nat.ofDigitChars_cons]
    exact Nat.le_trans (by omega) (ih _)

/-- Digits are read as the number they stand for, `Nat.ofDigitChars 10`, if it stays below the
`bound`. -/
theorem readDigits?_eq {bound : Nat} {cs : List Char} {value : Nat}
    (hdigits : ∀ c ∈ cs, c.isDigit = true) (hbound : Nat.ofDigitChars 10 cs value < bound) :
    readDigits? bound value cs = some (Nat.ofDigitChars 10 cs value) := by
  induction cs generalizing value with
  | nil => rfl
  | cons c cs ih =>
    obtain ⟨hc, hrest⟩ := List.forall_mem_cons.mp hdigits
    rw [Nat.ofDigitChars_cons] at hbound ⊢
    have hnext : 10 * value + (c.toNat - '0'.toNat) < bound :=
      Nat.lt_of_le_of_lt (le_ofDigitChars cs _) hbound
    rw [readDigits?, digitValue?, if_pos hc]
    dsimp only
    rw [pushDigit?, if_pos hnext]
    exact ih hrest hbound

/-- The lowercase letters stand side by side, from `97` to `122`. -/
theorem toNat_of_isLower {c : Char} (h : c.isLower = true) : 97 ≤ c.toNat ∧ c.toNat ≤ 122 := by
  have hc : (decide (c.val ≥ 97) && decide (c.val ≤ 122)) = true := h
  simp only [Bool.and_eq_true, decide_eq_true_eq, UInt32.le_iff_toNat_le, ge_iff_le] at hc
  exact hc

/-- The `digits` of a number are read back, if the number is below the `bound`. -/
theorem readDigits?_digits {bound n : Nat} (h : n < bound) :
    readDigits? bound 0 (digits n) = some n := by
  have hvalue : Nat.ofDigitChars 10 (digits n) 0 = n := Nat.ofDigitChars_ten_toDigits
  rw [readDigits?_eq (fun c hc => isDigit_of_mem_digits hc) (hvalue.symm ▸ h), hvalue]

end Text

namespace Formula

/-! ## Formulas in front of other characters -/

/-- What is left behind a numeral, which takes a dot with it. -/
def skipDot : List Char → List Char
  | '.' :: rest => rest
  | rest => rest

/-- A variable is read with the dot that may follow it (`skipDot`), if what follows
`EndsNumeral`. -/
theorem readVariable_digits (position : Nat) (numeric : Bool) {id : Nat} {rest : List Char}
    (hid : id < Text.bound32) (hrest : Text.EndsNumeral rest) :
    ∃ start tail position', Text.digits id ++ rest = start :: tail ∧
      Operator.ofLetter? start = none ∧
      readVariable start ⟨position, [], numeric, Text.digits id ++ rest⟩ =
        .ok (var id, ⟨position', [], true, skipDot rest⟩) := by
  obtain ⟨start, tail, hdigits⟩ :=
    List.exists_cons_of_ne_nil (Nat.toDigits_ne_nil (n := id) (b := 10))
  have hstart : start.isDigit = true := Text.isDigit_of_mem_digits (n := id) (by
    rw [Text.digits, hdigits]
    exact List.mem_cons_self)
  obtain ⟨hrun, hafter⟩ := Text.span_digits id hrest
  have hread : ∃ position', readNumber start ⟨position, [], numeric, Text.digits id ++ rest⟩ =
      .ok (var id, ⟨position', [], true, skipDot rest⟩) := by
    rw [readNumber]
    dsimp only
    rw [hrun, Text.readDigits?_digits hid, hafter]
    dsimp only
    split
    · exact ⟨_, rfl⟩
    · next hdot => exact ⟨_, by rw [skipDot.eq_2 _ hdot]⟩
  obtain ⟨position', hread⟩ := hread
  refine ⟨start, tail ++ rest, position', ?_, Operator.ofLetter?_of_isDigit hstart, ?_⟩
  · rw [Text.digits, hdigits, List.cons_append]
  · rw [readVariable, if_pos hstart, hread]
    rfl

/-- Behind the first of two arguments, reading goes on with the second one: `skipDot` takes the dot
that `argumentChars` may have put there. -/
theorem skipDot_argumentChars (f : Formula) (rest : List Char) :
    skipDot (f.argumentChars ++ rest) = f.polishChars ++ rest := by
  by_cases hvariable : f.isVariable
  · rw [argumentChars, if_pos hvariable]
    rfl
  · obtain ⟨c, tail, hchars, -, hdot⟩ := f.argumentChars_eq_cons
    have hc : c ≠ '.' := fun h => hvariable (hdot.mpr h)
    rw [argumentChars, if_neg hvariable] at hchars ⊢
    rw [hchars, List.cons_append]
    unfold skipDot
    split
    · next heq => exact absurd (List.cons.inj heq).1 hc
    · rfl

/-- A formula that `Fits` is read in front of anything that does not continue its last numeral
(`EndsNumeral`), with a dot if one follows. The induction is on the formula, for any `rest` and any
depth that is enough. -/
theorem readFormula_polishChars (position : Nat) (numeric : Bool) {f : Formula} {depth : Nat}
    {rest : List Char} (hfits : f.Fits) (hrest : Text.EndsNumeral rest)
    (hdepth : f.polishChars.length ≤ depth) :
    ∃ position', readFormula depth ⟨position, [], numeric, f.polishChars ++ rest⟩ =
      .ok (f, ⟨position', [], true, skipDot rest⟩) := by
  induction f generalizing depth position numeric rest with
  | var id =>
    rw [polishChars_var] at hdepth ⊢
    have hid : id < Text.bound32 := hfits
    obtain ⟨start, tail, position', hchars, hoperator, hread⟩ :=
      readVariable_digits position numeric hid hrest
    obtain ⟨depth, rfl⟩ : ∃ n, depth = n + 1 := by
      refine Nat.exists_eq_succ_of_ne_zero fun hzero => ?_
      rw [hzero, Nat.le_zero, List.length_eq_zero_iff] at hdepth
      exact Nat.toDigits_ne_nil hdepth
    refine ⟨position', ?_⟩
    rw [hchars] at hread ⊢
    rw [readFormula]
    dsimp only
    rw [hoperator]
    exact hread
  | unary op f ih =>
    obtain ⟨depth, rfl⟩ : ∃ n, depth = n + 1 :=
      Nat.exists_eq_succ_of_ne_zero (Nat.ne_of_gt (Nat.lt_of_lt_of_le (Nat.succ_pos _) hdepth))
    obtain ⟨position', hread⟩ :=
      ih (position + 1) numeric hfits hrest (Nat.le_of_succ_le_succ hdepth)
    refine ⟨position', ?_⟩
    have hletter := Operator.ofLetter?_letter (.unary op)
    rw [Operator.letter] at hletter
    rw [polishChars_unary, List.cons_append, readFormula]
    dsimp only
    rw [hletter]
    dsimp only
    rw [hread]
  | binary op f g ihf ihg =>
    rw [polishChars_binary, ← argumentChars] at hdepth ⊢
    obtain ⟨depth, rfl⟩ : ∃ n, depth = n + 1 :=
      Nat.exists_eq_succ_of_ne_zero (Nat.ne_of_gt (Nat.lt_of_lt_of_le (Nat.succ_pos _) hdepth))
    have hlength : g.polishChars.length ≤ g.argumentChars.length := by
      rw [argumentChars]
      split
      · exact Nat.le_succ _
      · exact Nat.le_refl _
    rw [List.length_cons, List.length_append] at hdepth
    obtain ⟨hf, hg⟩ : f.Fits ∧ g.Fits := Nat.max_lt.mp hfits
    -- The first argument is read with the dot between the two, and then the second one.
    obtain ⟨middle, hfirst⟩ := ihf (position + 1) numeric hf
      (endsNumeral_argument g rest) (by omega : f.polishChars.length ≤ depth)
    rw [skipDot_argumentChars] at hfirst
    obtain ⟨position', hsecond⟩ := ihg middle true hg hrest
      (by omega : g.polishChars.length ≤ depth)
    refine ⟨position', ?_⟩
    have hletter := Operator.ofLetter?_letter (.binary op)
    rw [Operator.letter] at hletter
    rw [List.cons_append, List.append_assoc, readFormula]
    dsimp only
    rw [hletter]
    dsimp only
    rw [hfirst]
    dsimp only
    rw [hsecond]

/-! ## Whole texts -/

/-- The notation `polishChars` has digits, dots and the letters of operators, so what holds of these
holds of all its characters. -/
theorem polishChars_forall {P : Char → Prop} (hdigit : ∀ c, c.isDigit = true → P c) (hdot : P '.')
    (hmodifier : ∀ op : Modifier, P op.letter) (hconnective : ∀ op : Connective, P op.letter)
    (f : Formula) : ∀ c ∈ f.polishChars, P c := by
  induction f with
  | var id =>
    rw [polishChars_var]
    exact fun c hc => hdigit c (Text.isDigit_of_mem_digits hc)
  | unary op f ih => exact List.forall_mem_cons.mpr ⟨hmodifier op, ih⟩
  | binary op f g ihf ihg =>
    rw [polishChars_binary]
    refine List.forall_mem_cons.mpr ⟨hconnective op, fun c hc => ?_⟩
    rcases List.mem_append.mp hc with hc | hc
    · exact ihf c hc
    · split at hc
      · rcases List.mem_cons.mp hc with rfl | hc
        · exact hdot
        · exact ihg c hc
      · exact ihg c hc

/-- There are no blanks in the notation of a formula, by `polishChars_forall`. -/
theorem isBlank_of_mem_polishChars {f : Formula} {c : Char} (h : c ∈ f.polishChars) :
    Text.isBlank c = false := by
  refine polishChars_forall (P := fun c => Text.isBlank c = false) (fun c hc => ?_) (by decide)
    (fun op => by cases op <;> decide) (fun op => by cases op <;> decide) f c h
  obtain ⟨hlow, hhigh⟩ := Char.isDigit_iff_toNat.mp hc
  have hzero : '0'.toNat = 48 := rfl
  have hnine : '9'.toNat = 57 := rfl
  rw [hzero] at hlow
  rw [hnine] at hhigh
  simp only [Text.isBlank, Bool.or_eq_false_iff, Bool.and_eq_false_iff, decide_eq_false_iff_not,
    beq_eq_false_iff_ne]
  omega

/-- A formula whose variables fit into 32 bits (`Fits`) is read back from its notation. -/
theorem parse_polish {f : Formula} (hfits : f.Fits) : parse f.polish = .ok f := by
  have hends : Text.EndsNumeral [] := fun c hc => nomatch hc
  obtain ⟨position, hread⟩ := readFormula_polishChars 0 false hfits hends (Nat.le_refl _)
  rw [List.append_nil] at hread
  rw [parse, toList_polish, Text.trimBlanks_eq_self fun c => isBlank_of_mem_polishChars,
    parseChars, hread]
  rfl

end Formula

end Detachment

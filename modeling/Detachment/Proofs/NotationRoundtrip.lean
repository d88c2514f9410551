import Mathlib.Data.List.Nodup
import Mathlib.Data.List.Perm.Subperm
import Detachment.Proofs.PolishReading

/-! # Prefix notation is read back

Writing and reading in prefix notation fit together, for all formulas whose variables fit into 32
bits and for no others.

* `Formula.writeAfter_eq` says where dots stand: before a numeral exactly if what was written before
  it ends in a digit.
* `Formula.fits_of_parse` says that whatever is read has variables of 32 bits.
* `Formula.polish_roundtrip` is the main result. -/

namespace Detachment

namespace Text

/-- Whether a text ends in a digit, so that a numeral behind it would go on with it. -/
def endsInDigit (written : List Char) : Bool :=
  written.getLast?.any Char.isDigit

/-- Only the last part of a text counts, if it is not empty. -/
theorem endsInDigit_append {last : List Char} (h : last ≠ []) (written : List Char) :
    endsInDigit (written ++ last) = endsInDigit last := by
  rw [endsInDigit, endsInDigit, List.getLast?_append_of_ne_nil _ h]

/-- A numeral (`digits`) ends in a digit. -/
theorem endsInDigit_digits (n : Nat) : endsInDigit (digits n) = true := by
  have hlast := List.getLast?_eq_some_getLast (Nat.toDigits_ne_nil (n := n) (b := 10))
  rw [endsInDigit, digits, hlast, Option.any_some]
  exact isDigit_of_mem_digits (List.getLast_mem _)

/-- A number that `readDigits?` reads stays below the `bound`. By induction on the digits, each of
which is refused if it leads beyond it. -/
theorem lt_of_readDigits? {bound value n : Nat} {cs : List Char} (hvalue : value < bound)
    (h : readDigits? bound value cs = some n) : n < bound := by
  induction cs generalizing value with
  | nil =>
    obtain rfl := Option.some.inj h
    exact hvalue
  | cons c cs ih =>
    rw [readDigits?] at h
    split at h
    · cases h
    · split at h
      · cases h
      · next hpush =>
        refine ih ?_ h
        rw [pushDigit?] at hpush
        split at hpush
        · next hlt =>
          obtain rfl := Option.some.inj hpush
          exact hlt
        · cases hpush

/-- There are 26 lowercase letters, so distinct ones are no more. -/
theorem length_le_of_isLower {letters : List Char} (hnodup : letters.Nodup)
    (hlower : ∀ c ∈ letters, c.isLower = true) : letters.length ≤ 26 := by
  have hsub : letters ⊆ (List.range 26).map fun n => Char.ofNat (97 + n) := by
    intro c hc
    obtain ⟨hlow, hhigh⟩ := toNat_of_isLower (hlower c hc)
    refine List.mem_map.mpr ⟨c.toNat - 97, List.mem_range.mpr (by omega), ?_⟩
    rw [show 97 + (c.toNat - 97) = c.toNat by omega]
    exact Char.ofNat_toNat c
  have hle := (List.subperm_of_subset hnodup hsub).length_le
  rwa [List.length_map, List.length_range] at hle

end Text

namespace Formula

/-! ## Dots -/

/-- Write a formula behind what has been `written`. A numeral that would go on with another one gets
a dot before it. -/
def writeAfter : List Char → Formula → List Char
  | written, var id =>
    (if Text.endsInDigit written then written ++ ['.'] else written) ++ Text.digits id
  | written, unary op f => writeAfter (written ++ [op.letter]) f
  | written, binary op f g => writeAfter (writeAfter (written ++ [op.letter]) f) g

/-- No operator ends in a digit: an operator's letter parts numerals. -/
theorem endsInDigit_letter (written : List Char) (op : Operator) :
    Text.endsInDigit (written ++ [op.letter]) = false := by
  rw [Text.endsInDigit_append (List.cons_ne_nil _ _)]
  cases op with
  | unary op => cases op <;> rfl
  | binary op => cases op <;> rfl

/-- The notation `polishChars` of a formula ends in a numeral. By induction on the formula: what is
written last is a variable. -/
theorem endsInDigit_polishChars (f : Formula) :
    f.polishChars ≠ [] ∧ Text.endsInDigit f.polishChars = true := by
  induction f with
  | var id =>
    rw [polishChars_var]
    exact ⟨Nat.toDigits_ne_nil, Text.endsInDigit_digits id⟩
  | unary op f ih =>
    refine ⟨List.cons_ne_nil _ _, ?_⟩
    rw [polishChars_unary, ← List.singleton_append, Text.endsInDigit_append ih.1]
    exact ih.2
  | binary op f g ihf ihg =>
    refine ⟨by rw [polishChars_binary]; exact List.cons_ne_nil _ _, ?_⟩
    have hargument : ∃ dot, g.argumentChars = dot ++ g.polishChars := by
      rw [argumentChars]
      split
      · exact ⟨['.'], rfl⟩
      · exact ⟨[], rfl⟩
    obtain ⟨dot, hargument⟩ := hargument
    rw [polishChars_binary, ← argumentChars, hargument, ← List.append_assoc, ← List.cons_append,
      Text.endsInDigit_append ihg.1]
    exact ihg.2

/-- Writing behind a text adds `polishChars` of the formula, or `argumentChars` with a dot if two
numerals would meet. The induction is on the formula, with any text before it. -/
theorem writeAfter_eq (written : List Char) (f : Formula) :
    writeAfter written f =
      written ++ if Text.endsInDigit written then f.argumentChars else f.polishChars := by
  induction f generalizing written with
  | var id =>
    rw [writeAfter, argumentChars, polishChars_var]
    split <;> simp [isVariable]
  | unary op f ih =>
    rw [writeAfter, ih, ← Operator.letter, endsInDigit_letter]
    simp [argumentChars, isVariable, Operator.letter]
  | binary op f g ihf ihg =>
    -- The first argument comes behind a letter, and the second behind the numeral that ends the
    -- first.
    have hfirst : writeAfter (written ++ [op.letter]) f = written ++ op.letter :: f.polishChars := by
      rw [ihf, ← Operator.letter, endsInDigit_letter]
      simp [Operator.letter]
    have hdigit : Text.endsInDigit (written ++ op.letter :: f.polishChars) = true := by
      obtain ⟨hne, hends⟩ := f.endsInDigit_polishChars
      rw [← List.singleton_append, ← List.append_assoc, Text.endsInDigit_append hne, hends]
    rw [writeAfter, hfirst, ihg, hdigit]
    simp [argumentChars, isVariable]

/-! ## Variables that are read -/

/-- The letters that were read are distinct lowercase letters, so they are 26 at most. -/
def Cursor.Lettered (c : Cursor) : Prop :=
  c.letters.Nodup ∧ ∀ letter ∈ c.letters, letter.isLower = true

/-- A number that `readNumber` reads fits into 32 bits (`Fits`). It is refused otherwise, and a dot
behind it changes nothing. -/
theorem fits_of_readNumber {start : Char} {c d : Cursor} {f : Formula}
    (h : readNumber start c = .ok (f, d)) : f.Fits ∧ d.letters = c.letters := by
  cases hid : Text.readDigits? Text.bound32 0 (c.rest.takeWhile Char.isDigit) with
  | none =>
    simp only [readNumber, hid] at h
    cases h
  | some id =>
    have hfits : (var id).Fits := Text.lt_of_readDigits? (by decide) hid
    simp only [readNumber, hid] at h
    split at h
    · obtain ⟨rfl, rfl⟩ := Prod.mk.inj (Except.ok.inj h)
      exact ⟨hfits, rfl⟩
    · obtain ⟨rfl, rfl⟩ := Prod.mk.inj (Except.ok.inj h)
      exact ⟨hfits, rfl⟩

/-- A letter that is read is one of 26 (`Lettered`), and so its number `Fits`. Its number is its
place among the letters that were met, which are distinct. -/
theorem fits_readLetter {letter : Char} {c : Cursor} (hc : c.Lettered) (hletter : letter.isLower) :
    (readLetter letter c).1.Fits ∧ (readLetter letter c).2.Lettered := by
  have hnext : (readLetter letter c).2.Lettered ∧ letter ∈ (readLetter letter c).2.letters := by
    simp only [readLetter, Cursor.Lettered]
    split
    · next hmem => exact ⟨hc, hmem⟩
    · next hmem =>
      refine ⟨⟨?_, ?_⟩, List.mem_append_right _ (List.mem_singleton_self letter)⟩
      · rw [← List.concat_eq_append]
        exact List.Nodup.concat hmem hc.1
      · intro other hother
        rcases List.mem_append.mp hother with hother | hother
        · exact hc.2 other hother
        · rw [List.mem_singleton.mp hother, hletter]
  obtain ⟨hlettered, hmem⟩ := hnext
  have hlt : (readLetter letter c).2.letters.idxOf letter < 26 :=
    Nat.lt_of_lt_of_le (List.idxOf_lt_length_iff.mpr hmem)
      (Text.length_le_of_isLower hlettered.1 hlettered.2)
  exact ⟨Nat.lt_trans hlt (by decide), hlettered⟩

/-- A variable that `readVariable` reads `Fits`. It is a number (`fits_of_readNumber`) or a letter
(`fits_readLetter`). -/
theorem fits_of_readVariable {start : Char} {c d : Cursor} {f : Formula} (hc : c.Lettered)
    (h : readVariable start c = .ok (f, d)) : f.Fits ∧ d.Lettered := by
  unfold readVariable at h
  split at h
  · split at h
    · obtain ⟨hfits, hletters⟩ := fits_of_readNumber h
      refine ⟨hfits, ?_⟩
      rw [Cursor.Lettered, hletters]
      exact hc
    · cases h
  · split at h
    · next hlower =>
      split at h
      · cases h
      · have hread := fits_readLetter hc hlower
        rw [Except.ok.inj h] at hread
        exact hread
    · cases h

/-- A formula that `readFormula` reads `Fits`, by induction on the depth; `Lettered` is what is
carried along. -/
theorem fits_of_readFormula {depth : Nat} {c d : Cursor} {f : Formula} (hc : c.Lettered)
    (h : readFormula depth c = .ok (f, d)) : f.Fits ∧ d.Lettered := by
  induction depth generalizing c d f with
  | zero => cases h
  | succ depth ih =>
    unfold readFormula at h
    split at h
    · cases h
    · split at h
      · -- a modifier and its argument
        split at h
        · cases h
        · next hbody =>
          obtain ⟨hfits, hlettered⟩ := ih (by exact hc) hbody
          obtain ⟨rfl, rfl⟩ := Prod.mk.inj (Except.ok.inj h)
          exact ⟨hfits, hlettered⟩
      · -- a connective and its two arguments
        split at h
        · cases h
        · next hleft =>
          obtain ⟨hfits, hlettered⟩ := ih (by exact hc) hleft
          split at h
          · cases h
          · next hright =>
            obtain ⟨hfits', hlettered'⟩ := ih hlettered hright
            obtain ⟨rfl, rfl⟩ := Prod.mk.inj (Except.ok.inj h)
            exact ⟨Nat.max_lt.mpr ⟨hfits, hfits'⟩, hlettered'⟩
      · exact fits_of_readVariable hc h

/-- Whatever `parse` reads has variables of 32 bits (`Fits`). -/
theorem fits_of_parse {text : String} {f : Formula} (h : parse text = .ok f) : f.Fits := by
  rw [parse, parseChars] at h
  split at h
  · cases h
  · next hread =>
    split at h
    · obtain rfl := Except.ok.inj h
      exact (fits_of_readFormula ⟨List.nodup_nil, List.forall_mem_nil _⟩ hread).1
    · cases h

/-! ## The main result -/

/-- A formula is written from left to right, with a dot before each numeral that would go on with
another one (`writeAfter`). What is written is read as the formula again exactly if its variables
fit into 32 bits (`Fits`), and no two formulas are written alike. -/
theorem polish_roundtrip :
    (∀ f : Formula, f.polish = String.ofList (writeAfter [] f)) ∧
    (∀ f : Formula, parse f.polish = .ok f ↔ f.Fits) ∧
    Function.Injective polish := by
  refine ⟨fun f => ?_, fun f => ⟨fits_of_parse, parse_polish⟩, fun f g => polish_inj⟩
  rw [writeAfter_eq]
  rfl

end Formula

end Detachment

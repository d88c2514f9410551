import Mathlib.Data.List.Forall2
import Detachment.Proofs.CanonicalKeys
import Detachment.Proofs.RunInformation

/-! # Names of folders

The folder of a system's results has a name of its own: another system has the same folder exactly
if its axioms are the same up to renaming, and the limits on necessitations mean the same.

* `Basis.Lists` goes from a system to its axioms as they were written, and `Basis.Lists.eq_iff` says
  when two systems are the same.
* `Basis.fingerprintBy_eq_iff` says that systems are told apart by their names, if their listings do
  not have the same hash. Of the hash only its 64 hexadecimal digits are used (`Digest`).
* `Store.limitChars_eq_iff` says the same of limits, `Store.toList_folderNameBy` puts both together,
  and `Store.folderNameBy_eq_iff` compares the names of folders for any hash.
* `Store.folderName_eq_iff` is the main result, for the hash `Blake3.hex` that stores use. -/

namespace Detachment

/-! ## Systems as they were written -/

/-- A formula becomes another one when its variables are renamed apart from one another
(`KeepsApart`). -/
def Formula.Variant (f g : Formula) : Prop :=
  ∃ rename, KeepsApart rename f.occurrences ∧ f.map rename = g

/-- A `Variant` is a formula with the same canonical form. -/
theorem Formula.variant_iff {f g : Formula} : f.Variant g ↔ f.canonical = g.canonical :=
  exists_rename_iff.trans canonical_eq_iff.symm

namespace Basis

/-- A system with its axioms as they were written, before they were brought into canonical form. -/
inductive Lists : Basis → List Formula → Prop where
  /-- The standard system. -/
  | standard : Lists .standard standard.formulas
  /-- A system that was read from a list. -/
  | parsed {text : String} {basis : Basis} {formulas : List Formula}
      (hlist : parseList text = .ok basis) (hentries : parseEntries 0 (entries text) = .ok formulas) :
      Lists basis formulas

variable {basis other : Basis} {written written' : List Formula}

/-- A system is its list of axioms, its only field. -/
theorem formulas_inj : basis.formulas = other.formulas ↔ basis = other := by
  cases basis
  cases other
  rw [mk.injEq]

/-- One formula is read for each entry, if `parseEntries` succeeds. -/
theorem length_of_parseEntries {index : Nat} {parts : List (List Char)}
    (h : parseEntries index parts = .ok written) : written.length = parts.length := by
  induction parts generalizing index written with
  | nil =>
    obtain rfl := Except.ok.inj h
    rfl
  | cons part parts ih =>
    rw [parseEntries] at h
    split at h
    · cases h
    · split at h
      · cases h
      · next fs hrest =>
        obtain rfl := Except.ok.inj h
        rw [List.length_cons, List.length_cons, ih hrest]

/-- The axioms of a system are the canonical forms of those that were written (`Lists`). Either they
are the standard ones, which are canonical, or they were parsed. -/
theorem Lists.formulas_eq (h : basis.Lists written) :
    basis.formulas = written.map Formula.canonical := by
  cases h with
  | standard =>
    rw [Basis.standard, ofFormulas, List.map_map]
    exact List.map_congr_left fun f _ => (Formula.canonical_canonical f).symm
  | parsed hlist hentries =>
    rw [parseList] at hlist
    split at hlist
    · cases hlist
    · split at hlist
      · cases hlist
      · next hcount =>
        rw [hentries] at hlist
        obtain rfl := Except.ok.inj hlist
        -- There are names for all of them.
        have hlength := length_of_parseEntries hentries
        rw [ofFormulas, List.take_of_length_le (by omega)]

/-- The axioms of a system are canonical, so `Formula.canonical` leaves them as they are. -/
theorem Lists.map_canonical (h : basis.Lists written) :
    basis.formulas.map Formula.canonical = basis.formulas := by
  rw [h.formulas_eq, List.map_map]
  exact List.map_congr_left fun f _ => Formula.canonical_canonical f

/-- Lists of formulas have the same canonical forms exactly if they are each other's `Variant`s,
place by place. -/
theorem map_canonical_eq_iff : written.map Formula.canonical = written'.map Formula.canonical ↔
    List.Forall₂ Formula.Variant written written' := by
  rw [← List.forall₂_eq_eq_eq, List.forall₂_map_left_iff, List.forall₂_map_right_iff,
    show Formula.Variant = fun f g => f.canonical = g.canonical from
      funext fun f => funext fun g => propext Formula.variant_iff]

/-- Systems are the same exactly if the axioms that were written are the same up to renaming
(`Variant`). -/
theorem Lists.eq_iff (h : basis.Lists written) (h' : other.Lists written') :
    basis = other ↔ List.Forall₂ Formula.Variant written written' := by
  rw [← formulas_inj, h.formulas_eq, h'.formulas_eq, map_canonical_eq_iff]

/-! ## Names of systems -/

/-- A `listing` determines the system: the notations of the axioms are separated by a character that
no notation has. -/
theorem listing_inj (h : basis.listing = other.listing) : basis = other := by
  have hparts : ∀ b : Basis, (splitCommas b.listing.toList).filter (!·.isEmpty) =
      b.formulas.map Formula.polishChars := by
    intro b
    have hchars : b.listing.toList = [','].intercalate (b.formulas.map Formula.polishChars) := by
      rw [listing, Text.join, String.toList_intercalate, List.map_map]
      exact congrArg _ (List.map_congr_left fun f _ => f.toList_polish)
    rw [hchars]
    refine filter_splitCommas_intercalate fun part hpart => ?_
    obtain ⟨f, -, rfl⟩ := List.mem_map.mp hpart
    obtain ⟨c, rest, hcons, -⟩ := f.polishChars_eq_cons
    have hcomma : ∀ c ∈ f.polishChars, c ≠ ',' :=
      f.polishChars_forall (fun c hc heq => by rw [heq] at hc; cases hc) (by decide)
        (fun op => by cases op <;> decide) (fun op => by cases op <;> decide)
    exact ⟨by rw [hcons]; exact List.cons_ne_nil _ _, fun hmem => hcomma ',' hmem rfl⟩
  have hformulas : basis.formulas.map Formula.polishChars = other.formulas.map Formula.polishChars := by
    rw [← hparts, ← hparts, h]
  have hinjective : Function.Injective Formula.polishChars :=
    fun f g hfg => Formula.polish_inj (congrArg String.ofList hfg)
  exact formulas_inj.mp (List.map_injective_iff.mpr hinjective hformulas)

/-- Systems are told apart by their names, whatever the hash, if it tells their listings apart; the
name `default` is no hash, as it does not have 64 digits. -/
theorem fingerprintBy_eq_iff {digest : Digest}
    (hhash : digest.hex basis.listing.toUTF8.toList = digest.hex other.listing.toUTF8.toList →
      basis.listing = other.listing) :
    basis.fingerprintBy digest = other.fingerprintBy digest ↔ basis = other := by
  have hstandard : ∀ bytes, digest.hex bytes ≠ "default" := by
    intro bytes heq
    have hlength := digest.length_hex bytes
    rw [heq] at hlength
    exact absurd hlength (by decide)
  refine ⟨fun heq => ?_, congrArg (fingerprintBy digest)⟩
  rw [fingerprintBy, fingerprintBy] at heq
  split_ifs at heq with hbasis hother hother
  · rw [hbasis, hother]
  · exact absurd heq.symm (hstandard _)
  · exact absurd heq (hstandard _)
  · exact listing_inj (hhash heq)

end Basis

/-! ## Limits -/

namespace NecessitationLimit

/-- Limits that mean the same: no necessitation at all, or any number, or the same number of them.
Only `.disabled` and `.bounded 0` are different and mean the same. -/
def Same (x y : NecessitationLimit) : Prop :=
  (x.isEnabled = false ∧ y.isEnabled = false) ∨ (x = .unbounded ∧ y = .unbounded) ∨
    ∃ most, x = .bounded most ∧ y = .bounded most

/-- Limits that allow a necessitation (`isEnabled`) are told apart by their texts. A bound is
written in digits, and the text for no bound is not. -/
theorem text_inj {x y : NecessitationLimit} (hx : x.isEnabled = true) (hy : y.isEnabled = true)
    (h : x.text = y.text) : x = y := by
  have hdigits : ∀ most, (bounded most).text ≠ unbounded.text := by
    intro most heq
    have hmem : 'u' ∈ (bounded most).text.toList := by
      rw [heq]
      decide
    rw [text, String.toList_ofList] at hmem
    exact absurd (Text.isDigit_of_mem_digits hmem) (by decide)
  cases x with
  | disabled => cases hx
  | bounded most =>
    cases y with
    | disabled => cases hy
    | bounded most' =>
      have hvalue := congrArg (Nat.ofDigitChars 10 · 0) (String.ofList_inj.mp h)
      simp only [Text.digits, Nat.ofDigitChars_ten_toDigits] at hvalue
      rw [hvalue]
    | unbounded => exact absurd h (hdigits most)
  | unbounded =>
    cases y with
    | disabled => cases hy
    | bounded most => exact absurd h.symm (hdigits most)
    | unbounded => rfl

/-- Limits that mean the same both allow a necessitation, or neither does. -/
theorem Same.isEnabled_eq {x y : NecessitationLimit} (h : x.Same y) : x.isEnabled = y.isEnabled := by
  rcases h with ⟨hx, hy⟩ | ⟨rfl, rfl⟩ | ⟨most, rfl, rfl⟩
  · rw [hx, hy]
  · rfl
  · rfl

/-- A limit that allows a necessitation means the `Same` as another one exactly if they are
equal. -/
theorem same_iff_eq {x y : NecessitationLimit} (hx : x.isEnabled = true) : x.Same y ↔ x = y := by
  constructor
  · rintro (⟨hdisabled, -⟩ | ⟨rfl, rfl⟩ | ⟨most, rfl, rfl⟩)
    · rw [hx] at hdisabled
      cases hdisabled
    · rfl
    · rfl
  · rintro rfl
    cases x with
    | disabled => cases hx
    | bounded most => exact .inr (.inr ⟨most, rfl, rfl⟩)
    | unbounded => exact .inr (.inl ⟨rfl, rfl⟩)

end NecessitationLimit

/-! ## Folders -/

namespace Store

/-- What a limit adds to the name of a folder: `-N` and its text, or nothing if necessitation is
off. -/
def limitChars (limit : NecessitationLimit) : List Char :=
  if limit.isEnabled then '-' :: 'N' :: limit.text.toList else []

/-- Limits add the same to a name exactly if they mean the same: `limitChars` identifies limits up
to `Same`. -/
theorem limitChars_eq_iff {x y : NecessitationLimit} : limitChars x = limitChars y ↔ x.Same y := by
  rw [limitChars, limitChars]
  cases hx : x.isEnabled with
  | false =>
    cases hy : y.isEnabled with
    | false => simp [NecessitationLimit.Same, hx, hy]
    | true =>
      refine iff_of_false (by simp) fun hsame => ?_
      rw [hsame.isEnabled_eq, hy] at hx
      cases hx
  | true =>
    cases hy : y.isEnabled with
    | false =>
      refine iff_of_false (by simp) fun hsame => ?_
      rw [hsame.isEnabled_eq, hy] at hx
      cases hx
    | true =>
      rw [NecessitationLimit.same_iff_eq hx, if_pos rfl, if_pos rfl]
      constructor
      · intro heq
        exact NecessitationLimit.text_inj hx hy (String.toList_inj.mp (by simpa using heq))
      · rintro rfl
        rfl

/-- The name of a system's folder by any hash; `folderName` is `folderNameBy .blake3`
(`folderNameBy_blake3`). -/
def folderNameBy (digest : Digest) (basis : Basis) (limit : NecessitationLimit) : String :=
  if limit.isEnabled then basis.fingerprintBy digest ++ "-N" ++ limit.text
  else basis.fingerprintBy digest

/-- The hash that stores use is `Digest.blake3`. -/
theorem folderNameBy_blake3 (basis : Basis) (limit : NecessitationLimit) :
    folderNameBy .blake3 basis limit = folderName basis limit := rfl

variable {digest : Digest}

/-- A folder has the name of the system, `fingerprintBy digest`, and what the limit adds to it,
`limitChars limit`. -/
theorem toList_folderNameBy (basis : Basis) (limit : NecessitationLimit) :
    (folderNameBy digest basis limit).toList =
      (basis.fingerprintBy digest).toList ++ limitChars limit := by
  rw [folderNameBy, limitChars]
  split
  · rw [String.toList_append, String.toList_append, List.append_assoc]
    rfl
  · rw [List.append_nil]

/-- The name of the system ends where the limit begins: no hexadecimal digit is `-`. -/
theorem takeWhile_folderNameBy (basis : Basis) (limit : NecessitationLimit) :
    (folderNameBy digest basis limit).toList.takeWhile (· != '-') =
      (basis.fingerprintBy digest).toList := by
  have hdigit : ∀ n < 16, (Nat.digitChar n != '-') = true := by decide
  have hstandard : "default".toList.all (· != '-') = true := by decide
  have hlimit : (limitChars limit).takeWhile (· != '-') = [] := by
    rw [limitChars]
    split
    · rfl
    · rfl
  rw [toList_folderNameBy, List.takeWhile_append_of_pos, hlimit, List.append_nil]
  exact Basis.fingerprintBy_forall hdigit (List.all_eq_true.mp hstandard) digest basis

/-- Names of folders are put together from names of systems and limits in one way only: the first
`-` is where `limitChars` begins. -/
theorem folderNameBy_inj_iff {basis other : Basis} {x y : NecessitationLimit} :
    folderNameBy digest basis x = folderNameBy digest other y ↔
      basis.fingerprintBy digest = other.fingerprintBy digest ∧ limitChars x = limitChars y := by
  constructor
  · intro heq
    have hfingerprint : basis.fingerprintBy digest = other.fingerprintBy digest := by
      rw [← String.toList_inj, ← takeWhile_folderNameBy basis x, heq, takeWhile_folderNameBy]
    refine ⟨hfingerprint, ?_⟩
    have hchars := congrArg String.toList heq
    rw [toList_folderNameBy, toList_folderNameBy, hfingerprint] at hchars
    exact List.append_cancel_left hchars
  · rintro ⟨hfingerprint, hlimit⟩
    rw [← String.toList_inj, toList_folderNameBy, toList_folderNameBy, hfingerprint, hlimit]

/-- Names by any hash: if `digest` tells two listings apart, then the folders have the same name
exactly if the systems are the same and the limits mean the `Same`. -/
theorem folderNameBy_eq_iff {basis other : Basis}
    (hhash : digest.hex basis.listing.toUTF8.toList = digest.hex other.listing.toUTF8.toList →
      basis.listing = other.listing) (x y : NecessitationLimit) :
    folderNameBy digest basis x = folderNameBy digest other y ↔ basis = other ∧ x.Same y := by
  rw [folderNameBy_inj_iff, limitChars_eq_iff, Basis.fingerprintBy_eq_iff hhash]

/-- The folders of two systems have the same name exactly if the systems list as many axioms, which
are pairwise the same up to renaming (`Variant`), and the limits mean the `Same`; it makes no
difference whether the axioms are taken as they were written (`Lists`) or as the systems keep them.
Opened below the same folder, the stores are at the same place exactly if the names are the same.
Hashes of fixed size cannot tell apart all listings there are, so this is asked of the two at hand
(`hhash`). -/
theorem folderName_eq_iff {basis other : Basis} {written written' : List Formula}
    (hbasis : basis.Lists written) (hother : other.Lists written')
    (hhash : Blake3.hex basis.listing.toUTF8.toList = Blake3.hex other.listing.toUTF8.toList →
      basis.listing = other.listing) (x y : NecessitationLimit) :
    (folderName basis x = folderName other y ↔
      List.Forall₂ Formula.Variant basis.formulas other.formulas ∧ x.Same y) ∧
    (List.Forall₂ Formula.Variant basis.formulas other.formulas ↔
      List.Forall₂ Formula.Variant written written') ∧
    ∀ dir t t' u u' store store', openIn dir basis x t = (.ok store, t') →
      openIn dir other y u = (.ok store', u') →
        (store.root.location = store'.root.location ↔ folderName basis x = folderName other y) := by
  have hformulas : List.Forall₂ Formula.Variant basis.formulas other.formulas ↔ basis = other := by
    rw [← Basis.map_canonical_eq_iff, hbasis.map_canonical, hother.map_canonical, Basis.formulas_inj]
  refine ⟨?_, ?_, fun dir t t' u u' store store' hopen hopen' => ?_⟩
  · rw [← folderNameBy_blake3, ← folderNameBy_blake3, hformulas]
    exact folderNameBy_eq_iff hhash x y
  · rw [hformulas, hbasis.eq_iff hother]
  · have hlocation : ∀ {basis limit t t'} {store : Store}, openIn dir basis limit t = (.ok store, t') →
        store.root.location = dir.location ++ [folderName basis limit] := by
      intro basis limit t t' store hopen
      rw [eq_of_openIn hopen, Path.location_join _ (isName_folderName basis limit)]
    rw [hlocation hopen, hlocation hopen', List.append_cancel_left_eq, List.singleton_inj]

/-- The systems of two lists have the same folder if the lists differ in the names of variables
only, and another one if they differ in the order of the axioms. -/
theorem folderName_eq_iff_renamed :
    ∃ basis renamed reordered, Basis.parseList "CpCqp,Cpp" = .ok basis ∧
      Basis.parseList "C7C3.7, Cqq" = .ok renamed ∧ Basis.parseList "Cpp,CpCqp" = .ok reordered ∧
      folderName basis (.bounded 2) = folderName renamed (.bounded 2) ∧
      folderName basis (.bounded 2) ≠ folderName reordered (.bounded 2) := by
  let first : Formula := .implies (.var 0) (.implies (.var 1) (.var 0))
  let second : Formula := .implies (.var 0) (.var 0)
  let first' : Formula := .implies (.var 7) (.implies (.var 3) (.var 7))
  have hbasis : Basis.Lists ⟨[first, second]⟩ [first, second] :=
    @Basis.Lists.parsed "CpCqp,Cpp" _ _ (by decide) (by decide)
  have hrenamed : Basis.Lists ⟨[first, second]⟩ [first', second] :=
    @Basis.Lists.parsed "C7C3.7, Cqq" _ _ (by decide) (by decide)
  have hreordered : Basis.Lists ⟨[second, first]⟩ [second, first] :=
    @Basis.Lists.parsed "Cpp,CpCqp" _ _ (by decide) (by decide)
  have hvariants : List.Forall₂ Formula.Variant [first, second] [first', second] :=
    .cons (Formula.variant_iff.mpr (by decide)) (.cons (Formula.variant_iff.mpr rfl) .nil)
  refine ⟨⟨[first, second]⟩, ⟨[first, second]⟩, ⟨[second, first]⟩, by decide, by decide, by decide, ?_, ?_⟩
  · obtain ⟨hname, hwritten, -⟩ :=
      folderName_eq_iff hbasis hrenamed (fun _ => rfl) (.bounded 2) (.bounded 2)
    exact hname.mpr ⟨hwritten.mpr hvariants, .inr (.inr ⟨2, rfl, rfl⟩)⟩
  · have hhash : Blake3.hex (Basis.listing ⟨[first, second]⟩).toUTF8.toList ≠
        Blake3.hex (Basis.listing ⟨[second, first]⟩).toUTF8.toList := by
      decide +kernel
    obtain ⟨hname, -, -⟩ :=
      folderName_eq_iff hbasis hreordered (fun heq => absurd heq hhash) (.bounded 2) (.bounded 2)
    intro heq
    obtain ⟨hvariant, -⟩ := List.forall₂_cons.mp (hname.mp heq).1
    exact absurd (Formula.variant_iff.mp hvariant) (by decide)

end Store

end Detachment

import Mathlib.Data.List.Basic
import Detachment.Proofs.PolishReading
import Detachment.Storage.Store

/-! # Texts in a store

What a store writes into its files is read back line by line.

* `Contents.lines_ofText` cuts a text into the lines that it was put together from.
* `Store.parseFile_representatives` reads representatives back, with their conclusions or without.
* `Metadata.parse_ofBasis` reads the run information of a new store back. -/

namespace Detachment

/-- Characters that stand on one line: neither a line feed nor a carriage return is among them. -/
def Text.IsLine (s : List Char) : Prop :=
  ∀ c ∈ s, c ≠ '\n' ∧ c ≠ '\r'

instance (s : List Char) : Decidable (Text.IsLine s) :=
  List.decidableBAll _ s

/-- Two parts of a line are a line. -/
theorem Text.IsLine.append {s t : List Char} (hs : IsLine s) (ht : IsLine t) : IsLine (s ++ t) :=
  fun c hc => (List.mem_append.mp hc).elim (hs c) (ht c)

/-- Lines with a separator between each two (`intercalate`) stand on one line. -/
theorem Text.IsLine.intercalate {separator : List Char} (h : IsLine separator) {parts : List (List Char)}
    (hparts : ∀ part ∈ parts, IsLine part) : IsLine (separator.intercalate parts) := by
  induction parts with
  | nil => exact fun c hc => absurd hc List.not_mem_nil
  | cons part parts ih =>
    obtain ⟨hpart, hparts⟩ := List.forall_mem_cons.mp hparts
    cases parts with
    | nil => simpa using hpart
    | cons next parts =>
      rw [List.intercalate_cons_cons]
      exact (hpart.append h).append (ih hparts)

/-- A digit does not end a line. -/
theorem Text.ne_of_isDigit {c : Char} (h : c.isDigit = true) : c ≠ '\n' ∧ c ≠ '\r' := by
  constructor
  · rintro rfl
    cases h
  · rintro rfl
    cases h

/-! ## Lines -/

namespace Contents

/-- Characters without marks are text, which `text?` gives back. -/
theorem text?_map_some (s : List Char) : text? (s.map some) = some s := by
  induction s with
  | nil => rfl
  | cons c s ih => rw [List.map_cons, text?, ih, Option.map_some]

/-- Characters without a line feed are added to the part of a line that `linesAfter` has read
before. -/
theorem linesAfter_append {s : List Char} (h : '\n' ∉ s) (line rest : Contents) :
    linesAfter line (s.map some ++ rest) = linesAfter ((s.map some).reverse ++ line) rest := by
  induction s generalizing line with
  | nil => rfl
  | cons c s ih =>
    obtain ⟨hc, hs⟩ := List.ne_and_not_mem_of_not_mem_cons h
    have hnext : linesAfter line (some c :: (s.map some ++ rest)) =
        linesAfter (some c :: line) (s.map some ++ rest) := by
      rw [linesAfter]
      exact fun heq => hc (Option.some.inj heq).symm
    rw [List.map_cons, List.cons_append, hnext, ih hs, List.reverse_cons, List.append_assoc]
    rfl

/-- What stands before a line feed is one of the `lines`, if it does not end in a carriage
return. -/
theorem lines_feed {s : List Char} (h : '\n' ∉ s) (hlast : s.getLast? ≠ some '\r') (rest : Contents) :
    lines (s.map some ++ some '\n' :: rest) = s.map some :: lines rest := by
  have hreturn : dropReturn (s.map some).reverse = (s.map some).reverse := by
    unfold dropReturn
    split
    · next rest' heq =>
      -- The last character comes first in the reversed line.
      have hhead : (s.map some).getLast? = some (some '\r') := by
        rw [← List.head?_reverse, heq, List.head?_cons]
      rw [List.getLast?_map, Option.map_eq_some_iff] at hhead
      obtain ⟨c, hc, hreturn⟩ := hhead
      exact absurd (Option.some.inj hreturn ▸ hc) hlast
    · rfl
  rw [lines, linesAfter_append h, List.append_nil, linesAfter, hreturn, List.reverse_reverse]
  rfl

/-- The first line of contents, if it `IsLine`. -/
theorem lines_cons {s : List Char} (h : Text.IsLine s) (rest : Contents) :
    lines (s.map some ++ some '\n' :: rest) = s.map some :: lines rest := by
  refine lines_feed (fun hmem => (h _ hmem).1 rfl) (fun hlast => ?_) rest
  exact (h _ (List.mem_of_getLast? hlast)).2 rfl

/-- A text is cut by `lines` into those that it was put together from. -/
theorem lines_ofText {texts : List String} (h : ∀ s ∈ texts, Text.IsLine s.toList) :
    lines (ofText (String.join (texts.map (· ++ "\n")))) = texts.map ofText := by
  induction texts with
  | nil => rfl
  | cons s texts ih =>
    obtain ⟨hs, hrest⟩ := List.forall_mem_cons.mp h
    have hcons : ofText (String.join ((s :: texts).map (· ++ "\n"))) =
        s.toList.map some ++ some '\n' :: ofText (String.join (texts.map (· ++ "\n"))) := by
      simp [ofText, String.toList_join]
    rw [hcons, lines_cons hs, ih hrest]
    rfl

end Contents

/-! ## Representatives -/

/-- Prefix notation stands on one line (`Text.IsLine`). -/
theorem Formula.isLine_polish (f : Formula) : Text.IsLine f.polish.toList := by
  rw [toList_polish]
  exact f.polishChars_forall (fun c => Text.ne_of_isDigit) (by decide)
    (fun op => by cases op <;> decide) (fun op => by cases op <;> decide)

namespace Store

/-- Nothing is cut off a text without a colon by `splitColon?`. -/
theorem splitColon?_eq_none {s : List Char} (h : ':' ∉ s) : Metadata.splitColon? s = none := by
  induction s with
  | nil => rfl
  | cons c s ih =>
    obtain ⟨hc, hs⟩ := List.ne_and_not_mem_of_not_mem_cons h
    rw [Metadata.splitColon?, ih hs]
    · rfl
    · exact fun heq => hc heq.symm

/-- A text is cut at its first colon by `splitColon?`. -/
theorem splitColon?_append {s : List Char} (h : ':' ∉ s) (rest : List Char) :
    Metadata.splitColon? (s ++ ':' :: rest) = some (s, rest) := by
  induction s with
  | nil => rfl
  | cons c s ih =>
    obtain ⟨hc, hs⟩ := List.ne_and_not_mem_of_not_mem_cons h
    rw [List.cons_append, Metadata.splitColon?, ih hs]
    · rfl
    · exact fun heq => hc heq.symm

/-- A proof that can stand in a file for a length. -/
structure Writable (length : Nat) (proof : String) : Prop where
  /-- It has the length. -/
  size_eq : proof.utf8ByteSize = length
  /-- It stands on one line. -/
  isLine : Text.IsLine proof.toList
  /-- It can be told from a conclusion behind it. -/
  no_colon : ':' ∉ proof.toList

/-- What is stored of a proof and its conclusion: the conclusion only if asked for. -/
def stored (withConclusion : Bool) (entry : String × Formula) : StoredProof :=
  ⟨entry.1, if withConclusion then some entry.2 else none⟩

/-- The line of a proof (`representativeLine`) has no line break. -/
theorem isLine_representativeLine {length : Nat} {entry : String × Formula}
    (h : Writable length entry.1) (withConclusion : Bool) :
    Text.IsLine (representativeLine withConclusion entry).toList := by
  unfold representativeLine
  split
  · rw [String.toList_append, String.toList_append]
    exact (h.isLine.append (by decide)).append entry.2.isLine_polish
  · exact h.isLine

/-- A line is read (`parseLine`) as the proof that was written, and tells whether conclusions are
stored. -/
theorem parseLine_representativeLine {length : Nat} (hlength : 1 ≤ length)
    {withConclusion : Bool} {layout : Option Bool} {entry : String × Formula}
    (hlayout : layout.getD withConclusion = withConclusion) (h : Writable length entry.1)
    (hfits : withConclusion = true → entry.2.Fits) :
    parseLine length layout (representativeLine withConclusion entry).toList =
      .ok (stored withConclusion entry, withConclusion) := by
  obtain ⟨proof, conclusion⟩ := entry
  have hne : proof.isEmpty = false := by
    rw [Bool.eq_false_iff, Ne, String.isEmpty_iff]
    rintro rfl
    have hzero : (0 : Nat) = length := h.size_eq
    omega
  have hsize : ¬proof.utf8ByteSize ≠ length := not_not.mpr h.size_eq
  cases withConclusion with
  | false =>
    have hsplit : Metadata.splitColon? (representativeLine false (proof, conclusion)).toList = none :=
      splitColon?_eq_none h.no_colon
    simp only [parseLine, hsplit]
    simp only [representativeLine, Bool.false_eq_true, if_false, String.ofList_toList, hne, if_neg hsize,
      Option.isSome_none, hlayout, ne_eq, not_true_eq_false]
    rfl
  | true =>
    -- The first colon is the one behind the proof, which has none.
    have hsplit : Metadata.splitColon? (representativeLine true (proof, conclusion)).toList =
        some (proof.toList, conclusion.polishChars) := by
      rw [representativeLine, if_pos rfl, String.toList_append, String.toList_append,
        List.append_assoc, Formula.toList_polish]
      exact splitColon?_append h.no_colon _
    have hparse : Formula.parse (String.ofList conclusion.polishChars) = .ok conclusion :=
      Formula.parse_polish (hfits rfl)
    simp only [parseLine, hsplit, String.ofList_toList, hne, Bool.false_eq_true, if_false, if_neg hsize,
      Option.isSome_some, hlayout, ne_eq, not_true_eq_false, hparse]
    rfl

/-- Representatives are read back (`parseFile`), with their conclusions or without. The induction is
on the entries, with any layout that the lines before have told. -/
theorem parseFile_representatives {length : Nat} (hlength : 1 ≤ length) {withConclusions : Bool}
    {entries : List (String × Formula)} (h : ∀ e ∈ entries, Writable length e.1)
    (hfits : withConclusions = true → ∀ e ∈ entries, e.2.Fits) (path : Path) :
    parseFile path length 1 none
      (Contents.ofText (representativesText withConclusions entries)).lines =
        .ok (entries.map (stored withConclusions)) := by
  have hlines : (Contents.ofText (representativesText withConclusions entries)).lines =
      (entries.map (representativeLine withConclusions)).map Contents.ofText := by
    rw [← Contents.lines_ofText, List.map_map]
    · rfl
    · intro s hs
      obtain ⟨e, he, rfl⟩ := List.mem_map.mp hs
      exact isLine_representativeLine (h e he) _
  rw [hlines]
  -- The first line leaves the layout open, and every line agrees with those before it.
  have hparse : ∀ number (layout : Option Bool), layout.getD withConclusions = withConclusions →
      parseFile path length number layout
        ((entries.map (representativeLine withConclusions)).map Contents.ofText) =
          .ok (entries.map (stored withConclusions)) := by
    clear hlines
    induction entries with
    | nil => exact fun _ _ _ => rfl
    | cons e entries ih =>
      intro number layout hlayout
      obtain ⟨he, hrest⟩ := List.forall_mem_cons.mp h
      have hfirst := parseLine_representativeLine hlength hlayout he
        fun hwith => (List.forall_mem_cons.mp (hfits hwith)).1
      have hnext := ih hrest (fun hwith => (List.forall_mem_cons.mp (hfits hwith)).2) (number + 1)
        (some withConclusions) rfl
      rw [List.map_cons, List.map_cons, parseFile, Contents.ofText, Contents.text?_map_some]
      dsimp only
      rw [hfirst]
      dsimp only
      rw [hnext]
      rfl
  exact hparse 1 none rfl

end Store

/-! ## Run information -/

namespace Formula

/-- Infix notation has digits, signs and parentheses, so what holds of these holds of all its
characters. -/
theorem infixOnto_forall {P : Char → Prop} (hdigit : ∀ c, c.isDigit = true → P c) (hleft : P '(')
    (hright : P ')') (hmodifier : ∀ op : Modifier, P op.sign)
    (hconnective : ∀ op : Connective, P op.sign) (f : Formula) {rest : List Char}
    (hrest : ∀ c ∈ rest, P c) : ∀ c ∈ f.infixOnto rest, P c := by
  induction f generalizing rest with
  | var id =>
    intro c hc
    exact (List.mem_append.mp hc).elim (fun hc => hdigit c (Text.isDigit_of_mem_digits hc)) (hrest c)
  | unary op f ih => exact List.forall_mem_cons.mpr ⟨hmodifier op, ih hrest⟩
  | binary op f g ihf ihg =>
    have hsecond := ihg (List.forall_mem_cons.mpr ⟨hright, hrest⟩)
    exact List.forall_mem_cons.mpr
      ⟨hleft, ihf (List.forall_mem_cons.mpr ⟨hconnective op, hsecond⟩)⟩

/-- Infix notation stands on one line (`Text.IsLine`). It consists of digits, parentheses and signs
(`infixOnto_forall`). -/
theorem isLine_infixText (f : Formula) : Text.IsLine f.infixText.toList := by
  have honto : ∀ (f : Formula) {rest : List Char}, Text.IsLine rest →
      Text.IsLine (f.infixOnto rest) := fun f _ =>
    f.infixOnto_forall (fun c => Text.ne_of_isDigit) (by decide) (by decide)
      (fun op => by cases op <;> decide) (fun op => by cases op <;> decide)
  have hnil : Text.IsLine [] := by decide
  cases f with
  | var id => exact (String.toList_ofList (l := infixOnto (var id) [])).symm ▸ honto _ hnil
  | unary op f => exact (String.toList_ofList (l := infixOnto (unary op f) [])).symm ▸ honto _ hnil
  | binary op f g =>
    rw [infixText, String.toList_ofList]
    have hsign : op.sign ≠ '\n' ∧ op.sign ≠ '\r' := by cases op <;> decide
    exact honto f (List.forall_mem_cons.mpr ⟨hsign, honto g hnil⟩)

end Formula

/-! ## Hashes -/

namespace Blake3

/-- A hash `hex bytes` has 64 digits: eight for each of its eight words. -/
theorem length_hex (bytes : List UInt8) : (hex bytes).toList.length = 64 := by
  have hword : ∀ w, (hexWord w).length = 8 := fun w => rfl
  rw [hex, String.toList_ofList, List.length_flatMap, List.map_congr_left fun w _ => hword w,
    List.map_const', Array.length_toList, hashWords, Block.compress, Array.size_map, Array.size_range]
  rfl

/-- The digits of a hash `hex bytes` are hexadecimal ones. -/
theorem exists_digit {bytes : List UInt8} {c : Char} (h : c ∈ (hex bytes).toList) :
    ∃ n < 16, c = Nat.digitChar n := by
  have hbyte : ∀ byte, ∀ c ∈ hexByte byte, ∃ n < 16, c = Nat.digitChar n := by
    intro byte
    refine List.forall_mem_cons.mpr ⟨⟨_, Nat.mod_lt _ (by decide), rfl⟩, ?_⟩
    exact List.forall_mem_singleton.mpr ⟨_, Nat.mod_lt _ (by decide), rfl⟩
  rw [hex, String.toList_ofList] at h
  obtain ⟨word, -, hc⟩ := List.mem_flatMap.mp h
  rw [hexWord, List.mem_append, List.mem_append, List.mem_append] at hc
  rcases hc with ((hc | hc) | hc) | hc
  all_goals exact hbyte _ c hc

end Blake3

/-- A hash whose values are written with 64 hexadecimal digits. -/
structure Digest where
  /-- The value of some bytes. -/
  hex : List UInt8 → String
  /-- It has 64 digits. -/
  length_hex : ∀ bytes, (hex bytes).toList.length = 64
  /-- They are hexadecimal digits. -/
  exists_digit : ∀ bytes, ∀ c ∈ (hex bytes).toList, ∃ n < 16, c = Nat.digitChar n

/-- The hash `Blake3.hex`, which systems are named by. -/
def Digest.blake3 : Digest where
  hex := Blake3.hex
  length_hex := Blake3.length_hex
  exists_digit _ _ := Blake3.exists_digit

namespace Basis

/-- The name of a system by any hash; `fingerprint` is `fingerprintBy .blake3`
(`fingerprintBy_blake3`). -/
def fingerprintBy (digest : Digest) (basis : Basis) : String :=
  if basis = standard then "default" else digest.hex basis.listing.toUTF8.toList

/-- The hash of stores gives the names that systems have. -/
theorem fingerprintBy_blake3 (basis : Basis) : basis.fingerprintBy .blake3 = basis.fingerprint := rfl

/-- The names of axioms stand on one line (`Text.IsLine`). -/
theorem isLine_symbols : Text.IsLine symbols := by
  decide

/-- The line of an axiom in `describe` starts with its name. -/
theorem exists_of_mem_describe {basis : Basis} {line : String} (h : line ∈ basis.describe) :
    ∃ symbol ∈ symbols, ∃ f : Formula, line.toList =
      symbol :: (": ".toList ++ f.polish.toList ++ " = ".toList ++ f.infixText.toList) := by
  obtain ⟨⟨symbol, f⟩, hmem, rfl⟩ := List.mem_map.mp h
  refine ⟨symbol, (List.of_mem_zip hmem).1, f, ?_⟩
  simp only [String.toList_append, String.toList_singleton, List.append_assoc, List.cons_append,
    List.nil_append]

/-- The line of an axiom in `describe` does not start as a line with counters, with `#`. -/
theorem ne_of_mem_describe {basis : Basis} {line : String} (h : line ∈ basis.describe) :
    ∃ c rest, line.toList = c :: rest ∧ c ≠ '#' := by
  obtain ⟨symbol, hsymbol, f, hchars⟩ := exists_of_mem_describe h
  have hsign : '#' ∉ symbols := by decide
  exact ⟨symbol, _, hchars, fun heq => hsign (heq ▸ hsymbol)⟩

/-- The line of an axiom in `describe` has no line break. -/
theorem isLine_of_mem_describe {basis : Basis} {line : String} (h : line ∈ basis.describe) :
    Text.IsLine line.toList := by
  obtain ⟨symbol, hsymbol, f, hline⟩ := exists_of_mem_describe h
  have hcolon : Text.IsLine ": ".toList := by decide
  have hequals : Text.IsLine " = ".toList := by decide
  rw [hline]
  exact List.forall_mem_cons.mpr ⟨isLine_symbols symbol hsymbol,
    ((hcolon.append f.isLine_polish).append hequals).append f.isLine_infixText⟩

/-- What holds of hexadecimal digits (`Digest.exists_digit`) and of the name of the standard system
holds of the names `fingerprintBy digest` of all systems. -/
theorem fingerprintBy_forall {P : Char → Prop} (hdigit : ∀ n < 16, P (Nat.digitChar n))
    (hstandard : ∀ c ∈ "default".toList, P c) (digest : Digest) (basis : Basis) :
    ∀ c ∈ (basis.fingerprintBy digest).toList, P c := by
  rw [fingerprintBy]
  split
  · exact hstandard
  · intro c hc
    obtain ⟨n, hn, rfl⟩ := digest.exists_digit _ c hc
    exact hdigit n hn

/-- The case of `fingerprintBy_forall` for the names that systems have. -/
theorem fingerprint_forall {P : Char → Prop} (hdigit : ∀ n < 16, P (Nat.digitChar n))
    (hstandard : ∀ c ∈ "default".toList, P c) (basis : Basis) :
    ∀ c ∈ basis.fingerprint.toList, P c := by
  rw [← fingerprintBy_blake3]
  exact fingerprintBy_forall hdigit hstandard .blake3 basis

/-- The name of a system (`fingerprint`) has no line break. -/
theorem isLine_fingerprint (basis : Basis) : Text.IsLine basis.fingerprint.toList := by
  have hdigit : ∀ n < 16, Nat.digitChar n ≠ '\n' ∧ Nat.digitChar n ≠ '\r' := by decide
  have hstandard : Text.IsLine "default".toList := by decide
  exact fingerprint_forall hdigit hstandard basis

end Basis

namespace Metadata

/-- What follows a word that a line starts with (`after?`). -/
theorem after?_append (mark text : String) : after? mark (mark ++ text).toList = some text.toList := by
  rw [after?, String.toList_append, if_pos, List.drop_left]
  exact List.isPrefixOf_iff_prefix.mpr (List.prefix_append _ _)

/-- The lines of axioms are taken over by `parseLines`, unless they look like counters. By induction
on the lines, none of which starts with a number sign. -/
theorem parseLines_axioms (path : Path) {lines : List String}
    (h : ∀ line ∈ lines, ∃ c rest, line.toList = c :: rest ∧ c ≠ '#') (number : Nat) (m : Metadata)
    (rest : List (List Char)) :
    parseLines path number m (lines.map String.toList ++ rest) =
      parseLines path (number + lines.length) { m with axioms := m.axioms ++ lines } rest := by
  induction lines generalizing number m with
  | nil =>
    rw [List.append_nil]
    rfl
  | cons line lines ih =>
    obtain ⟨⟨c, tail, hline, hc⟩, hrest⟩ := List.forall_mem_cons.mp h
    have hafter : ∀ mark : String, mark.toList.head? = some '#' → after? mark line.toList = none := by
      intro mark hmark
      obtain ⟨chars, hchars⟩ := List.head?_eq_some_iff.mp hmark
      rw [after?, if_neg]
      rw [hchars, hline, List.isPrefixOf_iff_prefix, List.cons_prefix_cons]
      exact fun hprefix => hc hprefix.1.symm
    have hne : line.toList.isEmpty = false := by rw [hline]; rfl
    rw [List.map_cons, List.cons_append, parseLines, hafter iterationsMark (by decide)]
    dsimp only
    rw [hafter removalsMark (by decide)]
    dsimp only
    rw [hne, if_neg Bool.false_ne_true, ih hrest, String.ofList_toList, List.append_assoc,
      List.length_cons, Nat.add_assoc, Nat.add_comm 1]
    rfl

/-- Run information is read back from its lines (`renderLines`), if its counters are. The lines are
gone through in order: the name in brackets, the axioms, and the two lines of counters. -/
theorem parse_renderLines (path : Path) {m : Metadata}
    (haxioms : ∀ line ∈ m.axioms, ∃ c rest, line.toList = c :: rest ∧ c ≠ '#')
    (hiterations : parseCounters (countersText m.iterations).toList = .ok m.iterations)
    (hremovals : parseCounters (countersText m.removals).toList = .ok m.removals) :
    parse path (m.renderLines.map String.toList) = .ok m := by
  have hfirst : bracketed? ("[" ++ m.hash ++ "]").toList = some m.hash.toList := by
    have hchars : ("[" ++ m.hash ++ "]").toList = '[' :: (m.hash.toList ++ [']']) := by
      rw [String.toList_append, String.toList_append]
      rfl
    rw [bracketed?, hchars, if_pos, List.tail_cons, List.dropLast_concat]
    exact ⟨rfl, by rw [← List.cons_append, List.getLast?_concat]⟩
  have hother : after? iterationsMark (removalsMark ++ countersText m.removals).toList = none := by
    rw [after?, if_neg]
    rw [String.toList_append, List.isPrefixOf_iff_prefix]
    -- The words differ in their second character.
    rintro ⟨rest, hrest⟩
    have hsecond : (iterationsMark.toList ++ rest)[1]? =
        (removalsMark.toList ++ (countersText m.removals).toList)[1]? := congrArg (·[1]?) hrest
    rw [List.getElem?_append_left (by decide), List.getElem?_append_left (by decide)] at hsecond
    exact absurd hsecond (by decide)
  rw [renderLines, List.map_append, List.map_cons, List.cons_append, parse, hfirst]
  dsimp only
  rw [parseLines_axioms path haxioms, List.map_cons, List.map_cons, List.map_nil, parseLines,
    after?_append]
  dsimp only
  rw [hiterations]
  dsimp only
  rw [parseLines, hother]
  dsimp only
  rw [after?_append]
  dsimp only
  rw [hremovals]
  dsimp only
  rw [parseLines, String.ofList_toList, List.nil_append]

/-- The run information of a new store (`ofBasis`) is read back. -/
theorem parse_ofBasis (path : Path) (basis : Basis) :
    parse path ((ofBasis basis).renderLines.map String.toList) = .ok (ofBasis basis) := by
  have hcounters : parseCounters (countersText ∅).toList = .ok ∅ := rfl
  exact parse_renderLines path (fun _ => Basis.ne_of_mem_describe) hcounters hcounters

/-- Counters (`countersText`) stand on one line. They consist of digits, colons and commas. -/
theorem isLine_countersText (counters : Counters) : Text.IsLine (countersText counters).toList := by
  have hcomma : Text.IsLine ",".toList := by decide
  rw [countersText, Text.join, String.toList_intercalate]
  refine hcomma.intercalate fun part hpart => ?_
  rw [List.map_map, List.mem_map] at hpart
  obtain ⟨counter, -, rfl⟩ := hpart
  have hdigits : ∀ n, Text.IsLine (Text.digits n) :=
    fun n c hc => Text.ne_of_isDigit (Text.isDigit_of_mem_digits hc)
  have hchars : (counterText counter).toList =
      Text.digits counter.1 ++ ':' :: Text.digits counter.2 := String.toList_ofList
  rw [Function.comp, hchars]
  exact (hdigits _).append (List.forall_mem_cons.mpr ⟨by decide, hdigits _⟩)

/-- New run information has the name of the system. -/
@[simp] theorem hash_ofBasis (basis : Basis) : (ofBasis basis).hash = basis.fingerprint := rfl

/-- New run information has the axioms of the system. -/
@[simp] theorem axioms_ofBasis (basis : Basis) : (ofBasis basis).axioms = basis.describe := rfl

/-- Run information about a system stands on lines: each of `renderLines` is one. The name of the
system is one by `isLine_fingerprint`, and its axioms are by `isLine_of_mem_describe`. -/
theorem isLine_of_mem_renderLines {m : Metadata} {basis : Basis} (hhash : m.hash = basis.fingerprint)
    (haxioms : m.axioms = basis.describe) {line : String} (h : line ∈ m.renderLines) :
    Text.IsLine line.toList := by
  rw [renderLines, List.cons_append, List.mem_cons, List.mem_append] at h
  rcases h with rfl | haxiom | hcounters
  · have hleft : Text.IsLine "[".toList := by decide
    have hright : Text.IsLine "]".toList := by decide
    rw [String.toList_append, String.toList_append, hhash]
    exact (hleft.append basis.isLine_fingerprint).append hright
  · rw [haxioms] at haxiom
    exact Basis.isLine_of_mem_describe haxiom
  · have hiterations : Text.IsLine iterationsMark.toList := by decide
    have hremovals : Text.IsLine removalsMark.toList := by decide
    rcases List.mem_cons.mp hcounters with rfl | hlast
    · rw [String.toList_append]
      exact hiterations.append (isLine_countersText _)
    · rw [List.mem_singleton.mp hlast, String.toList_append]
      exact hremovals.append (isLine_countersText _)

end Metadata

/-- The lines of a file are text (`textLines?`) if they were written as text. -/
theorem Store.textLines?_ofText {texts : List String} (h : ∀ s ∈ texts, Text.IsLine s.toList) :
    textLines? (.ofText (String.join (texts.map (· ++ "\n")))) = some (texts.map String.toList) := by
  rw [textLines?, Contents.lines_ofText h]
  clear h
  induction texts with
  | nil => rfl
  | cons s texts ih =>
    rw [List.map_cons, List.mapM_cons, Contents.ofText, Contents.text?_map_some, ih]
    rfl

end Detachment

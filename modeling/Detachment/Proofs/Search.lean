import Mathlib.Data.List.Basic
import Detachment.Candidates.Search
import Detachment.Proofs.Lists

/-! # What the search finds

The pushdown search hands over the texts that a plain recursion over the slots lists, in the same
order, until the receiver stops it.

* `Grammar.deliver_of_letsThrough` and `Grammar.deliver_of_stop` say what a receiver gets that lets
  all texts through, or stops inside one of them.
* `Grammar.completions` lists the texts that a row of slots stands for.
* `Grammar.remaining` lists the texts that a search under way stands for, and `Grammar.search_eq`
  says that it delivers these.
* `Grammar.fillings_known`, `Grammar.fillings_longer` list the texts of one slot from those of the
  slots below it.
* `Grammar.generate_eq` lists what a request for several lengths delivers, and
  `Grammar.candidates_eq` all of it. -/

namespace Detachment.Grammar

variable {β : Type}

/-! ## Delivering texts -/

/-- Hand texts over in order until the receiver says that this has to stop; `count` goes along. -/
def deliver (receive : β → String → β × Bool) (state : β) (count : Nat) :
    List String → SearchResult β
  | [] => ⟨state, count, false⟩
  | text :: texts =>
    match receive state text with
    | (state, true) => ⟨state, count + 1, true⟩
    | (state, false) => deliver receive state (count + 1) texts

/-- Texts are delivered one part after the other, the second only if the first went through
(`stopped`). -/
theorem deliver_append (receive : β → String → β × Bool) (state : β) (count : Nat)
    (xs ys : List String) :
    deliver receive state count (xs ++ ys) =
      if (deliver receive state count xs).stopped then deliver receive state count xs
      else deliver receive (deliver receive state count xs).state
        (deliver receive state count xs).count ys := by
  induction xs generalizing state count with
  | nil => simp [deliver]
  | cons text texts ih =>
    rw [List.cons_append, deliver, deliver]
    rcases receive state text with ⟨next, _ | _⟩
    · exact ih next (count + 1)
    · rfl

section receive

variable {receive : β → String → β × Bool} {state : β} {count : Nat}

/-- What a receiver has made of texts that it got one after the other, whether it wanted to stop or
not. -/
def received (receive : β → String → β × Bool) (state : β) (texts : List String) : β :=
  texts.foldl (fun state text => (receive state text).1) state

/-- A receiver that gets texts one after the other stops inside none of them. -/
def LetsThrough (receive : β → String → β × Bool) (state : β) (texts : List String) : Prop :=
  ∀ before text after, texts = before ++ text :: after →
    (receive (received receive state before) text).2 = false

/-- Nothing is let through by everyone. -/
theorem letsThrough_nil : LetsThrough receive state [] := by
  intro before text after h
  exact absurd h.symm (List.append_ne_nil_of_right_ne_nil _ (List.cons_ne_nil _ _))

/-- Texts are let through one at a time: `LetsThrough` goes on from the state after the first. -/
theorem letsThrough_cons {text : String} {texts : List String} :
    LetsThrough receive state (text :: texts) ↔
      (receive state text).2 = false ∧ LetsThrough receive (receive state text).1 texts := by
  constructor
  · intro h
    refine ⟨h [] text texts rfl, fun before later after htexts => ?_⟩
    exact h (text :: before) later after (by rw [htexts, List.cons_append])
  · rintro ⟨hfirst, hrest⟩ (_ | ⟨first, before⟩) later after htexts
    · obtain ⟨rfl, -⟩ := List.cons.inj htexts
      exact hfirst
    · obtain ⟨rfl, hbefore⟩ := List.cons.inj htexts
      exact hrest before later after hbefore

/-- A receiver that lets all texts through (`LetsThrough`) gets all of them, and they are
counted. -/
theorem deliver_of_letsThrough {texts : List String} (h : LetsThrough receive state texts) :
    deliver receive state count texts =
      ⟨received receive state texts, count + texts.length, false⟩ := by
  induction texts generalizing state count with
  | nil => rfl
  | cons text texts ih =>
    obtain ⟨hfirst, hrest⟩ := letsThrough_cons.mp h
    have hreceive : receive state text = ((receive state text).1, false) := Prod.ext rfl hfirst
    rw [deliver, hreceive]
    show deliver receive (receive state text).1 (count + 1) texts = _
    rw [ih hrest, List.length_cons, Nat.add_assoc, Nat.add_comm 1]
    rfl

/-- A receiver that stops inside a text has got it, and gets nothing after it: `deliver` counts up
to this text. -/
theorem deliver_of_stop {before after : List String} {text : String}
    (h : LetsThrough receive state before)
    (hstop : (receive (received receive state before) text).2 = true) :
    deliver receive state count (before ++ text :: after) =
      ⟨received receive state (before ++ [text]), count + before.length + 1, true⟩ := by
  have hlast : receive (received receive state before) text =
      (received receive state (before ++ [text]), true) := by
    refine Prod.ext ?_ hstop
    rw [received, received, List.foldl_append]
    rfl
  rw [deliver_append, deliver_of_letsThrough h]
  show deliver receive (received receive state before) _ (text :: after) = _
  rw [deliver, hlast]

/-- A receiver that never stops gets every text: `deliver` is a fold. -/
theorem deliver_of_forall {note : β → String → β}
    (h : ∀ state text, receive state text = (note state text, false)) (texts : List String) :
    deliver receive state count texts =
      ⟨texts.foldl note state, count + texts.length, false⟩ := by
  have hthrough : LetsThrough receive state texts := fun before text after _ => by rw [h]
  rw [deliver_of_letsThrough hthrough, received]
  simp only [h]

end receive

/-! ## Completions -/

/-- The texts that slots in a row stand for, in order: the first slot is replaced by each of its
`expansions`. The recursion is on the `weight` of the slots. -/
def completions (g : Grammar) : List Pending → List String
  | [] => [""]
  | p :: rest =>
    (g.expansions p).attach.flatMap fun e =>
      (g.completions (e.1.pending ++ rest)).map (e.1.text ++ ·)
termination_by pending => weight pending
decreasing_by
  have := weight_expansions_lt e.2
  simp only [weight_append, weight_cons]
  omega

/-- No slots stand for the empty text. -/
@[simp] theorem completions_nil (g : Grammar) : g.completions [] = [""] := by
  rw [completions]

/-- The first slot is replaced first, by each of its `expansions` in turn. -/
theorem completions_cons (g : Grammar) (p : Pending) (rest : List Pending) :
    g.completions (p :: rest) =
      (g.expansions p).flatMap fun e =>
        (g.completions (e.pending ++ rest)).map (e.text ++ ·) := by
  rw [completions, List.flatMap_attach (g.expansions p) fun e =>
    (g.completions (e.pending ++ rest)).map (e.text ++ ·)]

/-- Slots in a row are filled independently of each other: `completions` of both rows are
combined. -/
theorem completions_append (g : Grammar) (ps qs : List Pending) :
    g.completions (ps ++ qs) =
      (g.completions ps).flatMap fun x => (g.completions qs).map (x ++ ·) := by
  -- A replacement may put more slots in the row, but only lighter ones.
  induction hweight : weight ps using Nat.strongRecOn generalizing ps with
  | _ _ ih =>
    cases ps with
    | nil => simp
    | cons p rest =>
      rw [List.cons_append, completions_cons, completions_cons, List.flatMap_assoc]
      refine List.flatMap_congr fun e he => ?_
      have hlt : weight (e.pending ++ rest) < weight (p :: rest) := by
        rw [weight_append, weight_cons]
        exact Nat.add_lt_add_right (weight_expansions_lt he) _
      rw [← List.append_assoc, ih _ (hweight ▸ hlt) _ rfl, List.flatMap_map, List.map_flatMap]
      simp only [List.map_map, Function.comp_def, String.append_assoc]

/-! ## What a search has left to deliver -/

/-- The texts that choices stand for, in the order in which they are tried: what is `untried`,
followed by what stood behind the choice. -/
def outstanding (g : Grammar) (frames : List Frame) : List String :=
  frames.flatMap fun f =>
    f.untried.flatMap fun e =>
      (g.completions (e.pending ++ f.rest)).map (String.ofList f.text.reverse ++ e.text ++ ·)

/-- The texts that a search under way stands for: what its slots stand for behind the text so far,
then what its choices have left to try. -/
def remaining (g : Grammar) (d : Descent) : List String :=
  (g.completions d.stack).map (d.written ++ ·) ++ g.outstanding d.frames

/-- Later choices are tried after earlier ones. -/
theorem outstanding_append (g : Grammar) (frames frames' : List Frame) :
    g.outstanding (frames ++ frames') = g.outstanding frames ++ g.outstanding frames' :=
  List.flatMap_append

/-- Choices with nothing left to try stand for nothing: `outstanding` is empty. -/
theorem outstanding_eq_nil (g : Grammar) {frames : List Frame} (h : ∀ f ∈ frames, f.untried = []) :
    g.outstanding frames = [] := by
  rw [outstanding, List.flatMap_eq_nil_iff]
  intro f hf
  rw [h f hf, List.flatMap_nil]

/-- Where nothing is left to go back to (`backtrack`), no text is left. -/
theorem outstanding_of_backtrack_none (g : Grammar) {d : Descent} (h : d.backtrack = none) :
    g.outstanding d.frames = [] := by
  rcases Descent.backtrackFrom_spec d.undoable with ⟨-, hall⟩ | ⟨d', _, _, _, _, _, hsome, -⟩
  · exact g.outstanding_eq_nil hall
  · rw [Descent.backtrack, hsome] at h
    cases h

/-- Going back to a choice (`backtrack`) loses no text and repeats none. -/
theorem remaining_backtrack (g : Grammar) {d next : Descent} (h : d.backtrack = some next) :
    g.remaining next = g.outstanding d.frames := by
  rcases Descent.backtrackFrom_spec d.undoable with ⟨hnone, -⟩ |
    ⟨d', done, later, f, e, untried, hsome, hframes, hdone, htext, hstack, hframes'⟩
  · rw [Descent.backtrack, hnone] at h
    cases h
  · rw [Descent.backtrack, hsome] at h
    obtain rfl := Option.some.inj h
    rw [Descent.frames, hframes, outstanding_append, g.outstanding_eq_nil hdone, List.nil_append,
      remaining, Descent.written, htext, hstack, hframes']
    simp [outstanding, String.ofList_append]

/-- Making a choice for the next slot (`choose`) leaves all texts as they were. -/
theorem outstanding_choose (g : Grammar) (d : Descent) (p : Pending) (rest : List Pending)
    (h : d.stack = p :: rest) :
    g.outstanding (d.choose p rest (g.expansions p) h).frames = g.remaining d := by
  rw [Descent.frames_choose, remaining, h, completions_cons, List.map_flatMap]
  simp only [outstanding, List.flatMap_cons, List.map_map, Function.comp_def, String.append_assoc,
    Descent.written]

/-- Where no slot is left, the text is complete and comes first among the `remaining`. -/
theorem remaining_of_nil (g : Grammar) {d : Descent} (h : d.stack = []) :
    g.remaining d = d.written :: g.outstanding d.frames := by
  rw [remaining, h, completions_nil, List.map_singleton, String.append_empty, List.singleton_append]

/-- A search delivers what it stands for, its `remaining` texts. The induction is that of `search`,
and each of its steps keeps `remaining`. -/
theorem search_eq (g : Grammar) (receive : β → String → β × Bool) (state : β) (count : Nat)
    (d : Descent) :
    g.search receive state count d = deliver receive state count (g.remaining d) := by
  fun_induction search g receive state count d with
  | case1 state count d p rest hstack hnext =>
    -- The next slot becomes a choice that stands for the same texts, here for none.
    rw [← outstanding_choose g d p rest hstack, outstanding_of_backtrack_none g hnext, deliver]
  | case2 state count d p rest hstack next hnext ih =>
    rw [ih, ← outstanding_choose g d p rest hstack, remaining_backtrack g hnext]
  | case3 state count d hstack next hreceive =>
    -- The text is complete, and the receiver stops the search or lets it go on.
    rw [remaining_of_nil g hstack, deliver, hreceive]
  | case4 state count d hstack next hreceive hnext =>
    rw [remaining_of_nil g hstack, deliver, hreceive, outstanding_of_backtrack_none g hnext]
    rfl
  | case5 state count d hstack received hreceive next hnext ih =>
    rw [remaining_of_nil g hstack, deliver, hreceive, ih, remaining_backtrack g hnext]

/-! ## One slot -/

/-- The texts that one slot stands for, in order: the `completions` of this slot alone. -/
def fillings (g : Grammar) (p : Pending) : List String :=
  g.completions [p]

/-- The texts that a production stands for after a `run` of necessitations, in order. -/
def renderings (g : Grammar) (run : Nat) : Production → List String
  | .necessitate inner =>
    if g.necessitation.allows (run + 1) then
      (g.fillings ⟨inner, run + 1⟩).map (String.singleton Proof.necessitateSymbol ++ ·)
    else []
  | .detach major minor =>
    (g.fillings ⟨major, 0⟩).flatMap fun x =>
      (g.fillings ⟨minor, 0⟩).map fun y => String.singleton Proof.detachSymbol ++ (x ++ y)

/-- A slot for a known length stands for the entries of the table that fit (`fitting`). -/
theorem fillings_known (g : Grammar) (length run : Nat) :
    g.fillings ⟨.known length, run⟩ =
      if length ≤ longestEntry then g.fitting length run else [] := by
  rw [fillings, completions_cons]
  simp only [expansions]
  split
  · rw [List.flatMap_map]
    simp
  · rfl

/-- What a production stands for is found by replacing the slots that it puts in place
(`expansion?`). -/
theorem renderings_eq (g : Grammar) (run : Nat) (p : Production) :
    g.renderings run p =
      (g.expansion? run p).elim [] fun e => (g.completions e.pending).map (e.text ++ ·) := by
  cases p with
  | necessitate inner =>
    rw [renderings, expansion?]
    by_cases hallows : g.necessitation.allows (run + 1)
    · rw [if_pos hallows, if_pos hallows]
      rfl
    · rw [if_neg hallows, if_neg hallows]
      rfl
  | detach major minor =>
    have hpair := g.completions_append [⟨major, 0⟩] [⟨minor, 0⟩]
    rw [List.singleton_append] at hpair
    rw [renderings, expansion?]
    simp only [Option.elim_some, hpair, List.map_flatMap, List.map_map, Function.comp_def, fillings]

/-- A slot for a longer proof stands for what its `productions` stand for, one after the other. -/
theorem fillings_longer (g : Grammar) (length run : Nat) :
    g.fillings ⟨.longer length, run⟩ = (g.productions length).flatMap (g.renderings run) := by
  rw [fillings, completions_cons]
  simp only [expansions, List.append_nil]
  induction g.productions length with
  | nil => rfl
  | cons p rest ih =>
    rw [List.flatMap_cons, ← ih, renderings_eq, List.filterMap_cons]
    cases g.expansion? run p with
    | none => rfl
    | some e => rfl

/-! ## Lengths in turn -/

/-- The candidates of one length: none if its slot is known to have no filling (`isRealizable`). -/
def found (g : Grammar) (length : Nat) : List String :=
  if g.isRealizable (g.slotFor length) then g.fillings ⟨g.slotFor length, 0⟩ else []

/-- A request for prepared lengths delivers their candidates (`found`) in turn, and is cancelled if
the receiver stops. -/
theorem generateFrom_eq (g : Grammar) (receive : β → String → β × Bool) (state : β) (count : Nat)
    {lengths : List Nat} (hprepared : ∀ length ∈ lengths, length ≤ g.maxLength) :
    g.generateFrom receive state count lengths =
      if (deliver receive state count (lengths.flatMap g.found)).stopped then
        ⟨(deliver receive state count (lengths.flatMap g.found)).state, .error .cancelled⟩
      else
        ⟨(deliver receive state count (lengths.flatMap g.found)).state,
          .ok (deliver receive state count (lengths.flatMap g.found)).count⟩ := by
  induction lengths generalizing state count with
  | nil => rfl
  | cons length lengths ih =>
    have hlength : ¬g.maxLength < length := Nat.not_lt.mpr (hprepared length List.mem_cons_self)
    have hrest : ∀ length ∈ lengths, length ≤ g.maxLength :=
      fun other hother => hprepared other (List.mem_cons_of_mem _ hother)
    rw [generateFrom, if_neg hlength, List.flatMap_cons, deliver_append]
    by_cases hreal : g.isRealizable (g.slotFor length)
    · -- The search starts from the slot of the length alone, with no choice to go back to.
      have hsearch : g.search receive state count (.start ⟨g.slotFor length, 0⟩) =
          deliver receive state count (g.found length) := by
        rw [search_eq, found, if_pos hreal]
        simp [remaining, Descent.start, Descent.written, Descent.frames, framesFrom, outstanding,
          fillings]
      simp only [hreal, if_true, hsearch]
      by_cases hstop : (deliver receive state count (g.found length)).stopped
      · simp only [hstop, if_true]
      · simp only [hstop, Bool.false_eq_true, if_false]
        exact ih _ _ hrest
    · have hnone : g.found length = [] := if_neg hreal
      simp only [hreal, Bool.false_eq_true, if_false, hnone, deliver]
      exact ih _ _ hrest

/-- A receiver that never stops gets every candidate of the prepared lengths (`found`) from
`generate`. -/
theorem generate_eq (g : Grammar) (note : β → String → β) (state : β)
    {lengths : List Nat} (hprepared : ∀ length ∈ lengths, length ≤ g.maxLength) :
    g.generate false (fun state text => (note state text, false)) state lengths =
      ⟨(lengths.flatMap g.found).foldl note state, .ok (lengths.flatMap g.found).length⟩ := by
  rw [generate, Bool.false_and, if_neg Bool.false_ne_true, generateFrom_eq g _ _ _ hprepared,
    deliver_of_forall fun _ _ => rfl]
  simp

/-- The `candidates` of prepared lengths, length after length. -/
theorem candidates_eq (g : Grammar) {lengths : List Nat}
    (hprepared : ∀ length ∈ lengths, length ≤ g.maxLength) :
    g.candidates lengths = lengths.flatMap g.found := by
  rw [candidates, generate_eq g (fun found text => text :: found) [] hprepared]
  simp [List.foldl_flip_cons_eq_append]

end Detachment.Grammar

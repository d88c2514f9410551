import Detachment.Candidates.Grammar

/-! # Searching for candidates

The candidates of a length are found one after another by a pushdown search. It has one text and one
stack of slots, and works on the slot on top: it puts a replacement in its place, and when there is
nothing left to try it takes the replacement back. All choices share the text and the stack, so that
a choice only notes how much of them was there before.

* `Choice` is a slot that was replaced, with the two lengths to go back to.
* `Descent` is a search under way, whose choices can all be taken back.
* `Descent.backtrack` takes choices back until one of them has something left to try.
* `Grammar.search` runs until no choice is left or the receiver stops it.
* `Grammar.generate` searches several lengths in turn.

The search ends because each step takes at least one unit off `Grammar.workload`, the number of
steps that the slots and the replacements still to be tried can take. -/

namespace Detachment

/-! ## Taking choices back -/

/-- The oldest members of a stack, as many as it had before: `height` of them. -/
def cutBack {α : Type} (height : Nat) (stack : List α) : List α :=
  stack.drop (stack.length - height)

/-- A stack that has its old height stays as it is. -/
@[simp] theorem cutBack_length {α : Type} (stack : List α) : cutBack stack.length stack = stack := by
  simp [cutBack]

/-- A stack that is cut back has its old height. -/
theorem length_cutBack {α : Type} {height : Nat} {stack : List α} (h : height ≤ stack.length) :
    (cutBack height stack).length = height := by
  rw [cutBack, List.length_drop]
  omega

/-- What was put on `top` is taken away again. -/
theorem cutBack_append {α : Type} {height : Nat} {stack : List α} (h : stack.length = height)
    (top : List α) : cutBack height (top ++ stack) = stack := by
  rw [cutBack, List.length_append, h, Nat.add_sub_cancel, List.drop_left]

/-- A slot that was replaced, with all that is needed to take the replacement back: how much of the
text and of the stack was there. -/
structure Choice where
  /-- The slot. -/
  slot : Pending
  /-- The replacements not tried yet. -/
  untried : List Expansion
  /-- The length of the text before the slot. -/
  textLength : Nat
  /-- The number of slots below it on the stack. -/
  stackHeight : Nat
  deriving DecidableEq, Repr

/-- The choices can be taken back one after the other, the newest first: what each of them goes back
to is still there, once its slot is put back for the one before it. `Descent` carries this. -/
def Undoable : List Char → List Pending → List Choice → Prop
  | _, _, [] => True
  | text, stack, c :: choices =>
    c.textLength ≤ text.length ∧ c.stackHeight ≤ stack.length ∧
      Undoable (cutBack c.textLength text) (c.slot :: cutBack c.stackHeight stack) choices

/-- Something else in the place of a slot can be taken back as well: `cutBack_append` takes it
away. -/
theorem Undoable.resume {text : List Char} {stack : List Pending} {c : Choice}
    {choices : List Choice} (h : Undoable text stack (c :: choices)) (more : List Char)
    (pending : List Pending) (untried : List Expansion) :
    Undoable (more ++ cutBack c.textLength text) (pending ++ cutBack c.stackHeight stack)
      ({ c with untried } :: choices) := by
  obtain ⟨htext, hstack, hrest⟩ := h
  have htext' := length_cutBack htext
  have hstack' := length_cutBack hstack
  refine ⟨?_, ?_, ?_⟩
  · simp [htext']
  · simp [hstack']
  · simp only [cutBack_append htext', cutBack_append hstack']
    exact hrest

/-- A search under way. Its choices can all be taken back (`Undoable`). -/
structure Descent where
  /-- The characters of the text so far, the last one first. -/
  text : List Char
  /-- The slots still to be replaced, the next one first. -/
  stack : List Pending
  /-- The choices made so far, the newest first. -/
  choices : List Choice
  /-- All choices can be taken back. -/
  undoable : Undoable text stack choices

namespace Descent

/-- The search for a slot before anything was replaced: it is alone on the stack. -/
def start (p : Pending) : Descent := ⟨[], [p], [], trivial⟩

/-- The text so far, which is a candidate once the stack is empty. -/
def written (d : Descent) : String := String.ofList d.text.reverse

/-- Make a choice for the slot on top of the stack, with all its `expansions` left to try. -/
def choose (d : Descent) (p : Pending) (rest : List Pending) (expansions : List Expansion)
    (h : d.stack = p :: rest) : Descent where
  text := d.text
  stack := rest
  choices := ⟨p, expansions, d.text.length, rest.length⟩ :: d.choices
  undoable := by
    refine ⟨Nat.le_refl _, Nat.le_refl _, ?_⟩
    simp only [cutBack_length]
    exact h ▸ d.undoable

/-- Take choices back until one has something left to try, and try it. A choice that has nothing
left puts its slot back on the stack, where the choices before it expect it. -/
def backtrackFrom (text : List Char) (stack : List Pending) :
    (choices : List Choice) → Undoable text stack choices → Option Descent
  | [], _ => none
  | c :: choices, h =>
    match c.untried with
    | [] =>
      backtrackFrom (cutBack c.textLength text) (c.slot :: cutBack c.stackHeight stack) choices h.2.2
    | e :: untried =>
      some ⟨e.text.toList.reverse ++ cutBack c.textLength text,
        e.pending ++ cutBack c.stackHeight stack, { c with untried } :: choices,
        h.resume _ _ untried⟩

/-- Take choices back until one has something left to try, and try it (`backtrackFrom`); fails if
there is none. -/
def backtrack (d : Descent) : Option Descent :=
  backtrackFrom d.text d.stack d.choices d.undoable

end Descent

/-! ## What choices go back to -/

/-- What is there when a choice was taken back: the text before its slot, the slots after it, and
what is left to try. Other than a `Choice`, it does not depend on the text and the stack. -/
structure Frame where
  /-- The characters of the text before the slot, the last one first. -/
  text : List Char
  /-- The slots after it. -/
  rest : List Pending
  /-- The replacements not tried yet. -/
  untried : List Expansion

/-- What the choices go back to, one after the other, the newest first. -/
def framesFrom : List Char → List Pending → List Choice → List Frame
  | _, _, [] => []
  | text, stack, c :: choices =>
    ⟨cutBack c.textLength text, cutBack c.stackHeight stack, c.untried⟩ ::
      framesFrom (cutBack c.textLength text) (c.slot :: cutBack c.stackHeight stack) choices

namespace Descent

/-- What the choices of a search go back to, one after the other (`framesFrom`). -/
def frames (d : Descent) : List Frame :=
  framesFrom d.text d.stack d.choices

/-- A choice goes back to where it was made: its frame is added to `frames`. -/
theorem frames_choose (d : Descent) (p : Pending) (rest : List Pending)
    (expansions : List Expansion) (h : d.stack = p :: rest) :
    (d.choose p rest expansions h).frames = ⟨d.text, rest, expansions⟩ :: d.frames := by
  simp only [frames, choose, framesFrom, cutBack_length, h]

/-- There is nothing to go on with exactly if the choices have nothing left to try. Otherwise the
search goes on with the first replacement that the newest choice with one has left. The induction is
on the choices, and the cases are those of `backtrackFrom`. -/
theorem backtrackFrom_spec {text : List Char} {stack : List Pending} {choices : List Choice}
    (h : Undoable text stack choices) :
    (backtrackFrom text stack choices h = none ∧
      ∀ f ∈ framesFrom text stack choices, f.untried = []) ∨
    ∃ (d : Descent) (done later : List Frame) (f : Frame) (e : Expansion) (untried : List Expansion),
      backtrackFrom text stack choices h = some d ∧
      framesFrom text stack choices = done ++ { f with untried := e :: untried } :: later ∧
      (∀ f ∈ done, f.untried = []) ∧ d.text = e.text.toList.reverse ++ f.text ∧
      d.stack = e.pending ++ f.rest ∧ d.frames = { f with untried } :: later := by
  induction choices generalizing text stack with
  | nil => exact .inl ⟨rfl, fun f hf => absurd hf List.not_mem_nil⟩
  | cons c choices ih =>
    obtain ⟨slot, untried, textLength, stackHeight⟩ := c
    cases untried with
    | nil =>
      -- The slot is back on the stack, and the choice before it is next.
      rcases ih h.2.2 with ⟨hnone, hall⟩ | ⟨d, done, later, f, e, untried, hsome, hframes, hdone, hd⟩
      · exact .inl ⟨hnone, List.forall_mem_cons.mpr ⟨rfl, hall⟩⟩
      · refine .inr ⟨d, ⟨cutBack textLength text, cutBack stackHeight stack, []⟩ :: done, later, f, e,
          untried, hsome, ?_, List.forall_mem_cons.mpr ⟨rfl, hdone⟩, hd⟩
        rw [framesFrom, hframes, List.cons_append]
    | cons e untried =>
      -- The replacement lies on top of what was cut back, so that cutting back again gives the
      -- same.
      have htext := length_cutBack h.1
      have hstack := length_cutBack h.2.1
      refine .inr ⟨_, [], _, ⟨cutBack textLength text, cutBack stackHeight stack, []⟩, e, untried, rfl,
        rfl, fun f hf => absurd hf List.not_mem_nil, rfl, rfl, ?_⟩
      simp only [frames, framesFrom, cutBack_append htext, cutBack_append hstack]

end Descent

/-! ## Searching -/

namespace Grammar

/-- The number of steps that the search spends below a stack of slots: one, and those below each of
the `expansions` of the first slot. -/
def roundsBelow (g : Grammar) : List Pending → Nat
  | [] => 1
  | p :: rest =>
    1 + sumOf (fun e => g.roundsBelow (e.1.pending ++ rest)) (g.expansions p).attach
termination_by pending => weight pending
decreasing_by
  have := weight_expansions_lt e.2
  simp only [weight_append, weight_cons]
  omega

/-- The equation of `roundsBelow` for a slot on top of others. -/
theorem roundsBelow_cons (g : Grammar) (p : Pending) (rest : List Pending) :
    g.roundsBelow (p :: rest) =
      1 + sumOf (fun e => g.roundsBelow (e.pending ++ rest)) (g.expansions p) := by
  rw [roundsBelow, ← sumOf_map (fun e : Expansion => g.roundsBelow (e.pending ++ rest)) Subtype.val,
    List.attach_map_subtype_val]

/-- The number of steps that the replacements still to be tried (`untried`) can take. -/
def roundsLeft (g : Grammar) (frames : List Frame) : Nat :=
  sumOf (fun f => sumOf (fun e => g.roundsBelow (e.pending ++ f.rest)) f.untried) frames

/-- The steps that the replacements of one more choice can take. -/
@[simp] theorem roundsLeft_cons (g : Grammar) (f : Frame) (frames : List Frame) :
    g.roundsLeft (f :: frames) =
      sumOf (fun e => g.roundsBelow (e.pending ++ f.rest)) f.untried + g.roundsLeft frames :=
  rfl

/-- The steps that the replacements of more choices can take. -/
@[simp] theorem roundsLeft_append (g : Grammar) (frames frames' : List Frame) :
    g.roundsLeft (frames ++ frames') = g.roundsLeft frames + g.roundsLeft frames' :=
  sumOf_append _ _ _

/-- The number of steps that a search can still take. The recursion of `search` is on it. -/
def workload (g : Grammar) (d : Descent) : Nat :=
  g.roundsBelow d.stack + g.roundsLeft d.frames

/-- Choices with nothing left to try take no steps (`roundsLeft`). -/
theorem roundsLeft_eq_zero (g : Grammar) {frames : List Frame} (h : ∀ f ∈ frames, f.untried = []) :
    g.roundsLeft frames = 0 := by
  induction frames with
  | nil => rfl
  | cons f frames ih =>
    obtain ⟨hf, hrest⟩ := List.forall_mem_cons.mp h
    rw [roundsLeft_cons, hf, sumOf_nil, ih hrest]

/-- Going back to a choice leaves the steps of what is still to be tried: the `workload` is what
`roundsLeft` was before. -/
theorem workload_backtrack (g : Grammar) {d next : Descent} (h : d.backtrack = some next) :
    g.workload next = g.roundsLeft d.frames := by
  rcases Descent.backtrackFrom_spec d.undoable with ⟨hnone, -⟩ |
    ⟨d', done, later, f, e, untried, hsome, hframes, hdone, -, hstack, hframes'⟩
  · rw [Descent.backtrack, hnone] at h
    cases h
  · rw [Descent.backtrack, hsome] at h
    obtain rfl := Option.some.inj h
    rw [Descent.frames, hframes, workload, hstack, hframes']
    simp [g.roundsLeft_eq_zero hdone, Nat.add_assoc]

/-- How a search ended: what `search` gives. -/
structure SearchResult (β : Type) where
  /-- What the receiver made of the candidates. -/
  state : β
  /-- The number of candidates found. -/
  count : Nat
  /-- Whether the receiver stopped the search. -/
  stopped : Bool

variable {β : Type}

/-- Go on with a search. Where no slot is left, the text is a candidate; the receiver gets it and
says whether the search has to stop. Otherwise the slot on top is replaced by the first of its
`expansions`. -/
def search (g : Grammar) (receive : β → String → β × Bool) (state : β) (count : Nat) (d : Descent) :
    SearchResult β :=
  match hstack : d.stack with
  | p :: rest =>
    match _hnext : (d.choose p rest (g.expansions p) hstack).backtrack with
    | none => ⟨state, count, false⟩
    | some next => g.search receive state count next
  | [] =>
    match receive state d.written with
    | (state, true) => ⟨state, count + 1, true⟩
    | (state, false) =>
      match _hnext : d.backtrack with
      | none => ⟨state, count + 1, false⟩
      | some next => g.search receive state (count + 1) next
termination_by g.workload d
decreasing_by
  -- A slot takes one step more than its replacements, and a complete text takes one step.
  · rw [workload_backtrack g _hnext, Descent.frames_choose, workload, hstack, roundsBelow_cons,
      Nat.add_assoc]
    exact Nat.lt_one_add_iff.mpr (Nat.le_refl _)
  · rw [workload_backtrack g _hnext, workload, hstack, roundsBelow]
    exact Nat.lt_one_add_iff.mpr (Nat.le_refl _)

/-- Why a request for candidates (`generate`) was not completed. -/
inductive Interruption where
  /-- The receiver stopped it. -/
  | cancelled
  /-- A length was asked for that the grammar is not prepared for. -/
  | unprepared (length : Nat)
  deriving DecidableEq, Repr

/-- The candidates asked for, as far as they were found: what `generate` gives. -/
structure Generation (β : Type) where
  /-- What the receiver made of the candidates. -/
  state : β
  /-- The number of candidates, or why there are not all of them. -/
  outcome : Except Interruption Nat

/-- Find the candidates of some lengths in turn, after `count` others. Nothing is looked for in a
length whose slot cannot be filled (`isRealizable`). -/
def generateFrom (g : Grammar) (receive : β → String → β × Bool) (state : β) (count : Nat) :
    List Nat → Generation β
  | [] => ⟨state, .ok count⟩
  | length :: lengths =>
    if g.maxLength < length then ⟨state, .error (.unprepared length)⟩
    else
      let slot := g.slotFor length
      if g.isRealizable slot then
        let result := g.search receive state count (.start ⟨slot, 0⟩)
        if result.stopped then ⟨result.state, .error .cancelled⟩
        else g.generateFrom receive result.state result.count lengths
      else g.generateFrom receive state count lengths

/-- Find the candidates of some lengths in turn (`generateFrom`); a request that is cancelled
beforehand finds none. -/
def generate (g : Grammar) (cancelled : Bool) (receive : β → String → β × Bool) (state : β)
    (lengths : List Nat) : Generation β :=
  if cancelled && !lengths.isEmpty then ⟨state, .error .cancelled⟩
  else g.generateFrom receive state 0 lengths

/-- All candidates of some lengths, in order: what `generate` finds for a receiver that never stops
it. -/
def candidates (g : Grammar) (lengths : List Nat) : List String :=
  (g.generate false (fun found text => (text :: found, false)) [] lengths).state.reverse

end Grammar

end Detachment

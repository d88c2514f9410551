import Detachment.Proofs.Language

/-! # The search as a plain recursion

What the pushdown search delivers can be listed by a recursion over the slots that has no text to
share, no stack and nothing to take back.

* `Grammar.listing` is the plain recursion, and `Grammar.listing_eq_fillings` says that it lists
  what a slot stands for.
* `Grammar.generate_eq_listing` says that a request delivers what the recursion lists, in the same
  order, up to and including the text inside which the receiver stops it. -/

namespace Detachment.Grammar

variable {β : Type} {g : Grammar}

/-! ## The recursion -/

/-- The texts that a slot stands for after a `run` of necessitations: the entries of the table that
fit, or what the `productions` of a longer slot make of the texts for its smaller slots. -/
def listing (g : Grammar) (slot : Slot) (run : Nat) : List String :=
  match slot with
  | .known length =>
    (g.table.row length).filter fun proof =>
      g.necessitation.allows (run + Proof.leadingNecessitations proof)
  | .longer length =>
    (g.productions length).attach.flatMap fun ⟨production, _⟩ =>
      match production with
      | .necessitate inner =>
        if g.necessitation.allows (run + 1) then
          (g.listing inner (run + 1)).map (String.singleton Proof.necessitateSymbol ++ ·)
        else []
      | .detach major minor =>
        (g.listing major 0).flatMap fun x =>
          (g.listing minor 0).map fun y => String.singleton Proof.detachSymbol ++ (x ++ y)
termination_by slot.length
decreasing_by
  all_goals
    have := length_of_mem_productions ‹_ ∈ g.productions length›
    simp only [Production.slots, sumOf_cons, sumOf_nil, Slot.length] at this ⊢
    omega

/-- The recursion lists the `fillings` of a slot, if every known length can be referred to
(`longestEntry`). The induction is on the length. -/
theorem listing_eq_fillings (hpairs : g.WellPaired) (hlongest : g.knownLimit ≤ longestEntry)
    (length run : Nat) :
    g.listing (g.slotFor length) run = g.fillings ⟨g.slotFor length, run⟩ := by
  -- Productions are made of slots for smaller lengths, each after a run of its own.
  induction length using Nat.strongRecOn generalizing run with
  | _ length ih =>
    by_cases hle : length ≤ g.knownLimit
    · rw [slotFor_of_le hle, listing, fillings_known, if_pos (Nat.le_trans hle hlongest), fitting]
    · have hbeyond := Nat.not_le.mp hle
      rw [slotFor_of_lt hbeyond, listing, fillings_longer,
        ← List.flatMap_attach (g.productions length) (g.renderings run)]
      refine List.flatMap_congr ?_
      rintro ⟨p, hp⟩ -
      have hslots : ∀ slot ∈ p.slots, ∀ run, g.listing slot run = g.fillings ⟨slot, run⟩ := by
        intro slot hslot run
        obtain ⟨part, hpart, rfl⟩ := exists_slotFor_of_mem_productions hpairs hbeyond hp hslot
        exact ih part hpart run
      cases p with
      | necessitate inner =>
        have hinner := hslots inner List.mem_cons_self
        simp only [renderings, hinner]
      | detach major minor =>
        have hmajor := hslots major List.mem_cons_self
        have hminor := hslots minor (List.mem_cons_of_mem _ List.mem_cons_self)
        simp only [renderings, hmajor, hminor]

/-! ## Requests -/

/-- The candidates of a length that the recursion lists: none if its slot cannot be filled
(`isRealizable`). -/
def listed (g : Grammar) (length : Nat) : List String :=
  if g.isRealizable (g.slotFor length) then g.listing (g.slotFor length) 0 else []

/-- The recursion lists the candidates that the search finds. -/
theorem listed_eq_found (hpairs : g.WellPaired) (hlongest : g.knownLimit ≤ longestEntry) :
    g.listed = g.found := by
  funext length
  rw [listed, found, listing_eq_fillings hpairs hlongest]

/-- A request `generate` for prepared lengths ends. If the receiver lets all texts through that the
recursion lists for the lengths in turn (`LetsThrough`), it gets these texts in this order, and the
request gives their number. If it stops the search inside one of them, it has got the texts up to
this one and no other, and the request is cancelled. -/
theorem generate_eq_listing {table : Representatives} {knownLimit : Nat}
    (hlongest : knownLimit ≤ longestEntry) {limit : NecessitationLimit} {maxLength : Nat}
    (hg : g = prepare table knownLimit limit maxLength) {lengths : List Nat}
    (hlengths : ∀ length ∈ lengths, length ≤ max maxLength knownLimit)
    (receive : β → String → β × Bool) (state : β) :
    (LetsThrough receive state (lengths.flatMap g.listed) →
      g.generate false receive state lengths =
        ⟨received receive state (lengths.flatMap g.listed),
          .ok (lengths.flatMap g.listed).length⟩) ∧
    ∀ before text after, lengths.flatMap g.listed = before ++ text :: after →
      LetsThrough receive state before →
      (receive (received receive state before) text).2 = true →
      g.generate false receive state lengths =
        ⟨received receive state (before ++ [text]), .error .cancelled⟩ := by
  have hlisted : g.listed = g.found := by
    rw [hg]
    exact listed_eq_found (wellPaired_prepare _ _ _ _) (by rwa [prepare_knownLimit])
  have hprepared : ∀ length ∈ lengths, length ≤ g.maxLength := by
    rwa [hg, prepare_maxLength]
  rw [generate, Bool.false_and, if_neg Bool.false_ne_true, generateFrom_eq g _ _ _ hprepared,
    ← hlisted]
  constructor
  · intro hthrough
    rw [deliver_of_letsThrough hthrough, Nat.zero_add]
    rfl
  · intro before text after htexts hthrough hstop
    rw [htexts, deliver_of_stop hthrough hstop]
    rfl

/-- A table of two entries gives six candidates of the lengths two and three. A receiver that keeps
them all gets all six, and one that stops inside the third, the first detachment, has got three. -/
theorem generate_eq_listing_two_entries :
    (prepare ⟨[[], ["1", "2"]], ["1", "2"]⟩ 1 (.bounded 1) 3).generate false
        (fun texts text => (texts ++ [text], false)) [] [2, 3] =
      ⟨["N1", "N2", "D11", "D12", "D21", "D22"], .ok 6⟩ ∧
    (prepare ⟨[[], ["1", "2"]], ["1", "2"]⟩ 1 (.bounded 1) 3).generate false
        (fun texts text => (texts ++ [text], texts.length == 2)) [] [2, 3] =
      ⟨["N1", "N2", "D11"], .error .cancelled⟩ := by
  have hlengths : ∀ length ∈ [2, 3], length ≤ max 3 1 := by decide
  have hlisted :
      [2, 3].flatMap (prepare ⟨[[], ["1", "2"]], ["1", "2"]⟩ 1 (.bounded 1) 3).listed =
        ["N1", "N2"] ++ "D11" :: ["D12", "D21", "D22"] := by decide +kernel
  constructor
  · rw [(generate_eq_listing (by decide) rfl hlengths _ _).1 fun _ _ _ _ => rfl, hlisted]
    rfl
  · refine (generate_eq_listing (by decide) rfl hlengths _ _).2 _ _ _ hlisted ?_ rfl
    exact letsThrough_cons.mpr ⟨rfl, letsThrough_cons.mpr ⟨rfl, letsThrough_nil⟩⟩

end Detachment.Grammar

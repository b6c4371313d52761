import Mathlib
import CircuitSynthesis.Proofs.Circuit.Checked
import CircuitSynthesis.Proofs.Circuit.Layers

/-!
# Layers are as early as possible

An instruction has to wait for the earlier ones that it shares a wire with. In any schedule that respects this, a chain
of instructions of which each waits for the one before climbs by a layer at every step, so that it is no longer than the
number of layers up to its end (`IsSchedule.length_le`). The greedy schedule places an instruction right after one that
it waits for, which `Schedule.Tight` keeps from step to step: a chain as long as that bound ends at every instruction
(`Schedule.Tight.exists_chain`), and no schedule has fewer layers.
-/

namespace CircuitSynthesis

namespace Circuit

namespace Schedule

variable {s : Schedule} {wiresOf : ℕ → List ℕ} {count : ℕ}

/-- A schedule without gaps: whatever stands in a layer waits for something in the layer before. -/
structure Tight (wiresOf : ℕ → List ℕ) (s : Schedule) : Prop where
  /-- The last use of a wire is the use by some instruction. -/
  used : ∀ q l, s.lastUse q = l + 1 → ∃ i ∈ s.row l, q ∈ wiresOf i
  /-- An instruction shares a wire with an earlier one of the layer before. -/
  linked : ∀ l, ∀ j ∈ s.row (l + 1), ∃ i ∈ s.row l, i < j ∧ ¬(wiresOf i).Disjoint (wiresOf j)
  ascending : ∀ l, (s.row l).Pairwise (· < ·)
  filled : ∀ l < s.rows.length, s.row l ≠ []

namespace Tight

/-- The wire that holds an instruction back was last used one layer earlier. -/
lemma exists_linked (h : s.Tight wiresOf) (hsound : s.Sound wiresOf count) {l : ℕ}
    (hl : s.levelOf (wiresOf count) = l + 1) : ∃ i ∈ s.row l, i < count ∧ ¬(wiresOf i).Disjoint (wiresOf count) := by
  have hlate : ¬∀ q ∈ wiresOf count, s.lastUse q ≤ l := by
    rw [← levelOf_le_iff, hl]
    exact Nat.not_succ_le_self l
  push Not at hlate
  obtain ⟨q, hq, hlt⟩ := hlate
  have hle : s.lastUse q ≤ l + 1 := hl ▸ lastUse_le_levelOf hq
  obtain ⟨i, hi, hqi⟩ := h.used q l (by omega)
  exact ⟨i, hi, hsound.mem_row_lt hi, fun hdisj => hdisj hqi hq⟩

/-- Placing the next instruction leaves no gap. -/
theorem place (h : s.Tight wiresOf) (hsound : s.Sound wiresOf count) (hrange : ∀ q ∈ wiresOf count, q < s.used.size) :
    (s.place count (wiresOf count)).Tight wiresOf where
  used q l hq := by
    rw [lastUse_place hrange] at hq
    split at hq
    case isTrue hmem => exact ⟨count, hsound.mem_row_place.2 (.inr ⟨by omega, rfl⟩), hmem⟩
    case isFalse =>
      obtain ⟨i, hi, hqi⟩ := h.used q l hq
      exact ⟨i, hsound.mem_row_place.2 (.inl hi), hqi⟩
  linked l j hj := by
    -- an old one has its partner already, the new one is held back by the wire used last
    have hold : ∃ i ∈ s.row l, i < j ∧ ¬(wiresOf i).Disjoint (wiresOf j) := by
      cases hsound.mem_row_place.1 hj with
      | inl hj => exact h.linked l j hj
      | inr hnew =>
        obtain ⟨hl, rfl⟩ := hnew
        exact h.exists_linked hsound hl.symm
    obtain ⟨i, hi, hij⟩ := hold
    exact ⟨i, hsound.mem_row_place.2 (.inl hi), hij⟩
  ascending l := by
    rw [hsound.row_place]
    split
    case isTrue =>
      apply List.pairwise_append.2
      refine ⟨h.ascending l, List.pairwise_singleton _ _, fun i hi j hj => ?_⟩
      rw [List.mem_singleton.1 hj]
      exact hsound.mem_row_lt hi
    case isFalse => exact h.ascending l
  filled l hl := by
    rw [hsound.row_place]
    split
    case isTrue => simp
    case isFalse hne =>
      apply h.filled
      rw [rows_place, extendRow, List.length_modify, openRow] at hl
      split at hl
      case isTrue hnew => rw [List.length_append, List.length_singleton] at hl; omega
      case isFalse => exact hl

/-- There is no gap in the empty schedule. -/
lemma empty (width : ℕ) : (⟨Array.replicate width 0, #[]⟩ : Schedule).Tight wiresOf := by
  have hrow (l : ℕ) : (⟨Array.replicate width 0, #[]⟩ : Schedule).row l = [] := by simp [row, rows]
  constructor
  case used =>
    intro q l hq
    rw [lastUse, Array.getD_eq_getD_getElem?, Array.getElem?_replicate] at hq
    split at hq <;> cases hq
  case linked =>
    intro l j hj
    rw [hrow] at hj
    cases hj
  case ascending =>
    intro l
    rw [hrow]
    exact .nil
  case filled =>
    intro l hl
    simp [rows] at hl

end Tight

end Schedule

section Chains

variable {R : Type} {c : Circuit R} {rows : List (List ℕ)}

/-- Instruction `j` has to wait for instruction `i`: it comes later and shares a wire with it. -/
def Precedes (c : Circuit R) (i j : ℕ) : Prop := i < j ∧ ¬(c.wiresAt i).Disjoint (c.wiresAt j)

/-- A chain of instructions of which each has to wait for the one before. -/
structure IsChain (c : Circuit R) (chain : List ℕ) : Prop where
  linked : chain.IsChain c.Precedes
  /-- The instructions are those of the circuit. -/
  lt_size : ∀ i ∈ chain, i < c.size

/-- No instruction at all is a chain. -/
lemma IsChain.nil : c.IsChain [] := ⟨.nil, fun _ hi => nomatch hi⟩

/-- One instruction is a chain. -/
lemma IsChain.singleton {i : ℕ} (hi : i < c.size) : c.IsChain [i] := ⟨.singleton i, by simpa using hi⟩

/-- A chain is extended by an instruction that waits for its end. -/
lemma IsChain.concat {chain : List ℕ} {i j : ℕ} (h : c.IsChain chain) (hlast : chain.getLast? = some i)
    (hij : c.Precedes i j) (hj : j < c.size) : c.IsChain (chain ++ [j]) where
  linked := by
    apply List.isChain_append.2
    refine ⟨h.linked, .singleton j, fun x hx y hy => ?_⟩
    cases hlast.symm.trans hx
    cases hy
    exact hij
  lt_size := by
    intro x hx
    cases List.mem_append.1 hx with
    | inl hold => exact h.lt_size x hold
    | inr hnew => rwa [List.mem_singleton.1 hnew]

/-- A valid schedule: instructions of one layer share no wire, and the order on every wire is kept. -/
structure IsSchedule (c : Circuit R) (rows : List (List ℕ)) : Prop where
  perm : rows.flatten.Perm (List.range c.size)
  disjoint : ∀ row ∈ rows, row.Pairwise fun i j => (c.wiresAt i).Disjoint (c.wiresAt j)
  /-- No instruction overtakes one that it has to wait for. -/
  ordered : ∀ l l' (hl : l < rows.length) (hl' : l' < rows.length), ∀ i ∈ rows[l], ∀ j ∈ rows[l'],
    c.Precedes i j → l ≤ l'

namespace IsSchedule

/-- The rows of a schedule hold the places of the circuit and nothing else. -/
lemma mem_iff (h : c.IsSchedule rows) {i : ℕ} : (∃ l, ∃ hl : l < rows.length, i ∈ rows[l]) ↔ i < c.size := by
  rw [← List.mem_range, ← h.perm.mem_iff, List.mem_flatten]
  constructor
  case mp =>
    rintro ⟨l, hl, hi⟩
    exact ⟨rows[l], List.getElem_mem hl, hi⟩
  case mpr =>
    rintro ⟨row, hrow, hi⟩
    obtain ⟨l, hl, rfl⟩ := List.getElem_of_mem hrow
    exact ⟨l, hl, hi⟩

/-- An instruction stands in a later layer than all those it has to wait for. -/
lemma lt_of_precedes (h : c.IsSchedule rows) {l l' : ℕ} (hl : l < rows.length) (hl' : l' < rows.length) {i j : ℕ}
    (hi : i ∈ rows[l]) (hj : j ∈ rows[l']) (hij : c.Precedes i j) : l < l' := by
  apply lt_of_le_of_ne (h.ordered l l' hl hl' i hi j hj hij)
  rintro rfl
  have : Std.Symm fun i j => (c.wiresAt i).Disjoint (c.wiresAt j) := ⟨fun _ _ hdisj => hdisj.symm⟩
  exact hij.2 ((h.disjoint _ (List.getElem_mem hl)).forall hi hj hij.1.ne)

/-- A chain climbs by a layer at every step. -/
lemma length_le (h : c.IsSchedule rows) {chain : List ℕ} (hchain : c.IsChain chain) {l : ℕ} (hl : l < rows.length)
    {j : ℕ} (hj : j ∈ rows[l]) (hlast : chain.getLast? = some j) : chain.length ≤ l + 1 := by
  induction chain using List.reverseRecOn generalizing l j with
  | nil => exact Nat.zero_le _
  | append_singleton chain x ih =>
    obtain rfl : j = x := Option.some.inj (hlast.symm.trans List.getLast?_concat)
    obtain ⟨hinit, -, hlink⟩ := List.isChain_append.1 hchain.linked
    rw [List.length_append, List.length_singleton]
    cases hbefore : chain.getLast? with
    | none =>
      rw [List.getLast?_eq_none_iff.1 hbefore]
      exact Nat.le_add_left 1 l
    | some i =>
      have hij : c.Precedes i j := hlink i hbefore j rfl
      have hlt : ∀ x ∈ chain, x < c.size := fun x hx => hchain.lt_size x (List.mem_append_left _ hx)
      obtain ⟨l', hl', hi⟩ := h.mem_iff.2 (hlt i (List.mem_of_getLast? hbefore))
      have hclimb : l' < l := h.lt_of_precedes hl' hl hi hj hij
      have hlen := ih ⟨hinit, hlt⟩ hl' hi hbefore
      omega

/-- No chain is longer than the number of layers. -/
lemma length_le_length (h : c.IsSchedule rows) {chain : List ℕ} (hchain : c.IsChain chain) :
    chain.length ≤ rows.length := by
  cases hlast : chain.getLast? with
  | none =>
    rw [List.getLast?_eq_none_iff.1 hlast]
    exact Nat.zero_le _
  | some j =>
    obtain ⟨l, hl, hj⟩ := h.mem_iff.2 (hchain.lt_size j (List.mem_of_getLast? hlast))
    exact (h.length_le hchain hl hj hlast).trans hl

end IsSchedule

end Chains

section Greedy

variable {R : Type} {c : Circuit R}

/-- The layers of a circuit are the rows of its schedule. -/
lemma layers_getElem {l : ℕ} (hl : l < c.layers.length) : c.layers[l] = c.schedule.row l :=
  (Schedule.row_eq_getElem hl).symm

/-- The schedule of a circuit whose wires are in range has no gaps. -/
lemma schedule_tight (h : ∀ op ∈ c.instructions, ∀ q ∈ op.wires, q < c.width) : c.schedule.Tight c.wiresAt := by
  have hboth : c.schedule.Sound c.wiresAt c.size ∧ c.schedule.Tight c.wiresAt := by
    apply schedule_induction (P := fun count s => s.Sound c.wiresAt count ∧ s.Tight c.wiresAt) h
    case hstart => exact ⟨.empty c.width, .empty c.width⟩
    case hplace => exact fun _ _ ⟨hsound, htight⟩ hrange => ⟨hsound.place hrange, htight.place hsound hrange⟩
  exact hboth.2

/-- The greedy schedule is a valid one. -/
lemma isSchedule_layers (h : ∀ op ∈ c.instructions, ∀ q ∈ op.wires, q < c.width) : c.IsSchedule c.layers where
  perm := (schedule_sound_of_range h).perm
  disjoint := by
    intro row hrow
    obtain ⟨l, hl, rfl⟩ := List.getElem_of_mem hrow
    rw [layers_getElem]
    exact (schedule_sound_of_range h).disjoint l
  ordered := by
    intro l l' hl hl' i hi j hj ⟨hlt, hshare⟩
    rw [layers_getElem] at hi hj
    by_contra hback
    cases (schedule_sound_of_range h).lt_or_disjoint l' l j i (not_le.1 hback) hj hi with
    | inl hgt => exact hlt.asymm hgt
    | inr hdisj => exact hshare hdisj.symm

/-- In a schedule without gaps a chain leads up to every instruction, from the first layer through all layers. -/
lemma Schedule.Tight.exists_chain {s : Schedule} (h : s.Tight c.wiresAt) (hsound : s.Sound c.wiresAt c.size) {l j : ℕ}
    (hj : j ∈ s.row l) : ∃ chain, c.IsChain chain ∧ chain.getLast? = some j ∧ chain.length = l + 1 := by
  induction l generalizing j with
  | zero => exact ⟨[j], .singleton (hsound.mem_row_lt hj), rfl, rfl⟩
  | succ l ih =>
    obtain ⟨i, hi, hij⟩ := h.linked l j hj
    obtain ⟨chain, hchain, hlast, hlen⟩ := ih hi
    refine ⟨chain ++ [j], hchain.concat hlast hij (hsound.mem_row_lt hj), List.getLast?_concat, ?_⟩
    rw [List.length_append, hlen, List.length_singleton]

variable (h : ∀ op ∈ c.instructions, ∀ q ∈ op.wires, q < c.width)
include h

/-- The layer of an instruction is given by the longest chain that ends there. -/
lemma isGreatest_chain {l : ℕ} (hl : l < c.layers.length) {j : ℕ} (hj : j ∈ c.layers[l]) :
    IsGreatest (List.length '' {chain | c.IsChain chain ∧ chain.getLast? = some j}) (l + 1) := by
  constructor
  case left =>
    rw [layers_getElem] at hj
    obtain ⟨chain, hchain, hlast, hlen⟩ := (schedule_tight h).exists_chain (schedule_sound_of_range h) hj
    exact ⟨chain, ⟨hchain, hlast⟩, hlen⟩
  case right =>
    rintro _ ⟨chain, ⟨hchain, hlast⟩, rfl⟩
    exact (isSchedule_layers h).length_le hchain hl hj hlast

/-- The layers are not empty, and the instructions of each stand in order. -/
lemma layers_filled_ascending {row : List ℕ} (hrow : row ∈ c.layers) : row ≠ [] ∧ row.Pairwise (· < ·) := by
  obtain ⟨l, hl, rfl⟩ := List.getElem_of_mem hrow
  rw [layers_getElem]
  exact ⟨(schedule_tight h).filled l hl, (schedule_tight h).ascending l⟩

/-- The depth is the length of the longest chain. -/
lemma isGreatest_depth : IsGreatest (List.length '' {chain | c.IsChain chain}) c.depth := by
  constructor
  case left =>
    cases hdepth : c.depth with
    | zero => exact ⟨[], .nil, rfl⟩
    | succ l =>
      have hl : l < c.layers.length := (Nat.lt_succ_self l).trans_eq hdepth.symm
      obtain ⟨j, hj⟩ := List.exists_mem_of_ne_nil _ (layers_filled_ascending h (List.getElem_mem hl)).1
      obtain ⟨chain, ⟨hchain, -⟩, hlen⟩ := (isGreatest_chain h hl hj).1
      exact ⟨chain, hchain, hlen⟩
  case right =>
    rintro _ ⟨chain, hchain, rfl⟩
    exact (isSchedule_layers h).length_le_length hchain

end Greedy

section Optimal

variable {R : Type} {c : Circuit R}

/-- The layers of a circuit form a valid schedule, in which every instruction comes as early as the instructions it waits
for allow. Its number of layers is the length of the longest chain, and no valid schedule has fewer. -/
theorem layers_optimal (h : ∀ op ∈ c.instructions, ∀ q ∈ op.wires, q < c.width) :
    c.layers? = some c.layers ∧ c.IsSchedule c.layers ∧
    (∀ row ∈ c.layers, row ≠ [] ∧ row.Pairwise (· < ·)) ∧
    (∀ l (hl : l < c.layers.length), ∀ j ∈ c.layers[l],
      IsGreatest (List.length '' {chain | c.IsChain chain ∧ chain.getLast? = some j}) (l + 1)) ∧
    IsGreatest (List.length '' {chain | c.IsChain chain}) c.depth ∧
    ∀ rows, c.IsSchedule rows → c.depth ≤ rows.length := by
  refine ⟨layers?_eq_of_range h, isSchedule_layers h, fun row hrow => layers_filled_ascending h hrow,
    fun l hl j hj => isGreatest_chain h hl hj, isGreatest_depth h, ?_⟩
  intro rows hrows
  obtain ⟨chain, hchain, hlen⟩ := (isGreatest_depth h).1
  rw [← hlen]
  exact hrows.length_le_length hchain

/-- The last of four gates waits for two of the first three, one of which has no operands. -/
theorem layers_optimal_spreadTrio : (∀ op ∈ spreadTrio.instructions, ∀ q ∈ op.wires, q < spreadTrio.width) ∧
    spreadTrio.layers? = some [[0, 1, 2], [3]] ∧
    IsGreatest (List.length '' {chain | spreadTrio.IsChain chain}) 2 ∧
    ∀ rows, spreadTrio.IsSchedule rows → 2 ≤ rows.length := by
  have hrange : ∀ op ∈ spreadTrio.instructions, ∀ q ∈ op.wires, q < spreadTrio.width := fun op hop =>
    (spreadTrio_built.isPlaced op hop).range
  obtain ⟨hlayers, -, -, -, hdepth, hleast⟩ := layers_optimal hrange
  rw [depth, spreadTrio_layers] at hdepth hleast
  rw [spreadTrio_layers] at hlayers
  exact ⟨hrange, hlayers, hdepth, hleast⟩

end Optimal

end Circuit

end CircuitSynthesis

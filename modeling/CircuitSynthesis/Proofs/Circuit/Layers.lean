import Mathlib
import CircuitSynthesis.Proofs.Circuit.Operator

/-!
# Running a circuit layer by layer

The schedule of a circuit moves an instruction in front of others only if they share no wire with it: `Schedule.Sound` is
kept whenever an instruction is placed (`Sound.place`), so that it holds of the whole schedule. Instructions on disjoint
wires commute (`apply_comm`), and a list of steps may be reordered as long as any two that change their order commute
(`foldl_eq_of_perm`). Hence `run_layers`: the layers of a circuit can be run one after the other, each in any order.
-/

namespace CircuitSynthesis

section Reordering

variable {σ α : Type} {f : σ → α → σ}

/-- Two steps that can be taken in either order. -/
def Commutes (f : σ → α → σ) (a b : α) : Prop := ∀ s, f (f s a) b = f (f s b) a

/-- A step that commutes with all those before it can be taken first. -/
lemma foldl_pull {a : α} {l : List α} (h : ∀ b ∈ l, Commutes f b a) (s : σ) : f (l.foldl f s) a = l.foldl f (f s a) := by
  induction l generalizing s with
  | nil => rfl
  | cons b l ih =>
    rw [List.forall_mem_cons] at h
    rw [List.foldl_cons, ih h.2, h.1, List.foldl_cons]

/-- Steps can be reordered if any two that change their order commute. -/
lemma foldl_eq_of_perm {f : σ → ℕ → σ} {l l' : List ℕ} (hperm : l'.Perm l) (hsorted : l.Pairwise (· < ·))
    (h : l'.Pairwise fun i j => i < j ∨ Commutes f i j) (s : σ) : l'.foldl f s = l.foldl f s := by
  induction l generalizing l' s with
  | nil => rw [hperm.eq_nil]
  | cons a l ih =>
    obtain ⟨hleast, hsorted⟩ := List.pairwise_cons.1 hsorted
    obtain ⟨before, after, rfl⟩ := List.append_of_mem (hperm.mem_iff.2 List.mem_cons_self)
    have hrest : (before ++ after).Perm l := (List.perm_middle.symm.trans hperm).cons_inv
    -- the steps before the least index are all out of order with it
    have hbefore : ∀ b ∈ before, Commutes f b a := by
      intro b hb
      rcases (List.pairwise_append.1 h).2.2 b hb a List.mem_cons_self with hlt | hcomm
      · exact absurd hlt (hleast b (hrest.mem_iff.1 (List.mem_append_left after hb))).not_gt
      · exact hcomm
    have hsub : (before ++ after).Sublist (before ++ a :: after) := (List.sublist_cons_self a after).append_left before
    calc (before ++ a :: after).foldl f s = after.foldl f (f (before.foldl f s) a) := by
          rw [List.foldl_append, List.foldl_cons]
      _ = (before ++ after).foldl f (f s a) := by rw [foldl_pull hbefore, List.foldl_append]
      _ = (a :: l).foldl f s := ih hrest hsorted (h.sublist hsub) (f s a)

/-- Lists in which each entry is allowed before all later ones, if every one of them is permuted on its own and any two of
its entries may change places. -/
lemma pairwise_flatten_of_perm {r d : α → α → Prop} {rows order : List (List α)} (h : List.Forall₂ List.Perm order rows)
    (hd : ∀ {a b}, d a b → d b a) (hsub : ∀ a b, d a b → r a b) (hrow : ∀ row ∈ rows, row.Pairwise d)
    (hcross : rows.Pairwise fun row row' => ∀ a ∈ row, ∀ b ∈ row', r a b) : order.flatten.Pairwise r := by
  induction h with
  | nil => exact .nil
  | @cons row' row order rows hperm hrest ih =>
    obtain ⟨hfirst, hrow⟩ := List.forall_mem_cons.1 hrow
    obtain ⟨hnext, hcross⟩ := List.pairwise_cons.1 hcross
    have hinner : row'.Pairwise d := (hperm.pairwise_iff fun hab => hd hab).2 hfirst
    rw [List.flatten_cons, List.pairwise_append]
    refine ⟨hinner.imp fun hab => hsub _ _ hab, ih hrow hcross, fun a ha b hb => ?_⟩
    have hflatten : order.flatten.Perm rows.flatten := List.Perm.flatten_congr hrest
    obtain ⟨other, hother, hb⟩ := List.mem_flatten.1 (hflatten.mem_iff.1 hb)
    exact hnext other hother a (hperm.mem_iff.1 ha) b hb

end Reordering

namespace Circuit

section Rows

variable {rows : List (List ℕ)} {level : ℕ}

/-- The rows, and an empty one after them if it is asked for. -/
def openRow (rows : List (List ℕ)) (level : ℕ) : List (List ℕ) := if level = rows.length then rows ++ [[]] else rows

/-- Opening makes sure that there is a row. -/
lemma lt_length_openRow (h : level ≤ rows.length) : level < (openRow rows level).length := by
  rw [openRow]
  split
  case isTrue hnew => simp [hnew]
  case isFalse hold => omega

/-- Opening drops no row. -/
lemma length_le_openRow (rows : List (List ℕ)) (level : ℕ) : rows.length ≤ (openRow rows level).length := by
  rw [openRow]
  split <;> simp

/-- Opening adds empty rows alone. -/
lemma getD_openRow (rows : List (List ℕ)) (level l : ℕ) : (openRow rows level).getD l [] = rows.getD l [] := by
  rw [openRow]
  split
  case isTrue =>
    rcases lt_or_ge l rows.length with hl | hl
    · rw [List.getD_append _ _ _ _ hl]
    · rw [List.getD_append_right _ _ _ _ hl, List.getD_eq_default _ _ hl]
      cases l - rows.length <;> rfl
  case isFalse => rfl

/-- The indices in the rows are not touched by opening one. -/
lemma flatten_openRow (rows : List (List ℕ)) (level : ℕ) : (openRow rows level).flatten = rows.flatten := by
  rw [openRow]
  split <;> simp

/-- The rows with an index added at the end of one of them, which may be a new one. -/
def extendRow (rows : List (List ℕ)) (level index : ℕ) : List (List ℕ) :=
  (openRow rows level).modify level (· ++ [index])

/-- Extending makes sure that there is a row. -/
lemma lt_length_extendRow (h : level ≤ rows.length) (index : ℕ) : level < (extendRow rows level index).length := by
  rw [extendRow, List.length_modify]
  exact lt_length_openRow h

/-- Extending drops no row. -/
lemma length_le_extendRow (rows : List (List ℕ)) (level index : ℕ) :
    rows.length ≤ (extendRow rows level index).length := by
  rw [extendRow, List.length_modify]
  exact length_le_openRow rows level

/-- Only the extended row changes. -/
lemma getD_extendRow (h : level ≤ rows.length) (index l : ℕ) :
    (extendRow rows level index).getD l [] = if l = level then rows.getD l [] ++ [index] else rows.getD l [] := by
  have hlevel := lt_length_openRow h
  rw [extendRow, ← getD_openRow rows level l, List.getD_eq_getElem?_getD, List.getD_eq_getElem?_getD,
    List.getElem?_modify]
  by_cases hl : l = level
  · subst hl
    simp [hlevel]
  · simp [hl, Ne.symm hl]

/-- A row that gets an index adds this index to the whole. -/
lemma flatten_modify_perm (rows : List (List ℕ)) (h : level < rows.length) (index : ℕ) :
    (rows.modify level (· ++ [index])).flatten.Perm (index :: rows.flatten) := by
  induction rows generalizing level with
  | nil => exact absurd h (Nat.not_lt_zero _)
  | cons row rows ih =>
    cases level with
    | zero =>
      rw [List.modify_zero_cons, List.flatten_cons, List.append_assoc]
      exact List.perm_middle
    | succ level =>
      rw [List.modify_succ_cons, List.flatten_cons]
      exact ((ih (Nat.lt_of_succ_lt_succ h)).append_left row).trans List.perm_middle

/-- Extending adds its index to the whole and nothing else. -/
lemma flatten_extendRow_perm (h : level ≤ rows.length) (index : ℕ) :
    (extendRow rows level index).flatten.Perm (index :: rows.flatten) := by
  rw [extendRow, ← flatten_openRow rows level]
  exact flatten_modify_perm _ (lt_length_openRow h) index

end Rows

namespace Schedule

variable {s : Schedule} {wiresOf : ℕ → List ℕ} {count : ℕ}

/-- The number of layers up to the last one that uses a wire. -/
def lastUse (s : Schedule) (q : ℕ) : ℕ := s.used.getD q 0

/-- The layers as lists. -/
def rows (s : Schedule) : List (List ℕ) := (s.layers.map Array.toList).toList

/-- The indices in a layer, none if there is no such layer. -/
def row (s : Schedule) (l : ℕ) : List ℕ := s.rows.getD l []

/-- A row in range is an entry of the list of rows. -/
lemma row_eq_getElem {l : ℕ} (hl : l < s.rows.length) : s.row l = s.rows[l] := List.getD_eq_getElem _ _ hl

/-- A row that holds an index is one of the rows. -/
lemma row_mem_rows {l i : ℕ} (hi : i ∈ s.row l) : s.row l ∈ s.rows := by
  have hl : l < s.rows.length := by
    by_contra hl
    rw [row, List.getD_eq_default _ _ (not_lt.1 hl)] at hi
    cases hi
  rw [row_eq_getElem hl]
  exact List.getElem_mem hl

/-- The level of an instruction comes after all uses of its wires, and is the least that does. -/
lemma levelOf_le_iff {wires : List ℕ} {m : ℕ} : s.levelOf wires ≤ m ↔ ∀ q ∈ wires, s.lastUse q ≤ m := by
  have hfold (level : ℕ) : wires.foldl (fun level q => max level (s.used.getD q 0)) level ≤ m ↔
      level ≤ m ∧ ∀ q ∈ wires, s.lastUse q ≤ m := by
    induction wires generalizing level with
    | nil => simp
    | cons q wires ih => rw [List.foldl_cons, ih, List.forall_mem_cons, max_le_iff, and_assoc, lastUse]
  rw [levelOf, hfold]
  exact ⟨And.right, fun h => ⟨Nat.zero_le m, h⟩⟩

/-- Placing on a wire comes after its last use. -/
lemma lastUse_le_levelOf {wires : List ℕ} {q : ℕ} (hq : q ∈ wires) : s.lastUse q ≤ s.levelOf wires :=
  levelOf_le_iff.1 le_rfl q hq

/-- Placing extends the row of the level that the wires allow. -/
lemma rows_place (s : Schedule) (index : ℕ) (wires : List ℕ) :
    (s.place index wires).rows = extendRow s.rows (s.levelOf wires) index := by
  have hmodify (L : List (Array ℕ)) (k : ℕ) :
      (L.modify k (·.push index)).map Array.toList = (L.map Array.toList).modify k (· ++ [index]) := by
    refine List.ext_getElem? fun l => ?_
    rw [List.getElem?_map, List.getElem?_modify, List.getElem?_modify, List.getElem?_map]
    cases L[l]? with
    | none => rfl
    | some layer => by_cases hkl : k = l <;> simp [hkl]
  rw [place, rows, extendRow, openRow, rows]
  dsimp only
  rw [Array.toList_map, Array.toList_modify, hmodify]
  split <;> simp_all

/-- Every wire of the instruction is used up to its level, and no other wire is used. -/
lemma lastUse_place {wires : List ℕ} (hrange : ∀ q ∈ wires, q < s.used.size) (index p : ℕ) :
    (s.place index wires).lastUse p = if p ∈ wires then s.levelOf wires + 1 else s.lastUse p := by
  rw [place, lastUse, lastUse]
  dsimp only
  generalize s.levelOf wires + 1 = level
  generalize s.used = used at hrange ⊢
  induction wires generalizing used with
  | nil => simp
  | cons q wires ih =>
    rw [List.forall_mem_cons] at hrange
    have hset : (used.setIfInBounds q level).getD p 0 = if p = q then level else used.getD p 0 := by
      rw [Array.getD_eq_getD_getElem?, Array.getElem?_setIfInBounds, Array.getD_eq_getD_getElem?]
      split
      case isTrue heq => simp [← heq, hrange.1]
      case isFalse hne => rw [if_neg (Ne.symm hne)]
    rw [List.foldl_cons, ih _ (by simpa using hrange.2), hset]
    by_cases hp : p = q <;> simp [hp]

/-- Placing keeps the number of wires. -/
lemma size_used_place (s : Schedule) (index : ℕ) (wires : List ℕ) : (s.place index wires).used.size = s.used.size := by
  rw [place]
  dsimp only
  generalize s.levelOf wires + 1 = level
  generalize s.used = used
  induction wires generalizing used with
  | nil => rfl
  | cons q wires ih => rw [List.foldl_cons, ih, Array.size_setIfInBounds]

/-- What holds of a schedule of the leading instructions and is kept when the next one is placed holds once all of them
are placed. -/
theorem foldl_place {R : Type} {P : ℕ → Schedule → Prop} {ops : List (Instruction R)} (h : P count s)
    (hplace : ∀ count s, P count s → (∀ q ∈ wiresOf count, q < s.used.size) →
      P (count + 1) (s.place count (wiresOf count)))
    (hwires : ∀ i op, ops[i]? = some op → wiresOf (count + i) = op.wires)
    (hrange : ∀ op ∈ ops, ∀ q ∈ op.wires, q < s.used.size) :
    P (count + ops.length) ((ops.zipIdx count).foldl (fun s (op, index) => s.place index op.wires) s) := by
  induction ops generalizing s count with
  | nil => exact h
  | cons op ops ih =>
    rw [List.forall_mem_cons] at hrange
    have hop : wiresOf count = op.wires := hwires 0 op rfl
    have hnext := hplace count s h (hop ▸ hrange.1)
    rw [hop] at hnext
    rw [List.zipIdx_cons, List.foldl_cons, List.length_cons, ← add_assoc, add_right_comm]
    refine ih hnext (fun i op' hi => ?_) ?_
    · rw [add_assoc, add_comm 1]
      exact hwires (i + 1) op' hi
    · rw [size_used_place]
      exact hrange.2

/-- A schedule of the first `count` instructions, where instruction `i` uses the wires `wiresOf i`. -/
structure Sound (wiresOf : ℕ → List ℕ) (count : ℕ) (s : Schedule) : Prop where
  perm : s.rows.flatten.Perm (List.range count)
  lastUse_le : ∀ q, s.lastUse q ≤ s.rows.length
  /-- A wire is used up to the layer of each of its instructions. -/
  lt_lastUse : ∀ l i q, i ∈ s.row l → q ∈ wiresOf i → l < s.lastUse q
  disjoint : ∀ l, (s.row l).Pairwise fun i j => (wiresOf i).Disjoint (wiresOf j)
  /-- An instruction of an earlier layer comes before those of the later ones that it shares a wire with. -/
  lt_or_disjoint : ∀ l l' i j, l < l' → i ∈ s.row l → j ∈ s.row l' → i < j ∨ (wiresOf i).Disjoint (wiresOf j)

namespace Sound

/-- The rows of a sound schedule only hold indices that have been placed. -/
lemma mem_row_lt (h : s.Sound wiresOf count) {l i : ℕ} (hi : i ∈ s.row l) : i < count :=
  List.mem_range.1 (h.perm.mem_iff.1 (List.mem_flatten.2 ⟨_, row_mem_rows hi, hi⟩))

/-- An instruction shares no wire with a layer that starts at its level or later. -/
lemma disjoint_of_levelOf_le (h : s.Sound wiresOf count) {l i : ℕ} {wires : List ℕ} (hl : s.levelOf wires ≤ l)
    (hi : i ∈ s.row l) : (wiresOf i).Disjoint wires := by
  intro q hq hwires
  exact absurd (h.lt_lastUse l i q hi hq) (not_lt.2 ((lastUse_le_levelOf hwires).trans hl))

/-- In a sound schedule the level for some wires is one of the rows or the next after them. -/
lemma levelOf_le (h : s.Sound wiresOf count) (wires : List ℕ) : s.levelOf wires ≤ s.rows.length :=
  levelOf_le_iff.2 fun q _ => h.lastUse_le q

/-- Placing changes the row of its level and no other. -/
lemma row_place (h : s.Sound wiresOf count) (index : ℕ) (wires : List ℕ) (l : ℕ) :
    (s.place index wires).row l = if l = s.levelOf wires then s.row l ++ [index] else s.row l := by
  rw [row, rows_place, getD_extendRow (h.levelOf_le wires), row]

/-- An entry of a row is an old one, or the new one at its level. -/
lemma mem_row_place (h : s.Sound wiresOf count) {index l i : ℕ} {wires : List ℕ} :
    i ∈ (s.place index wires).row l ↔ i ∈ s.row l ∨ l = s.levelOf wires ∧ i = index := by
  rw [h.row_place]
  split
  case isTrue heq => simp [heq]
  case isFalse hne => simp [hne]

/-- Placing the next instruction keeps the schedule sound. -/
theorem place (h : s.Sound wiresOf count) (hrange : ∀ q ∈ wiresOf count, q < s.used.size) :
    (s.place count (wiresOf count)).Sound wiresOf (count + 1) where
  perm := by
    rw [rows_place, List.range_succ]
    exact (flatten_extendRow_perm (h.levelOf_le _) count).trans
      ((h.perm.cons count).trans (List.perm_append_singleton count _).symm)
  lastUse_le q := by
    rw [lastUse_place hrange, rows_place]
    split
    case isTrue => exact lt_length_extendRow (h.levelOf_le _) count
    case isFalse => exact (h.lastUse_le q).trans (length_le_extendRow _ _ _)
  lt_lastUse l i q hi hq := by
    rw [lastUse_place hrange]
    rcases h.mem_row_place.1 hi with hold | ⟨rfl, rfl⟩
    · have hlt := h.lt_lastUse l i q hold hq
      split
      case isTrue hwires => exact (hlt.trans_le (lastUse_le_levelOf hwires)).trans (Nat.lt_succ_self _)
      case isFalse => exact hlt
    · rw [if_pos hq]
      exact Nat.lt_succ_self _
  disjoint l := by
    rw [h.row_place]
    split
    case isTrue heq =>
      refine List.pairwise_append.2 ⟨h.disjoint l, List.pairwise_singleton _ _, fun i hi j hj => ?_⟩
      rw [List.mem_singleton.1 hj]
      exact h.disjoint_of_levelOf_le heq.ge hi
    case isFalse => exact h.disjoint l
  lt_or_disjoint l l' i j hll hi hj := by
    rcases h.mem_row_place.1 hi with hiold | ⟨rfl, rfl⟩
    · rcases h.mem_row_place.1 hj with hjold | ⟨-, rfl⟩
      · exact h.lt_or_disjoint l l' i j hll hiold hjold
      · exact .inl (h.mem_row_lt hiold)
    · -- the new one is the last of all, and shares no wire with the layers after its own
      rcases h.mem_row_place.1 hj with hjold | ⟨rfl, -⟩
      · exact .inr (h.disjoint_of_levelOf_le hll.le hjold).symm
      · exact absurd hll (lt_irrefl _)

/-- No instruction has been placed at the start. -/
lemma empty (width : ℕ) : (⟨Array.replicate width 0, #[]⟩ : Schedule).Sound wiresOf 0 := by
  have hrow (l : ℕ) : (⟨Array.replicate width 0, #[]⟩ : Schedule).row l = [] := by simp [row, rows]
  have huse (q : ℕ) : (⟨Array.replicate width 0, #[]⟩ : Schedule).lastUse q = 0 := by
    rw [lastUse, Array.getD_eq_getD_getElem?, Array.getElem?_replicate]
    split <;> rfl
  constructor
  case perm => simp [rows]
  case lastUse_le => exact fun q => (huse q).trans_le (Nat.zero_le _)
  case lt_lastUse =>
    intro l i q hi
    rw [hrow] at hi
    cases hi
  case disjoint =>
    intro l
    rw [hrow]
    exact .nil
  case lt_or_disjoint =>
    intro l l' i j _ hi
    rw [hrow] at hi
    cases hi

end Sound

end Schedule

section Order

variable {R : Type} {c : Circuit R}

/-- The wires of the instruction of an index. -/
def wiresAt (c : Circuit R) (i : ℕ) : List ℕ := (c.instructions[i]?.map Instruction.wires).getD []

/-- The wires recorded for a place are those of the instruction there. -/
lemma wiresAt_of_getElem? {i : ℕ} {op : Instruction R} (hop : c.instructions.toList[i]? = some op) :
    c.wiresAt (0 + i) = op.wires := by
  rw [wiresAt, zero_add, ← Array.getElem?_toList, hop]
  rfl

/-- What holds at the start and is kept when an instruction is placed holds of the schedule of the whole circuit, if all
operands are wires of it. -/
theorem schedule_induction {P : ℕ → Schedule → Prop} (h : ∀ op ∈ c.instructions, ∀ q ∈ op.wires, q < c.width)
    (hstart : P 0 ⟨Array.replicate c.width 0, #[]⟩)
    (hplace : ∀ count s, P count s → (∀ q ∈ c.wiresAt count, q < s.used.size) →
      P (count + 1) (s.place count (c.wiresAt count))) : P c.size c.schedule := by
  have hrange : ∀ op ∈ c.instructions.toList, ∀ q ∈ op.wires, q < (Array.replicate c.width 0).size := by
    simpa using h
  have hall := Schedule.foldl_place hstart hplace (fun _ _ => wiresAt_of_getElem?) hrange
  rwa [zero_add] at hall

/-- The schedule of a circuit whose wires are in range is sound. -/
lemma schedule_sound_of_range (h : ∀ op ∈ c.instructions, ∀ q ∈ op.wires, q < c.width) :
    c.schedule.Sound c.wiresAt c.size :=
  schedule_induction h (.empty c.width) fun _ _ hsound => hsound.place

/-- The schedule of a circuit is sound if its instructions are placed on its wires. -/
theorem schedule_sound (h : ∀ op ∈ c.instructions, op.IsPlaced c.width) : c.schedule.Sound c.wiresAt c.size :=
  schedule_sound_of_range fun op hop => (h op hop).range

/-- The circuit with its instructions in the order of a list of indices. -/
def reordered (c : Circuit R) (order : List ℕ) : Circuit R :=
  { c with instructions := (order.filterMap (c.instructions[·]?)).toArray }

/-- Reordering by the order that there is changes nothing. -/
lemma reordered_range (c : Circuit R) : c.reordered (List.range c.size) = c := by
  have hmap : (List.range c.size).map (c.instructions[·]?) = c.instructions.toList.map some := by
    refine List.ext_getElem (by simp [size]) fun i hi hi' => ?_
    have hsize : i < c.instructions.size := by simpa using hi'
    simp [hsize]
  have hlist : (List.range c.size).filterMap (c.instructions[·]?) = c.instructions.toList :=
    calc (List.range c.size).filterMap (c.instructions[·]?)
        = ((List.range c.size).map (c.instructions[·]?)).filterMap id := by rw [List.filterMap_map]; rfl
      _ = c.instructions.toList := by rw [hmap, List.filterMap_map]; exact List.filterMap_some
  rw [reordered, hlist]

/-- The instruction of an index, applied to a state; none, if there is no such instruction. -/
def applyAt [Scalar R] {n : ℕ} (c : Circuit R) (s : Statevector R n) (i : ℕ) : Statevector R n :=
  match c.instructions[i]? with
  | some op => s.apply op
  | none => s

/-- Running a reordered circuit applies its instructions in the new order. -/
lemma foldl_reordered [Scalar R] {n : ℕ} (c : Circuit R) (order : List ℕ) (s : Statevector R n) :
    (c.reordered order).instructions.foldl (fun s op => s.apply op) s = order.foldl c.applyAt s := by
  rw [reordered]
  dsimp only
  rw [List.foldl_toArray, List.foldl_filterMap]
  congr 1
  funext s i
  rw [applyAt]
  cases c.instructions[i]? <;> rfl

end Order

section Running

variable {n : ℕ} {c : Circuit ℝ}

/-- Instructions on disjoint wires commute. -/
lemma apply_comm {a b : Instruction ℝ} (ha : a.IsPlaced n) (hb : b.IsPlaced n) (h : a.wires.Disjoint b.wires)
    (s : Statevector ℝ n) : (s.apply a).apply b = (s.apply b).apply a := by
  have hcomm : b.operator n * a.operator n = a.operator n * b.operator n := by
    rw [ha.operator_eq, hb.operator_eq]
    exact operandsOperator_comm hb.nodup hb.range ha.nodup ha.range h.symm
  refine Statevector.amplitude_injective fun i => congrFun ?_ i
  rw [hb.amplitude_apply, ha.amplitude_apply, ha.amplitude_apply, hb.amplitude_apply, Matrix.mulVec_mulVec,
    Matrix.mulVec_mulVec, hcomm]

/-- Instructions on disjoint wires commute, as maps of states. -/
lemma commutes_applyAt (h : ∀ op ∈ c.instructions, op.IsPlaced n) {i j : ℕ}
    (hdisj : (c.wiresAt i).Disjoint (c.wiresAt j)) : Commutes (c.applyAt (n := n)) i j := by
  intro s
  cases hi : c.instructions[i]? with
  | none => simp [applyAt, hi]
  | some a =>
    cases hj : c.instructions[j]? with
    | none => simp [applyAt, hj]
    | some b =>
      simp only [wiresAt, hi, hj, Option.map_some, Option.getD_some] at hdisj
      simpa [applyAt, hi, hj] using
        apply_comm (h a (Array.mem_of_getElem? hi)) (h b (Array.mem_of_getElem? hj)) hdisj s

/-- Permuting inside the layers permutes the whole circuit. -/
lemma flatten_layers_perm (h : ∀ op ∈ c.instructions, op.IsPlaced c.width) {order : List (List ℕ)}
    (horder : List.Forall₂ List.Perm order c.layers) : order.flatten.Perm (List.range c.size) :=
  (List.Perm.flatten_congr horder).trans (schedule_sound h).perm

/-- Running the layers of a schedule one after the other, each in any order, is running the instructions in order. -/
lemma foldl_applyAt_layers (h : ∀ op ∈ c.instructions, op.IsPlaced c.width) {order : List (List ℕ)}
    (horder : List.Forall₂ List.Perm order c.layers) (s : Statevector ℝ c.width) :
    order.flatten.foldl c.applyAt s = (List.range c.size).foldl c.applyAt s := by
  have hsound := schedule_sound h
  refine foldl_eq_of_perm (flatten_layers_perm h horder) List.pairwise_lt_range ?_ s
  refine pairwise_flatten_of_perm (d := fun i j => (c.wiresAt i).Disjoint (c.wiresAt j)) horder
    (fun hdisj => hdisj.symm) (fun i j hdisj => .inr (commutes_applyAt h hdisj)) ?_ ?_
  · intro row hrow
    obtain ⟨l, hl, rfl⟩ := List.getElem_of_mem hrow
    have hdisj := hsound.disjoint l
    rwa [Schedule.row_eq_getElem hl] at hdisj
  · refine List.pairwise_iff_getElem.2 fun l l' hl hl' hll i hi j hj => ?_
    refine (hsound.lt_or_disjoint l l' i j hll ?_ ?_).imp_right (commutes_applyAt h)
    · rwa [Schedule.row_eq_getElem hl]
    · rwa [Schedule.row_eq_getElem hl']

/-- Running layer by layer does what running in the order of the circuit does, whatever the order inside each layer. -/
lemma run_layers (h : ∀ op ∈ c.instructions, op.IsPlaced c.width) {order : List (List ℕ)}
    (horder : List.Forall₂ List.Perm order c.layers) (s : Statevector ℝ c.width) :
    s.run (c.reordered order.flatten) = s.run c := by
  have hfold := foldl_applyAt_layers h horder s
  rw [← foldl_reordered, ← foldl_reordered, reordered_range] at hfold
  rw [Statevector.run, hfold]
  rfl

/-- The dense operator depends on the runs of a circuit alone. -/
lemma operator_congr {ops : Array (Instruction ℝ)}
    (h : ∀ s : Statevector ℝ c.width, s.run { c with instructions := ops } = s.run c) :
    operator { c with instructions := ops } = c.operator := by
  simp only [operator, h]

/-- The layers of a built circuit hold every instruction once. Taking them one after the other, with the instructions of
each layer in any order, sends every state where the circuit sends it and has the operator of the circuit. -/
theorem layers_spec (hc : c.Built) {order : List (List ℕ)} (h : List.Forall₂ List.Perm order c.layers) :
    order.flatten.Perm (List.range c.size) ∧
    (∀ s : Statevector ℝ c.width, s.applyCircuit (c.reordered order.flatten) = s.applyCircuit c) ∧
    (c.reordered order.flatten).operator = c.operator := by
  have hrun := run_layers hc.isPlaced h
  refine ⟨flatten_layers_perm hc.isPlaced h, fun s => ?_, ?_⟩
  · rw [Statevector.applyCircuit, Statevector.applyCircuit, hrun]
    rfl
  · exact operator_congr hrun

end Running

section Example

/-- A phase of a quarter turn, as a gate without operands. -/
def quarterPhase : MatrixGate ℝ := ⟨"phase", 0, #[⟨0, 1⟩]⟩

/-- Three gates that share no wire, and one that depends on two of them. -/
def spreadTrio : Circuit ℝ :=
  ⟨"trio", 3, #[⟨.standard .cx, [0, 1]⟩, ⟨.standard .h, [2]⟩, ⟨.matrix quarterPhase, []⟩, ⟨.standard .cz, [1, 2]⟩], 0⟩

/-- The circuit is put together by calls of the builder. -/
lemma spreadTrio_built : spreadTrio.Built := by
  have hmade : MatrixGate.make "phase" 0 quarterPhase.entries = .ok quarterPhase := rfl
  have hlink : (⟨.standard .cx, [0, 1]⟩ : Instruction ℝ).IsPlaced 3 := Instruction.check_eq_ok_iff.1 rfl
  have hturn : (⟨.standard .h, [2]⟩ : Instruction ℝ).IsPlaced 3 := Instruction.check_eq_ok_iff.1 rfl
  have hphase : (⟨.matrix quarterPhase, []⟩ : Instruction ℝ).IsPlaced 3 := Instruction.check_eq_ok_iff.1 rfl
  have hsign : (⟨.standard .cz, [1, 2]⟩ : Instruction ℝ).IsPlaced 3 := Instruction.check_eq_ok_iff.1 rfl
  exact ((((Built.empty "trio" 3).push (.standard _) hlink).push (.standard _) hturn).push (.matrix hmade) hphase).push
    (.standard _) hsign

/-- The first three instructions share a layer, and the fourth needs the next. -/
lemma spreadTrio_layers : spreadTrio.layers = [[0, 1, 2], [3]] := by
  simp [layers, schedule, Schedule.place, Schedule.levelOf, spreadTrio]

/-- The first layer may be turned round. -/
lemma spreadTrio_order : List.Forall₂ List.Perm [[2, 1, 0], [3]] spreadTrio.layers := by
  rw [spreadTrio_layers]
  exact .cons (by decide) (.cons (by decide) .nil)

/-- The circuit with its first layer turned round acts as before. -/
theorem layers_spec_spreadTrio :
    spreadTrio.Built ∧ List.Forall₂ List.Perm [[2, 1, 0], [3]] spreadTrio.layers ∧
    (∀ s : Statevector ℝ 3, s.applyCircuit (spreadTrio.reordered [2, 1, 0, 3]) = s.applyCircuit spreadTrio) ∧
    (spreadTrio.reordered [2, 1, 0, 3]).operator = spreadTrio.operator :=
  ⟨spreadTrio_built, spreadTrio_order, (layers_spec spreadTrio_built spreadTrio_order).2⟩

end Example

end Circuit

end CircuitSynthesis

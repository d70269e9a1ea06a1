import Mathlib.Data.Fin.SuccPred
import Mathlib.Data.List.OfFn
import TypedTree.Proofs.Tree.Equivalence

/-! Sets from values. Of the given values a set keeps those that equal none before them, and these are the distinct ones
    that a set type asks for. Equality is not reflexive, for a NaN differs from itself; but it is transitive, so a value
    that equals an earlier one also equals the first of them all, which is kept. -/

namespace TypedTree
namespace Value

/-! ### Transitivity -/

section Equality
variable {items xs ys : List Value} {n : Node} {v w : Value}

theorem beqItems_iff : beqItems xs ys = true ↔ List.Forall₂ (fun x y => (x == y) = true) xs ys := by
  induction xs generalizing ys with
  | nil => cases ys <;> simp [beqItems]
  | cons x xs ih =>
    cases ys with
    | nil => simp [beqItems]
    | cons y ys =>
      rw [beqItems, Bool.and_eq_true, List.forall₂_cons, ih]
      rfl

theorem beq_node_iff : (node n == w) = true ↔ ∃ m, w = .node m ∧ (n == m) = true := by
  constructor
  · intro h
    cases w with
    | node m => exact ⟨m, rfl, h⟩
    | _ => exact absurd h Bool.false_ne_true
  · rintro ⟨m, rfl, h⟩
    exact h

theorem beq_list_iff :
    (list items == w) = true ↔ ∃ ys, w = .list ys ∧ List.Forall₂ (fun x y => (x == y) = true) items ys := by
  constructor
  · intro h
    cases w with
    | list ys => exact ⟨ys, rfl, beqItems_iff.mp h⟩
    | _ => exact absurd h Bool.false_ne_true
  · rintro ⟨ys, rfl, h⟩
    exact beqItems_iff.mpr h

theorem beq_set_iff :
    (set items == w) = true ↔ ∃ ys, w = .set ys ∧ List.Forall₂ (fun x y => (x == y) = true) items ys := by
  constructor
  · intro h
    cases w with
    | set ys => exact ⟨ys, rfl, beqItems_iff.mp h⟩
    | _ => exact absurd h Bool.false_ne_true
  · rintro ⟨ys, rfl, h⟩
    exact beqItems_iff.mpr h

/-- A value without nodes and items is compared by its content, with values of its own kind. -/
theorem beq_of_plain (hnode : v.asNode? = none) (hitems : v.items? = none) (w : Value) :
    v.sameContent w = (v == w) ∧ ((v == w) = true → w.asNode? = none ∧ w.items? = none) := by
  cases v with
  | node => cases hnode
  | list => cases hitems
  | set => cases hitems
  | _ => cases w <;> refine ⟨rfl, fun h => ?_⟩ <;> first | exact ⟨rfl, rfl⟩ | exact absurd h Bool.false_ne_true

theorem beq_trans (u v w : Value) (h : (u == v) = true) (h' : (v == w) = true) : (u == w) = true := by
  match u with
  | .node a =>
    obtain ⟨b, rfl, hab⟩ := beq_node_iff.mp h
    obtain ⟨c, rfl, hbc⟩ := beq_node_iff.mp h'
    exact beq_node_iff.mpr ⟨c, rfl, Node.beq_iff.mpr ((Node.beq_iff.mp hab).trans (Node.beq_iff.mp hbc))⟩
  | .list xs =>
    obtain ⟨ys, rfl, hxy⟩ := beq_list_iff.mp h
    obtain ⟨zs, rfl, hyz⟩ := beq_list_iff.mp h'
    refine beq_list_iff.mpr ⟨zs, rfl, forall₂_trans_of_mem hxy hyz fun x hx y _ z _ => ?_⟩
    have := List.sizeOf_lt_of_mem hx
    exact beq_trans x y z
  | .set xs =>
    obtain ⟨ys, rfl, hxy⟩ := beq_set_iff.mp h
    obtain ⟨zs, rfl, hyz⟩ := beq_set_iff.mp h'
    refine beq_set_iff.mpr ⟨zs, rfl, forall₂_trans_of_mem hxy hyz fun x hx y _ z _ => ?_⟩
    have := List.sizeOf_lt_of_mem hx
    exact beq_trans x y z
  | .absent | .int _ | .float _ | .bool _ | .str _ | .enum _ =>
    obtain ⟨hv, hw⟩ := (beq_of_plain rfl rfl v).2 h
    rw [← (beq_of_plain rfl rfl _).1] at h ⊢
    rw [← (beq_of_plain hv hw _).1] at h'
    exact sameContent_trans_of_plain rfl rfl h h'
termination_by sizeOf u

end Equality

/-! ### First positions -/

/-- No value at an earlier position equals the one at `i`. -/
def IsFirst {n : Nat} (f : Fin n → Value) (i : Fin n) : Prop := ∀ j < i, (f j == f i) = false

instance {n : Nat} (f : Fin n → Value) : DecidablePred (IsFirst f) := fun i =>
  inferInstanceAs (Decidable (∀ j < i, (f j == f i) = false))

/-- The positions of the values that equal none before them, in order. -/
def firstPositions (vs : List Value) : List (Fin vs.length) :=
  (List.finRange vs.length).filter fun i => decide (IsFirst vs.get i)

section First
variable {n : Nat} {f : Fin n → Value}

/-- A value that is equalled at all is equalled first at a position of its own. -/
theorem exists_isFirst {v : Value} (j : Fin n) (h : (f j == v) = true) :
    ∃ k ≤ j, IsFirst f k ∧ (f k == v) = true := by
  induction j using WellFoundedLT.induction with
  | ind j ih =>
    by_cases hj : IsFirst f j
    · exact ⟨j, le_refl j, hj, h⟩
    · simp only [IsFirst, not_forall, Bool.not_eq_false] at hj
      obtain ⟨i, hij, hi⟩ := hj
      obtain ⟨k, hki, hk, hkv⟩ := ih i hij (beq_trans _ _ _ hi h)
      exact ⟨k, hki.trans hij.le, hk, hkv⟩

theorem isFirst_castSucc {f : Fin (n + 1) → Value} {i : Fin n} :
    IsFirst f i.castSucc ↔ IsFirst (fun j => f j.castSucc) i := by
  rw [IsFirst, Fin.forall_fin_succ']
  refine ⟨fun h j hj => h.1 j (Fin.castSucc_lt_castSucc_iff.mpr hj), fun h => ⟨fun j hj => ?_, fun hlast => ?_⟩⟩
  · exact h j (Fin.castSucc_lt_castSucc_iff.mp hj)
  · exact absurd hlast (Fin.castSucc_lt_last i).not_gt

theorem isFirst_last {f : Fin (n + 1) → Value} :
    IsFirst f (Fin.last n) ↔ ∀ j : Fin n, (f j.castSucc == f (Fin.last n)) = false := by
  rw [IsFirst, Fin.forall_fin_succ']
  exact ⟨fun h j => h.1 j (Fin.castSucc_lt_last j), fun h => ⟨fun j _ => h j, fun hlast => absurd hlast (lt_irrefl _)⟩⟩

theorem firstOccurrences_concat (vs : List Value) (v : Value) :
    firstOccurrences (vs ++ [v]) =
      firstOccurrences vs ++ if (firstOccurrences vs).any (· == v) then [] else [v] := by
  rw [firstOccurrences, List.foldl_append]
  show (if (firstOccurrences vs).any (· == v) then firstOccurrences vs else firstOccurrences vs ++ [v]) = _
  split
  · rw [List.append_nil]
  · rfl

/-- What is kept stands at the first positions. -/
theorem firstOccurrences_ofFn (f : Fin n → Value) :
    firstOccurrences (List.ofFn f) = ((List.finRange n).filter fun i => decide (IsFirst f i)).map f := by
  induction n with
  | zero => rfl
  | succ n ih =>
    have earlier : ((fun i => decide (IsFirst f i)) ∘ Fin.castSucc) = fun i => decide (IsFirst (fun j => f j.castSucc) i) :=
      funext fun i => decide_eq_decide.mpr isFirst_castSucc
    rw [List.ofFn_succ', List.concat_eq_append, firstOccurrences_concat, ih, List.finRange_succ_last,
      List.filter_append, List.map_append, List.filter_map, List.map_map, earlier]
    refine congrArg (_ ++ ·) ?_
    by_cases hlast : IsFirst f (Fin.last n)
    · have hnew : ∀ j : Fin n, (f j.castSucc == f (Fin.last n)) = false := isFirst_last.mp hlast
      rw [if_neg (by simp [hnew]), List.filter_singleton, decide_eq_true hlast]
      rfl
    · -- The last value equals an earlier one, so also the first that equals it, and that one is kept.
      obtain ⟨j, hj⟩ : ∃ j : Fin n, (f j.castSucc == f (Fin.last n)) = true := by
        simpa [isFirst_last] using hlast
      obtain ⟨k, -, hk, hkv⟩ := exists_isFirst (f := fun j => f j.castSucc) j hj
      rw [if_pos (List.any_eq_true.mpr ⟨f k.castSucc, List.mem_map.mpr ⟨k, by simpa using hk, rfl⟩, hkv⟩),
        List.filter_singleton, decide_eq_false hlast]
      rfl

theorem firstOccurrences_eq (vs : List Value) : firstOccurrences vs = (firstPositions vs).map vs.get := by
  conv_lhs => rw [← List.ofFn_get vs]
  exact firstOccurrences_ofFn vs.get

theorem mem_firstPositions {vs : List Value} {i : Fin vs.length} : i ∈ firstPositions vs ↔ IsFirst vs.get i := by
  simp [firstPositions]

end First

/-! ### What is kept -/

section Kept
variable (vs : List Value)

/-- To be first it is enough to equal no first value before. -/
theorem isFirst_iff_greedy {i : Fin vs.length} :
    IsFirst vs.get i ↔ ∀ j ∈ firstPositions vs, j < i → (vs.get j == vs.get i) = false := by
  refine ⟨fun h j _ hj => h j hj, fun h j hj => ?_⟩
  by_contra heq
  obtain ⟨k, hkj, hk, hki⟩ := exists_isFirst j (Bool.eq_true_of_not_eq_false heq)
  rw [h k (mem_firstPositions.mpr hk) (hkj.trans_lt hj)] at hki
  cases hki

theorem firstOccurrences_sublist : (firstOccurrences vs).Sublist vs := by
  rw [firstOccurrences_eq]
  conv_rhs => rw [← List.map_get_finRange vs]
  exact List.filter_sublist.map vs.get

theorem distinct_firstOccurrences : Distinct (firstOccurrences vs) := by
  rw [firstOccurrences_eq, Distinct, List.pairwise_map]
  have sorted : (firstPositions vs).Pairwise (· < ·) := (List.pairwise_lt_finRange vs.length).filter _
  exact sorted.imp_of_mem fun _ hj hij => mem_firstPositions.mp hj _ hij

/-- Values are all kept if and only if they are distinct. -/
theorem firstOccurrences_eq_self {vs : List Value} : firstOccurrences vs = vs ↔ Distinct vs := by
  refine ⟨fun h => h ▸ distinct_firstOccurrences vs, fun h => ?_⟩
  have all : firstPositions vs = List.finRange vs.length := by
    refine List.filter_eq_self.mpr fun i _ => decide_eq_true fun j hj => ?_
    exact List.pairwise_iff_get.mp h j i hj
  rw [firstOccurrences_eq, all, List.map_get_finRange]

end Kept

/-! ### Admission -/

/-- No type admits a set in which a value equals an earlier one. -/
theorem not_admits_of_repeated {vs : List Value} (h : ¬Distinct vs) (type : FieldType) : type.admits (.set vs) = false := by
  induction type with
  | optional inner ih => exact ih
  | scalar s => cases s <;> rfl
  | node cls => rfl
  | list item => rfl
  | set item => rw [FieldType.admits, decide_eq_false h, Bool.and_false]

/-- The set of some values keeps of them, in their order, those that equal none before; equivalently, each that equals
    none kept before. No two kept values are equal, and a value that equals itself equals one that is kept at its own
    position or earlier. So the set of what is kept is the same, everything is kept just if it is distinct, and a set type
    admits the set just if the type of its items admits what is kept. Values of which one equals an earlier one, put in a
    set as they are, are admitted by no type. -/
theorem admits_setOf (vs : List Value) : ∃ kept, setOf vs = .set kept ∧
    kept.Sublist vs ∧ Distinct kept ∧
    kept = (firstPositions vs).map vs.get ∧
    (∀ i, i ∈ firstPositions vs ↔ ∀ j ∈ firstPositions vs, j < i → (vs.get j == vs.get i) = false) ∧
    (∀ i, (vs.get i == vs.get i) = true → ∃ j ∈ firstPositions vs, j ≤ i ∧ (vs.get j == vs.get i) = true) ∧
    setOf kept = setOf vs ∧
    (setOf vs = .set vs ↔ Distinct vs) ∧
    (∀ item, (FieldType.set item).admits (setOf vs) = true ↔ ∀ v ∈ kept, item.admits v = true) ∧
    ∀ i j, i < j → (vs.get i == vs.get j) = true → ∀ type : FieldType, type.admits (.set vs) = false := by
  have hdistinct := distinct_firstOccurrences vs
  refine ⟨firstOccurrences vs, rfl, firstOccurrences_sublist vs, hdistinct, firstOccurrences_eq vs, fun i => ?_,
    fun i hi => ?_, ?_, ?_, fun item => ?_, fun i j hij heq => not_admits_of_repeated fun h => ?_⟩
  · rw [mem_firstPositions, isFirst_iff_greedy]
  · obtain ⟨k, hki, hk, heq⟩ := exists_isFirst i hi
    exact ⟨k, mem_firstPositions.mpr hk, hki, heq⟩
  · exact congrArg Value.set (firstOccurrences_eq_self.mpr hdistinct)
  · rw [← firstOccurrences_eq_self, setOf, set.injEq]
  · rw [setOf, FieldType.admits_set_iff]
    exact ⟨fun ⟨_, hkept, hall, _⟩ => set.inj hkept ▸ hall, fun hall => ⟨_, rfl, hall, hdistinct⟩⟩
  · rw [List.pairwise_iff_get.mp h i j hij] at heq
    cases heq

/-- A NaN is kept as often as it is given, and of the zeros the first one. -/
example : setOf [.float ⟨0x7FF8000000000000⟩, .float ⟨0⟩, .float ⟨0x8000000000000000⟩, .float ⟨0x7FF8000000000000⟩] =
    .set [.float ⟨0x7FF8000000000000⟩, .float ⟨0⟩, .float ⟨0x7FF8000000000000⟩] := rfl

end Value
end TypedTree

import TypedTree.Proofs.Tree.Reading

/-! Trees that differ in the fields of one name only. The two have nodes of the same variants in the same places, and
    what the other fields hold is the same: numbers bit by bit, everything else as it is compared by content, whatever
    the identities. So every other field is read alike in both. -/

namespace TypedTree

mutual

/-- Whether the trees are the same but for the values of the fields named `label`, in nodes at any depth. Floats are
    compared bit by bit, which is finer than `Node.sameContent`: 0.0 and -0.0 differ, and a NaN agrees with one of equal
    bits. For a sign is part of what a field holds, and only the fields named `label` may hold something else; and a
    tree is the same as itself, whatever floats are in it. -/
def Node.sameBut (label : String) : Node → Node → Bool
  | .mk _ v xs, .mk _ w ys => v == w && sameButFields label v.fields xs ys
termination_by structural n => n

def Value.sameBut (label : String) : Value → Value → Bool
  | .node a, .node b => a.sameBut label b
  | .list xs, .list ys => sameButItems label xs ys
  | .set xs, .set ys => sameButItems label xs ys
  | .float x, .float y => x == y
  | v, w => v == w

def sameButItems (label : String) : List Value → List Value → Bool
  | [], [] => true
  | x :: xs, y :: ys => x.sameBut label y && sameButItems label xs ys
  | _, _ => false

def sameButFields (label : String) : List Field → List Value → List Value → Bool
  | [], [], [] => true
  | f :: fs, x :: xs, y :: ys => (f.name == label || x.sameBut label y) && sameButFields label fs xs ys
  | _, _, _ => false

end

variable {label name : String}

/-! ### A tree and itself -/

mutual

theorem Node.sameBut_self : ∀ n : Node, n.Everywhere Node.Complete → n.sameBut label n = true
  | .mk _ v xs, h => by
    rw [Node.Everywhere] at h
    rw [Node.sameBut, beq_self_eq_true, Bool.true_and]
    exact sameButFields_self v.fields xs h.1 h.2

theorem Value.sameBut_self : ∀ v : Value, v.Everywhere Node.Complete → v.sameBut label v = true
  | .node n, h => by
    rw [Value.sameBut]
    exact Node.sameBut_self n (Value.everywhere_node.mp h)
  | .list xs, h => by
    rw [Value.sameBut]
    exact sameButItems_self xs (by rwa [Value.Everywhere] at h)
  | .set xs, h => by
    rw [Value.sameBut]
    exact sameButItems_self xs (by rwa [Value.Everywhere] at h)
  | .float x, _ => beq_self_eq_true x
  | .enum m, _ => by
    show (m.enum.name == m.enum.name && m.member == m.member) = true
    rw [beq_self_eq_true, beq_self_eq_true, Bool.and_self]
  | .absent, _ => rfl
  | .int i, _ => beq_self_eq_true i
  | .bool b, _ => beq_self_eq_true b
  | .str s, _ => beq_self_eq_true s

theorem sameButItems_self : ∀ xs : List Value, ValuesEverywhere Node.Complete xs → sameButItems label xs xs = true
  | [], _ => by rw [sameButItems]
  | x :: xs, h => by rw [sameButItems, Value.sameBut_self x h.1, sameButItems_self xs h.2, Bool.and_self]

theorem sameButFields_self : ∀ (fs : List Field) (xs : List Value), xs.length = fs.length →
    ValuesEverywhere Node.Complete xs → sameButFields label fs xs xs = true
  | [], [], _, _ => by rw [sameButFields]
  | f :: fs, x :: xs, hlen, h => by
    rw [sameButFields, Value.sameBut_self x h.1, sameButFields_self fs xs (Nat.succ.inj hlen) h.2, Bool.or_true,
      Bool.and_self]

end

/-! ### Values -/

namespace Value
variable {v w : Value}

theorem eq_absent_of_sameBut (h : absent.sameBut label w = true) : w = .absent := by
  cases w with
  | absent => rfl
  | _ => cases h

theorem eq_int_of_sameBut {i : Int} (h : (int i).sameBut label w = true) : w = .int i := by
  cases w with
  | int j => exact congrArg int (eq_of_beq (show (i == j) = true from h)).symm
  | _ => cases h

theorem eq_float_of_sameBut {x : Binary64} (h : (float x).sameBut label w = true) : w = .float x := by
  cases w with
  | float y => exact congrArg float (eq_of_beq (show (x == y) = true from h)).symm
  | _ => cases h

theorem eq_bool_of_sameBut {b : Bool} (h : (bool b).sameBut label w = true) : w = .bool b := by
  cases w with
  | bool d => exact congrArg bool (eq_of_beq (show (b == d) = true from h)).symm
  | _ => cases h

theorem eq_str_of_sameBut {s : String} (h : (str s).sameBut label w = true) : w = .str s := by
  cases w with
  | str t => exact congrArg str (eq_of_beq (show (s == t) = true from h)).symm
  | _ => cases h

theorem node_of_sameBut {c : Node} (h : (node c).sameBut label w = true) : ∃ d, w = .node d ∧ c.sameBut label d = true := by
  cases w with
  | node d => exact ⟨d, rfl, by rwa [Value.sameBut] at h⟩
  | _ => cases h

theorem list_of_sameBut {xs : List Value} (h : (list xs).sameBut label w = true) :
    ∃ ys, w = .list ys ∧ List.Forall₂ (fun x y => Value.sameBut label x y = true) xs ys := by
  cases w with
  | list ys =>
    rw [Value.sameBut] at h
    refine ⟨ys, rfl, ?_⟩
    induction xs generalizing ys with
    | nil => cases ys <;> first | exact .nil | cases h
    | cons x xs ih =>
      cases ys with
      | nil => cases h
      | cons y ys =>
        rw [sameButItems, Bool.and_eq_true] at h
        exact .cons h.1 (ih ys h.2)
  | _ => cases h

theorem nodeList_of_sameBut {ns : List Node} (h : (nodeList ns).sameBut label w = true) :
    ∃ ms, w = .nodeList ms ∧ List.Forall₂ (fun n m => Node.sameBut label n m = true) ns ms := by
  obtain ⟨ys, rfl, hys⟩ := list_of_sameBut h
  have nodes : ∀ {ns : List Node} {ys : List Value},
      List.Forall₂ (fun x y => Value.sameBut label x y = true) (ns.map .node) ys →
      ∃ ms, ys = ms.map .node ∧ List.Forall₂ (fun n m => Node.sameBut label n m = true) ns ms := by
    intro ns
    induction ns with
    | nil =>
      intro ys hys
      cases hys
      exact ⟨[], rfl, .nil⟩
    | cons n ns ih =>
      intro ys hys
      obtain _ | ⟨hn, hys⟩ := hys
      obtain ⟨m, rfl, hm⟩ := node_of_sameBut hn
      obtain ⟨ms, rfl, hms⟩ := ih hys
      exact ⟨m :: ms, rfl, .cons hm hms⟩
  obtain ⟨ms, rfl, hms⟩ := nodes hys
  exact ⟨ms, rfl, hms⟩

theorem strs_of_sameBut {names : List String} (h : (list (names.map .str)).sameBut label w = true) :
    w = .list (names.map .str) := by
  obtain ⟨ys, rfl, hys⟩ := list_of_sameBut h
  clear h
  congr 1
  rw [List.forall₂_map_left_iff] at hys
  induction hys with
  | nil => rfl
  | cons hxy _ ih => rw [List.map_cons, eq_str_of_sameBut hxy, ih]

/-- A member is read back alike, from whichever enumeration of the name it was stored. -/
theorem asMember?_of_sameBut {α : Type} [Enumerated α] {a : α} (h : v.sameBut label w = true) (hv : v.asMember? α = some a) :
    w.asMember? α = some a := by
  cases v with
  | enum m =>
    cases w with
    | enum k =>
      have hmk : (m.enum.name == k.enum.name && m.member == k.member) = true := h
      rw [Bool.and_eq_true, beq_iff_eq, beq_iff_eq] at hmk
      rw [← hv]
      simp only [asMember?, EnumMember.get?, hmk.1, hmk.2]
    | _ => cases h
  | _ => cases hv

theorem members_of_sameBut {α : Type} [Enumerated α] {xs : List Value} {as : List α} (h : (list xs).sameBut label w = true)
    (hxs : xs.map (asMember? α) = as.map some) : ∃ ys, w = .list ys ∧ ys.map (asMember? α) = as.map some := by
  obtain ⟨ys, rfl, hys⟩ := list_of_sameBut h
  refine ⟨ys, rfl, ?_⟩
  clear h
  induction hys generalizing as with
  | nil => exact hxs
  | cons hxy _ ih =>
    obtain ⟨a, as, rfl, ha, has⟩ := List.map_eq_cons_iff.mp hxs.symm
    rw [List.map_cons, List.map_cons, asMember?_of_sameBut hxy ha.symm, ih has.symm]

end Value

/-! ### Readers -/

namespace Node
variable {n m : Node}

theorem variant_of_sameBut (h : n.sameBut label m = true) : m.variant = n.variant := by
  obtain ⟨_, v, xs⟩ := n
  obtain ⟨_, w, ys⟩ := m
  rw [sameBut, Bool.and_eq_true] at h
  exact (eq_of_beq h.1).symm

theorem get_of_sameBut {v : Value} (h : n.sameBut label m = true) (hname : name ≠ label) (hn : n.get name = .ok v) :
    ∃ w, m.get name = .ok w ∧ v.sameBut label w = true := by
  -- The fields are gone through together with the values of both nodes, up to the first one of the name.
  have find : ∀ {fs : List Field} {xs ys : List Value} {p : Field × Value}, sameButFields label fs xs ys = true →
      ((fs.zip xs).find? fun e => e.1.name == name) = some p →
      ∃ q, ((fs.zip ys).find? fun e => e.1.name == name) = some q ∧ p.2.sameBut label q.2 = true := by
    intro fs
    induction fs with
    | nil => intro _ _ _ _ hp; cases hp
    | cons f fs ih =>
      intro xs ys p h hp
      cases xs with
      | nil => cases h
      | cons x xs =>
      cases ys with
      | nil => cases h
      | cons y ys =>
        rw [sameButFields, Bool.and_eq_true] at h
        rw [List.zip_cons_cons, List.find?_cons] at hp
        rw [List.zip_cons_cons, List.find?_cons]
        cases hf : f.name == name with
        | true =>
          rw [hf] at hp
          cases hp
          refine ⟨(f, y), rfl, ?_⟩
          have hlabel : (f.name == label) = false := beq_eq_false_iff_ne.mpr fun e => hname ((eq_of_beq hf).symm.trans e)
          rw [hlabel, Bool.false_or] at h
          exact h.1
        | false =>
          rw [hf] at hp
          exact ih h.2 hp
  obtain ⟨_, v', xs⟩ := n
  obtain ⟨_, w', ys⟩ := m
  rw [sameBut, Bool.and_eq_true] at h
  obtain rfl : v' = w' := eq_of_beq h.1
  unfold Node.get at hn
  split at hn
  · next p hp =>
    cases hn
    obtain ⟨q, hq, hpq⟩ := find h.2 hp
    refine ⟨q.2, ?_, hpq⟩
    rw [Node.get, show (Node.mk _ v' ys).fields.find? (fun e => e.1.name == name) = some q from hq]
    rfl
  · cases hn

section Fields
variable (h : n.sameBut label m = true)
include h

theorem getNode_of_sameBut {c : Node} (hn : n.getNode name = .ok c) (hname : name ≠ label := by decide) :
    ∃ d, m.getNode name = .ok d ∧ c.sameBut label d = true := by
  obtain ⟨w, hm, hw⟩ := get_of_sameBut h hname (get_of_getNode hn)
  obtain ⟨d, rfl, hd⟩ := Value.node_of_sameBut hw
  exact ⟨d, getNode_of_get hm, hd⟩

theorem getNode?_of_sameBut {c : Node} (hn : n.getNode? name = .ok (some c)) (hname : name ≠ label := by decide) :
    ∃ d, m.getNode? name = .ok (some d) ∧ c.sameBut label d = true := by
  obtain ⟨w, hm, hw⟩ := get_of_sameBut h hname (get_of_getNode? hn)
  obtain ⟨d, rfl, hd⟩ := Value.node_of_sameBut hw
  exact ⟨d, getNode?_of_get hm, hd⟩

theorem getNode?_none_of_sameBut (hn : n.getNode? name = .ok none) (hname : name ≠ label := by decide) :
    m.getNode? name = .ok none := by
  obtain ⟨w, hm, hw⟩ := get_of_sameBut h hname (get_absent_of_getNode? hn)
  obtain rfl := Value.eq_absent_of_sameBut hw
  exact getNode?_of_get_absent hm

theorem getStr_of_sameBut {s : String} (hn : n.getStr name = .ok s) (hname : name ≠ label := by decide) :
    m.getStr name = .ok s := by
  obtain ⟨w, hm, hw⟩ := get_of_sameBut h hname (get_of_getStr hn)
  obtain rfl := Value.eq_str_of_sameBut hw
  exact getStr_of_get hm

theorem getMember_of_sameBut {α : Type} [Enumerated α] {a : α} (hn : n.getMember α name = .ok a)
    (hname : name ≠ label := by decide) : m.getMember α name = .ok a := by
  obtain ⟨v, hv, ha⟩ := get_of_getMember hn
  obtain ⟨w, hm, hw⟩ := get_of_sameBut h hname hv
  exact getMember_of_get hm (Value.asMember?_of_sameBut hw ha)

theorem nodeList_of_sameBut {ns : List Node} (hn : n.get name = .ok (.nodeList ns))
    (hname : name ≠ label := by decide) :
    ∃ ms, m.get name = .ok (.nodeList ms) ∧ List.Forall₂ (fun n m => Node.sameBut label n m = true) ns ms := by
  obtain ⟨w, hm, hw⟩ := get_of_sameBut h hname hn
  obtain ⟨ms, rfl, hms⟩ := Value.nodeList_of_sameBut hw
  exact ⟨ms, hm, hms⟩

end Fields
end Node
end TypedTree

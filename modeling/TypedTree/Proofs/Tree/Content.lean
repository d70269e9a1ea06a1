import Mathlib.Data.List.Nodup
import TypedTree.Proofs.Tree.Reading
import TypedTree.Schema.Definition
import TypedTree.Tree.Dump
import TypedTree.Tree.Equality

/-! What the document of a tree tells about it. A document names the variant of every node and the fields that have
    values, but members of enumerations look like text there, and sets like lists. In trees built from the variants of
    one schema the declared types tell these apart, so trees with one document have the same content, unless a number
    in them does not even equal itself. -/

namespace TypedTree

/-! ### Symmetry -/

mutual

theorem Value.beq_comm : ∀ v w : Value, Value.beq v w = Value.beq w v
  | .list xs, w => by
    cases w with
    | list ys => rw [Value.beq, Value.beq, Value.beqItems_comm xs ys]
    | _ => rfl
  | .set xs, w => by
    cases w with
    | set ys => rw [Value.beq, Value.beq, Value.beqItems_comm xs ys]
    | _ => rfl
  | .float x, w => by
    cases w with
    | float y => rw [Value.beq, Value.beq, Binary64.numericEq_comm]
    | _ => rfl
  | .enum m, w => by
    cases w with
    | enum k =>
      show (m.enum.name == k.enum.name && m.member == k.member) = (k.enum.name == m.enum.name && k.member == m.member)
      rw [BEq.comm (a := m.enum.name), BEq.comm (a := m.member)]
    | _ => rfl
  | .node a, w => by
    cases w with
    | node b => exact BEq.comm (a := a.id)
    | _ => rfl
  | .absent, w | .int _, w | .bool _, w | .str _, w => by
    cases w <;> simp only [Value.beq, BEq.comm]

theorem Value.beqItems_comm : ∀ xs ys : List Value, Value.beqItems xs ys = Value.beqItems ys xs
  | [], [] | [], _ :: _ | _ :: _, [] => rfl
  | x :: xs, y :: ys => by
    rw [Value.beqItems, Value.beqItems, Value.beq_comm x y, Value.beqItems_comm xs ys]

end

mutual

theorem Node.sameContent_comm : ∀ n m : Node, n.sameContent m = m.sameContent n
  | .mk i v xs, .mk j w ys => by
    rw [Node.sameContent, Node.sameContent, sameContentPairwise_comm xs ys, Variant.sameAs, Variant.sameAs,
      BEq.comm (a := i), BEq.comm (a := v.name)]

theorem Value.sameContent_comm : ∀ v w : Value, v.sameContent w = w.sameContent v
  | .node a, w => by
    cases w with
    | node b => rw [Value.sameContent, Value.sameContent, Node.sameContent_comm a b]
    | _ => rfl
  | .list xs, w => by
    cases w with
    | list ys => rw [Value.sameContent, Value.sameContent, sameContentPairwise_comm xs ys, BEq.comm (a := xs.length)]
    | _ => rfl
  | .set xs, w => by
    cases w with
    | set ys => rw [Value.sameContent, Value.sameContent, sameContentPairwise_comm xs ys, BEq.comm (a := xs.length)]
    | _ => rfl
  | .absent, w | .int _, w | .float _, w | .bool _, w | .str _, w | .enum _, w => by
    cases w <;> exact Value.beq_comm _ _

theorem sameContentPairwise_comm : ∀ xs ys : List Value, sameContentPairwise xs ys = sameContentPairwise ys xs
  | [], [] | [], _ :: _ | _ :: _, [] => by simp [sameContentPairwise]
  | x :: xs, y :: ys => by
    rw [sameContentPairwise, sameContentPairwise, Value.sameContent_comm x y, sameContentPairwise_comm xs ys]

end

/-! ### Reflexivity -/

theorem Node.sameContent_self : ∀ n : Node, n.sameContent n = true
  | .mk i v xs => by rw [Node.sameContent, beq_self_eq_true, Bool.true_or]

/-! ### Part by part -/

theorem sameContentPairwise_of_forall₂ {xs ys : List Value} (h : List.Forall₂ (fun x y => x.sameContent y = true) xs ys) :
    sameContentPairwise xs ys = true := by
  induction h with
  | nil => rw [sameContentPairwise]; simp
  | cons hxy _ ih => rw [sameContentPairwise, hxy, ih, Bool.and_self]

theorem sameContentPairwise_iff {xs ys : List Value} (hlen : xs.length = ys.length) :
    sameContentPairwise xs ys = true ↔ List.Forall₂ (fun x y => x.sameContent y = true) xs ys := by
  refine ⟨fun h => ?_, sameContentPairwise_of_forall₂⟩
  induction xs generalizing ys with
  | nil =>
    obtain rfl := List.eq_nil_of_length_eq_zero hlen.symm
    exact .nil
  | cons x xs ih =>
    obtain _ | ⟨y, ys⟩ := ys
    · cases hlen
    rw [sameContentPairwise, Bool.and_eq_true] at h
    exact .cons h.1 (ih (Nat.succ.inj hlen) h.2)

namespace Value
variable {w : Value} {items : List Value} {n : Node}

theorem sameContent_node_iff : (node n).sameContent w = true ↔ ∃ m, w = .node m ∧ n.sameContent m = true := by
  constructor
  · intro h
    cases w with
    | node m => exact ⟨m, rfl, by rwa [sameContent] at h⟩
    | _ => exact absurd h Bool.false_ne_true
  · rintro ⟨m, rfl, h⟩
    rwa [sameContent]

theorem sameContent_list_iff :
    (list items).sameContent w = true ↔ ∃ ys, w = .list ys ∧ List.Forall₂ (fun x y => x.sameContent y = true) items ys := by
  constructor
  · intro h
    cases w with
    | list ys =>
      rw [sameContent, Bool.and_eq_true, beq_iff_eq] at h
      exact ⟨ys, rfl, (sameContentPairwise_iff h.1).mp h.2⟩
    | _ => exact absurd h Bool.false_ne_true
  · rintro ⟨ys, rfl, h⟩
    rw [sameContent, Bool.and_eq_true, beq_iff_eq]
    exact ⟨h.length_eq, sameContentPairwise_of_forall₂ h⟩

theorem sameContent_set_iff :
    (set items).sameContent w = true ↔ ∃ ys, w = .set ys ∧ List.Forall₂ (fun x y => x.sameContent y = true) items ys := by
  constructor
  · intro h
    cases w with
    | set ys =>
      rw [sameContent, Bool.and_eq_true, beq_iff_eq] at h
      exact ⟨ys, rfl, (sameContentPairwise_iff h.1).mp h.2⟩
    | _ => exact absurd h Bool.false_ne_true
  · rintro ⟨ys, rfl, h⟩
    rw [sameContent, Bool.and_eq_true, beq_iff_eq]
    exact ⟨h.length_eq, sameContentPairwise_of_forall₂ h⟩

theorem sameContent_nodeList {ns ms : List Node} (h : List.Forall₂ (fun n m => n.sameContent m = true) ns ms) :
    (nodeList ns).sameContent (nodeList ms) = true := by
  refine sameContent_list_iff.mpr ⟨_, rfl, ?_⟩
  rw [List.forall₂_map_left_iff, List.forall₂_map_right_iff]
  exact h.imp fun n m hnm => sameContent_node_iff.mpr ⟨m, rfl, hnm⟩

end Value

theorem Node.sameContent_of_values {n m : Node} (hv : n.variant = m.variant)
    (h : List.Forall₂ (fun x y => x.sameContent y = true) n.values m.values) : n.sameContent m = true := by
  obtain ⟨_, v, xs⟩ := n
  obtain ⟨_, w, ys⟩ := m
  cases (hv : v = w)
  rw [sameContent, Variant.sameAs, beq_self_eq_true, Bool.true_and, Bool.or_eq_true]
  exact .inr (sameContentPairwise_of_forall₂ h)

/-! ### Types without doubles -/

/-- Whether the values of the type are no doubles and have none among their items. -/
def FieldType.doubleFree : FieldType → Bool
  | .scalar s => s != .float
  | .node _ => true
  | .list inner | .set inner | .optional inner => inner.doubleFree

/-- Only a double may differ from itself, and nodes are the same as themselves even then. -/
theorem FieldType.sameContent_self {type : FieldType} (hfree : type.doubleFree = true) {v : Value}
    (hadm : type.admits v = true) : v.sameContent v = true := by
  induction type generalizing v with
  | scalar s =>
    cases s with
    | int => obtain ⟨i, rfl⟩ := admits_int_iff.mp hadm; exact beq_self_eq_true i
    | float => cases hfree
    | bool => obtain ⟨b, rfl⟩ := admits_bool_iff.mp hadm; exact beq_self_eq_true b
    | str => obtain ⟨s, rfl⟩ := admits_str_iff.mp hadm; exact beq_self_eq_true s
    | enum d =>
      obtain ⟨m, rfl, -, -⟩ := admits_member_iff.mp hadm
      show (m.enum.name == m.enum.name && m.member == m.member) = true
      rw [beq_self_eq_true, beq_self_eq_true, Bool.and_self]
  | node cls =>
    obtain ⟨n, rfl, -⟩ := admits_node_iff.mp hadm
    exact Value.sameContent_node_iff.mpr ⟨n, rfl, n.sameContent_self⟩
  | list item ih =>
    obtain ⟨items, rfl, hitems⟩ := admits_list_iff.mp hadm
    exact Value.sameContent_list_iff.mpr ⟨items, rfl, List.forall₂_same.mpr fun x hx => ih hfree (hitems x hx)⟩
  | set item ih =>
    obtain ⟨items, rfl, hitems, -⟩ := admits_set_iff.mp hadm
    exact Value.sameContent_set_iff.mpr ⟨items, rfl, List.forall₂_same.mpr fun x hx => ih hfree (hitems x hx)⟩
  | optional inner ih =>
    rcases admits_optional_iff.mp hadm with rfl | hadm
    · rfl
    · exact ih hfree hadm

/-- Nodes of one variant have the same content if their fields have. -/
theorem Node.sameContent_of_fields {n m : Node} (hn : n.Fits) (hm : m.Fits) (hv : m.variant = n.variant)
    (hnd : (n.variant.fields.map Field.name).Nodup)
    (h : ∀ f ∈ n.variant.fields, ∀ v w, f.type.admits v = true → n.get f.name = .ok v → m.get f.name = .ok w →
      v.sameContent w = true) :
    n.sameContent m = true := by
  have pairs : ∀ {fs : List Field} {xs ys : List Value},
      (∀ f ∈ fs, ∀ v w, f.type.admits v = true → n.get f.name = .ok v → m.get f.name = .ok w → v.sameContent w = true) →
      List.Forall₂ (fun (f : Field) v => f.type.admits v = true) fs xs →
      List.Forall₂ (fun (f : Field) v => n.get f.name = .ok v) fs xs →
      List.Forall₂ (fun (f : Field) w => m.get f.name = .ok w) fs ys →
      List.Forall₂ (fun x y => Value.sameContent x y = true) xs ys := by
    intro fs xs ys h hfit hxs hys
    induction hfit generalizing ys with
    | nil =>
      cases hys
      exact .nil
    | @cons f x fs xs hadm _ ih =>
      obtain _ | ⟨hx, hxs⟩ := hxs
      obtain _ | ⟨hy, hys⟩ := hys
      rw [List.forall_mem_cons] at h
      exact .cons (h.1 x _ hadm hx hy) (ih h.2 hxs hys)
  have hys := hm.get_values (hv ▸ hnd)
  rw [hv] at hys
  exact sameContent_of_values hv.symm (pairs h hn (hn.get_values hnd) hys)

/-! ### The numbers of a tree -/

mutual

/-- `p` holds of every double that the tree holds. -/
def Node.AllFloats (p : Binary64 → Prop) : Node → Prop
  | .mk _ _ values => ValuesAllFloats p values

def Value.AllFloats (p : Binary64 → Prop) : Value → Prop
  | .float x => p x
  | .node n => n.AllFloats p
  | .list items => ValuesAllFloats p items
  | .set items => ValuesAllFloats p items
  | _ => True

def ValuesAllFloats (p : Binary64 → Prop) : List Value → Prop
  | [] => True
  | v :: vs => v.AllFloats p ∧ ValuesAllFloats p vs

end

section AllFloats
variable {p q : Binary64 → Prop}

mutual

theorem Node.AllFloats.imp (h : ∀ x, p x → q x) : ∀ n : Node, n.AllFloats p → n.AllFloats q
  | .mk _ _ values, hn => by
    rw [Node.AllFloats] at hn ⊢
    exact ValuesAllFloats.imp h values hn

theorem Value.AllFloats.imp (h : ∀ x, p x → q x) : ∀ v : Value, v.AllFloats p → v.AllFloats q
  | .float x, hv => h x hv
  | .node n, hv => by
    rw [Value.AllFloats] at hv ⊢
    exact Node.AllFloats.imp h n hv
  | .list items, hv => by
    rw [Value.AllFloats] at hv ⊢
    exact ValuesAllFloats.imp h items hv
  | .set items, hv => by
    rw [Value.AllFloats] at hv ⊢
    exact ValuesAllFloats.imp h items hv
  | .absent, _ | .int _, _ | .bool _, _ | .str _, _ | .enum _, _ => trivial

theorem ValuesAllFloats.imp (h : ∀ x, p x → q x) : ∀ vs : List Value, ValuesAllFloats p vs → ValuesAllFloats q vs
  | [], _ => trivial
  | v :: vs, hvs => ⟨Value.AllFloats.imp h v hvs.1, ValuesAllFloats.imp h vs hvs.2⟩

end

end AllFloats

/-! ### Types without optional layers -/

namespace FieldType

/-- The type of the values that are there. -/
def present : FieldType → FieldType
  | .optional inner => inner.present
  | type => type

theorem admits_present {type : FieldType} {v : Value} (hv : v.isAbsent = false) (h : type.admits v = true) :
    type.present.admits v = true := by
  induction type with
  | optional inner ih =>
    rw [admits, hv, Bool.false_or] at h
    exact ih h
  | _ => exact h

theorem present_ne_optional (type inner : FieldType) : type.present ≠ .optional inner := by
  induction type with
  | optional _ ih => exact ih
  | _ => exact FieldType.noConfusion

end FieldType

/-! ### Documents of values -/

theorem Value.isAbsent_iff {v : Value} : v.isAbsent = true ↔ v = .absent := by
  cases v <;> simp [isAbsent]

theorem Value.toJson_eq_null {v : Value} : v.toJson = .null ↔ v.isAbsent = true := by
  cases v with
  | node n =>
    obtain ⟨_, _, _⟩ := n
    simp [toJson, Node.toJson, isAbsent]
  | _ => simp [toJson, isAbsent]

/-- A value that its document determines: all that a type admits beside it, from trees of the same variants and with
    the same document, has its content. -/
def Value.Determined (vs : List Variant) (v : Value) : Prop :=
  ∀ (type : FieldType) (w : Value), type.admits v = true → type.admits w = true → w.BuiltFrom vs →
    v.toJson = w.toJson → v.sameContent w = true

def Node.Determined (vs : List Variant) (n : Node) : Prop :=
  ∀ m : Node, m.BuiltFrom vs → n.toJson = m.toJson → n.sameContent m = true

section Determined
variable {vs : List Variant}

theorem pairwise_of_jsonItems {item : FieldType} {xs ys : List Value} (hxs : ∀ x ∈ xs, x.Determined vs)
    (hx : ∀ x ∈ xs, item.admits x = true) (hy : ∀ y ∈ ys, item.admits y = true) (hb : ∀ y ∈ ys, y.BuiltFrom vs)
    (h : jsonItems xs = jsonItems ys) : xs.length = ys.length ∧ sameContentPairwise xs ys = true := by
  induction xs generalizing ys with
  | nil =>
    cases ys with
    | nil => exact ⟨rfl, by rw [sameContentPairwise]; simp⟩
    | cons y ys => simp [jsonItems] at h
  | cons x xs ih =>
    cases ys with
    | nil => simp [jsonItems] at h
    | cons y ys =>
      rw [jsonItems, jsonItems, List.cons.injEq] at h
      rw [List.forall_mem_cons] at hxs hx hy hb
      obtain ⟨hlen, hrest⟩ := ih hxs.2 hx.2 hy.2 hb.2 h.2
      refine ⟨congrArg (· + 1) hlen, ?_⟩
      rw [sameContentPairwise, Bool.and_eq_true]
      exact ⟨hxs.1 item y hx.1 hy.1 hb.1 h.1, hrest⟩

theorem mem_names_of_jsonFields {fs : List Field} {xs : List Value} {key : String} {j : Json}
    (h : (key, j) ∈ jsonFields fs xs) : key ∈ fs.map Field.name := by
  induction fs generalizing xs with
  | nil => simp [jsonFields] at h
  | cons f fs ih =>
    cases xs with
    | nil => simp [jsonFields] at h
    | cons x xs =>
      rw [jsonFields] at h
      by_cases hx : x.isAbsent = true
      · rw [if_pos hx] at h
        exact List.mem_cons_of_mem _ (ih h)
      · rw [if_neg hx] at h
        rcases List.mem_cons.mp h with h | h
        · cases h
          exact List.mem_cons_self
        · exact List.mem_cons_of_mem _ (ih h)

/-- Fields without a value are left out, but no other field can stand in their place. -/
theorem pairwise_of_jsonFields {fs : List Field} {xs ys : List Value} (hnd : (fs.map Field.name).Nodup)
    (hxs : ∀ x ∈ xs, x.Determined vs)
    (hx : List.Forall₂ (fun (f : Field) v => f.type.admits v = true) fs xs)
    (hy : List.Forall₂ (fun (f : Field) v => f.type.admits v = true) fs ys) (hb : ∀ y ∈ ys, y.BuiltFrom vs)
    (h : jsonFields fs xs = jsonFields fs ys) : sameContentPairwise xs ys = true := by
  induction hx generalizing ys with
  | nil =>
    cases hy
    rw [sameContentPairwise]
    simp
  | @cons f x fs xs hfx _ ih =>
    obtain _ | ⟨hfy, hrest⟩ := hy
    rename_i y ys
    rw [List.map_cons, List.nodup_cons] at hnd
    rw [List.forall_mem_cons] at hxs hb
    rw [jsonFields, jsonFields] at h
    have other : ∀ {zs : List Value} {j : Json} {rest : List (String × Json)}, jsonFields fs zs ≠ (f.name, j) :: rest := by
      intro zs j rest he
      exact hnd.1 (mem_names_of_jsonFields (he ▸ List.mem_cons_self))
    rw [sameContentPairwise, Bool.and_eq_true]
    cases hax : x.isAbsent <;> cases hay : y.isAbsent <;>
      simp only [hax, hay, if_true, if_false, Bool.false_eq_true, List.cons.injEq, Prod.mk.injEq, true_and] at h
    · exact ⟨hxs.1 f.type y hfx hfy hb.1 h.1, ih hnd.2 hxs.2 hrest hb.2 h.2⟩
    · exact absurd h.symm other
    · exact absurd h other
    · obtain rfl := Value.isAbsent_iff.mp hax
      obtain rfl := Value.isAbsent_iff.mp hay
      exact ⟨rfl, ih hnd.2 hxs.2 hrest hb.2 h⟩

/-- A number that equals itself is determined, and so is everything that holds determined values. -/
theorem Value.determined_of_parts {v : Value} (hfloat : ∀ x, v = .float x → x.isNaN = false)
    (hnode : ∀ n, v = .node n → n.Determined vs) (hitems : ∀ items, v.items? = some items → ∀ x ∈ items, x.Determined vs) :
    v.Determined vs := by
  intro type w hv hw hb h
  by_cases ha : v.isAbsent = true
  · obtain rfl := isAbsent_iff.mp ha
    obtain rfl := isAbsent_iff.mp (toJson_eq_null.mp h.symm)
    rfl
  have hav : v.isAbsent = false := by simpa using ha
  have haw : w.isAbsent = false := by
    rw [Bool.eq_false_iff, ne_eq, ← toJson_eq_null, ← h, toJson_eq_null]
    exact ha
  have hv := FieldType.admits_present hav hv
  have hw := FieldType.admits_present haw hw
  -- Both values have the shape of one type, which is not optional.
  cases ht : type.present with
  | optional inner => exact absurd ht (type.present_ne_optional inner)
  | scalar s =>
    rw [ht] at hv hw
    cases s with
    | int =>
      obtain ⟨i, rfl⟩ := FieldType.admits_int_iff.mp hv
      obtain ⟨j, rfl⟩ := FieldType.admits_int_iff.mp hw
      obtain rfl : i = j := by simpa [toJson] using h
      exact beq_self_eq_true i
    | float =>
      obtain ⟨x, rfl⟩ := FieldType.admits_float_iff.mp hv
      obtain ⟨y, rfl⟩ := FieldType.admits_float_iff.mp hw
      obtain rfl : x = y := by simpa [toJson] using h
      show x.numericEq x = true
      rw [Binary64.numericEq_self, hfloat x rfl]
      rfl
    | bool =>
      obtain ⟨a, rfl⟩ := FieldType.admits_bool_iff.mp hv
      obtain ⟨b, rfl⟩ := FieldType.admits_bool_iff.mp hw
      obtain rfl : a = b := by simpa [toJson] using h
      exact beq_self_eq_true a
    | str =>
      obtain ⟨s, rfl⟩ := FieldType.admits_str_iff.mp hv
      obtain ⟨t, rfl⟩ := FieldType.admits_str_iff.mp hw
      obtain rfl : s = t := by simpa [toJson] using h
      exact beq_self_eq_true s
    | enum d =>
      obtain ⟨m, rfl, hm, -⟩ := FieldType.admits_member_iff.mp hv
      obtain ⟨k, rfl, hk, -⟩ := FieldType.admits_member_iff.mp hw
      have hmember : m.member = k.member := by simpa [toJson] using h
      show (m.enum.name == k.enum.name && m.member == k.member) = true
      rw [hm, hk, hmember, beq_self_eq_true, beq_self_eq_true]
      rfl
  | node cls =>
    rw [ht] at hv hw
    obtain ⟨n, rfl, -⟩ := FieldType.admits_node_iff.mp hv
    obtain ⟨m, rfl, -⟩ := FieldType.admits_node_iff.mp hw
    rw [sameContent]
    exact hnode n rfl m (builtFrom_node.mp hb) (by simpa [toJson] using h)
  | list item =>
    rw [ht] at hv hw
    obtain ⟨xs, rfl, hx⟩ := FieldType.admits_list_iff.mp hv
    obtain ⟨ys, rfl, hy⟩ := FieldType.admits_list_iff.mp hw
    obtain ⟨hlen, hsame⟩ := pairwise_of_jsonItems (hitems xs rfl) hx hy (everywhere_list.mp hb) (by simpa [toJson] using h)
    rw [sameContent, hlen, hsame, beq_self_eq_true]
    rfl
  | set item =>
    rw [ht] at hv hw
    obtain ⟨xs, rfl, hx, -⟩ := FieldType.admits_set_iff.mp hv
    obtain ⟨ys, rfl, hy, -⟩ := FieldType.admits_set_iff.mp hw
    obtain ⟨hlen, hsame⟩ := pairwise_of_jsonItems (hitems xs rfl) hx hy (everywhere_set.mp hb) (by simpa [toJson] using h)
    rw [sameContent, hlen, hsame, beq_self_eq_true]
    rfl

/-- The name of a variant is in the document, and no other variant of the schema has it. -/
theorem Node.determined_of_values (hvs : ConsistentVariants vs) {n : Node} (hn : n.BuiltFrom vs)
    (hvalues : ∀ v ∈ n.values, v.Determined vs) : n.Determined vs := by
  intro m hm h
  obtain ⟨i, v, xs⟩ := n
  obtain ⟨j, w, ys⟩ := m
  rw [toJson, toJson, Json.obj.injEq, List.cons.injEq, Prod.mk.injEq, Json.str.injEq] at h
  obtain ⟨⟨-, hname⟩, hfields⟩ := h
  obtain rfl : v = w := List.inj_on_of_nodup_map hvs.nodup_names hn.variant_mem hm.variant_mem hname
  rw [sameContent, Variant.sameAs, beq_self_eq_true, Bool.true_and, Bool.or_eq_true]
  exact .inr (pairwise_of_jsonFields (hvs.nodup_fields v hn.variant_mem) hvalues hn.fits hm.fits
    (builtFrom_iff.mp hm).2 hfields)

mutual

theorem Node.determined (hvs : ConsistentVariants vs) :
    ∀ n : Node, n.BuiltFrom vs → n.AllFloats (fun x => x.isNaN = false) → n.Determined vs
  | .mk _ _ values, hn, hf => by
    rw [Node.AllFloats] at hf
    exact Node.determined_of_values hvs hn (valuesDetermined hvs values (Node.builtFrom_iff.mp hn).2 hf)

theorem Value.determined (hvs : ConsistentVariants vs) :
    ∀ v : Value, v.BuiltFrom vs → v.AllFloats (fun x => x.isNaN = false) → v.Determined vs
  | .node n, hv, hf => by
    refine Value.determined_of_parts (by simp) ?_ (by simp [Value.items?])
    rintro _ ⟨⟩
    exact Node.determined hvs n (Value.builtFrom_node.mp hv) (by rwa [Value.AllFloats] at hf)
  | .list items, hv, hf => by
    refine Value.determined_of_parts (by simp) (by simp) ?_
    rintro _ ⟨⟩
    exact valuesDetermined hvs items (Value.everywhere_list.mp hv) (by rwa [Value.AllFloats] at hf)
  | .set items, hv, hf => by
    refine Value.determined_of_parts (by simp) (by simp) ?_
    rintro _ ⟨⟩
    exact valuesDetermined hvs items (Value.everywhere_set.mp hv) (by rwa [Value.AllFloats] at hf)
  | .float x, _, hf => Value.determined_of_parts (by rintro _ ⟨⟩; exact hf) (by simp) (by simp [Value.items?])
  | .absent, _, _ | .int _, _, _ | .bool _, _, _ | .str _, _, _ | .enum _, _, _ =>
    Value.determined_of_parts (by simp) (by simp) (by simp [Value.items?])

theorem valuesDetermined (hvs : ConsistentVariants vs) : ∀ xs : List Value, (∀ x ∈ xs, x.BuiltFrom vs) →
    ValuesAllFloats (fun x => x.isNaN = false) xs → ∀ x ∈ xs, x.Determined vs
  | [], _, _ => by simp
  | x :: xs, hxs, hf => by
    rw [List.forall_mem_cons] at hxs ⊢
    exact ⟨Value.determined hvs x hxs.1 hf.1, valuesDetermined hvs xs hxs.2 hf.2⟩

end

end Determined

end TypedTree

import TypedTree.Expr.Language
import TypedTree.Proofs.Tree.Canonical

/-! How far the canonical text follows the content. The zeros of either sign are equal, but they are written apart, so
    trees of the same content need not have the same text. Nothing else can tell them apart in writing: they have one
    text exactly if the zeros at the same places have the same sign. -/

namespace TypedTree

namespace Binary64

/-- Not zeros of different sign. -/
def ZerosAgree (x y : Binary64) : Prop := x.isZero = true → y.isZero = true → x.isNegative = y.isNegative

theorem eq_of_zerosAgree {x y : Binary64} (h : x.numericEq y = true) (hsign : x.ZerosAgree y) : x = y := by
  simp only [numericEq, Bool.and_eq_true, Bool.or_eq_true, beq_iff_eq] at h
  rcases h with ⟨-, rfl | ⟨hx, hy⟩⟩
  · rfl
  have hneg := hsign hx hy
  obtain ⟨⟨xb⟩⟩ := x
  obtain ⟨⟨yb⟩⟩ := y
  simp only [isZero, isNegative, exponentBits, fractionBits, hiddenBit, Bool.and_eq_true, beq_iff_eq,
    decide_eq_decide] at hx hy hneg
  change xb.toNat / _ % _ = 0 ∧ xb.toNat % _ = 0 at hx
  change yb.toNat / _ % _ = 0 ∧ yb.toNat % _ = 0 at hy
  change _ ≤ xb.toNat ↔ _ ≤ yb.toNat at hneg
  -- A zero has no bits but the sign.
  have hbits : xb.toNat = yb.toNat := by
    have := xb.isLt
    have := yb.isLt
    omega
  rw [BitVec.eq_of_toNat_eq hbits]

theorem isFinite_of_isZero {x : Binary64} (h : x.isZero = true) : x.isFinite = true := by
  simp only [isZero, Bool.and_eq_true, beq_iff_eq] at h
  simp [isFinite, h.1]

/-- Equal numbers are written the same, unless they are zeros of different sign. -/
theorem plain_eq_iff {x y : Binary64} (h : x.numericEq y = true) :
    (Json.float x).plain = (Json.float y).plain ↔ x.ZerosAgree y := by
  refine ⟨fun hplain hx hy => ?_, fun hsign => by rw [eq_of_zerosAgree h hsign]⟩
  rw [Json.plain, Json.plain, if_pos (isFinite_of_isZero hx), if_pos (isFinite_of_isZero hy),
    Json.float.injEq] at hplain
  rw [hplain]

end Binary64

/-! ### Zeros at the same place -/

mutual

/-- At no place, at any depth, the trees have zeros of different sign. -/
def Node.ZerosAgree : Node → Node → Prop
  | .mk _ _ xs, .mk _ _ ys => ValuesZerosAgree xs ys

def Value.ZerosAgree : Value → Value → Prop
  | .float x, .float y => x.ZerosAgree y
  | .node n, .node m => n.ZerosAgree m
  | .list xs, .list ys => ValuesZerosAgree xs ys
  | .set xs, .set ys => ValuesZerosAgree xs ys
  | _, _ => True

def ValuesZerosAgree : List Value → List Value → Prop
  | x :: xs, y :: ys => x.ZerosAgree y ∧ ValuesZerosAgree xs ys
  | _, _ => True

end

mutual

theorem Node.zerosAgree_self : ∀ n : Node, n.ZerosAgree n
  | .mk _ _ values => by
    rw [Node.ZerosAgree]
    exact valuesZerosAgree_self values

theorem Value.zerosAgree_self : ∀ v : Value, v.ZerosAgree v
  | .float x => by
    rw [Value.ZerosAgree]
    exact fun _ _ => rfl
  | .node n => by
    rw [Value.ZerosAgree]
    exact Node.zerosAgree_self n
  | .list items => by
    rw [Value.ZerosAgree]
    exact valuesZerosAgree_self items
  | .set items => by
    rw [Value.ZerosAgree]
    exact valuesZerosAgree_self items
  | .absent | .int _ | .bool _ | .str _ | .enum _ => trivial

theorem valuesZerosAgree_self : ∀ vs : List Value, ValuesZerosAgree vs vs
  | [] => trivial
  | v :: vs => ⟨Value.zerosAgree_self v, valuesZerosAgree_self vs⟩

end

/-! ### Identities -/

/-- Every node of the tree is the one that its identity stands for. -/
def Node.Identified (nodes : NodeId → Node) (n : Node) : Prop := n.Everywhere fun c => nodes c.id = c

def Value.Identified (nodes : NodeId → Node) (v : Value) : Prop := v.Everywhere fun c => nodes c.id = c

/-! ### Values of the same content -/

section Told
variable {vs : List Variant} {nodes : NodeId → Node}

/-- Among the values of the same content the document tells those whose zeros agree with the zeros of this one. -/
def Value.Told (vs : List Variant) (nodes : NodeId → Node) (v : Value) : Prop :=
  ∀ w : Value, w.BuiltFrom vs → w.Identified nodes → v.sameContent w = true →
    (v.toJson.plain = w.toJson.plain ↔ v.ZerosAgree w)

def Node.Told (vs : List Variant) (nodes : NodeId → Node) (n : Node) : Prop :=
  ∀ m : Node, m.BuiltFrom vs → m.Identified nodes → n.sameContent m = true →
    (n.toJson.plain = m.toJson.plain ↔ n.ZerosAgree m)

theorem Value.isAbsent_eq_of_sameContent {v w : Value} (h : v.sameContent w = true) : v.isAbsent = w.isAbsent := by
  cases v <;> cases w <;> first | rfl | exact absurd h Bool.false_ne_true

theorem jsonItems_eq_iff {xs ys : List Value} (hxs : ∀ x ∈ xs, x.Told vs nodes) (hb : ∀ y ∈ ys, y.BuiltFrom vs)
    (hi : ∀ y ∈ ys, y.Identified nodes) (hlen : xs.length = ys.length) (h : sameContentPairwise xs ys = true) :
    Json.plainItems (jsonItems xs) = Json.plainItems (jsonItems ys) ↔ ValuesZerosAgree xs ys := by
  induction xs generalizing ys with
  | nil =>
    obtain rfl := List.eq_nil_of_length_eq_zero hlen.symm
    exact iff_of_true rfl trivial
  | cons x xs ih =>
    obtain _ | ⟨y, ys⟩ := ys
    · cases hlen
    rw [List.forall_mem_cons] at hxs hb hi
    rw [sameContentPairwise, Bool.and_eq_true] at h
    rw [jsonItems, jsonItems, Json.plainItems, Json.plainItems, List.cons.injEq, ValuesZerosAgree, hxs.1 y hb.1 hi.1 h.1,
      ih hxs.2 hb.2 hi.2 (Nat.succ.inj hlen) h.2]

theorem jsonFields_eq_iff {fs : List Field} {xs ys : List Value} (hxs : ∀ x ∈ xs, x.Told vs nodes)
    (hb : ∀ y ∈ ys, y.BuiltFrom vs) (hi : ∀ y ∈ ys, y.Identified nodes) (hlen : xs.length = fs.length)
    (hlen' : ys.length = fs.length) (h : sameContentPairwise xs ys = true) :
    Json.plainMembers (jsonFields fs xs) = Json.plainMembers (jsonFields fs ys) ↔ ValuesZerosAgree xs ys := by
  induction fs generalizing xs ys with
  | nil =>
    obtain rfl := List.eq_nil_of_length_eq_zero hlen
    obtain rfl := List.eq_nil_of_length_eq_zero hlen'
    exact iff_of_true rfl trivial
  | cons f fs ih =>
    obtain _ | ⟨x, xs⟩ := xs
    · cases hlen
    obtain _ | ⟨y, ys⟩ := ys
    · cases hlen'
    rw [List.forall_mem_cons] at hxs hb hi
    rw [sameContentPairwise, Bool.and_eq_true] at h
    have hrest := ih hxs.2 hb.2 hi.2 (Nat.succ.inj hlen) (Nat.succ.inj hlen') h.2
    have habsent := Value.isAbsent_eq_of_sameContent h.1
    rw [jsonFields, jsonFields, ValuesZerosAgree]
    -- Values of the same content are absent together, so the same fields are left out.
    by_cases hx : x.isAbsent = true
    · obtain rfl := Value.isAbsent_iff.mp hx
      obtain rfl := Value.isAbsent_iff.mp (habsent ▸ hx)
      exact hrest.trans (and_iff_right trivial).symm
    · rw [if_neg hx, if_neg (habsent ▸ hx), Json.plainMembers, Json.plainMembers, List.cons.injEq, Prod.mk.injEq, hrest,
        hxs.1 y hb.1 hi.1 h.1]
      exact and_congr_left' (and_iff_right rfl)

/-- A node has the content of itself whatever its values are; otherwise it takes nodes of one variant. -/
theorem Node.told_of_values (hvs : ConsistentVariants vs) {n : Node} (hn : n.BuiltFrom vs) (hid : n.Identified nodes)
    (hvalues : ∀ v ∈ n.values, v.Told vs nodes) : n.Told vs nodes := by
  intro m hm hmid h
  by_cases heq : n.id = m.id
  · obtain rfl : n = m := by rw [← Everywhere.here hid, ← Everywhere.here hmid, heq]
    exact iff_of_true rfl n.zerosAgree_self
  obtain ⟨i, v, xs⟩ := n
  obtain ⟨j, w, ys⟩ := m
  have hij : (i == j) = false := beq_eq_false_iff_ne.mpr heq
  rw [sameContent, hij, Bool.false_or, Variant.sameAs, Bool.and_eq_true, beq_iff_eq] at h
  obtain rfl : v = w := List.inj_on_of_nodup_map hvs.nodup_names hn.variant_mem hm.variant_mem h.1
  rw [toJson, toJson, ZerosAgree, Json.plain, Json.plain, Json.obj.injEq, Json.plainMembers, Json.plainMembers,
    List.cons.injEq]
  exact (and_iff_right rfl).trans (jsonFields_eq_iff hvalues (builtFrom_iff.mp hm).2 (everywhere_iff.mp hmid).2
    hn.fits.complete hm.fits.complete h.2)

/-- Items and held nodes settle what a value holds; any other value is of the content of what is written like it. -/
theorem Value.told_of_parts {v : Value} (hnode : ∀ n, v = .node n → n.Told vs nodes)
    (hitems : ∀ items, v.items? = some items → ∀ x ∈ items, x.Told vs nodes) : v.Told vs nodes := by
  intro w hw hid h
  cases v with
  | node n =>
    cases w with
    | node m =>
      rw [sameContent] at h
      rw [toJson, toJson, ZerosAgree]
      exact hnode n rfl m (builtFrom_node.mp hw) (everywhere_node.mp hid) h
    | _ => exact absurd h Bool.false_ne_true
  | list xs =>
    cases w with
    | list ys =>
      rw [sameContent, Bool.and_eq_true, beq_iff_eq] at h
      rw [toJson, toJson, ZerosAgree, Json.plain, Json.plain, Json.arr.injEq]
      exact jsonItems_eq_iff (hitems xs rfl) (everywhere_list.mp hw) (everywhere_list.mp hid) h.1 h.2
    | _ => exact absurd h Bool.false_ne_true
  | set xs =>
    cases w with
    | set ys =>
      rw [sameContent, Bool.and_eq_true, beq_iff_eq] at h
      rw [toJson, toJson, ZerosAgree, Json.plain, Json.plain, Json.arr.injEq]
      exact jsonItems_eq_iff (hitems xs rfl) (everywhere_set.mp hw) (everywhere_set.mp hid) h.1 h.2
    | _ => exact absurd h Bool.false_ne_true
  | float x =>
    cases w with
    | float y =>
      rw [toJson, toJson, ZerosAgree]
      exact Binary64.plain_eq_iff h
    | _ => exact absurd h Bool.false_ne_true
  | enum m =>
    cases w with
    | enum k =>
      have hsame : (m.enum.name == k.enum.name && m.member == k.member) = true := h
      rw [Bool.and_eq_true, beq_iff_eq, beq_iff_eq] at hsame
      exact iff_of_true (by rw [toJson, toJson, hsame.2]) trivial
    | _ => exact absurd h Bool.false_ne_true
  | absent =>
    cases w with
    | absent => exact iff_of_true rfl trivial
    | _ => exact absurd h Bool.false_ne_true
  | int i =>
    cases w with
    | int j => exact iff_of_true (congrArg (fun k => (Json.int k).plain) (eq_of_beq h)) trivial
    | _ => exact absurd h Bool.false_ne_true
  | bool a =>
    cases w with
    | bool b => exact iff_of_true (congrArg (fun c => (Json.bool c).plain) (eq_of_beq h)) trivial
    | _ => exact absurd h Bool.false_ne_true
  | str s =>
    cases w with
    | str t => exact iff_of_true (congrArg (fun u => (Json.str u).plain) (eq_of_beq h)) trivial
    | _ => exact absurd h Bool.false_ne_true

mutual

theorem Node.told (hvs : ConsistentVariants vs) : ∀ n : Node, n.BuiltFrom vs → n.Identified nodes → n.Told vs nodes
  | .mk _ _ values, hn, hid => Node.told_of_values hvs hn hid
      (valuesTold hvs values (Node.builtFrom_iff.mp hn).2 (Node.everywhere_iff.mp hid).2)

theorem Value.told (hvs : ConsistentVariants vs) : ∀ v : Value, v.BuiltFrom vs → v.Identified nodes → v.Told vs nodes
  | .node n, hv, hid => by
    refine Value.told_of_parts ?_ (by simp [Value.items?])
    rintro _ ⟨⟩
    exact Node.told hvs n (Value.everywhere_node.mp hv) (Value.everywhere_node.mp hid)
  | .list items, hv, hid => by
    refine Value.told_of_parts (by simp) ?_
    rintro _ ⟨⟩
    exact valuesTold hvs items (Value.everywhere_list.mp hv) (Value.everywhere_list.mp hid)
  | .set items, hv, hid => by
    refine Value.told_of_parts (by simp) ?_
    rintro _ ⟨⟩
    exact valuesTold hvs items (Value.everywhere_set.mp hv) (Value.everywhere_set.mp hid)
  | .absent, _, _ | .int _, _, _ | .float _, _, _ | .bool _, _, _ | .str _, _, _ | .enum _, _, _ =>
    Value.told_of_parts (by simp) (by simp [Value.items?])

theorem valuesTold (hvs : ConsistentVariants vs) : ∀ xs : List Value, (∀ x ∈ xs, x.BuiltFrom vs) →
    (∀ x ∈ xs, x.Identified nodes) → ∀ x ∈ xs, x.Told vs nodes
  | [], _, _ => by simp
  | x :: xs, hb, hid => by
    rw [List.forall_mem_cons] at hb hid ⊢
    exact ⟨Value.told hvs x hb.1 hid.1, valuesTold hvs xs hb.2 hid.2⟩

end

end Told

/-! ### Trees of the same content -/

/-- In trees built from the variants of a schema, where an identity stands for one node, the same content has the same
    text just if zeros at the same place have the same sign. Then it has the same digest, too. -/
theorem Node.canonicalJson_of_sameContent {name : String} {vs : List Variant} {s : Schema}
    (hs : Schema.define name vs = .ok s) {nodes : NodeId → Node} {n m : Node} (hn : n.BuiltFrom vs)
    (hm : m.BuiltFrom vs) (hni : n.Identified nodes) (hmi : m.Identified nodes) (h : n.sameContent m = true) :
    (n.canonicalJson = m.canonicalJson ↔ n.ZerosAgree m) ∧ (n.ZerosAgree m → n.fingerprint = m.fingerprint) := by
  have hvs : ConsistentVariants vs := Schema.variants_of_define hs ▸ s.consistent
  have htext : n.canonicalJson = m.canonicalJson ↔ n.ZerosAgree m :=
    Json.toText_eq_iff.trans (Node.told hvs n hn hni m hm hmi h)
  exact ⟨htext, fun hz => congrArg Sha256.hexDigest (htext.mpr hz)⟩

/-- The readings by identity, each even one of `-0`, each odd one the reading after it. -/
def readingById (i : NodeId) : Node :=
  if i % 2 = 0 then .mk i readingVariant [.float ⟨0x8000000000000000⟩, .set [], .absent] else twoReadings (i - 1) i

theorem Node.canonicalJson_of_sameContent_readings :
    Schema.define "readings" [readingVariant] = .ok readings ∧
      (twoReadings 0 1).sameContent (twoReadings 2 3) = true ∧
      (twoReadings 0 1).canonicalJson = (twoReadings 2 3).canonicalJson ∧
      (twoReadings 0 1).fingerprint = (twoReadings 2 3).fingerprint := by
  have hs : Schema.define "readings" [readingVariant] = .ok readings := rfl
  have hn : (twoReadings 0 1).BuiltFrom [readingVariant] := by decide +kernel
  have hm : (twoReadings 2 3).BuiltFrom [readingVariant] := by decide +kernel
  have hni : (twoReadings 0 1).Identified readingById := by
    simp [Identified, twoReadings, readingById, Everywhere, ValuesEverywhere, Value.Everywhere, id]
  have hmi : (twoReadings 2 3).Identified readingById := by
    simp [Identified, twoReadings, readingById, Everywhere, ValuesEverywhere, Value.Everywhere, id]
  have h : (twoReadings 0 1).sameContent (twoReadings 2 3) = true := by decide +kernel
  have hz : (twoReadings 0 1).ZerosAgree (twoReadings 2 3) := by
    simp [twoReadings, ZerosAgree, ValuesZerosAgree, Value.ZerosAgree, Binary64.ZerosAgree]
  have hall := canonicalJson_of_sameContent hs hn hm hni hmi h
  exact ⟨hs, h, hall.1.mpr hz, hall.2 hz⟩

/-- A constant of the language of expressions, by the bits of its number. -/
def floatConstant (id : NodeId) (bits : BitVec 64) : Node :=
  .mk id Expr.Kind.floatConst.variant [.float ⟨⟨bits⟩⟩, .absent]

/-- The constants `0.0` and `-0.0` are of the same content, but neither their texts nor their digests are the same. -/
theorem Node.canonicalJson_signedZeros :
    Schema.define "expr" Expr.variants = .ok Expr.schema ∧
      (floatConstant 0 0).BuiltFrom Expr.variants ∧ (floatConstant 1 0x8000000000000000).BuiltFrom Expr.variants ∧
      (floatConstant 0 0).sameContent (floatConstant 1 0x8000000000000000) = true ∧
      (floatConstant 0 0).canonicalJson ≠ (floatConstant 1 0x8000000000000000).canonicalJson ∧
      (floatConstant 0 0).fingerprint ≠ (floatConstant 1 0x8000000000000000).fingerprint := by
  refine ⟨rfl, ?_, ?_, ?_, ?_, ?_⟩ <;> decide +kernel

end TypedTree

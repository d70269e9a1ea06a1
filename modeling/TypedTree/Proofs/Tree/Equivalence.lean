import TypedTree.Proofs.Tree.Canonical
import TypedTree.Proofs.Tree.Construction
import TypedTree.Proofs.Tree.CopyContent

/-! The content as an equivalence. A node has the content of itself, whatever numbers it holds, and of other nodes of its
    variant if their values have the same content. Among the nodes of a schema that a run has constructed both agree:
    identities belong to one node each, and names to one variant each. So the same content is an equivalence there, also
    along chains that mix the two, and an update with nodes of the same content in the place of others keeps the content
    of a node, unless a number in its own fields does not even equal itself. -/

namespace TypedTree

section Lists
variable {α : Type} {R : α → α → Prop} {xs ys zs : List α}

theorem forall₂_trans_of_mem (h : List.Forall₂ R xs ys) (h' : List.Forall₂ R ys zs)
    (htrans : ∀ x ∈ xs, ∀ y ∈ ys, ∀ z ∈ zs, R x y → R y z → R x z) : List.Forall₂ R xs zs := by
  induction h generalizing zs with
  | nil => exact h'
  | @cons x y xs ys hxy _ ih =>
    obtain _ | ⟨hyz, hrest⟩ := h'
    refine .cons (htrans x List.mem_cons_self y List.mem_cons_self _ List.mem_cons_self hxy hyz) (ih hrest ?_)
    intro x hx y hy z hz
    exact htrans x (List.mem_cons_of_mem _ hx) y (List.mem_cons_of_mem _ hy) z (List.mem_cons_of_mem _ hz)

end Lists

theorem Binary64.numericEq_trans {x y z : Binary64} (h : x.numericEq y = true) (h' : y.numericEq z = true) :
    x.numericEq z = true := by
  simp only [numericEq, Bool.and_eq_true, Bool.or_eq_true, beq_iff_eq] at h h' ⊢
  refine ⟨⟨h.1.1, h'.1.2⟩, ?_⟩
  rcases h.2 with rfl | ⟨hx, -⟩
  · exact h'.2
  · rcases h'.2 with rfl | ⟨-, hz⟩
    · exact h.2
    · exact .inr ⟨hx, hz⟩

/-! ### Links -/

namespace Value
variable {v w u : Value}

/-- Values without nodes and items are compared as such. -/
theorem sameContent_trans_of_plain (hnode : v.asNode? = none) (hitems : v.items? = none) (h : v.sameContent w = true)
    (h' : w.sameContent u = true) : v.sameContent u = true := by
  cases v with
  | node n => cases hnode
  | list items => cases hitems
  | set items => cases hitems
  | float x =>
    cases w with
    | float y =>
      cases u with
      | float z => exact Binary64.numericEq_trans h h'
      | _ => exact absurd h' Bool.false_ne_true
    | _ => exact absurd h Bool.false_ne_true
  | enum m =>
    cases w with
    | enum k =>
      cases u with
      | enum l =>
        have hmk : (m.enum.name == k.enum.name && m.member == k.member) = true := h
        have hkl : (k.enum.name == l.enum.name && k.member == l.member) = true := h'
        show (m.enum.name == l.enum.name && m.member == l.member) = true
        simp only [Bool.and_eq_true, beq_iff_eq] at hmk hkl ⊢
        exact ⟨hmk.1.trans hkl.1, hmk.2.trans hkl.2⟩
      | _ => exact absurd h' Bool.false_ne_true
    | _ => exact absurd h Bool.false_ne_true
  | absent =>
    cases w with
    | absent => exact h'
    | _ => exact absurd h Bool.false_ne_true
  | int i =>
    cases w with
    | int j =>
      obtain rfl : i = j := eq_of_beq h
      exact h'
    | _ => exact absurd h Bool.false_ne_true
  | bool a =>
    cases w with
    | bool b =>
      obtain rfl : a = b := eq_of_beq h
      exact h'
    | _ => exact absurd h Bool.false_ne_true
  | str s =>
    cases w with
    | str t =>
      obtain rfl : s = t := eq_of_beq h
      exact h'
    | _ => exact absurd h Bool.false_ne_true

end Value

/-- Among the trees of a schema a variant is told by its name, and has all its values. -/
theorem Node.sameContent_iff {vs : List Variant} (hvs : ConsistentVariants vs) {n m : Node} (hn : n.BuiltFrom vs)
    (hm : m.BuiltFrom vs) :
    n.sameContent m = true ↔
      n.id = m.id ∨ n.variant = m.variant ∧ List.Forall₂ (fun x y => x.sameContent y = true) n.values m.values := by
  have hvariant : n.variant.sameAs m.variant = true ↔ n.variant = m.variant := by
    rw [Variant.sameAs, beq_iff_eq]
    exact ⟨List.inj_on_of_nodup_map hvs.nodup_names hn.variant_mem hm.variant_mem, congrArg Variant.name⟩
  have hcontent : n.sameContent m =
      (n.id == m.id || n.variant.sameAs m.variant && sameContentPairwise n.values m.values) := by
    obtain ⟨_, _, _⟩ := n
    obtain ⟨_, _, _⟩ := m
    rw [sameContent]
    rfl
  rw [hcontent, Bool.or_eq_true, Bool.and_eq_true, beq_iff_eq, hvariant]
  refine or_congr_right (and_congr_right fun heq => sameContentPairwise_iff ?_)
  rw [hn.fits.complete, hm.fits.complete, heq]

/-! ### Chains -/

/-- The node has been constructed, and its tree is built from the variants. -/
structure Node.Among (made : List Node) (vs : List Variant) (n : Node) : Prop where
  constructed : n ∈ made
  built : n.BuiltFrom vs

/-- All nodes that the value holds have been constructed, and are built from the variants. -/
structure Value.Among (made : List Node) (vs : List Variant) (v : Value) : Prop where
  constructed : ∀ c, v.Holds c → c ∈ made
  built : v.BuiltFrom vs

section Chains
variable {made : List Node} {w : Workspace} {vs : List Variant}

theorem Node.Among.value {n : Node} (h : n.Among made vs) (hw : History made w) {v : Value} (hv : v ∈ n.values) :
    v.Among made vs :=
  ⟨fun _ hc => hw.held h.constructed hv hc, (builtFrom_iff.mp h.built).2 v hv⟩

theorem Value.Among.node {n : Node} (h : (Value.node n).Among made vs) : n.Among made vs :=
  ⟨h.constructed n .node, builtFrom_node.mp h.built⟩

theorem Value.Among.listItem {items : List Value} (h : (Value.list items).Among made vs) {v : Value} (hv : v ∈ items) :
    v.Among made vs := ⟨fun c hc => h.constructed c (.list hv hc), everywhere_list.mp h.built v hv⟩

theorem Value.Among.setItem {items : List Value} (h : (Value.set items).Among made vs) {v : Value} (hv : v ∈ items) :
    v.Among made vs := ⟨fun c hc => h.constructed c (.set hv hc), everywhere_set.mp h.built v hv⟩

mutual

/-- A link by identity can be left out of the chain; two links by content are put together value by value. -/
theorem Node.sameContent_trans (hvs : ConsistentVariants vs) (hw : History made w) (a b c : Node) (ha : a.Among made vs)
    (hb : b.Among made vs) (hc : c.Among made vs) (hab : a.sameContent b = true) (hbc : b.sameContent c = true) :
    a.sameContent c = true := by
  rcases (Node.sameContent_iff hvs ha.built hb.built).mp hab with hid | ⟨hvariant, hvalues⟩
  · obtain rfl := hw.eq_of_id ha.constructed hb.constructed hid
    exact hbc
  rcases (Node.sameContent_iff hvs hb.built hc.built).mp hbc with hid | ⟨hvariant', hvalues'⟩
  · obtain rfl := hw.eq_of_id hb.constructed hc.constructed hid
    exact hab
  refine (Node.sameContent_iff hvs ha.built hc.built).mpr (.inr ⟨hvariant.trans hvariant', ?_⟩)
  refine forall₂_trans_of_mem hvalues hvalues' fun x hx y hy z hz hxy hyz => ?_
  have := Node.sizeOf_lt_of_mem_values hx
  exact Value.sameContent_trans hvs hw x y z (ha.value hw hx) (hb.value hw hy) (hc.value hw hz) hxy hyz
termination_by sizeOf a

theorem Value.sameContent_trans (hvs : ConsistentVariants vs) (hw : History made w) (x y z : Value)
    (hx : x.Among made vs) (hy : y.Among made vs) (hz : z.Among made vs) (hxy : x.sameContent y = true)
    (hyz : y.sameContent z = true) : x.sameContent z = true := by
  match x with
  | .node a =>
    obtain ⟨b, rfl, hab⟩ := Value.sameContent_node_iff.mp hxy
    obtain ⟨c, rfl, hbc⟩ := Value.sameContent_node_iff.mp hyz
    exact Value.sameContent_node_iff.mpr ⟨c, rfl, Node.sameContent_trans hvs hw a b c hx.node hy.node hz.node hab hbc⟩
  | .list xs =>
    obtain ⟨ys, rfl, hxys⟩ := Value.sameContent_list_iff.mp hxy
    obtain ⟨zs, rfl, hyzs⟩ := Value.sameContent_list_iff.mp hyz
    refine Value.sameContent_list_iff.mpr ⟨zs, rfl, forall₂_trans_of_mem hxys hyzs fun x' hx' y' hy' z' hz' h h' => ?_⟩
    have := List.sizeOf_lt_of_mem hx'
    exact Value.sameContent_trans hvs hw x' y' z' (hx.listItem hx') (hy.listItem hy') (hz.listItem hz') h h'
  | .set xs =>
    obtain ⟨ys, rfl, hxys⟩ := Value.sameContent_set_iff.mp hxy
    obtain ⟨zs, rfl, hyzs⟩ := Value.sameContent_set_iff.mp hyz
    refine Value.sameContent_set_iff.mpr ⟨zs, rfl, forall₂_trans_of_mem hxys hyzs fun x' hx' y' hy' z' hz' h h' => ?_⟩
    have := List.sizeOf_lt_of_mem hx'
    exact Value.sameContent_trans hvs hw x' y' z' (hx.setItem hx') (hy.setItem hy') (hz.setItem hz') h h'
  | .absent | .int _ | .float _ | .bool _ | .str _ | .enum _ => exact Value.sameContent_trans_of_plain rfl rfl hxy hyz
termination_by sizeOf x

end

end Chains

/-! ### Replacement -/

/-- The value with nodes of the same content in the place of some that it holds, on its own or in lists and sets of any
    depth, but not inside other nodes. -/
inductive Value.Replaced : Value → Value → Prop
  | same (v : Value) : Replaced v v
  | node {c c' : Node} (h : c.sameContent c' = true) : Replaced (.node c) (.node c')
  | list {xs ys : List Value} (h : List.Forall₂ Replaced xs ys) : Replaced (.list xs) (.list ys)
  | set {xs ys : List Value} (h : List.Forall₂ Replaced xs ys) : Replaced (.set xs) (.set ys)

theorem Value.Replaced.sameContent {v v' : Value} (h : v.Replaced v') (hnan : ∀ x, v.HoldsFloat x → x.isNaN = false) :
    v.sameContent v' = true := by
  cases h with
  | same => exact v.sameContent_self hnan
  | node hc => exact sameContent_node_iff.mpr ⟨_, rfl, hc⟩
  | list hxs =>
    refine sameContent_list_iff.mpr ⟨_, rfl, forall₂_imp_of_mem hxs fun x hx y _ hxy => ?_⟩
    have := List.sizeOf_lt_of_mem hx
    exact hxy.sameContent fun z hz => hnan z (.list hx hz)
  | set hxs =>
    refine sameContent_set_iff.mpr ⟨_, rfl, forall₂_imp_of_mem hxs fun x hx y _ hxy => ?_⟩
    have := List.sizeOf_lt_of_mem hx
    exact hxy.sameContent fun z hz => hnan z (.set hx hz)
termination_by sizeOf v

namespace Node

/-- The fields that are not updated have the same values, which equal themselves. -/
theorem sameContent_of_replaced {n n' : Node} (hfit : n.Fits) (hnd : (n.variant.fields.map Field.name).Nodup)
    (hnan : n.NaNFree) {name : String} {v v' : Value} (hget : n.get name = .ok v) (hv : v.Replaced v')
    {u u' : Workspace} (hrun : built (n.update [(name, v')]) u = (.ok n', u')) : n.sameContent n' = true := by
  have hupd := isUpdate_of_built_update (by simp) hrun hfit
  refine sameContent_of_fields hfit hupd.fits hupd.variant hnd fun f _ x y _ hx hy => ?_
  rw [hupd.get, updated, List.lookup_cons] at hy
  by_cases hf : f.name = name
  · subst hf
    rw [beq_self_eq_true] at hy
    cases hy
    cases hget.symm.trans hx
    exact hv.sameContent (hnan v (mem_values_of_get hget))
  · rw [beq_eq_false_iff_ne.mpr hf] at hy
    cases hx.symm.trans hy
    exact x.sameContent_self (hnan x (mem_values_of_get hx))

/-- On the nodes built from the variants of a schema that have been constructed, the same content is an equivalence, and
    a node without NaN in its own fields keeps it when nodes in a field are replaced by others of the same content. -/
theorem sameContent_equivalence {name : String} {vs : List Variant} {s : Schema} (hs : Schema.define name vs = .ok s)
    {made : List Node} {w : Workspace} (hw : History made w) :
    Equivalence (fun a b : { n : Node // n ∈ made ∧ n.BuiltFrom vs } => a.1.sameContent b.1 = true) ∧
      ∀ n : Node, n.BuiltFrom vs → n.NaNFree → ∀ field v v', n.get field = .ok v → v.Replaced v' →
        ∀ u n' u', built (n.update [(field, v')]) u = (.ok n', u') → n.sameContent n' = true := by
  have hvs : ConsistentVariants vs := Schema.variants_of_define hs ▸ s.consistent
  refine ⟨⟨fun a => a.1.sameContent_self, fun {a b} h => ?_, fun {a b c} hab hbc => ?_⟩, ?_⟩
  · rwa [sameContent_comm]
  · exact sameContent_trans hvs hw a.1 b.1 c.1 ⟨a.2.1, a.2.2⟩ ⟨b.2.1, b.2.2⟩ ⟨c.2.1, c.2.2⟩ hab hbc
  · intro n hn hnan field v v' hget hv u n' u' hrun
    exact sameContent_of_replaced hn.fits (hvs.nodup_fields _ hn.variant_mem) hnan hget hv hrun

section Readings

/-- A reading that failed has no number. -/
def lostReading : Node := .mk 0 readingVariant [.float ⟨0x7FF8000000000000⟩, .set [], .absent]

def readingAfterLoss (id : NodeId) (bits : BitVec 64) : Node :=
  .mk id readingVariant [.float ⟨⟨bits⟩⟩, .set [], .node lostReading]

def lastReading : Node := .mk 4 readingVariant [.float ⟨0x4004000000000000⟩, .set [], .node (readingAfterLoss 1 0)]

def readingsMade : List Node :=
  [lostReading, readingAfterLoss 1 0, readingAfterLoss 2 0x8000000000000000, readingAfterLoss 3 0, lastReading]

/-- The last reading, with the second zero in the place of the first. -/
def updatedReading : Node :=
  .mk 5 readingVariant [.float ⟨0x4004000000000000⟩, .set [], .node (readingAfterLoss 2 0x8000000000000000)]

/-- Three readings of zeros after the one that failed are of the same content: the failed one as the node that it is, the
    zeros as numbers. In the last reading the first of the three is replaced by the second. -/
theorem sameContent_equivalence_readings :
    Schema.define "readings" [readingVariant] = .ok readings ∧ History readingsMade { nextId := 5 } ∧
      lostReading.sameContent lostReading = true ∧
      (readingAfterLoss 1 0).sameContent (readingAfterLoss 3 0) = true ∧
      built (lastReading.update [("before", .node (readingAfterLoss 2 0x8000000000000000))]) { nextId := 5 } =
        (.ok updatedReading, { nextId := 6 }) ∧
      lastReading.sameContent updatedReading = true := by
  have hs : Schema.define "readings" [readingVariant] = .ok readings := rfl
  have holding : ∀ {made : List Node} {level : Binary64} {c : Node}, c ∈ made →
      ∀ x ∈ [Value.float level, .set [], .node c], ∀ d, x.Holds d → d ∈ made := by
    intro made level c hc
    simpa using ⟨fun d hd => (Value.not_holds rfl rfl d hd).elim, hc⟩
  have holdingNone : ∀ x ∈ [Value.float ⟨0x7FF8000000000000⟩, .set [], .absent], ∀ d, x.Holds d → d ∈ [] := by
    simpa using ⟨Value.not_holds rfl rfl, Value.not_holds rfl rfl⟩
  have hw : History readingsMade { nextId := 5 } :=
    (((((History.start []).construct holdingNone).construct (holding (by simp [lostReading]))).construct
      (holding (by simp [lostReading]))).construct (holding (by simp [lostReading]))).construct
      (holding (by simp [readingAfterLoss]))
  have hb : ∀ n ∈ readingsMade, n.BuiltFrom [readingVariant] := by decide +kernel
  have hfirst : (readingAfterLoss 1 0).sameContent (readingAfterLoss 2 0x8000000000000000) = true := by decide +kernel
  have hsecond : (readingAfterLoss 2 0x8000000000000000).sameContent (readingAfterLoss 3 0) = true := by decide +kernel
  have hnan : lastReading.NaNFree := by
    simp only [NaNFree, lastReading, values, List.forall_mem_cons]
    refine ⟨fun x hx => ?_, fun x hx => ?_, fun x hx => (by cases hx), by simp⟩
    · cases hx
      rfl
    · cases hx with
      | set hv _ => cases hv
  have hrun : built (lastReading.update [("before", .node (readingAfterLoss 2 0x8000000000000000))]) { nextId := 5 } =
    (.ok updatedReading, { nextId := 6 }) := rfl
  have hmem : lostReading ∈ readingsMade ∧ readingAfterLoss 1 0 ∈ readingsMade ∧
      readingAfterLoss 2 0x8000000000000000 ∈ readingsMade ∧ readingAfterLoss 3 0 ∈ readingsMade ∧
      lastReading ∈ readingsMade := by
    simp [readingsMade]
  obtain ⟨hlost, hone, htwo, hthree, hlast⟩ := hmem
  obtain ⟨hequiv, hreplace⟩ := sameContent_equivalence hs hw
  refine ⟨hs, hw, hequiv.refl ⟨_, hlost, hb _ hlost⟩, ?_, hrun, ?_⟩
  · exact hequiv.trans (x := ⟨_, hone, hb _ hone⟩) (y := ⟨_, htwo, hb _ htwo⟩) (z := ⟨_, hthree, hb _ hthree⟩)
      hfirst hsecond
  · exact hreplace lastReading (hb _ hlast) hnan "before" _ _ rfl (.node hfirst) _ _ _ hrun

end Readings

end Node
end TypedTree

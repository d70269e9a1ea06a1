import TypedTree.Proofs.Tree.Reading
import TypedTree.Tree.Display
import TypedTree.Tree.Dump

/-! Trees that are written the same, in both forms: as a JSON document and as text for readers. Neither form shows
    identities, nor which of two enumerations of one name a member comes from. Two nodes of one variant are written
    the same when every field reads values that are. -/

namespace TypedTree

/-- Both forms of the values are the same. -/
structure Value.SameText (v w : Value) : Prop where
  json : v.toJson = w.toJson
  display : v.display = w.display
  absent : v.isAbsent = w.isAbsent

/-- Both forms of the trees are the same. -/
structure Node.SameText (n m : Node) : Prop where
  json : n.toJson = m.toJson
  display : n.display = m.display

theorem Node.SameText.canonicalJson {n m : Node} (h : n.SameText m) : n.canonicalJson = m.canonicalJson :=
  congrArg Json.toText h.json

namespace Value.SameText

theorem refl (v : Value) : v.SameText v := ⟨rfl, rfl, rfl⟩

theorem node {n m : Node} (h : n.SameText m) : (Value.node n).SameText (.node m) where
  json := by rw [toJson, toJson, h.json]
  display := by rw [Value.display, Value.display, h.display]
  absent := rfl

theorem items {xs ys : List Value} (h : List.Forall₂ SameText xs ys) :
    jsonItems xs = jsonItems ys ∧ displayItems xs = displayItems ys := by
  induction h with
  | nil => exact ⟨rfl, rfl⟩
  | cons hxy _ ih =>
    rw [jsonItems, jsonItems, displayItems, displayItems, hxy.json, hxy.display, ih.1, ih.2]
    exact ⟨rfl, rfl⟩

theorem list {xs ys : List Value} (h : List.Forall₂ SameText xs ys) : (Value.list xs).SameText (.list ys) where
  json := by rw [toJson, toJson, (items h).1]
  display := by rw [Value.display, Value.display, (items h).2]
  absent := rfl

theorem set {xs ys : List Value} (h : List.Forall₂ SameText xs ys) : (Value.set xs).SameText (.set ys) where
  json := by rw [toJson, toJson, (items h).1]
  display := by rw [Value.display, Value.display, (items h).2]
  absent := rfl

/-- Stored members that are read back as the same member. -/
theorem member {α : Type} [Enumerated α] {v w : Value} (h : v.asMember? α = w.asMember? α)
    (hv : (v.asMember? α).isSome = true) : v.SameText w := by
  obtain ⟨a, ha⟩ := Option.isSome_iff_exists.mp hv
  have named : ∀ {v : Value}, v.asMember? α = some a → ∃ m, v = .enum m ∧ m.member = Enumerated.name a := by
    intro v hv
    cases v with
    | enum m =>
      have hget : m.get? α = some a := hv
      unfold EnumMember.get? at hget
      split at hget
      · exact ⟨m, rfl, (Enumerated.ofName?_eq_some_iff.mp hget).symm⟩
      · cases hget
    | _ => cases hv
  obtain ⟨m, rfl, hm⟩ := named ha
  obtain ⟨k, rfl, hk⟩ := named (h ▸ ha)
  refine ⟨?_, ?_, rfl⟩
  · rw [toJson, toJson, hm, hk]
  · rw [Value.display, Value.display, hm, hk]

end Value.SameText

/-! ### Fields that read the same -/

namespace Node
variable {n m c d : Node} {name : String}

/-- What the nodes read under a name is written the same. -/
def ReadSame (n m : Node) (name : String) : Prop :=
  ∀ v w, n.get name = .ok v → m.get name = .ok w → v.SameText w

theorem ReadSame.of_get {v w : Value} (hn : n.get name = .ok v) (hm : m.get name = .ok w) (h : v.SameText w) :
    n.ReadSame m name := by
  intro v' w' hv hw
  obtain rfl := Except.ok.inj (hn.symm.trans hv)
  obtain rfl := Except.ok.inj (hm.symm.trans hw)
  exact h

theorem ReadSame.node (hn : n.getNode name = .ok c) (hm : m.getNode name = .ok d) (h : c.SameText d) :
    n.ReadSame m name := .of_get (get_of_getNode hn) (get_of_getNode hm) (.node h)

theorem ReadSame.optionalNode (hn : n.getNode? name = .ok (some c)) (hm : m.getNode? name = .ok (some d))
    (h : c.SameText d) : n.ReadSame m name := .of_get (get_of_getNode? hn) (get_of_getNode? hm) (.node h)

theorem ReadSame.none (hn : n.getNode? name = .ok none) (hm : m.getNode? name = .ok none) : n.ReadSame m name :=
  .of_get (get_absent_of_getNode? hn) (get_absent_of_getNode? hm) (.refl _)

theorem ReadSame.str {s : String} (hn : n.getStr name = .ok s) (hm : m.getStr name = .ok s) : n.ReadSame m name :=
  .of_get (get_of_getStr hn) (get_of_getStr hm) (.refl _)

theorem ReadSame.member {α : Type} [Enumerated α] {a : α} (hn : n.getMember α name = .ok a)
    (hm : m.getMember α name = .ok a) : n.ReadSame m name := by
  obtain ⟨v, hv, ha⟩ := get_of_getMember hn
  obtain ⟨w, hw, hb⟩ := get_of_getMember hm
  exact .of_get hv hw (.member (ha.trans hb.symm) (by rw [ha]; rfl))

theorem ReadSame.optionalMember {α : Type} [Enumerated α] {a : Option α} (hn : n.getMember? α name = .ok a)
    (hm : m.getMember? α name = .ok a) : n.ReadSame m name := by
  obtain ⟨v, hv, hna, habs⟩ := get_of_getMember? hn
  obtain ⟨w, hw, hma, habs'⟩ := get_of_getMember? hm
  cases a with
  | none => exact .of_get hv hw (habs rfl ▸ habs' rfl ▸ .refl _)
  | some a => exact .of_get hv hw (.member (hna.trans hma.symm) (by rw [hna]; rfl))

theorem sameText_of_values {i j : NodeId} {v : Variant} {xs ys : List Value} (h : List.Forall₂ Value.SameText xs ys) :
    (Node.mk i v xs).SameText (.mk j v ys) := by
  have fields : ∀ fs, jsonFields fs xs = jsonFields fs ys ∧ displayFields fs xs = displayFields fs ys := by
    induction h with
    | nil => exact fun fs => ⟨rfl, rfl⟩
    | cons hxy _ ih =>
      intro fs
      cases fs with
      | nil => exact ⟨rfl, rfl⟩
      | cons f fs =>
        obtain ⟨hjson, hdisplay⟩ := ih fs
        simp only [jsonFields, displayFields, hxy.json, hxy.display, hxy.absent, hjson, hdisplay, and_self]
  refine ⟨?_, ?_⟩
  · rw [toJson, toJson, (fields v.fields).1]
  · rw [display, display, (fields v.fields).2]

theorem sameText_of_readSame (hn : n.Complete) (hm : m.Complete) (hv : n.variant = m.variant)
    (hnd : (n.variant.fields.map Field.name).Nodup) (h : ∀ f ∈ n.variant.fields, n.ReadSame m f.name) :
    n.SameText m := by
  have values : ∀ {fs : List Field} {xs ys : List Value}, List.Forall₂ (fun (f : Field) v => n.get f.name = .ok v) fs xs →
      List.Forall₂ (fun (f : Field) v => m.get f.name = .ok v) fs ys → (∀ f ∈ fs, n.ReadSame m f.name) →
      List.Forall₂ Value.SameText xs ys := by
    intro fs xs ys hxs hys h
    induction hxs generalizing ys with
    | nil =>
      cases hys
      exact .nil
    | cons hx _ ih =>
      obtain _ | ⟨hy, hys⟩ := hys
      rw [List.forall_mem_cons] at h
      exact .cons (h.1 _ _ hx hy) (ih hys h.2)
  have hsame := values (hn.get_values hnd) (hv ▸ hm.get_values (hv ▸ hnd)) h
  obtain ⟨i, v, xs⟩ := n
  obtain ⟨j, w, ys⟩ := m
  obtain rfl : v = w := hv
  exact sameText_of_values hsame

end Node
end TypedTree

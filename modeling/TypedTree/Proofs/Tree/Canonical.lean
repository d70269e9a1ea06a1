import TypedTree.Proofs.Json.Unambiguous
import TypedTree.Proofs.Tree.Content

/-! The canonical text of a tree determines its content. The text can be read back as a document, and the document tells
    the tree, since the schema says what stands in every field. Numbers have to be finite, for all others are written as
    if nothing were there. -/

namespace TypedTree
variable {p : Binary64 → Prop}

/-! ### The numbers of a document -/

mutual

/-- The document of a complete tree has the numbers of the tree. -/
theorem Node.allFloats_toJson : ∀ n : Node, n.Everywhere Node.Complete → (n.toJson.AllFloats p ↔ n.AllFloats p)
  | .mk _ v values, h => by
    rw [Node.Everywhere] at h
    rw [Node.toJson, Node.AllFloats, Json.AllFloats, Json.MembersAllFloats]
    exact (and_iff_right trivial).trans (membersAllFloats_jsonFields v.fields values h.1 h.2)

theorem Value.allFloats_toJson : ∀ v : Value, v.Everywhere Node.Complete → (v.toJson.AllFloats p ↔ v.AllFloats p)
  | .node n, h => by
    rw [Value.Everywhere] at h
    rw [Value.toJson, Value.AllFloats]
    exact Node.allFloats_toJson n h
  | .list items, h => by
    rw [Value.Everywhere] at h
    rw [Value.toJson, Value.AllFloats, Json.AllFloats]
    exact itemsAllFloats_jsonItems items h
  | .set items, h => by
    rw [Value.Everywhere] at h
    rw [Value.toJson, Value.AllFloats, Json.AllFloats]
    exact itemsAllFloats_jsonItems items h
  | .float x, _ => by rw [Value.toJson, Value.AllFloats, Json.AllFloats]
  | .absent, _ | .int _, _ | .bool _, _ | .str _, _ | .enum _, _ => by
    simp [Value.toJson, Value.AllFloats, Json.AllFloats]

theorem itemsAllFloats_jsonItems : ∀ vs : List Value, ValuesEverywhere Node.Complete vs →
    (Json.ItemsAllFloats p (jsonItems vs) ↔ ValuesAllFloats p vs)
  | [], _ => Iff.rfl
  | v :: vs, h => by
    rw [jsonItems, Json.ItemsAllFloats, ValuesAllFloats, Value.allFloats_toJson v h.1, itemsAllFloats_jsonItems vs h.2]

theorem membersAllFloats_jsonFields : ∀ (fs : List Field) (vs : List Value), vs.length = fs.length →
    ValuesEverywhere Node.Complete vs → (Json.MembersAllFloats p (jsonFields fs vs) ↔ ValuesAllFloats p vs)
  | [], [], _, _ => Iff.rfl
  | f :: fs, v :: vs, hlen, h => by
    have hrest := membersAllFloats_jsonFields fs vs (Nat.succ.inj hlen) h.2
    rw [jsonFields, ValuesAllFloats]
    by_cases hv : v.isAbsent = true
    · obtain rfl := Value.isAbsent_iff.mp hv
      rw [if_pos hv, hrest]
      exact (and_iff_right trivial).symm
    · rw [if_neg hv, Json.MembersAllFloats, Value.allFloats_toJson v h.1, hrest]

end

/-! ### Trees of one text -/

theorem Schema.variants_of_define {name : String} {vs : List Variant} {s : Schema} (h : define name vs = .ok s) :
    s.variants = vs := by
  unfold define at h
  split at h
  · cases h
  · split at h
    · cases h
    · cases h
      rfl

/-- In trees built from the variants of a schema the canonical text determines the content, if all numbers are finite. -/
theorem Node.sameContent_of_canonicalJson {name : String} {vs : List Variant} {s : Schema}
    (hs : Schema.define name vs = .ok s) {n m : Node} (hn : n.BuiltFrom vs) (hm : m.BuiltFrom vs)
    (hnf : n.AllFloats fun x => x.isFinite = true) (hmf : m.AllFloats fun x => x.isFinite = true)
    (h : n.canonicalJson = m.canonicalJson) : n.sameContent m = true := by
  have hjson : n.toJson = m.toJson := Json.toText_injective ((allFloats_toJson n hn.complete).mpr hnf)
    ((allFloats_toJson m hm.complete).mpr hmf) h
  have hnum : n.AllFloats fun x => x.isNaN = false := AllFloats.imp (fun _ => Binary64.isNaN_of_isFinite) n hnf
  exact determined (Schema.variants_of_define hs ▸ s.consistent) n hn hnum m hm hjson

section Readings

/-- A reading of a gauge: a number, the marks it was given, and perhaps the reading before. -/
def readingVariant : Variant :=
  ⟨"Reading", [], [⟨"level", .float⟩, ⟨"marks", .set .str⟩, ⟨"before", .optional (.node "Reading")⟩]⟩

def readings : Schema where
  name := "readings"
  variants := [readingVariant]
  consistent := ⟨by decide, by decide, by decide⟩

/-- Two readings, the later one of `2.5` and marked, the earlier one of `-0`. The identities are not part of the text. -/
def twoReadings (first second : NodeId) : Node :=
  .mk second readingVariant [.float ⟨0x4004000000000000⟩, .set [.str "high", .str "\"late\""],
    .node (.mk first readingVariant [.float ⟨0x8000000000000000⟩, .set [], .absent])]

theorem Node.sameContent_of_canonicalJson_readings :
    Schema.define "readings" [readingVariant] = .ok readings ∧
      (twoReadings 0 1).canonicalJson = (twoReadings 2 3).canonicalJson ∧
      (twoReadings 0 1).sameContent (twoReadings 2 3) = true := by
  have hs : Schema.define "readings" [readingVariant] = .ok readings := rfl
  have hn : (twoReadings 0 1).BuiltFrom [readingVariant] := by decide +kernel
  have hm : (twoReadings 2 3).BuiltFrom [readingVariant] := by decide +kernel
  have hf : ∀ i j : NodeId, (twoReadings i j).AllFloats fun x => x.isFinite = true := fun i j => by
    simp only [twoReadings, AllFloats, Value.AllFloats, ValuesAllFloats]
    decide
  exact ⟨hs, rfl, sameContent_of_canonicalJson hs hn hm (hf 0 1) (hf 2 3) rfl⟩

end Readings

end TypedTree

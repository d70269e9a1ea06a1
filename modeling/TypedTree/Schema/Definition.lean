import TypedTree.Error
import TypedTree.Tree.Build

/-!
Schemas: the variants of one language. Variants have distinct names, the fields of one variant have distinct
names, and every class that a field names is the name or a class of some variant, declared before or after. A
schema carries the proof, so only consistent sets of variants are schemas; `define` decides.
-/

namespace TypedTree

/-- What makes a list of variants the variants of a schema. -/
structure ConsistentVariants (vs : List Variant) : Prop where
  nodup_names : (vs.map Variant.name).Nodup
  nodup_fields : ∀ v ∈ vs, (v.fields.map Field.name).Nodup
  known_classes : ∀ v ∈ vs, ∀ f ∈ v.fields, ∀ cls, f.type.nodeClass? = some cls → vs.any (·.isA cls) = true

structure Schema where
  name : String
  /-- In order of declaration. -/
  variants : List Variant
  consistent : ConsistentVariants variants

namespace Schema

/-! ### Definition -/

/-- The first name that occurs twice in the list, at its second occurrence. `seen` holds names from before. -/
def firstRepeat? (seen : List String) : List String → Option String
  | [] => none
  | s :: rest => if s ∈ seen then some s else firstRepeat? (s :: seen) rest

/-- The first fault among names: within one variant a repeated field comes before a repeated variant name.
    `seen` holds the names of the variants from before. -/
def nameFault? (seen : List String) : List Variant → Option SchemaError
  | [] => none
  | v :: rest =>
    match firstRepeat? [] (v.fields.map Field.name) with
    | some field => some (.duplicateFieldDecl v.name field)
    | none => if v.name ∈ seen then some (.duplicateVariant v.name) else nameFault? (v.name :: seen) rest

/-- The fault of a field of `v` that names a class no variant of `vs` has. -/
def classFault? (vs : List Variant) (v : Variant) (f : Field) : Option SchemaError :=
  match f.type.nodeClass? with
  | none => none
  | some cls => if vs.any (·.isA cls) then none else some (.unknownClass v.name f.name cls)

/-- The first fault among the classes that fields name. -/
def classesFault? (vs : List Variant) : Option SchemaError :=
  vs.findSome? fun v => v.fields.findSome? (classFault? vs v)

theorem firstRepeat?_eq_none {seen names : List String} (h : firstRepeat? seen names = none) :
    names.Nodup ∧ ∀ s ∈ names, s ∉ seen := by
  induction names generalizing seen with
  | nil => exact ⟨List.nodup_nil, fun s hs => absurd hs List.not_mem_nil⟩
  | cons s rest ih =>
    unfold firstRepeat? at h
    split at h
    · cases h
    · next hs =>
      obtain ⟨hd, hn⟩ := ih h
      refine ⟨List.nodup_cons.mpr ⟨fun hm => hn s hm List.mem_cons_self, hd⟩, fun t ht => ?_⟩
      rcases List.mem_cons.mp ht with rfl | ht
      · exact hs
      · exact fun hm => hn t ht (List.mem_cons_of_mem _ hm)

theorem nameFault?_eq_none {seen : List String} {vs : List Variant} (h : nameFault? seen vs = none) :
    (vs.map Variant.name).Nodup ∧ (∀ v ∈ vs, v.name ∉ seen) ∧ ∀ v ∈ vs, (v.fields.map Field.name).Nodup := by
  induction vs generalizing seen with
  | nil => exact ⟨List.nodup_nil, by simp, by simp⟩
  | cons v rest ih =>
    unfold nameFault? at h
    split at h
    · cases h
    · next hf =>
      split at h
      · cases h
      · next hs =>
        obtain ⟨hd, hn, hfs⟩ := ih h
        refine ⟨?_, ?_, ?_⟩
        · refine List.nodup_cons.mpr ⟨fun hm => ?_, hd⟩
          obtain ⟨w, hw, he⟩ := List.mem_map.mp hm
          exact hn w hw (he ▸ List.mem_cons_self)
        · intro w hw
          rcases List.mem_cons.mp hw with rfl | hw
          · exact hs
          · exact fun hm => hn w hw (List.mem_cons_of_mem _ hm)
        · intro w hw
          rcases List.mem_cons.mp hw with rfl | hw
          · exact (firstRepeat?_eq_none hf).1
          · exact hfs w hw

theorem classesFault?_eq_none {vs : List Variant} (h : classesFault? vs = none) :
    ∀ v ∈ vs, ∀ f ∈ v.fields, ∀ cls, f.type.nodeClass? = some cls → vs.any (·.isA cls) = true := by
  intro v hv f hf cls hcls
  have hfault := List.findSome?_eq_none_iff.mp (List.findSome?_eq_none_iff.mp h v hv) f hf
  unfold classFault? at hfault
  rw [hcls] at hfault
  by_cases hk : vs.any (·.isA cls) = true
  · exact hk
  · simp [hk] at hfault

/-- The schema of the given variants. Repeated names are reported before unknown classes. -/
def define (name : String) (vs : List Variant) : Except Error Schema :=
  match hn : nameFault? [] vs with
  | some fault => throw (.schema fault)
  | none =>
    match hc : classesFault? vs with
    | some fault => throw (.schema fault)
    | none => pure ⟨name, vs, (nameFault?_eq_none hn).1, (nameFault?_eq_none hn).2.2, classesFault?_eq_none hc⟩

/-! ### Use -/

def variant (s : Schema) (name : String) : Except Error Variant :=
  match s.variants.find? fun v => v.name == name with
  | some v => pure v
  | none => throw (.schema (.unknownVariant name))

def build (s : Schema) (name : String) (args : List Argument) : BuildM Node := do
  let v ← s.variant name
  v.build args

end Schema

end TypedTree

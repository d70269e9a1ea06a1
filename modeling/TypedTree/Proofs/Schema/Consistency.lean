import Mathlib.Data.List.Induction
import Mathlib.Data.List.Nodup
import TypedTree.Schema.Definition

/-! Schemas from variants. Variants make a schema when their names are distinct, the names of the fields of each are, and
    every class that a field mentions is known among them, wherever it is declared. All other lists of variants have a
    first fault: names come before classes, and among the names the fields of a variant before the variant itself. -/

namespace TypedTree

/-- The type mentions the class, through any nesting of lists, sets and optional values. -/
inductive FieldType.Mentions (cls : String) : FieldType → Prop
  | node : Mentions cls (.node cls)
  | list {item : FieldType} (h : Mentions cls item) : Mentions cls (.list item)
  | set {item : FieldType} (h : Mentions cls item) : Mentions cls (.set item)
  | optional {inner : FieldType} (h : Mentions cls inner) : Mentions cls (.optional inner)

theorem FieldType.nodeClass?_eq_some_iff {type : FieldType} {cls : String} :
    type.nodeClass? = some cls ↔ type.Mentions cls := by
  constructor
  · intro h
    induction type with
    | scalar s => cases h
    | node other =>
      cases h
      exact .node
    | list item ih => exact .list (ih h)
    | set item ih => exact .set (ih h)
    | optional inner ih => exact .optional (ih h)
  · intro h
    induction h with
    | node => rfl
    | list _ ih => exact ih
    | set _ ih => exact ih
    | optional _ ih => exact ih

namespace Schema
variable {vs ws before after : List Variant} {v : Variant} {e : SchemaError} {seen names : List String}

/-! ### Acceptance and refusal -/

/-- The class is the name of one of the variants, or one of the classes that it lists. -/
def Known (vs : List Variant) (cls : String) : Prop := ∃ v ∈ vs, v.name = cls ∨ cls ∈ v.classes

/-- Every class that the type of the field mentions is known. -/
def Resolves (vs : List Variant) (f : Field) : Prop := ∀ cls, f.type.Mentions cls → Known vs cls

/-- No two variants share a name, and no two fields of one variant do. -/
structure Apart (vs : List Variant) : Prop where
  names : (vs.map Variant.name).Nodup
  fields : ∀ v ∈ vs, (v.fields.map Field.name).Nodup

/-- The variants make a schema. -/
structure Accepts (vs : List Variant) : Prop extends Apart vs where
  resolved : ∀ v ∈ vs, ∀ f ∈ v.fields, Resolves vs f

/-- The error of a variant after variants of the given names: that of its first field with the name of an earlier one, or
    else that of its own name. -/
inductive VariantFault (seen : List String) (v : Variant) : SchemaError → Prop
  | field {earlier later : List Field} {f : Field} (split : v.fields = earlier ++ f :: later)
      (distinct : (earlier.map Field.name).Nodup) (repeated : f.name ∈ earlier.map Field.name) :
      VariantFault seen v (.duplicateFieldDecl v.name f.name)
  | variant (distinct : (v.fields.map Field.name).Nodup) (repeated : v.name ∈ seen) :
      VariantFault seen v (.duplicateVariant v.name)

/-- The error of the first variant with a name given before, of a field or its own. -/
def NameFault (vs : List Variant) (e : SchemaError) : Prop :=
  ∃ before v after, vs = before ++ v :: after ∧ Apart before ∧ VariantFault (before.map Variant.name) v e

/-- The error of the first field, in order of declaration, that mentions an unknown class. -/
inductive ClassFault (vs : List Variant) : SchemaError → Prop
  | unknown {before after : List Variant} {v : Variant} {earlier later : List Field} {f : Field} {cls : String}
      (split : vs = before ++ v :: after) (resolved : ∀ w ∈ before, ∀ g ∈ w.fields, Resolves vs g)
      (splitFields : v.fields = earlier ++ f :: later) (resolvedFields : ∀ g ∈ earlier, Resolves vs g)
      (mentioned : f.type.Mentions cls) (unknown : ¬Known vs cls) : ClassFault vs (.unknownClass v.name f.name cls)

/-- The error with which the variants make no schema: names come before classes. -/
def Refuses (vs : List Variant) (e : SchemaError) : Prop := NameFault vs e ∨ Apart vs ∧ ClassFault vs e

/-! ### Names -/

theorem nodup_or_repeated {α : Type} (key : α → String) (xs : List α) : (xs.map key).Nodup ∨
    ∃ earlier x later, xs = earlier ++ x :: later ∧ (earlier.map key).Nodup ∧ key x ∈ earlier.map key := by
  induction xs using List.reverseRecOn with
  | nil => exact .inl List.nodup_nil
  | append_singleton xs x ih =>
    rcases ih with hnd | ⟨earlier, y, later, rfl, hrepeated⟩
    · by_cases hx : key x ∈ xs.map key
      · exact .inr ⟨xs, x, [], rfl, hnd, hx⟩
      · rw [List.map_append, List.map_singleton, ← List.concat_eq_append]
        exact .inl (hnd.concat hx)
    · exact .inr ⟨earlier, y, later ++ [x], by rw [List.append_assoc, List.cons_append], hrepeated⟩

/-- Names that are distinct and new are only taken down. -/
theorem firstRepeat?_append (hnd : names.Nodup) (hnew : ∀ s ∈ names, s ∉ seen) (rest : List String) :
    firstRepeat? seen (names ++ rest) = firstRepeat? (names.reverse ++ seen) rest := by
  induction names generalizing seen with
  | nil => rfl
  | cons s names ih =>
    rw [List.nodup_cons] at hnd
    rw [List.cons_append, firstRepeat?, if_neg (hnew s List.mem_cons_self), ih hnd.2, List.reverse_cons, List.append_assoc]
    · rfl
    · intro t ht hmem
      rcases List.mem_cons.mp hmem with rfl | hmem
      · exact hnd.1 ht
      · exact hnew t (List.mem_cons_of_mem _ ht) hmem

theorem firstRepeat?_of_nodup (hnd : names.Nodup) : firstRepeat? [] names = none := by
  rw [← List.append_nil names, firstRepeat?_append hnd (by simp)]
  rfl

theorem firstRepeat?_of_repeated {s : String} (hnd : names.Nodup) (hs : s ∈ names) (rest : List String) :
    firstRepeat? [] (names ++ s :: rest) = some s := by
  rw [firstRepeat?_append hnd (by simp), firstRepeat?, if_pos (by simpa using hs)]

theorem nameFault?_of_fault (h : VariantFault seen v e) (after : List Variant) :
    nameFault? seen (v :: after) = some e := by
  cases h with
  | field split distinct repeated =>
    simp only [nameFault?, split, List.map_append, List.map_cons, firstRepeat?_of_repeated distinct repeated]
  | variant distinct repeated => simp only [nameFault?, firstRepeat?_of_nodup distinct, if_pos repeated]

/-- Variants that are apart and of new names are only taken down. -/
theorem nameFault?_append (h : Apart before) (hnew : ∀ v ∈ before, v.name ∉ seen) (ws : List Variant) :
    nameFault? seen (before ++ ws) = nameFault? ((before.map Variant.name).reverse ++ seen) ws := by
  induction before generalizing seen with
  | nil => rfl
  | cons v before ih =>
    obtain ⟨hnames, hfields⟩ := h
    rw [List.map_cons, List.nodup_cons] at hnames
    rw [List.forall_mem_cons] at hfields hnew
    rw [List.cons_append]
    simp only [nameFault?, firstRepeat?_of_nodup hfields.1, if_neg hnew.1]
    rw [ih ⟨hnames.2, hfields.2⟩, List.map_cons, List.reverse_cons, List.append_assoc]
    · rfl
    · intro w hw hmem
      rcases List.mem_cons.mp hmem with heq | hmem
      · exact hnames.1 (heq ▸ List.mem_map_of_mem hw)
      · exact hnew.2 w hw hmem

theorem apart_or_fault (vs : List Variant) : Apart vs ∨ ∃ e, NameFault vs e := by
  induction vs using List.reverseRecOn with
  | nil => exact .inl ⟨List.nodup_nil, by simp⟩
  | append_singleton vs v ih =>
    rcases ih with hapart | ⟨e, before, w, after, rfl, hapart, hfault⟩
    · rcases nodup_or_repeated Field.name v.fields with hnd | ⟨earlier, f, later, hsplit, hnd, hrepeated⟩
      · by_cases hv : v.name ∈ vs.map Variant.name
        · exact .inr ⟨_, vs, v, [], rfl, hapart, .variant hnd hv⟩
        · refine .inl ⟨?_, fun w hw => ?_⟩
          · rw [List.map_append, List.map_singleton, ← List.concat_eq_append]
            exact hapart.names.concat hv
          · rcases List.mem_append.mp hw with hw | hw
            · exact hapart.fields w hw
            · exact List.mem_singleton.mp hw ▸ hnd
      · exact .inr ⟨_, vs, v, [], rfl, hapart, .field hsplit hnd hrepeated⟩
    · exact .inr ⟨e, before, w, after ++ [v], by rw [List.append_assoc, List.cons_append], hapart, hfault⟩

theorem nameFault?_of_apart (h : Apart vs) : nameFault? [] vs = none := by
  rw [← List.append_nil vs, nameFault?_append h (by simp)]
  rfl

theorem nameFault?_of_nameFault (h : NameFault vs e) : nameFault? [] vs = some e := by
  obtain ⟨before, v, after, rfl, hapart, hfault⟩ := h
  rw [nameFault?_append hapart (by simp)]
  refine nameFault?_of_fault ?_ after
  cases hfault with
  | field split distinct repeated => exact .field split distinct repeated
  | variant distinct repeated => exact .variant distinct (by simpa using repeated)

/-! ### Classes -/

theorem known_iff {cls : String} : Known vs cls ↔ vs.any (·.isA cls) = true := by
  simp [Known, Variant.isA]

theorem classFault?_eq_some_iff {f : Field} :
    classFault? vs v f = some e ↔
      ∃ cls, f.type.Mentions cls ∧ ¬Known vs cls ∧ e = .unknownClass v.name f.name cls := by
  simp only [classFault?, ← FieldType.nodeClass?_eq_some_iff, known_iff]
  cases f.type.nodeClass? with
  | none => simp
  | some cls =>
    by_cases hk : vs.any (·.isA cls) = true
    · simp only [if_pos hk, reduceCtorEq, false_iff]
      rintro ⟨other, ⟨⟩, hunknown, -⟩
      exact hunknown hk
    · simp only [if_neg hk, Option.some.injEq]
      constructor
      · rintro rfl
        exact ⟨cls, rfl, hk, rfl⟩
      · rintro ⟨other, rfl, -, rfl⟩
        rfl

theorem classFault?_eq_none_iff {f : Field} : classFault? vs v f = none ↔ Resolves vs f := by
  simp only [classFault?, Resolves, ← FieldType.nodeClass?_eq_some_iff, known_iff]
  cases f.type.nodeClass? <;> simp

theorem classesFault?_eq_some_iff : classesFault? vs = some e ↔ ClassFault vs e := by
  simp only [classesFault?, List.findSome?_eq_some_iff, List.findSome?_eq_none_iff, classFault?_eq_some_iff,
    classFault?_eq_none_iff]
  constructor
  · rintro ⟨before, v, after, split, ⟨earlier, f, later, splitFields, ⟨cls, mentioned, unknown, rfl⟩, resolvedFields⟩,
      resolved⟩
    exact .unknown split resolved splitFields resolvedFields mentioned unknown
  · rintro ⟨split, resolved, splitFields, resolvedFields, mentioned, unknown⟩
    exact ⟨_, _, _, split, ⟨_, _, _, splitFields, ⟨_, mentioned, unknown, rfl⟩, resolvedFields⟩, resolved⟩

theorem classesFault?_eq_none_iff : classesFault? vs = none ↔ ∀ v ∈ vs, ∀ f ∈ v.fields, Resolves vs f := by
  simp only [classesFault?, List.findSome?_eq_none_iff, classFault?_eq_none_iff]

theorem accepts_or_refuses (vs : List Variant) : Accepts vs ∨ ∃ e, Refuses vs e := by
  rcases apart_or_fault vs with hapart | ⟨e, hfault⟩
  · cases hc : classesFault? vs with
    | none => exact .inl ⟨hapart, classesFault?_eq_none_iff.mp hc⟩
    | some e => exact .inr ⟨e, .inr ⟨hapart, classesFault?_eq_some_iff.mp hc⟩⟩
  · exact .inr ⟨e, .inl hfault⟩

/-! ### Definition -/

variable {name : String}

theorem define_of_accepts (h : Accepts vs) (name : String) :
    ∃ s, define name vs = .ok s ∧ s.name = name ∧ s.variants = vs := by
  have hn := nameFault?_of_apart h.toApart
  have hc := classesFault?_eq_none_iff.mpr h.resolved
  unfold define
  split
  · next hn' => rw [hn] at hn'; cases hn'
  · split
    · next hc' => rw [hc] at hc'; cases hc'
    · exact ⟨_, rfl, rfl, rfl⟩

theorem define_of_refuses (h : Refuses vs e) (name : String) : define name vs = .error (.schema e) := by
  unfold define
  rcases h with hfault | ⟨hapart, hfault⟩
  · have hn := nameFault?_of_nameFault hfault
    split
    · next hn' => rw [hn] at hn'; cases hn'; rfl
    · next hn' => rw [hn] at hn'; cases hn'
  · have hn := nameFault?_of_apart hapart
    have hc := classesFault?_eq_some_iff.mpr hfault
    split
    · next hn' => rw [hn] at hn'; cases hn'
    · split
      · next hc' => rw [hc] at hc'; cases hc'; rfl
      · next hc' => rw [hc] at hc'; cases hc'

/-- Names are distinct, so the first variant of a name is the only one. -/
theorem variant_of_mem (s : Schema) (h : v ∈ s.variants) : s.variant v.name = .ok v := by
  unfold variant
  cases hw : s.variants.find? fun w => w.name == v.name with
  | none => exact absurd (List.find?_eq_none.mp hw v h) (by simp)
  | some w =>
    have hname : w.name = v.name := by simpa using List.find?_some hw
    exact congrArg Except.ok
      (List.inj_on_of_nodup_map s.consistent.nodup_names (List.mem_of_find?_eq_some hw) h hname)

theorem variant_of_unknown (s : Schema) (h : name ∉ s.variants.map Variant.name) :
    s.variant name = .error (.schema (.unknownVariant name)) := by
  have hnone : s.variants.find? (fun v => v.name == name) = none := by
    refine List.find?_eq_none.mpr fun v hv hname => h ?_
    exact List.mem_map.mpr ⟨v, hv, by simpa using hname⟩
  unfold variant
  rw [hnone]
  rfl

theorem define_eq_ok_iff : (∃ s, define name vs = .ok s) ↔ Accepts vs := by
  constructor
  · rintro ⟨s, hs⟩
    rcases accepts_or_refuses vs with h | ⟨e, h⟩
    · exact h
    · rw [define_of_refuses h] at hs
      cases hs
  · intro h
    obtain ⟨s, hs, -⟩ := define_of_accepts h name
    exact ⟨s, hs⟩

theorem define_eq_error_iff {error : Error} :
    define name vs = .error error ↔ ∃ e, error = .schema e ∧ Refuses vs e := by
  constructor
  · intro herror
    rcases accepts_or_refuses vs with h | ⟨e, h⟩
    · obtain ⟨s, hs, -⟩ := define_of_accepts h name
      rw [hs] at herror
      cases herror
    · rw [define_of_refuses h] at herror
      cases herror
      exact ⟨e, rfl, h⟩
  · rintro ⟨e, rfl, h⟩
    exact define_of_refuses h name

/-- Variants make a schema exactly if no two share a name, no two fields of one do, and every class that a field mentions
    is known among them. The schema has them in the order given and finds each by its name, and nothing by another name.
    The error is otherwise that of the first variant with a repeated field or a repeated name, the field first, and if
    there is none that of the first field that mentions an unknown class. -/
theorem define_variants (name : String) (vs : List Variant) :
    ((∃ s, define name vs = .ok s) ↔ Accepts vs) ∧
      (∀ s, define name vs = .ok s → s.name = name ∧ s.variants = vs ∧ (∀ v ∈ vs, s.variant v.name = .ok v) ∧
        ∀ other, other ∉ vs.map Variant.name → s.variant other = .error (.schema (.unknownVariant other))) ∧
      ∀ error, define name vs = .error error ↔ ∃ e, error = .schema e ∧ Refuses vs e := by
  refine ⟨define_eq_ok_iff, fun s hs => ?_, fun _ => define_eq_error_iff⟩
  obtain ⟨s', hs', hname, hvariants⟩ := define_of_accepts (define_eq_ok_iff.mp ⟨s, hs⟩) name
  obtain rfl : s' = s := Except.ok.inj (hs'.symm.trans hs)
  subst hvariants
  exact ⟨hname, rfl, fun _ => s'.variant_of_mem, fun _ => s'.variant_of_unknown⟩

/-- The class of the first variant is unknown, but the repeated field after it is reported. -/
example : define "Music" [⟨"Track", [], [⟨"notes", .list (.node "Event")⟩]⟩,
    ⟨"Note", [], [⟨"pitch", .int⟩, ⟨"pitch", .str⟩]⟩] = .error (.schema (.duplicateFieldDecl "Note" "pitch")) := rfl

/-- The second variant lists the class that a field of the first one mentions. -/
example : (define "Music" [⟨"Track", [], [⟨"notes", .list (.optional (.node "Event"))⟩]⟩,
    ⟨"Note", ["Event"], []⟩]).isOk = true := rfl

end Schema
end TypedTree

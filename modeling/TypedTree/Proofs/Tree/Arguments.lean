import Mathlib.Data.List.Induction
import Mathlib.Data.List.Nodup
import TypedTree.Proofs.Tree.Update

/-! Nodes from arguments. The arguments are gone through in their order and put into the slots of their fields, then
    the fields in theirs. When no two fields share a name, a slot holds in the end what the argument of its name gives,
    so only the arguments count, not their order: `Accepts` says which lists of arguments make a node. All others have a
    first argument that has no free slot or, if they have none, a first field that they do not serve, and `Refuses` says
    with which error. -/

namespace TypedTree

/-! ### Looking up arguments -/

section Lookup
variable {args args' : List Argument} {name : String} {x : Value}

theorem lookup_argument_eq_none : args.lookup name = none ↔ name ∉ args.map Prod.fst := by
  simp only [List.lookup_eq_none_iff, bne_iff_ne, List.mem_map, not_exists, not_and]
  exact forall₂_congr fun a _ => ⟨Ne.symm, Ne.symm⟩

theorem lookup_argument_eq_some (hnd : (args.map Prod.fst).Nodup) : args.lookup name = some x ↔ (name, x) ∈ args := by
  rw [List.lookup_eq_some_iff]
  constructor
  · rintro ⟨before, after, rfl, -⟩
    exact List.mem_append_right _ List.mem_cons_self
  · intro h
    obtain ⟨before, after, rfl⟩ := List.append_of_mem h
    rw [List.map_append, List.map_cons, List.nodup_middle, List.nodup_cons] at hnd
    refine ⟨before, after, rfl, fun a ha => bne_iff_ne.mpr fun hname => hnd.1 (List.mem_append_left _ ?_)⟩
    exact List.mem_map.mpr ⟨a, ha, hname.symm⟩

theorem lookup_argument_perm (hnd : (args.map Prod.fst).Nodup) (h : args.Perm args') :
    args.lookup name = args'.lookup name := by
  ext x
  rw [lookup_argument_eq_some hnd, lookup_argument_eq_some ((h.map _).nodup_iff.mp hnd), h.mem_iff]

theorem lookup_argument_concat {other : String} (hnew : args.lookup name = none) :
    (args ++ [(name, x)]).lookup other = if other = name then some x else args.lookup other := by
  rw [List.lookup_append, List.lookup_cons]
  by_cases h : other = name
  · rw [if_pos h, h, hnew, beq_self_eq_true, Option.none_or]
  · rw [if_neg h, beq_eq_false_iff_ne.mpr h, List.lookup_nil, Option.or_none]

end Lookup

/-! ### One value for each entry -/

section MapM
variable {α β : Type} {f : α → Except Error β} {g : α → β}

theorem mapM_eq_ok {xs : List α} (h : ∀ x ∈ xs, f x = .ok (g x)) : xs.mapM f = .ok (xs.map g) := by
  induction xs with
  | nil => rfl
  | cons x xs ih =>
    rw [List.forall_mem_cons] at h
    rw [List.mapM_cons, h.1, ok_bind, ih h.2]
    rfl

/-- The first entry that fails decides. -/
theorem mapM_eq_error {before after : List α} {x : α} {e : Error} (hbefore : ∀ y ∈ before, f y = .ok (g y))
    (hx : f x = .error e) : (before ++ x :: after).mapM f = .error e := by
  rw [List.mapM_append, mapM_eq_ok hbefore, ok_bind, List.mapM_cons, hx]
  rfl

end MapM

/-- The value that the arguments give to a field; an omitted field has none. -/
def given (args : List Argument) (f : Field) : Value := (args.lookup f.name).getD .absent

namespace Variant
variable {v : Variant} {args args' : List Argument} {e : SchemaError}

/-! ### Acceptance and refusal -/

/-- Each argument names a field, and no two name the same. -/
structure Names (v : Variant) (args : List Argument) : Prop where
  declared : ∀ a ∈ args, a.1 ∈ v.fields.map Field.name
  distinct : (args.map Prod.fst).Nodup

/-- The arguments have what the field needs. -/
structure Serves (args : List Argument) (f : Field) : Prop where
  given : f.isOptional = false → f.name ∈ args.map Prod.fst
  admitted : ∀ x, (f.name, x) ∈ args → f.type.admits x = true

/-- The arguments make a node of the variant: their names are declared and distinct, every field that is not optional is
    given, and every value is admitted by its field. -/
structure Accepts (v : Variant) (args : List Argument) : Prop extends v.Names args where
  served : ∀ f ∈ v.fields, Serves args f

/-- The error of the first argument that names no field, or the field of an earlier one. -/
inductive ArgumentFault (v : Variant) (args : List Argument) : SchemaError → Prop
  | unknown {before after : List Argument} {name : String} {x : Value} (split : args = before ++ (name, x) :: after)
      (placed : v.Names before) (undeclared : name ∉ v.fields.map Field.name) :
      ArgumentFault v args (.unknownField v.name name)
  | repeated {before after : List Argument} {name : String} {x : Value} (split : args = before ++ (name, x) :: after)
      (placed : v.Names before) (earlier : name ∈ before.map Prod.fst) :
      ArgumentFault v args (.duplicateArgument v.name name)

/-- The error of the first field, in order of declaration, that is missing or has a value it does not admit. -/
inductive FieldFault (v : Variant) (args : List Argument) : SchemaError → Prop
  | missing {before after : List Field} {f : Field} (split : v.fields = before ++ f :: after)
      (served : ∀ g ∈ before, Serves args g) (omitted : f.name ∉ args.map Prod.fst) (required : f.isOptional = false) :
      FieldFault v args (.missingField v.name f.name)
  | illTyped {before after : List Field} {f : Field} {x : Value} (split : v.fields = before ++ f :: after)
      (served : ∀ g ∈ before, Serves args g) (given : (f.name, x) ∈ args) (refused : f.type.admits x = false) :
      FieldFault v args (.fieldType v.name f.name (toString f.type) x.typeName)

/-- The error with which the arguments make no node: arguments come before fields. -/
def Refuses (v : Variant) (args : List Argument) (e : SchemaError) : Prop :=
  v.ArgumentFault args e ∨ v.Names args ∧ v.FieldFault args e

theorem names_concat {a : Argument} :
    v.Names (args ++ [a]) ↔ v.Names args ∧ a.1 ∈ v.fields.map Field.name ∧ a.1 ∉ args.map Prod.fst := by
  constructor
  · rintro ⟨hdeclared, hdistinct⟩
    rw [List.map_append, List.map_singleton, List.nodup_append] at hdistinct
    refine ⟨⟨fun b hb => hdeclared b (List.mem_append_left _ hb), hdistinct.1⟩, hdeclared a (by simp), fun ha => ?_⟩
    exact hdistinct.2.2 _ ha _ (List.mem_singleton.mpr rfl) rfl
  · rintro ⟨h, hdeclared, hnew⟩
    refine ⟨fun b hb => ?_, ?_⟩
    · rcases List.mem_append.mp hb with hb | hb
      · exact h.declared b hb
      · exact List.mem_singleton.mp hb ▸ hdeclared
    · rw [List.map_append, List.map_singleton, List.nodup_append]
      refine ⟨h.distinct, List.nodup_singleton _, fun b hb c hc => ?_⟩
      rw [List.mem_singleton.mp hc]
      exact fun hbc => hnew (hbc ▸ hb)

theorem names_or_fault (v : Variant) (args : List Argument) : v.Names args ∨ ∃ e, v.ArgumentFault args e := by
  induction args using List.reverseRecOn with
  | nil => exact .inl ⟨by simp, by simp⟩
  | append_singleton args a ih =>
    rcases ih with hnames | ⟨e, hfault⟩
    · by_cases hdeclared : a.1 ∈ v.fields.map Field.name
      · by_cases hearlier : a.1 ∈ args.map Prod.fst
        · exact .inr ⟨_, .repeated rfl hnames hearlier⟩
        · exact .inl (names_concat.mpr ⟨hnames, hdeclared, hearlier⟩)
      · exact .inr ⟨_, .unknown rfl hnames hdeclared⟩
    · refine .inr ⟨e, ?_⟩
      cases hfault with
      | unknown split placed undeclared =>
        rw [split, List.append_assoc]
        exact .unknown rfl placed undeclared
      | repeated split placed earlier =>
        rw [split, List.append_assoc]
        exact .repeated rfl placed earlier

theorem served_or_fault (v : Variant) (args : List Argument) :
    (∀ f ∈ v.fields, Serves args f) ∨ ∃ e, v.FieldFault args e := by
  classical
  cases hfind : v.fields.find? fun f => ¬Serves args f with
  | none => exact .inl fun f hf => by simpa using List.find?_eq_none.mp hfind f hf
  | some f =>
    obtain ⟨hf, before, after, hsplit, hbefore⟩ := List.find?_eq_some_iff_append.mp hfind
    have hserved : ∀ g ∈ before, Serves args g := by simpa using hbefore
    by_cases hadmitted : ∀ x, (f.name, x) ∈ args → f.type.admits x = true
    · have hgiven : ¬(f.isOptional = false → f.name ∈ args.map Prod.fst) := fun h => by simp [Serves.mk h hadmitted] at hf
      obtain ⟨hrequired, homitted⟩ := Classical.not_imp.mp hgiven
      exact .inr ⟨_, .missing hsplit hserved homitted hrequired⟩
    · push Not at hadmitted
      obtain ⟨x, hx, hrefused⟩ := hadmitted
      exact .inr ⟨_, .illTyped hsplit hserved hx (by simpa using hrefused)⟩

theorem accepts_or_refuses (v : Variant) (args : List Argument) : v.Accepts args ∨ ∃ e, v.Refuses args e := by
  rcases names_or_fault v args with hnames | ⟨e, hfault⟩
  · rcases served_or_fault v args with hserved | ⟨e, hfault⟩
    · exact .inl ⟨hnames, hserved⟩
    · exact .inr ⟨e, .inr ⟨hnames, hfault⟩⟩
  · exact .inr ⟨e, .inl hfault⟩

theorem Accepts.perm (h : v.Accepts args) (hp : args.Perm args') : v.Accepts args' where
  declared a ha := h.declared a (hp.mem_iff.mpr ha)
  distinct := (hp.map _).nodup_iff.mp h.distinct
  served f hf := ⟨fun hreq => (hp.map _).mem_iff.mp ((h.served f hf).given hreq),
    fun x hx => (h.served f hf).admitted x (hp.mem_iff.mpr hx)⟩

/-! ### Slots -/

/-- One slot for each field, with what the arguments give to it. -/
def filled (v : Variant) (args : List Argument) : List (Option Value) := v.fields.map fun f => args.lookup f.name

theorem getElem?_filled {name : String} {i : Fin v.fields.length} (hi : v.position? name = some i) :
    (v.filled args)[i.1]? = some (args.lookup name) := by
  rw [filled, List.getElem?_map, List.getElem?_eq_getElem i.2, Option.map_some]
  exact congrArg (fun s => some (args.lookup s)) (name_of_position? hi)

theorem exists_position? {name : String} (h : name ∈ v.fields.map Field.name) : ∃ i, v.position? name = some i := by
  obtain ⟨f, hf, rfl⟩ := List.mem_map.mp h
  cases hi : v.position? f.name with
  | some i => exact ⟨i, rfl⟩
  | none => simpa using List.findFinIdx?_eq_none_iff.mp hi f hf

theorem position?_eq_none {name : String} (h : name ∉ v.fields.map Field.name) : v.position? name = none := by
  refine List.findFinIdx?_eq_none_iff.mpr fun f hf => ?_
  simpa using fun hname : f.name = name => h (List.mem_map.mpr ⟨f, hf, hname⟩)

/-- The step: an argument for a free slot is what that slot gives from then on. -/
theorem place_filled (hnd : (v.fields.map Field.name).Nodup) {name : String} {x : Value}
    (h : v.Names (args ++ [(name, x)])) : v.place (v.filled args) (name, x) = .ok (v.filled (args ++ [(name, x)])) := by
  obtain ⟨-, hdeclared, hnew⟩ := names_concat.mp h
  obtain ⟨i, hi⟩ := exists_position? hdeclared
  have hfree : args.lookup name = none := lookup_argument_eq_none.mpr hnew
  simp only [place, hi, getElem?_filled hi, hfree]
  refine congrArg Except.ok (List.ext_getElem? fun j => ?_)
  rw [List.getElem?_set, filled, filled, List.getElem?_map, List.getElem?_map, List.length_map]
  by_cases hij : i.1 = j
  · subst hij
    have hname : v.fields[i.1].name = name := name_of_position? hi
    rw [if_pos rfl, if_pos i.2, List.getElem?_eq_getElem i.2, Option.map_some, hname, lookup_argument_concat hfree,
      if_pos rfl]
  · rw [if_neg hij]
    refine Option.map_congr fun f hf => ?_
    have hother : f.name ≠ name := fun hsame => by
      have hat : (v.fields.map Field.name)[i.1]? = (v.fields.map Field.name)[j]? := by
        rw [List.getElem?_map, List.getElem?_map, hf, List.getElem?_eq_getElem i.2, Option.map_some, Option.map_some, hsame]
        exact congrArg some (name_of_position? hi)
      exact hij ((List.getElem?_inj (by simp) hnd).mp hat)
    rw [lookup_argument_concat hfree, if_neg hother]

theorem place_unknown {slots : List (Option Value)} {name : String} {x : Value} (h : name ∉ v.fields.map Field.name) :
    v.place slots (name, x) = .error (.schema (.unknownField v.name name)) := by
  rw [place, position?_eq_none h]
  rfl

theorem place_repeated {name : String} {x : Value} (hnames : v.Names args) (h : name ∈ args.map Prod.fst) :
    v.place (v.filled args) (name, x) = .error (.schema (.duplicateArgument v.name name)) := by
  obtain ⟨a, ha, rfl⟩ := List.mem_map.mp h
  obtain ⟨i, hi⟩ := exists_position? (hnames.declared a ha)
  have htaken : (v.filled args)[i.1]? = some (some a.2) := by
    rw [getElem?_filled hi, (lookup_argument_eq_some hnames.distinct).mpr ha]
  simp only [place, hi, htaken]
  rfl

/-- The run: arguments that can all be placed fill their slots. -/
theorem slots_of_names (hnd : (v.fields.map Field.name).Nodup) (h : v.Names args) : v.slots args = .ok (v.filled args) := by
  induction args using List.reverseRecOn with
  | nil => simp [slots, filled, pure, Except.pure]
  | append_singleton args a ih =>
    have hbefore : args.foldlM v.place (List.replicate v.fields.length none) = .ok (v.filled args) :=
      ih (names_concat.mp h).1
    rw [slots, List.foldlM_append, hbefore, ok_bind, List.foldlM_cons, place_filled hnd h]
    rfl

theorem slots_of_fault (hnd : (v.fields.map Field.name).Nodup) (h : v.ArgumentFault args e) :
    v.slots args = .error (.schema e) := by
  have stopped : ∀ {before after : List Argument} {a : Argument}, v.Names before →
      v.place (v.filled before) a = .error (.schema e) → v.slots (before ++ a :: after) = .error (.schema e) := by
    intro before after a hnames hstop
    have hbefore : before.foldlM v.place (List.replicate v.fields.length none) = .ok (v.filled before) :=
      slots_of_names hnd hnames
    rw [slots, List.foldlM_append, hbefore, ok_bind, List.foldlM_cons, hstop]
    rfl
  cases h with
  | unknown split placed undeclared => exact split ▸ stopped placed (place_unknown undeclared)
  | repeated split placed earlier => exact split ▸ stopped placed (place_repeated placed earlier)

/-! ### Values -/

theorem arrange_of_names (hnd : (v.fields.map Field.name).Nodup) (h : v.Names args) :
    v.arrange args = v.fields.mapM fun f => v.settle f (args.lookup f.name) := by
  rw [arrange, slots_of_names hnd h, ok_bind, filled, ← List.map_prod_left_eq_zip, List.mapM_map]
  rfl

theorem settle_of_serves (hnd : (args.map Prod.fst).Nodup) {f : Field} (h : Serves args f) :
    v.settle f (args.lookup f.name) = .ok (given args f) := by
  rw [TypedTree.given]
  cases hf : args.lookup f.name with
  | some x =>
    rw [settle, Field.checked, if_pos (h.admitted x ((lookup_argument_eq_some hnd).mp hf))]
    rfl
  | none =>
    have hoptional : f.isOptional = true := by
      by_contra hreq
      exact lookup_argument_eq_none.mp hf (h.given (by simpa using hreq))
    rw [settle, if_pos hoptional]
    rfl

/-- The arguments are accepted: each field has what they give to it. -/
theorem arrange_of_accepts (hnd : (v.fields.map Field.name).Nodup) (h : v.Accepts args) :
    v.arrange args = .ok (v.fields.map (given args)) := by
  rw [arrange_of_names hnd h.toNames]
  exact mapM_eq_ok fun f hf => settle_of_serves h.distinct (h.served f hf)

theorem arrange_of_refuses (hnd : (v.fields.map Field.name).Nodup) (h : v.Refuses args e) :
    v.arrange args = .error (.schema e) := by
  rcases h with hfault | ⟨hnames, hfault⟩
  · rw [arrange, slots_of_fault hnd hfault]
    rfl
  · rw [arrange_of_names hnd hnames]
    cases hfault with
    | missing split served omitted required =>
      rw [split]
      refine mapM_eq_error (fun g hg => settle_of_serves hnames.distinct (served g hg)) ?_
      rw [lookup_argument_eq_none.mpr omitted, settle, required]
      rfl
    | illTyped split served hgiven refused =>
      rw [split]
      refine mapM_eq_error (fun g hg => settle_of_serves hnames.distinct (served g hg)) ?_
      rw [(lookup_argument_eq_some hnames.distinct).mpr hgiven, settle, Field.checked, refused]
      rfl

theorem arrange_eq_ok_iff (hnd : (v.fields.map Field.name).Nodup) {values : List Value} :
    v.arrange args = .ok values ↔ v.Accepts args ∧ values = v.fields.map (given args) := by
  refine ⟨fun h => ?_, fun ⟨h, hvalues⟩ => hvalues ▸ arrange_of_accepts hnd h⟩
  rcases accepts_or_refuses v args with haccepts | ⟨e, hrefuses⟩
  · rw [arrange_of_accepts hnd haccepts] at h
    exact ⟨haccepts, (Except.ok.inj h).symm⟩
  · rw [arrange_of_refuses hnd hrefuses] at h
    cases h

theorem arrange_eq_error_iff (hnd : (v.fields.map Field.name).Nodup) {error : Error} :
    v.arrange args = .error error ↔ ∃ e, error = .schema e ∧ v.Refuses args e := by
  refine ⟨fun h => ?_, fun ⟨e, he, hrefuses⟩ => he ▸ arrange_of_refuses hnd hrefuses⟩
  rcases accepts_or_refuses v args with haccepts | ⟨e, hrefuses⟩
  · rw [arrange_of_accepts hnd haccepts] at h
    cases h
  · rw [arrange_of_refuses hnd hrefuses] at h
    exact ⟨e, (Except.error.inj h).symm, hrefuses⟩

theorem given_perm (h : v.Names args) (hp : args.Perm args') : given args = given args' := by
  funext f
  rw [given, given, lookup_argument_perm h.distinct hp]

end Variant

/-! ### Nodes -/

/-- Wherever they start, both actions give a node or neither does, and the nodes hold the same values; only their
    identities may differ. -/
structure BuildAlike (x y : BuildM Node) : Prop where
  succeed : ∀ w u, (∃ n w', built x w = (.ok n, w')) ↔ ∃ m u', built y u = (.ok m, u')
  values : ∀ w u n m w' u', built x w = (.ok n, w') → built y u = (.ok m, u') → n.variant = m.variant ∧ n.values = m.values

namespace Variant
variable {v : Variant} {args args' : List Argument}

theorem built_build_eq_ok (hnd : (v.fields.map Field.name).Nodup) {n : Node} {w w' : Workspace} :
    built (v.build args) w = (.ok n, w') ↔
      v.Accepts args ∧ n = .mk w.nextId v (v.fields.map (given args)) ∧ w' = { w with nextId := w.nextId + 1 } := by
  rw [build, built_liftM_bind_eq_ok]
  simp only [arrange_eq_ok_iff hnd]
  constructor
  · rintro ⟨_, ⟨haccepts, rfl⟩, h⟩
    cases h
    exact ⟨haccepts, rfl, rfl⟩
  · rintro ⟨haccepts, rfl, rfl⟩
    exact ⟨_, ⟨haccepts, rfl⟩, rfl⟩

theorem built_build_eq_error (hnd : (v.fields.map Field.name).Nodup) {error : Error} {w w' : Workspace} :
    built (v.build args) w = (.error error, w') ↔ (∃ e, error = .schema e ∧ v.Refuses args e) ∧ w' = w := by
  rw [← arrange_eq_error_iff hnd, build, built_bind, built_liftM]
  cases v.arrange args with
  | error e => simp [eq_comm]
  | ok values => exact iff_of_false (fun h => nomatch h) (fun h => nomatch h.1)

theorem exists_build_iff (hnd : (v.fields.map Field.name).Nodup) (w : Workspace) :
    (∃ n w', built (v.build args) w = (.ok n, w')) ↔ v.Accepts args := by
  simp only [built_build_eq_ok hnd]
  exact ⟨fun ⟨_, _, h, _⟩ => h, fun h => ⟨_, _, h, rfl, rfl⟩⟩

theorem get_given (hnd : (v.fields.map Field.name).Nodup) (args : List Argument) (id : NodeId) :
    ∀ f ∈ v.fields, (Node.mk id v (v.fields.map (given args))).get f.name = .ok (given args f) := by
  have hcomplete : (Node.mk id v (v.fields.map (given args))).Complete := List.length_map ..
  have hvalues := hcomplete.get_values hnd
  rwa [Node.values, List.forall₂_map_right_iff, Node.variant, List.forall₂_same] at hvalues

theorem buildAlike_of_perm (hnd : (v.fields.map Field.name).Nodup) (hp : args.Perm args') :
    BuildAlike (v.build args) (v.build args') where
  succeed w u := by
    rw [exists_build_iff hnd, exists_build_iff hnd]
    exact ⟨fun h => h.perm hp, fun h => h.perm hp.symm⟩
  values w u n m w' u' hn hm := by
    obtain ⟨haccepts, rfl, -⟩ := (built_build_eq_ok hnd).mp hn
    obtain ⟨-, rfl, -⟩ := (built_build_eq_ok hnd).mp hm
    rw [given_perm haccepts.toNames hp]
    exact ⟨rfl, rfl⟩

/-- For a variant whose fields have distinct names: a list of arguments makes a node exactly if it is accepted. The node
    reads as the arguments say and has nothing in the fields that they omit, and in another order they make a node of the
    same values. If the list is not accepted nothing is made, and the error is that of the first fault: arguments in
    their order, then fields in theirs. -/
theorem build_arguments (hnd : (v.fields.map Field.name).Nodup) (args : List Argument) (w : Workspace) :
    ((∃ n w', built (v.build args) w = (.ok n, w')) ↔ v.Accepts args) ∧
      (∀ n w', built (v.build args) w = (.ok n, w') → n.variant = v ∧ n.values.length = v.fields.length ∧
        (∀ a ∈ args, n.get a.1 = .ok a.2) ∧ ∀ f ∈ v.fields, f.name ∉ args.map Prod.fst → n.get f.name = .ok .absent) ∧
      (∀ args', args.Perm args' → BuildAlike (v.build args) (v.build args')) ∧
      ∀ error w', built (v.build args) w = (.error error, w') ↔ (∃ e, error = .schema e ∧ v.Refuses args e) ∧ w' = w := by
  refine ⟨exists_build_iff hnd w, fun n w' h => ?_, fun _ => buildAlike_of_perm hnd, fun _ _ => built_build_eq_error hnd⟩
  obtain ⟨haccepts, rfl, -⟩ := (built_build_eq_ok hnd).mp h
  have hget := get_given hnd args w.nextId
  refine ⟨rfl, List.length_map .., fun a ha => ?_, fun f hf homitted => ?_⟩
  · obtain ⟨f, hf, hname⟩ := List.mem_map.mp (haccepts.declared a ha)
    rw [← hname, hget f hf, given, hname, (lookup_argument_eq_some haccepts.distinct).mpr ha, Option.getD_some]
  · rw [hget f hf, given, lookup_argument_eq_none.mpr homitted, Option.getD_none]

section Labels

/-- A label has a text and a rank, and perhaps a note. -/
def labelVariant : Variant := ⟨"Label", [], [⟨"text", .str⟩, ⟨"rank", .int⟩, ⟨"note", .optional .str⟩]⟩

/-- Two arguments make a label in either order. The second list has an argument without a field, which is reported before
    the one that is repeated, the one of a wrong type and the text that is missing. -/
theorem build_arguments_label :
    (∃ n w', built (labelVariant.build [("rank", .int 3), ("text", .str "red")]) {} = (.ok n, w') ∧
      n.get "text" = .ok (.str "red") ∧ n.get "note" = .ok .absent) ∧
    BuildAlike (labelVariant.build [("rank", .int 3), ("text", .str "red")])
      (labelVariant.build [("text", .str "red"), ("rank", .int 3)]) ∧
    built (labelVariant.build [("rank", .str "first"), ("colour", .int 1), ("rank", .int 2)]) {} =
      (.error (.schema (.unknownField "Label" "colour")), {}) := by
  have hnd : (labelVariant.fields.map Field.name).Nodup := by decide
  have haccepts : labelVariant.Accepts [("rank", .int 3), ("text", .str "red")] := by
    refine ⟨⟨by decide, by decide⟩, ?_⟩
    simp only [labelVariant, List.forall_mem_cons]
    refine ⟨⟨by decide, ?_⟩, ⟨by decide, ?_⟩, ⟨by decide, ?_⟩, by simp⟩ <;> simp [FieldType.admits, ScalarType.admits]
  have hsplit : [("rank", .str "first"), ("colour", .int 1), ("rank", .int 2)] =
    [("rank", Value.str "first")] ++ ("colour", .int 1) :: [("rank", .int 2)] := rfl
  have hrefuses : labelVariant.Refuses [("rank", .str "first"), ("colour", .int 1), ("rank", .int 2)]
    (.unknownField "Label" "colour") := .inl (.unknown hsplit ⟨by decide, by decide⟩ (by decide))
  obtain ⟨hmakes, hreads, hperm, -⟩ := build_arguments hnd [("rank", .int 3), ("text", .str "red")] {}
  obtain ⟨n, w', h⟩ := hmakes.mpr haccepts
  obtain ⟨-, -, hget, homitted⟩ := hreads n w' h
  refine ⟨⟨n, w', h, ?_, ?_⟩, hperm _ (.swap _ _ _), ?_⟩
  · exact hget ("text", .str "red") (by simp)
  · exact homitted ⟨"note", .optional .str⟩ (by simp [labelVariant]) (by decide)
  · obtain ⟨-, -, -, herror⟩ := build_arguments hnd [("rank", .str "first"), ("colour", .int 1), ("rank", .int 2)] {}
    exact (herror _ _).mpr ⟨⟨_, rfl, hrefuses⟩, rfl⟩

end Labels

end Variant
end TypedTree

import TypedTree.Proofs.Tree.Arguments
import TypedTree.Proofs.Tree.Construction

/-! Updates as constructions. To update a node is to construct one of its variant from the values of the node, with those
    of the updates in their place: an update checks only what is new, but what it leaves was checked when the node was
    made. So the order of updates does not count, and two updates one after the other are one, in which the later values
    stand in the place of the earlier ones. -/

namespace TypedTree

/-! ### Arguments in the place of others -/

/-- The arguments of both lists; where both name a field the second one counts. -/
def overridden (args updates : List Argument) : List Argument :=
  args.filter (fun a => a.1 ∉ updates.map Prod.fst) ++ updates

section Overridden
variable {args updates updates' : List Argument} {name : String}

theorem lookup_filter_names (names : List String) :
    (args.filter fun a => a.1 ∉ names).lookup name = if name ∈ names then none else args.lookup name := by
  induction args with
  | nil => simp
  | cons a args ih =>
    rw [List.filter_cons, List.lookup_cons]
    by_cases ha : a.1 ∈ names
    · rw [if_neg (by simpa using ha), ih]
      by_cases hname : name = a.1
      · rw [hname, if_pos ha, if_pos ha]
      · rw [beq_eq_false_iff_ne.mpr hname]
    · rw [if_pos (by simpa using ha), List.lookup_cons, ih]
      by_cases hname : name = a.1
      · rw [hname, beq_self_eq_true, if_neg ha, if_neg ha]
      · rw [beq_eq_false_iff_ne.mpr hname]

theorem lookup_overridden : (overridden args updates).lookup name = (updates.lookup name).or (args.lookup name) := by
  rw [overridden, List.lookup_append, lookup_filter_names]
  cases h : updates.lookup name with
  | none => rw [if_neg (lookup_argument_eq_none.mp h), Option.or_none, Option.none_or]
  | some x =>
    have hname : name ∈ updates.map Prod.fst := by
      by_contra hname
      rw [lookup_argument_eq_none.mpr hname] at h
      cases h
    rw [if_pos hname, Option.none_or, Option.some_or]

theorem mem_overridden {a : Argument} :
    a ∈ overridden args updates ↔ a ∈ args ∧ a.1 ∉ updates.map Prod.fst ∨ a ∈ updates := by
  rw [overridden, List.mem_append, List.mem_filter, decide_eq_true_iff]

theorem mem_names_overridden :
    name ∈ (overridden args updates).map Prod.fst ↔ name ∈ args.map Prod.fst ∨ name ∈ updates.map Prod.fst := by
  rw [← not_iff_not, not_or]
  simp only [← lookup_argument_eq_none, lookup_overridden, Option.or_eq_none_iff, and_comm]

theorem nodup_overridden (hargs : (args.map Prod.fst).Nodup) (hupdates : (updates.map Prod.fst).Nodup) :
    ((overridden args updates).map Prod.fst).Nodup := by
  rw [overridden, List.map_append, List.nodup_append]
  refine ⟨hargs.sublist (List.filter_sublist.map _), hupdates, fun name hname other hother hsame => ?_⟩
  obtain ⟨a, ha, rfl⟩ := List.mem_map.mp hname
  exact of_decide_eq_true (List.mem_filter.mp ha).2 (hsame ▸ hother)

theorem overridden_perm (h : updates.Perm updates') : (overridden args updates).Perm (overridden args updates') := by
  have hfilter : (fun a : Argument => decide (a.1 ∉ updates.map Prod.fst)) =
      fun a => decide (a.1 ∉ updates'.map Prod.fst) := by
    funext a
    exact decide_eq_decide.mpr (not_congr (h.map Prod.fst).mem_iff)
  rw [overridden, overridden, hfilter]
  exact h.append_left _

end Overridden

/-! ### The values of a node as arguments -/

namespace Node
variable {n n' : Node} {updates : List Argument} {w w' : Workspace}

/-- The values of the node, each under the name of its field. -/
def arguments (n : Node) : List Argument := n.fields.map fun p => (p.1.name, p.2)

theorem lookup_arguments (n : Node) (name : String) : n.arguments.lookup name = (n.get name).toOption := by
  have hfind : ∀ ps : List (Field × Value),
      (ps.map fun p => (p.1.name, p.2)).lookup name = (ps.find? fun p => p.1.name == name).map Prod.snd := by
    intro ps
    induction ps with
    | nil => rfl
    | cons p ps ih =>
      rw [List.map_cons, List.lookup_cons, List.find?_cons, ih, BEq.comm (a := name)]
      cases p.1.name == name <;> rfl
  rw [arguments, hfind, get]
  cases n.fields.find? fun p => p.1.name == name <;> rfl

theorem Fits.names_arguments (h : n.Fits) : n.arguments.map Prod.fst = n.variant.fields.map Field.name := by
  have hfields : n.fields.map Prod.fst = n.variant.fields := List.map_fst_zip (Nat.le_of_eq h.complete.symm)
  rw [arguments, List.map_map, ← hfields, List.map_map]
  rfl

theorem Fits.serves_arguments (h : n.Fits) (hnd : (n.variant.fields.map Field.name).Nodup) :
    ∀ f ∈ n.variant.fields, Variant.Serves n.arguments f := by
  intro f hf
  refine ⟨fun _ => h.names_arguments ▸ List.mem_map_of_mem hf, fun x hx => ?_⟩
  obtain ⟨⟨g, y⟩, hg, heq⟩ := List.mem_map.mp hx
  obtain ⟨hname, rfl⟩ := Prod.mk.inj heq
  obtain rfl : g = f := List.inj_on_of_nodup_map hnd (List.of_mem_zip hg).1 hf hname
  exact List.forall₂_zip h hg

/-- A list of updates is admitted exactly if the node that it describes is made. -/
theorem Fits.accepts_overridden_iff (h : n.Fits) (hnd : (n.variant.fields.map Field.name).Nodup) :
    n.variant.Accepts (overridden n.arguments updates) ↔ n.Admits updates := by
  constructor
  · intro haccepts
    refine ⟨fun u hu => ?_, haccepts.distinct.sublist ((List.sublist_append_right _ _).map _)⟩
    obtain ⟨i, hi⟩ := Variant.exists_position? (haccepts.declared u (mem_overridden.mpr (.inr hu)))
    refine ⟨_, Variant.field?_of_position? hi, (haccepts.served _ (List.getElem_mem i.2)).admitted u.2 ?_⟩
    rw [show n.variant.fields[i.1].name = u.1 from Variant.name_of_position? hi]
    exact mem_overridden.mpr (.inr hu)
  · intro hadm
    have hown := h.serves_arguments hnd
    have hnames : n.variant.Names (overridden n.arguments updates) := by
      refine ⟨fun a ha => ?_, nodup_overridden (h.names_arguments ▸ hnd) hadm.nodup⟩
      rcases mem_overridden.mp ha with ⟨ha, -⟩ | ha
      · exact h.names_arguments ▸ List.mem_map_of_mem ha
      · obtain ⟨f, hf, -⟩ := hadm.fields a ha
        exact List.mem_map.mpr ⟨f, List.mem_of_find?_eq_some hf, by simpa using List.find?_some hf⟩
    refine ⟨hnames, fun f hf => ⟨fun hreq => mem_names_overridden.mpr (.inl ((hown f hf).given hreq)), fun x hx => ?_⟩⟩
    rcases mem_overridden.mp hx with ⟨hx, -⟩ | hx
    · exact (hown f hf).admitted x hx
    · obtain ⟨g, hg, hadmits⟩ := hadm.fields _ hx
      obtain rfl : g = f :=
        List.inj_on_of_nodup_map hnd (List.mem_of_find?_eq_some hg) hf (by simpa using List.find?_some hg)
      exact hadmits

/-! ### Nodes that updates give -/

theorem exists_update_iff (hfit : n.Fits) (w : Workspace) :
    (∃ n' w', built (n.update updates) w = (.ok n', w')) ↔ n.Admits updates := by
  refine ⟨fun ⟨_, _, h⟩ => admits_of_built_update h, fun hadm => ?_⟩
  by_cases hne : updates = []
  · subst hne
    exact ⟨n, w, rfl⟩
  · obtain ⟨n', h, -⟩ := built_update hfit hadm hne w
    exact ⟨n', _, h⟩

/-- A node without updates is the node itself, and that is what such an update gives. -/
theorem isUpdate_of_update (hfit : n.Fits) (h : built (n.update updates) w = (.ok n', w')) : n.IsUpdate updates n' := by
  by_cases hne : updates = []
  · subst hne
    cases h
    exact ⟨rfl, hfit, fun _ => rfl⟩
  · exact isUpdate_of_built_update hne h hfit

theorem IsUpdate.lookup_arguments (h : n.IsUpdate updates n') (name : String) :
    n'.arguments.lookup name = (updates.lookup name).or (n.arguments.lookup name) := by
  rw [Node.lookup_arguments, Node.lookup_arguments, h.get, updated]
  cases updates.lookup name <;> rfl

/-- The values of an updated node, field by field. -/
theorem IsUpdate.values (h : n.IsUpdate updates n') (hnd : (n.variant.fields.map Field.name).Nodup) :
    n'.values = n.variant.fields.map (given (overridden n.arguments updates)) := by
  refine h.fits.values_eq (h.variant ▸ hnd) ?_
  rw [h.variant, List.map_map]
  refine List.map_congr_left fun f hf => ?_
  obtain ⟨x, -, hx⟩ := exists_of_forall₂_left (h.fits.get_values (h.variant ▸ hnd)) (h.variant ▸ hf)
  rw [hx, Function.comp_apply, given, lookup_overridden, ← h.lookup_arguments, Node.lookup_arguments, hx]
  rfl

end Node

/-! ### Updating and constructing -/

namespace BuildAlike
variable {x y z : BuildM Node}

theorem symm (h : BuildAlike x y) : BuildAlike y x where
  succeed w u := (h.succeed u w).symm
  values w u n m w' u' hn hm := (h.values u w m n u' w' hm hn).imp Eq.symm Eq.symm

theorem trans (h : BuildAlike x y) (h' : BuildAlike y z) : BuildAlike x z where
  succeed w u := (h.succeed w w).trans (h'.succeed w u)
  values w u n m w' u' hn hm := by
    obtain ⟨k, v', hk⟩ := (h.succeed w w).mp ⟨n, w', hn⟩
    obtain ⟨hvariant, hvalues⟩ := h.values w w n k w' v' hn hk
    obtain ⟨hvariant', hvalues'⟩ := h'.values w u k m v' u' hk hm
    exact ⟨hvariant.trans hvariant', hvalues.trans hvalues'⟩

end BuildAlike

namespace Node
variable {n n₁ n₂ : Node} {args updates later : List Argument}

/-- The update checks what is new and the construction checks all values, but the old ones fit. -/
theorem Fits.buildAlike_build (h : n.Fits) (hnd : (n.variant.fields.map Field.name).Nodup)
    (hargs : args.Perm (overridden n.arguments updates)) : BuildAlike (n.update updates) (n.variant.build args) where
  succeed w u := by
    rw [exists_update_iff h, Variant.exists_build_iff hnd, ← h.accepts_overridden_iff hnd]
    exact ⟨fun haccepts => haccepts.perm hargs.symm, fun haccepts => haccepts.perm hargs⟩
  values w u n' m w' u' hn hm := by
    have hupdate := isUpdate_of_update h hn
    obtain ⟨haccepts, rfl, -⟩ := (Variant.built_build_eq_ok hnd).mp hm
    refine ⟨hupdate.variant, ?_⟩
    rw [hupdate.values hnd, Variant.given_perm haccepts.toNames hargs]
    rfl

/-- The order of updates does not count. -/
theorem Fits.buildAlike_update (h : n.Fits) (hnd : (n.variant.fields.map Field.name).Nodup) {updates' : List Argument}
    (hp : updates.Perm updates') : BuildAlike (n.update updates) (n.update updates') :=
  (h.buildAlike_build hnd (.refl _)).trans (h.buildAlike_build hnd (overridden_perm hp)).symm

theorem Admits.overridden (h : n.Admits updates) (hlater : n.Admits later) : n.Admits (overridden updates later) where
  fields u hu := by
    rcases mem_overridden.mp hu with ⟨hu, -⟩ | hu
    · exact h.fields u hu
    · exact hlater.fields u hu
  nodup := nodup_overridden h.nodup hlater.nodup

/-- Two updates one after the other are one. -/
theorem Fits.update_overridden (h : n.Fits) (hnd : (n.variant.fields.map Field.name).Nodup) {w w₁ u u₂ : Workspace}
    (hfirst : built (n.update updates) w = (.ok n₁, w₁)) (hsecond : built (n₁.update later) u = (.ok n₂, u₂))
    (w' : Workspace) :
    ∃ n₃ w₃, built (n.update (overridden updates later)) w' = (.ok n₃, w₃) ∧ n₃.variant = n₂.variant ∧
      n₃.values = n₂.values := by
  have hupdate := isUpdate_of_update h hfirst
  have hupdate' := isUpdate_of_update hupdate.fits hsecond
  have hlater : n.Admits later := by
    obtain ⟨hfields, hdistinct⟩ := admits_of_built_update hsecond
    exact ⟨hupdate.variant ▸ hfields, hdistinct⟩
  obtain ⟨n₃, w₃, hboth⟩ := (exists_update_iff h w').mpr ((admits_of_built_update hfirst).overridden hlater)
  have hupdate₃ := isUpdate_of_update h hboth
  refine ⟨n₃, w₃, hboth, hupdate₃.variant.trans (hupdate'.variant.trans hupdate.variant).symm, ?_⟩
  rw [hupdate₃.values hnd, hupdate'.values (hupdate.variant ▸ hnd), hupdate.variant]
  refine List.map_congr_left fun f _ => ?_
  simp only [given, lookup_overridden, hupdate.lookup_arguments, Option.or_assoc]

/-- An update leaves the node that it is of: whether it succeeds or not, no other node ever has its identity. -/
theorem update_unchanged {made : List Node} {w w' : Workspace} {r : Except Error Node} (hw : History made w)
    (hn : n ∈ made) (hgiven : ∀ u ∈ updates, ∀ c, u.2.Holds c → c ∈ made) (hrun : built (n.update updates) w = (r, w')) :
    ∃ made', History made' w' ∧ made ⊆ made' ∧ (∀ m, r = .ok m → m ∈ made') ∧ ∀ m ∈ made', m.id = n.id → m = n := by
  have hadds : Adds { c | c ∈ made } (n.update updates) fun m => {m} :=
    update_adds (within_of_mem hn) fun u hu c hc => within_of_mem (hgiven u hu c hc)
  obtain ⟨made', hgrown, hnew⟩ := hadds made w r w' hw (fun _ hk => hk) hrun
  have hw' := hgrown.history hw
  refine ⟨made', hw', hgrown.subset, fun m hm => hnew m hm m rfl, fun m hm hid => ?_⟩
  exact hw'.eq_of_id hm (hgrown.subset hn) hid

/-- For a node that can be obtained, of a variant whose fields have distinct names: an update succeeds just if a
    construction from the values of the node does, with those of the updates in their place, and the nodes hold the same
    values. So the order of updates does not count, and two updates one after the other that succeed are one. The node
    itself stays as it is. -/
theorem update_alike (h : n.Obtainable) (hnd : (n.variant.fields.map Field.name).Nodup) (updates : List Argument) :
    (∀ args, args.Perm (overridden n.arguments updates) → BuildAlike (n.update updates) (n.variant.build args)) ∧
      (∀ updates', updates.Perm updates' → BuildAlike (n.update updates) (n.update updates')) ∧
      (∀ later w n₁ w₁ u n₂ u₂, built (n.update updates) w = (.ok n₁, w₁) → built (n₁.update later) u = (.ok n₂, u₂) →
        ∀ w', ∃ n₃ w₃, built (n.update (overridden updates later)) w' = (.ok n₃, w₃) ∧ n₃.variant = n₂.variant ∧
          n₃.values = n₂.values) ∧
      ∀ made w, History made w → n ∈ made → (∀ u ∈ updates, ∀ c, u.2.Holds c → c ∈ made) →
        ∀ r w', built (n.update updates) w = (r, w') →
          ∃ made', History made' w' ∧ made ⊆ made' ∧ (∀ m, r = .ok m → m ∈ made') ∧ ∀ m ∈ made', m.id = n.id → m = n := by
  have hfit : n.Fits := h.everywhere_fits.here
  refine ⟨fun _ => hfit.buildAlike_build hnd, fun _ => hfit.buildAlike_update hnd, ?_, ?_⟩
  · exact fun _ _ _ _ _ _ _ => hfit.update_overridden hnd
  · exact fun _ _ hw hn hgiven _ _ => update_unchanged hw hn hgiven

section Labels

def redLabel : Node := .mk 0 Variant.labelVariant [.str "red", .int 3, .absent]

/-- The red label with a note and another rank, from an update and from arguments. A second update takes the note away
    again, and both are one update; the red label is still the node of its identity. -/
theorem update_alike_label :
    built (Variant.labelVariant.build [("rank", .int 3), ("text", .str "red")]) {} = (.ok redLabel, { nextId := 1 }) ∧
    BuildAlike (redLabel.update [("note", .str "dark"), ("rank", .int 4)])
      (Variant.labelVariant.build [("rank", .int 4), ("note", .str "dark"), ("text", .str "red")]) ∧
    (∃ n₃ w₃, built (redLabel.update [("rank", .int 4), ("note", .absent)]) { nextId := 1 } = (.ok n₃, w₃) ∧
      n₃.values = [.str "red", .int 4, .absent]) ∧
    ∃ made, History made { nextId := 2 } ∧ redLabel ∈ made ∧ ∀ m ∈ made, m.id = 0 → m = redLabel := by
  have hbuilt : built (Variant.labelVariant.build [("rank", .int 3), ("text", .str "red")]) {} =
    (.ok redLabel, { nextId := 1 }) := rfl
  have hred : redLabel.Obtainable := .build (by simpa using ⟨nofun, nofun⟩) hbuilt
  have hargs : [("rank", .int 4), ("note", .str "dark"), ("text", .str "red")].Perm
      (overridden redLabel.arguments [("note", .str "dark"), ("rank", .int 4)]) :=
    List.reverse_perm (overridden redLabel.arguments [("note", .str "dark"), ("rank", .int 4)])
  obtain ⟨hbuild, -, htwice, hstays⟩ := update_alike hred (by decide) [("note", .str "dark"), ("rank", .int 4)]
  have hfirst : built (redLabel.update [("note", .str "dark"), ("rank", .int 4)]) { nextId := 1 } =
    (.ok (.mk 1 Variant.labelVariant [.str "red", .int 4, .str "dark"]), { nextId := 2 }) := rfl
  have hsecond : built ((Node.mk 1 Variant.labelVariant [.str "red", .int 4, .str "dark"]).update [("note", .absent)])
    { nextId := 2 } = (.ok (.mk 2 Variant.labelVariant [.str "red", .int 4, .absent]), { nextId := 3 }) := rfl
  obtain ⟨n₃, w₃, hboth, -, hvalues⟩ := htwice _ _ _ _ _ _ _ hfirst hsecond { nextId := 1 }
  have hred₁ : History [redLabel] { nextId := 1 } := (History.start []).construct (by simpa using ⟨nofun, nofun, nofun⟩)
  obtain ⟨made, hmade, hkept, -, hsame⟩ :=
    hstays [redLabel] _ hred₁ (by simp) (by simpa using ⟨nofun, nofun⟩) _ _ hfirst
  refine ⟨hbuilt, hbuild _ hargs, ⟨n₃, w₃, hboth, hvalues⟩, made, hmade, hkept (by simp), hsame⟩

end Labels

end Node
end TypedTree

import TypedTree.Proofs.Run
import TypedTree.Proofs.Tree.Reading
import TypedTree.Tree.Build

/-! Updates of well-formed nodes. An update whose values are admitted by their fields succeeds; the new node reads
    as the update says where it says something, and as the old one everywhere else. -/

namespace TypedTree

/-! ### One value in the place of another -/

theorem find?_zip_set {R : Field → Value → Prop} {fs : List Field} {vs : List Value} (h : List.Forall₂ R fs vs)
    {name : String} {i : Nat} (hi : (fs.findIdx? fun f => f.name == name) = some i) {x : Value}
    (hx : ∀ f ∈ fs[i]?, R f x) :
    List.Forall₂ R fs (vs.set i x) ∧ ∀ other : String,
      (((fs.zip (vs.set i x)).find? fun e => e.1.name == other).map Prod.snd) =
        if other = name then some x else ((fs.zip vs).find? fun e => e.1.name == other).map Prod.snd := by
  induction h generalizing i with
  | nil => cases hi
  | @cons f v fs vs hfv htail ih =>
    rw [List.findIdx?_cons] at hi
    by_cases hf : f.name = name
    · rw [if_pos (beq_iff_eq.mpr hf)] at hi
      cases hi
      refine ⟨.cons (hx f rfl) htail, fun other => ?_⟩
      rw [List.set_cons_zero, List.zip_cons_cons, List.zip_cons_cons, List.find?_cons, List.find?_cons]
      by_cases ho : other = name
      · simp [ho, hf]
      · have hfo : (f.name == other) = false := beq_eq_false_iff_ne.mpr fun e => ho (e ▸ hf)
        simp [ho, hfo]
    · rw [if_neg (fun e => hf (beq_iff_eq.mp e))] at hi
      obtain ⟨j, hj, rfl⟩ := Option.map_eq_some_iff.mp hi
      obtain ⟨hfit, hfind⟩ := ih hj (fun g hg => hx g (by simpa using hg))
      refine ⟨.cons hfv hfit, fun other => ?_⟩
      rw [List.set_cons_succ, List.zip_cons_cons, List.zip_cons_cons, List.find?_cons, List.find?_cons]
      by_cases hfo : f.name = other
      · have ho : ¬other = name := fun e => hf (hfo.trans e)
        simp [hfo, ho]
      · have hfo' : (f.name == other) = false := beq_eq_false_iff_ne.mpr hfo
        simpa only [hfo'] using hfind other

theorem Variant.findIdx?_of_position? {v : Variant} {name : String} {i : Fin v.fields.length}
    (h : v.position? name = some i) : (v.fields.findIdx? fun f => f.name == name) = some i.1 := by
  rw [List.findIdx?_eq_map_findFinIdx?_val, show v.fields.findFinIdx? (fun f => f.name == name) = some i from h]
  rfl

theorem Variant.name_of_position? {v : Variant} {name : String} {i : Fin v.fields.length}
    (h : v.position? name = some i) : v.fields[i].name = name := by
  simpa using (List.findFinIdx?_eq_some_iff.mp h).1

theorem Variant.position?_of_field? {v : Variant} {name : String} {f : Field} (h : v.field? name = some f) :
    ∃ i, v.position? name = some i ∧ v.fields[i] = f := by
  obtain ⟨hf, i, hi, hif, hmin⟩ := List.find?_eq_some_iff_getElem.mp h
  refine ⟨⟨i, hi⟩, List.findFinIdx?_eq_some_iff.mpr ⟨?_, fun j hj => ?_⟩, hif⟩
  · rw [show v.fields[(⟨i, hi⟩ : Fin _)] = f from hif]
    exact hf
  · simpa using hmin j.1 hj

theorem Variant.field?_of_position? {v : Variant} {name : String} {i : Fin v.fields.length}
    (h : v.position? name = some i) : v.field? name = some v.fields[i] := by
  obtain ⟨hi, hmin⟩ := List.findFinIdx?_eq_some_iff.mp h
  exact List.find?_eq_some_iff_getElem.mpr ⟨hi, i.1, i.2, rfl, fun j hj => by simpa using hmin ⟨j, Nat.lt_trans hj i.2⟩ hj⟩

theorem Field.checked_eq_ok {f : Field} {kind : String} {v x : Value} (h : f.checked kind v = .ok x) :
    x = v ∧ f.type.admits v = true := by
  unfold checked at h
  by_cases hv : f.type.admits v = true
  · rw [if_pos hv] at h
    cases h
    exact ⟨rfl, hv⟩
  · rw [if_neg hv] at h
    cases h

/-- Storing an admitted value in a field keeps the fit and changes what that field reads, and nothing else. -/
theorem Node.Fits.set {id : NodeId} {v : Variant} {values : List Value} (h : (Node.mk id v values).Fits)
    {name : String} {i : Fin v.fields.length} (hi : v.position? name = some i) {x : Value}
    (hx : v.fields[i].type.admits x = true) :
    (Node.mk id v (values.set i.1 x)).Fits ∧ ∀ other,
      (Node.mk id v (values.set i.1 x)).get other = if other = name then .ok x else (Node.mk id v values).get other := by
  have hx' : ∀ f ∈ v.fields[i.1]?, f.type.admits x = true := fun f hf => by
    rw [List.getElem?_eq_getElem i.2] at hf
    cases hf
    exact hx
  obtain ⟨hfit, hfind⟩ := find?_zip_set h (Variant.findIdx?_of_position? hi) hx'
  refine ⟨hfit, fun other => ?_⟩
  have get_eq : ∀ vs : List Value, (Node.mk id v vs).get other =
      (((v.fields.zip vs).find? fun e => e.1.name == other).map Prod.snd).elim
        (.error (Error.schema (.unknownField v.name other))) .ok := fun vs => by
    rw [Node.get, show (Node.mk id v vs).fields = v.fields.zip vs from rfl]
    cases (v.fields.zip vs).find? fun e => e.1.name == other <;> rfl
  rw [get_eq, get_eq,
    show ((v.fields.zip (values.set i.1 x)).find? fun e => e.1.name == other).map Prod.snd = _ from hfind other]
  by_cases ho : other = name
  · rw [if_pos ho, if_pos ho]
    rfl
  · rw [if_neg ho, if_neg ho]
    rfl

/-- Another node of the variant that differs in the value of one field reads the same in all others. -/
theorem Node.Fits.get_other {n : Node} (h : n.Fits) (n' : Node) (hv : n'.variant = n.variant) {name : String} {f : Field}
    (hf : n.variant.field? name = some f) {i : Fin n.variant.fields.length} (hi : n.variant.position? name = some i)
    {x : Value} (hx : f.type.admits x = true) (hvalues : n'.values = n.values.set i.1 x) {other : String}
    (hne : other ≠ name) : n'.get other = n.get other := by
  cases (Variant.field?_of_position? hi).symm.trans hf
  obtain ⟨id, v, values⟩ := n
  obtain ⟨id', _, _⟩ := n'
  cases hv
  cases hvalues
  exact ((h.set hi hx).2 other).trans (if_neg hne)

/-! ### Updates -/

namespace Node

/-- Every update names a field of the variant and has a value that the field admits; no name occurs twice. -/
structure Admits (n : Node) (updates : List Argument) : Prop where
  fields : ∀ u ∈ updates, ∃ f, n.variant.field? u.1 = some f ∧ f.type.admits u.2 = true
  nodup : (updates.map Prod.fst).Nodup

/-- What a field reads after updates of a node. -/
def updated (n : Node) (updates : List Argument) (name : String) : Except Error Value :=
  match updates.lookup name with
  | some v => .ok v
  | none => n.get name

/-- `n'` is `n` with the updates: of the same variant, and read as they say. -/
structure IsUpdate (n : Node) (updates : List Argument) (n' : Node) : Prop where
  variant : n'.variant = n.variant
  fits : n'.Fits
  get : ∀ name, n'.get name = n.updated updates name

theorem Admits.nil {n : Node} : n.Admits [] := ⟨by simp, List.nodup_nil⟩

theorem Admits.cons {n : Node} {updates : List Argument} (h : n.Admits updates) {name : String} {f : Field} {x : Value}
    (hf : n.variant.field? name = some f) (hx : f.type.admits x = true) (hnew : name ∉ updates.map Prod.fst) :
    n.Admits ((name, x) :: updates) where
  fields := List.forall_mem_cons.mpr ⟨⟨f, hf, hx⟩, h.fields⟩
  nodup := List.nodup_cons.mpr ⟨hnew, h.nodup⟩

theorem overlayFrom_eq_ok {n : Node} {updates : List Argument} {values : List Value} {seen : List Nat} {id : NodeId}
    (hfit : (Node.mk id n.variant values).Fits) (hadm : n.Admits updates)
    (hseen : ∀ u ∈ updates, ∀ i, n.variant.position? u.1 = some i → i.1 ∉ seen) :
    ∃ values', n.overlayFrom updates values seen = .ok values' ∧
      (∀ v ∈ values', v ∈ values ∨ v ∈ updates.map Prod.snd) ∧
      IsUpdate (.mk id n.variant values) updates (.mk id n.variant values') := by
  induction updates generalizing values seen with
  | nil => exact ⟨values, rfl, fun v hv => Or.inl hv, rfl, hfit, fun _ => rfl⟩
  | cons u rest ih =>
    obtain ⟨name, x⟩ := u
    obtain ⟨f, hf, hx⟩ := hadm.fields (name, x) List.mem_cons_self
    obtain ⟨i, hi, rfl⟩ := Variant.position?_of_field? hf
    obtain ⟨hfit', hget'⟩ := hfit.set hi hx
    have hnd := List.nodup_cons.mp hadm.nodup
    -- Later updates name other fields, so they store at other positions.
    have hseen' : ∀ u ∈ rest, ∀ j, n.variant.position? u.1 = some j → j.1 ∉ i.1 :: seen := by
      intro u hu j hj hmem
      rcases List.mem_cons.mp hmem with heq | hmem
      · have hij : j = i := Fin.ext heq
        subst hij
        exact hnd.1 (List.mem_map.mpr
          ⟨u, hu, (Variant.name_of_position? hj).symm.trans (Variant.name_of_position? hi)⟩)
      · exact hseen u (List.mem_cons_of_mem _ hu) j hj hmem
    obtain ⟨values', hrun, hmem, hupd⟩ := ih hfit'
      ⟨fun u hu => hadm.fields u (List.mem_cons_of_mem _ hu), hnd.2⟩ hseen'
    refine ⟨values', ?_, fun v hv => ?_, hupd.variant, hupd.fits, fun other => ?_⟩
    · have hnot : ¬i.1 ∈ seen := hseen _ List.mem_cons_self i hi
      have hchk : Field.checked n.variant.fields[i] n.kind x = .ok x := by rw [Field.checked, if_pos hx]; rfl
      simp only [overlayFrom, hi, if_neg hnot, hchk]
      exact hrun
    · rcases hmem v hv with hv | hv
      · rcases List.mem_or_eq_of_mem_set hv with hv | rfl
        · exact Or.inl hv
        · exact Or.inr List.mem_cons_self
      · exact Or.inr (List.mem_cons_of_mem _ hv)
    · rw [hupd.get other, updated, updated, List.lookup_cons, hget' other]
      by_cases ho : other = name
      · subst ho
        have hnone : rest.lookup other = none := by
          rw [List.lookup_eq_none_iff]
          intro p hp
          simpa using fun e => hnd.1 (List.mem_map.mpr ⟨p, hp, e.symm⟩)
        simp [hnone]
      · have ho' : (other == name) = false := beq_eq_false_iff_ne.mpr ho
        simp only [ho, ho', if_false]

/-- No other updates are laid over a node than those it admits. -/
theorem admits_of_overlayFrom {n : Node} {updates : List Argument} {values values' : List Value} {seen : List Nat}
    (h : n.overlayFrom updates values seen = .ok values') :
    n.Admits updates ∧ ∀ u ∈ updates, ∀ i, n.variant.position? u.1 = some i → i.1 ∉ seen := by
  induction updates generalizing values seen with
  | nil => exact ⟨.nil, by simp⟩
  | cons u rest ih =>
    obtain ⟨name, x⟩ := u
    rw [overlayFrom] at h
    split at h
    · cases h
    · next i hi =>
      split at h
      · cases h
      · next hnew =>
        obtain ⟨y, hy, hrest⟩ := bind_eq_ok.mp h
        obtain ⟨rfl, hadm⟩ := Field.checked_eq_ok hy
        obtain ⟨hrest, hseen⟩ := ih hrest
        refine ⟨hrest.cons (Variant.field?_of_position? hi) hadm fun hmem => ?_, List.forall_mem_cons.mpr ⟨?_, ?_⟩⟩
        · obtain ⟨u, hu, rfl⟩ := List.mem_map.mp hmem
          exact hseen u hu i hi List.mem_cons_self
        · intro j hj
          cases hi.symm.trans hj
          exact hnew
        · exact fun u hu j hj hmem => hseen u hu j hj (List.mem_cons_of_mem _ hmem)

/-- An admitted update succeeds and takes one identity. -/
theorem built_update {n : Node} (hfit : n.Fits) {updates : List Argument} (hadm : n.Admits updates)
    (hne : updates ≠ []) (w : Workspace) :
    ∃ n', built (n.update updates) w = (.ok n', { w with nextId := w.nextId + 1 }) ∧ n.IsUpdate updates n' ∧
      ∀ v ∈ n'.values, v ∈ n.values ∨ v ∈ updates.map Prod.snd := by
  obtain ⟨id, var, values⟩ := n
  obtain ⟨values', hrun, hmem, hupd⟩ := overlayFrom_eq_ok (n := .mk id var values) hfit hadm
    (show ∀ u ∈ updates, ∀ i, var.position? u.1 = some i → i.1 ∉ [] from fun _ _ _ _ => List.not_mem_nil)
  refine ⟨.mk w.nextId var values', ?_, ⟨rfl, hupd.fits, fun name => hupd.get name⟩, hmem⟩
  have hempty : updates.isEmpty = false := by simpa using hne
  rw [Node.update, hempty]
  simp only [Bool.false_eq_true, ↓reduceIte, overlay]
  rw [show overlayFrom (.mk id var values) updates (Node.mk id var values).values [] = .ok values' from hrun]
  rfl

/-- No other updates give a node than those it admits. -/
theorem admits_of_built_update {n n' : Node} {updates : List Argument} {w w' : Workspace}
    (h : built (n.update updates) w = (.ok n', w')) : n.Admits updates := by
  cases updates with
  | nil => exact .nil
  | cons u rest =>
    obtain ⟨values, hoverlay, -⟩ := built_liftM_bind_eq_ok.mp h
    exact (admits_of_overlayFrom hoverlay).1

section Inversion
variable {n n' : Node} {updates : List Argument} {w w' : Workspace} (hne : updates ≠ [])
  (h : built (n.update updates) w = (.ok n', w'))
include hne h

/-- The node that an update gives is new. -/
theorem id_of_built_update : n'.id = w.nextId ∧ w'.nextId = w.nextId + 1 := by
  rw [update, if_neg (by simpa using hne), built_liftM_bind_eq_ok] at h
  obtain ⟨values, -, h⟩ := h
  cases h
  exact ⟨rfl, rfl⟩

theorem isUpdate_of_built_update (hfit : n.Fits) : n.IsUpdate updates n' := by
  obtain ⟨n'', hrun, hupd, -⟩ := built_update hfit (admits_of_built_update h) hne w
  rw [hrun] at h
  cases h
  exact hupd

end Inversion

theorem BuiltFrom.built_update {vs : List Variant} {n : Node} (h : n.BuiltFrom vs) {updates : List Argument}
    (hadm : n.Admits updates) (hvals : ∀ v ∈ updates.map Prod.snd, v.BuiltFrom vs) (hne : updates ≠ [])
    (w : Workspace) :
    ∃ n', built (n.update updates) w = (.ok n', { w with nextId := w.nextId + 1 }) ∧ n.IsUpdate updates n' ∧
      n'.BuiltFrom vs := by
  obtain ⟨n', hrun, hupd, hmem⟩ := Node.built_update h.fits hadm hne w
  refine ⟨n', hrun, hupd, builtFrom_iff.mpr ⟨⟨hupd.variant ▸ h.variant_mem, hupd.fits⟩, fun v hv => ?_⟩⟩
  rcases hmem v hv with hv | hv
  · exact (builtFrom_iff.mp h).2 v hv
  · exact hvals v hv

/-! ### Readers after an update -/

theorem IsUpdate.get_other {n n' : Node} {updates : List Argument} (h : n.IsUpdate updates n') {name : String}
    (hn : updates.lookup name = none) : n'.get name = n.get name := by
  rw [h.get, updated, hn]

theorem IsUpdate.getMember {α : Type} [Enumerated α] {n n' : Node} {updates : List Argument}
    (h : n.IsUpdate updates n') {name : String} (hn : updates.lookup name = none) {a : α}
    (ha : n.getMember α name = .ok a) : n'.getMember α name = .ok a := by
  obtain ⟨v, hg, hv⟩ := get_of_getMember ha
  exact getMember_of_get ((h.get_other hn).trans hg) hv

/-- A field of a list of nodes is replaced. -/
theorem BuiltFrom.built_update_nodes {vs : List Variant} {n : Node} (h : n.BuiltFrom vs) {name label cls : String}
    (hf : n.variant.field? name = some ⟨label, .list (.node cls)⟩) {cs : List Node}
    (hcs : ∀ c ∈ cs, c.isA cls = true ∧ c.BuiltFrom vs) (w : Workspace) :
    ∃ n' w', built (n.update [(name, .nodeList cs)]) w = (.ok n', w') ∧ n'.get name = .ok (.nodeList cs) ∧
      (∀ other ≠ name, n'.get other = n.get other) ∧ n'.variant = n.variant ∧ n'.BuiltFrom vs := by
  have hadm : n.Admits [(name, .nodeList cs)] :=
    .cons .nil hf (FieldType.admits_nodes_iff.mpr ⟨cs, rfl, fun c hc => (hcs c hc).1⟩) (by simp)
  obtain ⟨n', hrun, hupd, hb⟩ := h.built_update hadm (by simpa using fun c hc => (hcs c hc).2) (by simp) w
  refine ⟨n', _, hrun, ?_, fun other hne => hupd.get_other ?_, hupd.variant, hb⟩
  · simpa [updated] using hupd.get name
  · simpa [List.lookup_eq_none_iff] using hne

theorem IsUpdate.getStr {n n' : Node} {updates : List Argument} (h : n.IsUpdate updates n') {name : String}
    (hn : updates.lookup name = none) {s : String} (hs : n.getStr name = .ok s) : n'.getStr name = .ok s :=
  getStr_of_get ((h.get_other hn).trans (get_of_getStr hs))

end Node
end TypedTree

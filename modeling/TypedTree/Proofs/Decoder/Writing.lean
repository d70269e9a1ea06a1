import TypedTree.Proofs.Decoder.Elimination
import TypedTree.Proofs.Tree.Text

/-! Results of elimination that are written the same. What elimination makes of a decoder depends on the workspace for
    the identities of the nodes that it rewrites; these are not written, so all results for one decoder are written the
    same, with tables that were given or computed. -/

namespace TypedTree.Decoder.Liveness

/-- Nodes that differ in one field are written the same if what they read there is. -/
theorem sameText_of_others {n m : Node} (hn : n.BuiltFrom variants) (hm : m.BuiltFrom variants)
    (hv : m.variant = n.variant) {name : String} (hothers : ∀ other ≠ name, m.get other = n.get other)
    (h : n.ReadSame m name) : n.SameText m := by
  have hnd := schema.consistent.nodup_fields n.variant hn.variant_mem
  refine Node.sameText_of_readSame hn.complete.here hm.complete.here hv.symm hnd fun f _ => ?_
  by_cases hname : f.name = name
  · exact hname ▸ h
  · intro v w hget hget'
    rw [hothers f.name hname, hget] at hget'
    cases hget'
    exact .refl v

/-- Lists of what the same nodes were made into are written the same if any two results for one node are. -/
theorem sameText_nodeList {R : Node → Node → Prop} {ns us vs : List Node} (hu : List.Forall₂ R ns us)
    (hv : List.Forall₂ R ns vs) (h : ∀ n, ∀ u ∈ us, ∀ v ∈ vs, R n u → R n v → u.SameText v) :
    (Value.nodeList us).SameText (.nodeList vs) := by
  refine .list ?_
  induction hu generalizing vs with
  | nil =>
    cases hv
    exact .nil
  | @cons n u _ _ hnu _ ih =>
    obtain _ | ⟨hnv, hv⟩ := hv
    refine .cons (.node (h n u List.mem_cons_self _ List.mem_cons_self hnu hnv)) (ih hv fun n u hu v hv => ?_)
    exact h n u (List.mem_cons_of_mem _ hu) v (List.mem_cons_of_mem _ hv)

variable {d : Node}

theorem Trimmed.sameText {t u u' : Node} (h : Trimmed d t u) (h' : Trimmed d t u') (hb : u.BuiltFrom variants)
    (hb' : u'.BuiltFrom variants) : u.SameText u' :=
  sameText_of_others hb hb' (h'.variant.trans h.variant.symm)
    (fun other hne => (h'.others other hne).trans (h.others other hne).symm)
    (.of_get h.actions h'.actions (.refl _))

theorem Rebuilt.sameText {a k k' : Node} (h : Rebuilt d a k) (h' : Rebuilt d a k') (hb : k.BuiltFrom variants)
    (hb' : k'.BuiltFrom variants) : k.SameText k' := by
  obtain ⟨ts, hts, htrimmed⟩ := h.transitions
  obtain ⟨ts', hts', htrimmed'⟩ := h'.transitions
  refine sameText_of_others hb hb' (h'.variant.trans h.variant.symm)
    (fun other hne => (h'.others other hne).trans (h.others other hne).symm) (.of_get hts hts' ?_)
  refine sameText_nodeList htrimmed htrimmed' fun t u hu u' hu' ht ht' => ?_
  exact ht.sameText ht' (Node.Everywhere.held hb (Node.held_of_nodeList hts ▸ hu))
    (Node.Everywhere.held hb' (Node.held_of_nodeList hts' ▸ hu'))

theorem Eliminated.sameText {e e' : Node} {kept kept' : List Node} (h : Eliminated d e kept) (h' : Eliminated d e' kept')
    (hb : e.BuiltFrom variants) (hb' : e'.BuiltFrom variants) : e.SameText e' := by
  have hothers : ∀ other ≠ "dfas", e'.get other = e.get other := fun other hne => by
    by_cases hi : other = "inputs"
    · rw [hi, h.get_inputs, h'.get_inputs]
    · rw [h.get_other hi hne, h'.get_other hi hne]
  refine sameText_of_others hb hb' (h'.update.variant.trans h.update.variant.symm) hothers
    (.of_get h.get_dfas h'.get_dfas ?_)
  refine sameText_nodeList h.rebuilt h'.rebuilt fun a k hk k' hk' ha ha' => ?_
  exact ha.sameText ha' (Node.Everywhere.held hb (Node.held_of_nodeList h.get_dfas ▸ hk))
    (Node.Everywhere.held hb' (Node.held_of_nodeList h'.get_dfas ▸ hk'))

theorem eliminate_sameText (hd : d.BuiltFrom variants) {tables tables' : Option StateTables} {w w' v v' : Workspace}
    {r r' : Optimized} (h : built (eliminate d tables) w = (.ok r, w'))
    (h' : built (eliminate d tables') v = (.ok r', v')) : r.decoder.SameText r'.decoder := by
  obtain ⟨kept, he, hb, -⟩ := eliminate_spec hd h
  obtain ⟨kept', he', hb', -⟩ := eliminate_spec hd h'
  exact he.sameText he' hb hb'

end TypedTree.Decoder.Liveness

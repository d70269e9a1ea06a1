/-!
Types with finitely many named members. Such a type can be stored in a field of a node: a stored member knows
the enumeration it comes from, and is read back as a member of a type with the same label.
-/

namespace TypedTree

/-- A type whose members are listed under distinct names. -/
class Enumerated (α : Type) where
  /-- The name of the type as a whole. -/
  label : String
  /-- The members in their order of declaration. -/
  all : List α
  name : α → String
  mem_all : ∀ a, a ∈ all
  nodup_names : (all.map name).Nodup

namespace Enumerated

variable {α : Type} [Enumerated α]

def ofName? (α : Type) [Enumerated α] (s : String) : Option α :=
  (all (α := α)).find? fun a => name a = s

theorem name_injective {a b : α} (h : name a = name b) : a = b :=
  inj_on_of_nodup_map nodup_names (mem_all a) (mem_all b) h
where
  inj_on_of_nodup_map {f : α → String} : ∀ {l : List α}, (l.map f).Nodup →
      ∀ {x y : α}, x ∈ l → y ∈ l → f x = f y → x = y
    | [], _, _, _, hx, _, _ => absurd hx List.not_mem_nil
    | z :: l, hl, x, y, hx, hy, hf => by
      rw [List.map_cons, List.nodup_cons] at hl
      rcases List.mem_cons.mp hx with hxz | hxl <;> rcases List.mem_cons.mp hy with hyz | hyl
      · exact hxz.trans hyz.symm
      · exact absurd (hxz ▸ hf ▸ List.mem_map_of_mem hyl) hl.1
      · exact absurd (hyz ▸ hf ▸ List.mem_map_of_mem hxl) hl.1
      · exact inj_on_of_nodup_map hl.2 hxl hyl hf

theorem ofName?_eq_some_iff {s : String} {a : α} : ofName? α s = some a ↔ name a = s := by
  constructor
  · intro h
    simpa using List.find?_some h
  · intro h
    cases hf : ofName? α s with
    | none =>
      have := List.find?_eq_none.mp hf a (mem_all a)
      simp [h] at this
    | some b =>
      have hb : name b = s := by simpa using List.find?_some hf
      rw [name_injective (h.trans hb.symm)]

@[simp] theorem ofName?_name (a : α) : ofName? α (name a) = some a := ofName?_eq_some_iff.mpr rfl

theorem ofName?_eq_none_iff {s : String} : ofName? α s = none ↔ ∀ a : α, name a ≠ s := by
  constructor
  · intro h a ha
    rw [ofName?_eq_some_iff.mpr ha] at h
    cases h
  · intro h
    cases hf : ofName? α s with
    | none => rfl
    | some a => exact absurd (ofName?_eq_some_iff.mp hf) (h a)

end Enumerated

/-- A named, closed list of members, as a field type refers to it. -/
structure EnumDef where
  name : String
  members : List String
deriving DecidableEq, Repr

def Enumerated.enumDef (α : Type) [Enumerated α] : EnumDef :=
  ⟨label α, (all (α := α)).map name⟩

/-- A member of an enumeration, as a field stores it. -/
structure EnumMember where
  enum : EnumDef
  member : String
  member_mem : member ∈ enum.members
deriving Repr

namespace EnumMember

/-- Members are the same when their enumerations have the same name and they have the same name. -/
protected def beq (a b : EnumMember) : Bool := a.enum.name == b.enum.name && a.member == b.member

instance : BEq EnumMember := ⟨EnumMember.beq⟩

def of {α : Type} [Enumerated α] (a : α) : EnumMember :=
  ⟨Enumerated.enumDef α, Enumerated.name a, List.mem_map_of_mem (Enumerated.mem_all a)⟩

/-- The stored member as a member of `α`, when its enumeration has the label of `α` and `α` has such a member. -/
def get? (α : Type) [Enumerated α] (m : EnumMember) : Option α :=
  if m.enum.name = Enumerated.label α then Enumerated.ofName? α m.member else none

@[simp] theorem get?_of {α : Type} [Enumerated α] (a : α) : (of a).get? α = some a := by
  simp [get?, of, Enumerated.enumDef]

end EnumMember

end TypedTree

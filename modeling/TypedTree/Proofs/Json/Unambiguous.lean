import TypedTree.Proofs.Number.Numeral

/-! Documents can be read back from their texts, if all their numbers are finite: two documents with one text are one
    document. Every text tells by its first character what it is the text of. A number ends where no character of a
    number follows, a string at its first quote that is not escaped, and items and members stand between commas.
    A number that is not finite is written as `null`; up to this, every text tells its document. -/

namespace TypedTree.Json

/-! ### Numbers -/

def isNumberChar (c : Char) : Bool := c.isDigit || c == '.' || c == 'e' || c == '+' || c == '-'

/-- What can follow a document inside another one, or at the end of a text. -/
def Stops (r : List Char) : Prop := ∀ c ∈ r.head?, c = ',' ∨ c = ']' ∨ c = '\x7d'

theorem stops_nil : Stops [] := by simp [Stops]

theorem stops_cons {c : Char} {r : List Char} (h : c = ',' ∨ c = ']' ∨ c = '\x7d') : Stops (c :: r) := by simpa [Stops] using h

/-- A number is read up to where the document has to end. -/
theorem number_append {t r : List Char} (ht : ∀ c ∈ t, isNumberChar c = true) (hr : Stops r) :
    (t ++ r).takeWhile isNumberChar = t ∧ (t ++ r).dropWhile isNumberChar = r := by
  have hstop : r.takeWhile isNumberChar = [] ∧ r.dropWhile isNumberChar = r := by
    cases r with
    | nil => exact ⟨rfl, rfl⟩
    | cons c r =>
      have hc : isNumberChar c = false := by
        obtain rfl | rfl | rfl : c = ',' ∨ c = ']' ∨ c = '\x7d' := by simpa [Stops] using hr
        all_goals rfl
      rw [List.takeWhile_cons_of_neg (by simp [hc]), List.dropWhile_cons_of_neg (by simp [hc])]
      exact ⟨rfl, rfl⟩
  rw [List.takeWhile_append_of_pos ht, List.dropWhile_append_of_pos ht, hstop.1, hstop.2, List.append_nil]
  exact ⟨rfl, rfl⟩

theorem number_append_inj {t u r s : List Char} (ht : ∀ c ∈ t, isNumberChar c = true)
    (hu : ∀ c ∈ u, isNumberChar c = true) (hr : Stops r) (hs : Stops s) (h : t ++ r = u ++ s) : t = u ∧ r = s := by
  obtain ⟨htake, hdrop⟩ := number_append ht hr
  obtain ⟨htake', hdrop'⟩ := number_append hu hs
  rw [h] at htake hdrop
  exact ⟨htake.symm.trans htake', hdrop.symm.trans hdrop'⟩

theorem isNumberChar_of_isDigits {ds : List Char} (h : IsDigits ds) : ∀ c ∈ ds, isNumberChar c = true := fun c hc => by
  simp [isNumberChar, h c hc]

theorem isNumberChar_power (e : ℤ) : ∀ c ∈ Numeral.power e, isNumberChar c = true := by
  refine List.forall_mem_cons.mpr ⟨rfl, fun c hc => ?_⟩
  rcases List.mem_append.mp hc with hc | hc
  · split at hc
    all_goals
      obtain rfl := List.mem_singleton.mp hc
      rfl
  · exact isNumberChar_of_isDigits (.toDigits _) c hc

theorem isNumberChar_of_denotes {t : List Char} {v : ℚ} (h : Numeral.Denotes t v) : ∀ c ∈ t, isNumberChar c = true := by
  have fixed : ∀ {whole frac : List Char}, IsDigits whole → IsDigits frac →
      ∀ c ∈ whole ++ '.' :: frac, isNumberChar c = true := fun hw hf =>
    List.forall_mem_append.mpr ⟨isNumberChar_of_isDigits hw, List.forall_mem_cons.mpr ⟨rfl, isNumberChar_of_isDigits hf⟩⟩
  cases h with
  | fixed hw hf _ => exact fixed hw hf
  | digit hd e =>
    exact List.forall_mem_append.mpr ⟨isNumberChar_of_isDigits (.singleton hd), isNumberChar_power e⟩
  | scientific hd hf e => exact List.forall_mem_append.mpr ⟨fixed (.singleton hd) hf, isNumberChar_power e⟩

section Float
variable {x : Binary64} (hx : x.isFinite = true)
include hx

theorem isNumberChar_write : ∀ c ∈ numbers.write x, isNumberChar c = true := by
  obtain ⟨t, v, ht, hwrite, -⟩ := exists_denotes hx
  rw [hwrite]
  split
  · exact List.forall_mem_cons.mpr ⟨rfl, isNumberChar_of_denotes ht⟩
  · exact isNumberChar_of_denotes ht

theorem marked_write : '.' ∈ numbers.write x ∨ 'e' ∈ numbers.write x := by
  obtain ⟨t, v, ht, hwrite, -⟩ := exists_denotes hx
  rw [hwrite]
  split
  · exact ht.marked.imp (List.mem_cons_of_mem _) (List.mem_cons_of_mem _)
  · exact ht.marked

theorem write_ne_nil : numbers.write x ≠ [] := by
  intro h
  have := marked_write hx
  simp [h] at this

end Float

theorem mem_whole {i : ℤ} {c : Char} (h : c ∈ whole i) : c = '-' ∨ c.isDigit = true := by
  have hdigits := IsDigits.toDigits i.natAbs
  unfold whole at h
  split at h
  · exact (List.mem_cons.mp h).imp_right (hdigits c)
  · exact .inr (hdigits c h)

theorem isNumberChar_whole (i : ℤ) : ∀ c ∈ whole i, isNumberChar c = true := fun c hc => by
  rcases mem_whole hc with rfl | hd
  · rfl
  · simp [isNumberChar, hd]

theorem whole_ne_nil (i : ℤ) : whole i ≠ [] := by
  unfold whole
  split
  · exact List.cons_ne_nil _ _
  · exact Nat.toDigits_ne_nil

/-- A double is never written like a whole number. -/
theorem whole_ne_write (i : ℤ) {x : Binary64} (hx : x.isFinite = true) : whole i ≠ numbers.write x := by
  intro h
  have hmark := marked_write hx
  rw [← h] at hmark
  rcases hmark with hc | hc
  all_goals
    have := mem_whole hc
    revert this
    decide

theorem whole_injective {i j : ℤ} (h : whole i = whole j) : i = j := by
  have hminus : ∀ {n : ℕ} {t : List Char}, Nat.toDigits 10 n ≠ '-' :: t := fun {n t} he => by
    have := IsDigits.toDigits n '-' (he ▸ List.mem_cons_self)
    cases this
  have hdigits : ∀ {m n : ℕ}, Nat.toDigits 10 m = Nat.toDigits 10 n → m = n := fun {m n} he => by
    rw [← digitsValue_toDigits m, he, digitsValue_toDigits]
  unfold whole at h
  by_cases hi : i < 0 <;> by_cases hj : j < 0 <;> simp only [hi, hj, if_true, if_false] at h
  · have := hdigits (List.cons.inj h).2
    omega
  · exact absurd h.symm hminus
  · exact absurd h hminus
  · have := hdigits h
    omega

/-! ### Strings -/

/-- The digit that a hexadecimal digit stands for. -/
def hexValue (c : Char) : ℕ := if c.isDigit then c.toNat - '0'.toNat else c.toNat - 'a'.toNat + 10

/-- The first character of the rest of a string, and what follows it. -/
def unescape : List Char → Option (Char × List Char)
  | '\\' :: '"' :: r => some ('"', r)
  | '\\' :: '\\' :: r => some ('\\', r)
  | '\\' :: 'b' :: r => some ('\x08', r)
  | '\\' :: 'f' :: r => some ('\x0c', r)
  | '\\' :: 'n' :: r => some ('\n', r)
  | '\\' :: 'r' :: r => some ('\r', r)
  | '\\' :: 't' :: r => some ('\t', r)
  | '\\' :: 'u' :: '0' :: '0' :: a :: b :: r => some (Char.ofNat (16 * hexValue a + hexValue b), r)
  | c :: r => some (c, r)
  | [] => none

theorem unescape_escape (c : Char) (r : List Char) : unescape (escape c ++ r) = some (c, r) := by
  have hhex : ∀ n < 16, hexValue (Nat.digitChar n) = n := by decide
  unfold escape
  split
  case h_8 hquote hbackslash _ _ _ _ _ =>
    split
    · next hc =>
      show some (Char.ofNat (16 * hexValue (Nat.digitChar (c.toNat / 16)) + hexValue (Nat.digitChar (c.toNat % 16))), r) = _
      rw [hhex _ (by omega), hhex _ (by omega), Nat.div_add_mod, Char.ofNat_toNat]
    · rw [List.singleton_append, unescape]
      all_goals
        intros
        exact hbackslash ‹_›
  all_goals rfl

theorem escape_eq_cons (c : Char) : ∃ d t, escape c = d :: t ∧ d ≠ '"' := by
  unfold escape
  split
  case h_8 hquote _ _ _ _ _ _ =>
    split
    · exact ⟨_, _, rfl, by decide⟩
    · exact ⟨_, _, rfl, hquote⟩
  all_goals exact ⟨_, _, rfl, by decide⟩

theorem flatMap_escape_inj {cs ds r s : List Char} (h : cs.flatMap escape ++ '"' :: r = ds.flatMap escape ++ '"' :: s) :
    cs = ds ∧ r = s := by
  have hquote : ∀ {c : Char} {t r s : List Char}, escape c ++ t ++ '"' :: r ≠ '"' :: s := by
    intro c t r s he
    obtain ⟨d, u, hd, hne⟩ := escape_eq_cons c
    rw [hd] at he
    exact hne (List.cons.inj he).1
  induction cs generalizing ds with
  | nil =>
    cases ds with
    | nil => exact ⟨rfl, (List.cons.inj h).2⟩
    | cons d ds => exact absurd h.symm hquote
  | cons c cs ih =>
    cases ds with
    | nil => exact absurd h hquote
    | cons d ds =>
      rw [List.flatMap_cons, List.flatMap_cons, List.append_assoc, List.append_assoc] at h
      have hfirst := congrArg unescape h
      rw [unescape_escape, unescape_escape, Option.some.injEq, Prod.mk.injEq] at hfirst
      obtain ⟨rfl, hr⟩ := ih hfirst.2
      exact ⟨congrArg (· :: cs) hfirst.1, hr⟩

theorem literal_append_inj {a b : String} {r s : List Char} (h : literal a ++ r = literal b ++ s) : a = b ∧ r = s := by
  have hbody : a.toList.flatMap escape ++ '"' :: r = b.toList.flatMap escape ++ '"' :: s := by
    simpa [literal] using h
  obtain ⟨hchars, hr⟩ := flatMap_escape_inj hbody
  exact ⟨String.toList_injective hchars, hr⟩

/-! ### Texts between commas -/

/-- Where a text of `a` stands, no text of another value stands that is followed by the end of a document too. -/
def Determines {α : Type} (text : α → List Char) (ok : α → Prop) (a : α) : Prop :=
  ∀ b, ok b → ∀ r s, Stops r → Stops s → text a ++ r = text b ++ s → a = b ∧ r = s

section Separated
variable {α : Type} {text : α → List Char} {ok : α → Prop} {close : Char}

theorem separated_cons (t : List Char) (ts : List (List Char)) : separated (t :: ts) = t ++ ts.flatMap (',' :: ·) := by
  induction ts generalizing t with
  | nil => simp [separated]
  | cons u ts ih => rw [separated, ih, List.flatMap_cons]; simp

theorem flatMap_comma_inj (hclose : close = ']' ∨ close = '\x7d') {xs ys : List α} (hx : ∀ x ∈ xs, Determines text ok x)
    (hy : ∀ y ∈ ys, ok y) {r s : List Char}
    (h : (xs.map text).flatMap (',' :: ·) ++ close :: r = (ys.map text).flatMap (',' :: ·) ++ close :: s) : xs = ys ∧ r = s := by
  have hcomma : close ≠ ',' := by rcases hclose with rfl | rfl <;> decide
  have stops : ∀ {zs : List α} {r : List Char}, Stops ((zs.map text).flatMap (',' :: ·) ++ close :: r) := by
    intro zs r
    cases zs with
    | nil => exact stops_cons (.inr hclose)
    | cons z zs => exact stops_cons (.inl rfl)
  induction xs generalizing ys with
  | nil =>
    cases ys with
    | nil => exact ⟨rfl, (List.cons.inj h).2⟩
    | cons y ys => exact absurd (List.cons.inj h).1 hcomma
  | cons x xs ih =>
    cases ys with
    | nil => exact absurd (List.cons.inj h).1.symm hcomma
    | cons y ys =>
      rw [List.forall_mem_cons] at hx hy
      simp only [List.map_cons, List.flatMap_cons, List.cons_append, List.append_assoc, List.cons.injEq, true_and] at h
      obtain ⟨rfl, hrest⟩ := hx.1 y hy.1 _ _ stops stops h
      obtain ⟨rfl, hr⟩ := ih hx.2 hy.2 hrest
      exact ⟨rfl, hr⟩

theorem separated_inj (hclose : close = ']' ∨ close = '\x7d') (hopen : ∀ a, ok a → ∃ c t, text a = c :: t ∧ c ≠ close)
    {xs ys : List α} (hx : ∀ x ∈ xs, ok x ∧ Determines text ok x) (hy : ∀ y ∈ ys, ok y) {r s : List Char}
    (h : separated (xs.map text) ++ close :: r = separated (ys.map text) ++ close :: s) : xs = ys ∧ r = s := by
  have opens : ∀ {a : α} {t r s : List Char}, ok a → text a ++ t ++ close :: r ≠ close :: s := by
    intro a t r s ha he
    obtain ⟨c, u, hc, hne⟩ := hopen a ha
    rw [hc] at he
    exact hne (List.cons.inj he).1
  cases xs with
  | nil =>
    cases ys with
    | nil => exact ⟨rfl, (List.cons.inj h).2⟩
    | cons y ys =>
      rw [List.map_cons, separated_cons] at h
      exact absurd h.symm (opens (hy y List.mem_cons_self))
  | cons x xs =>
    cases ys with
    | nil =>
      rw [List.map_cons, separated_cons] at h
      exact absurd h (opens (hx x List.mem_cons_self).1)
    | cons y ys =>
      refine flatMap_comma_inj hclose (fun x hx' => (hx x hx').2) hy ?_
      rw [List.map_cons, List.map_cons, separated_cons, separated_cons] at h
      simpa using h

end Separated

/-! ### Documents -/

mutual

/-- `p` holds of every double in the document. -/
def AllFloats (p : Binary64 → Prop) : Json → Prop
  | .float x => p x
  | .arr items => ItemsAllFloats p items
  | .obj members => MembersAllFloats p members
  | _ => True

def ItemsAllFloats (p : Binary64 → Prop) : List Json → Prop
  | [] => True
  | j :: rest => j.AllFloats p ∧ ItemsAllFloats p rest

def MembersAllFloats (p : Binary64 → Prop) : List (String × Json) → Prop
  | [] => True
  | (_, j) :: rest => j.AllFloats p ∧ MembersAllFloats p rest

end

section AllFloats
variable {p : Binary64 → Prop}

theorem itemsAllFloats_iff {items : List Json} : ItemsAllFloats p items ↔ ∀ j ∈ items, j.AllFloats p := by
  induction items with
  | nil => simp [ItemsAllFloats]
  | cons j rest ih => rw [ItemsAllFloats, ih, List.forall_mem_cons]

theorem membersAllFloats_iff {members : List (String × Json)} :
    MembersAllFloats p members ↔ ∀ m ∈ members, m.2.AllFloats p := by
  induction members with
  | nil => simp [MembersAllFloats]
  | cons m rest ih => rw [MembersAllFloats, ih, List.forall_mem_cons]

end AllFloats

/-- What a text can be the text of, as its first character shows. -/
inductive Lead where
  | null
  | true
  | false
  | number
  | str
  | arr
  | obj

def Lead.of? (c : Char) : Option Lead :=
  match c with
  | 'n' => some .null
  | 't' => some .true
  | 'f' => some .false
  | '"' => some .str
  | '[' => some .arr
  | '\x7b' => some .obj
  | c => if isNumberChar c then some .number else none

def lead : Json → Lead
  | .null => .null
  | .bool true => .true
  | .bool false => .false
  | .int _ | .float _ => .number
  | .str _ => .str
  | .arr _ => .arr
  | .obj _ => .obj

/-- All numbers of the document are finite. -/
abbrev Finite (j : Json) : Prop := j.AllFloats fun x => x.isFinite = true

section Lead
variable {j k : Json}

theorem lead_of_number {t : List Char} (ht : ∀ c ∈ t, isNumberChar c = true) (hne : t ≠ []) :
    ∃ c u, t = c :: u ∧ Lead.of? c = some .number := by
  obtain ⟨c, u, rfl⟩ := List.exists_cons_of_ne_nil hne
  refine ⟨c, u, rfl, ?_⟩
  have hc := ht c List.mem_cons_self
  unfold Lead.of?
  split
  case h_7 => rw [if_pos hc]
  all_goals exact absurd hc (by decide)

theorem exists_lead (hj : j.Finite) : ∃ c t, j.compact = c :: t ∧ Lead.of? c = some j.lead := by
  cases j with
  | null => exact ⟨_, _, by rw [compact], rfl⟩
  | bool b => cases b <;> exact ⟨_, _, by rw [compact], rfl⟩
  | int i =>
    rw [compact]
    exact lead_of_number (isNumberChar_whole i) (whole_ne_nil i)
  | float x =>
    rw [compact]
    exact lead_of_number (isNumberChar_write hj) (write_ne_nil hj)
  | str s => exact ⟨_, _, by rw [compact, literal], rfl⟩
  | arr items => exact ⟨_, _, by rw [compact], rfl⟩
  | obj members => exact ⟨_, _, by rw [compact], rfl⟩

theorem lead_eq (hj : j.Finite) (hk : k.Finite) {r s : List Char} (h : j.compact ++ r = k.compact ++ s) : j.lead = k.lead := by
  obtain ⟨c, t, hc, hlead⟩ := exists_lead hj
  obtain ⟨d, u, hd, hlead'⟩ := exists_lead hk
  rw [hc, hd] at h
  rw [(List.cons.inj h).1] at hlead
  exact Option.some.inj (hlead.symm.trans hlead')

end Lead

theorem compactItems_eq (items : List Json) : compactItems items = items.map compact := by
  induction items with
  | nil => rfl
  | cons j rest ih => rw [compactItems, ih, List.map_cons]

def compactMember (m : String × Json) : List Char := literal m.1 ++ ':' :: m.2.compact

theorem compactMembers_eq (members : List (String × Json)) : compactMembers members = members.map compactMember := by
  induction members with
  | nil => rfl
  | cons m rest ih =>
    rw [compactMembers, ih, List.map_cons]
    rfl

theorem member_determines {m : String × Json} (h : Determines compact Finite m.2) :
    Determines compactMember (fun m => m.2.Finite) m := by
  intro n hn r s hr hs he
  rw [compactMember, compactMember, List.append_assoc, List.append_assoc] at he
  obtain ⟨hkey, he⟩ := literal_append_inj he
  obtain ⟨hvalue, hrest⟩ := h n.2 hn r s hr hs (List.cons.inj he).2
  exact ⟨Prod.ext hkey hvalue, hrest⟩

/-- A document is determined if its items or members are. -/
theorem determines_of_parts {j : Json} (hj : j.Finite) (hitems : ∀ items, j = .arr items → ∀ x ∈ items, Determines compact Finite x)
    (hmembers : ∀ members, j = .obj members → ∀ m ∈ members, Determines compact Finite m.2) :
    Determines compact Finite j := by
  intro k hk r s hr hs h
  have hlead := lead_eq hj hk h
  cases j with
  | null =>
    cases k with
    | null => exact ⟨rfl, List.append_cancel_left h⟩
    | bool b => cases b <;> cases hlead
    | _ => cases hlead
  | bool b =>
    cases k with
    | bool c =>
      obtain rfl : b = c := by cases b <;> cases c <;> first | rfl | cases hlead
      exact ⟨rfl, List.append_cancel_left h⟩
    | _ => cases b <;> cases hlead
  | int i =>
    rw [compact] at h
    cases k with
    | int i' =>
      rw [compact] at h
      obtain ⟨ht, hrest⟩ := number_append_inj (isNumberChar_whole i) (isNumberChar_whole i') hr hs h
      exact ⟨congrArg int (whole_injective ht), hrest⟩
    | float x =>
      rw [compact] at h
      obtain ⟨ht, -⟩ := number_append_inj (isNumberChar_whole i) (isNumberChar_write hk) hr hs h
      exact absurd ht (whole_ne_write i hk)
    | bool b => cases b <;> cases hlead
    | _ => cases hlead
  | float x =>
    rw [compact] at h
    cases k with
    | float y =>
      rw [compact] at h
      obtain ⟨ht, hrest⟩ := number_append_inj (isNumberChar_write hj) (isNumberChar_write hk) hr hs h
      exact ⟨congrArg float (write_injective hj hk ht), hrest⟩
    | int i =>
      rw [compact] at h
      obtain ⟨ht, -⟩ := number_append_inj (isNumberChar_write hj) (isNumberChar_whole i) hr hs h
      exact absurd ht.symm (whole_ne_write i hj)
    | bool b => cases b <;> cases hlead
    | _ => cases hlead
  | str a =>
    cases k with
    | str b =>
      rw [compact, compact] at h
      obtain ⟨rfl, hrest⟩ := literal_append_inj h
      exact ⟨rfl, hrest⟩
    | bool b => cases b <;> cases hlead
    | _ => cases hlead
  | arr xs =>
    cases k with
    | arr ys =>
      rw [compact, compact, compactItems_eq, compactItems_eq] at h
      have hx := itemsAllFloats_iff.mp hj
      have hopen : ∀ j : Json, j.Finite → ∃ c t, j.compact = c :: t ∧ c ≠ ']' := fun j hj => by
        obtain ⟨c, t, hc, hl⟩ := exists_lead hj
        refine ⟨c, t, hc, ?_⟩
        rintro rfl
        cases hl
      obtain ⟨rfl, hrest⟩ := separated_inj (.inl rfl) hopen (fun x hx' => ⟨hx x hx', hitems xs rfl x hx'⟩)
        (itemsAllFloats_iff.mp hk) (by simpa using h)
      exact ⟨rfl, hrest⟩
    | bool b => cases b <;> cases hlead
    | _ => cases hlead
  | obj xs =>
    cases k with
    | obj ys =>
      rw [compact, compact, compactMembers_eq, compactMembers_eq] at h
      have hx := membersAllFloats_iff.mp hj
      have hopen : ∀ m : String × Json, m.2.Finite → ∃ c t, compactMember m = c :: t ∧ c ≠ '\x7d' := fun m _ =>
        ⟨_, _, rfl, by decide⟩
      obtain ⟨rfl, hrest⟩ := separated_inj (.inr rfl) hopen
        (fun m hm => ⟨hx m hm, member_determines (hmembers xs rfl m hm)⟩) (membersAllFloats_iff.mp hk) (by simpa using h)
      exact ⟨rfl, hrest⟩
    | bool b => cases b <;> cases hlead
    | _ => cases hlead

mutual

theorem determines : ∀ j : Json, j.Finite → Determines compact Finite j
  | .arr items, hj => determines_of_parts hj (fun _ h => Json.arr.inj h ▸ itemsDetermine items hj) (by simp)
  | .obj members, hj => determines_of_parts hj (by simp) (fun _ h => Json.obj.inj h ▸ membersDetermine members hj)
  | .null, hj | .bool _, hj | .int _, hj | .float _, hj | .str _, hj => determines_of_parts hj (by simp) (by simp)

theorem itemsDetermine : ∀ items : List Json, ItemsAllFloats (fun x => x.isFinite = true) items →
    ∀ j ∈ items, Determines compact Finite j
  | [], _ => by simp
  | j :: rest, h => List.forall_mem_cons.mpr ⟨determines j h.1, itemsDetermine rest h.2⟩

theorem membersDetermine : ∀ members : List (String × Json), MembersAllFloats (fun x => x.isFinite = true) members →
    ∀ m ∈ members, Determines compact Finite m.2
  | [], _ => by simp
  | (_, j) :: rest, h => List.forall_mem_cons.mpr ⟨determines j h.1, membersDetermine rest h.2⟩

end

/-- Documents with one text are one document, if all their numbers are finite. -/
theorem toText_injective {j k : Json} (hj : j.Finite) (hk : k.Finite) (h : j.toText = k.toText) : j = k := by
  have htext : j.compact ++ [] = k.compact ++ [] := by rw [String.ofList_injective h]
  exact (determines j hj k hk [] [] stops_nil stops_nil htext).1

/-! ### Numbers that are not finite -/

mutual

/-- The document with `null` in the place of every number that is not finite. -/
def plain : Json → Json
  | .float x => if x.isFinite then .float x else .null
  | .arr items => .arr (plainItems items)
  | .obj members => .obj (plainMembers members)
  | .null => .null
  | .bool b => .bool b
  | .int i => .int i
  | .str s => .str s

def plainItems : List Json → List Json
  | [] => []
  | j :: rest => j.plain :: plainItems rest

def plainMembers : List (String × Json) → List (String × Json)
  | [] => []
  | (key, j) :: rest => (key, j.plain) :: plainMembers rest

end

theorem write_of_not_finite {x : Binary64} (h : ¬x.isFinite = true) : numbers.write x = compact .null := by
  rw [Layout.write, compact]
  by_cases hnan : x.isNaN = true
  · rw [if_pos hnan]
    rfl
  · rw [if_neg hnan, if_pos (by simpa using h)]
    cases x.isNegative <;> rfl

mutual

theorem compact_plain : ∀ j : Json, j.plain.compact = j.compact
  | .float x => by
    rw [plain]
    by_cases h : x.isFinite = true
    · rw [if_pos h]
    · rw [if_neg h]
      exact (write_of_not_finite h).symm
  | .arr items => by rw [plain, compact, compact, compactItems_plain items]
  | .obj members => by rw [plain, compact, compact, compactMembers_plain members]
  | .null | .bool _ | .int _ | .str _ => by rw [plain]

theorem compactItems_plain : ∀ items : List Json, compactItems (plainItems items) = compactItems items
  | [] => rfl
  | j :: rest => by rw [plainItems, compactItems, compactItems, compact_plain j, compactItems_plain rest]

theorem compactMembers_plain : ∀ members : List (String × Json), compactMembers (plainMembers members) = compactMembers members
  | [] => rfl
  | (_, j) :: rest => by rw [plainMembers, compactMembers, compactMembers, compact_plain j, compactMembers_plain rest]

end

mutual

theorem finite_plain : ∀ j : Json, j.plain.Finite
  | .float x => by
    rw [plain]
    by_cases h : x.isFinite = true
    · rw [if_pos h]
      exact h
    · rw [if_neg h]
      trivial
  | .arr items => by
    rw [plain, Finite, AllFloats]
    exact finite_plainItems items
  | .obj members => by
    rw [plain, Finite, AllFloats]
    exact finite_plainMembers members
  | .null | .bool _ | .int _ | .str _ => by
    rw [plain]
    trivial

theorem finite_plainItems : ∀ items : List Json, ItemsAllFloats (fun x => x.isFinite = true) (plainItems items)
  | [] => trivial
  | j :: rest => ⟨finite_plain j, finite_plainItems rest⟩

theorem finite_plainMembers : ∀ members : List (String × Json),
    MembersAllFloats (fun x => x.isFinite = true) (plainMembers members)
  | [] => trivial
  | (_, j) :: rest => ⟨finite_plain j, finite_plainMembers rest⟩

end

/-- Documents have one text exactly if they are the same up to numbers that are not finite. -/
theorem toText_eq_iff {j k : Json} : j.toText = k.toText ↔ j.plain = k.plain := by
  constructor
  · intro h
    refine toText_injective (finite_plain j) (finite_plain k) ?_
    rwa [toText, toText, compact_plain, compact_plain]
  · intro h
    rw [toText, toText, ← compact_plain j, ← compact_plain k, h]

end TypedTree.Json

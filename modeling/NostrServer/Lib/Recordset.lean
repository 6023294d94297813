import NostrServer.Lib.Storage

namespace Docdb
variable {id : DocID}

def Listed (items : Records V) (id : DocID) : Prop := ∃ v, (id, v) ∈ items

def Merged (merge : V → V → V) (a b : Records V) (id : DocID) (v : V) : Prop :=
  (∃ x y, (id, x) ∈ a ∧ (id, y) ∈ b ∧ v = merge x y) ∨
  ((id, v) ∈ a ∧ ¬ Listed b id) ∨ ((id, v) ∈ b ∧ ¬ Listed a id)

/-- What a program may rely on in the calculator: `push` makes a set of rows, `all`
is the complement of the empty set, and the operations are exact. -/
structure Calculator (V : Type) where
  Set : Type
  push : Records V → Set
  all : Set
  and : (V → V → V) → Set → Set → Set
  or : (V → V → V) → Set → Set → Set
  inverted : Set → Bool
  items : Set → Records V
  items_nodup : ∀ s, ((items s).map Prod.fst).Nodup
  push_inverted : ∀ rows, inverted (push rows) = false
  push_listed : ∀ rows id, Listed (items (push rows)) id ↔ Listed rows id
  push_value : ∀ rows id v, (id, v) ∈ items (push rows) → (id, v) ∈ rows
  all_inverted : inverted all = true
  all_items : items all = []
  and_inverted : ∀ m a b, inverted (and m a b) = (inverted a && inverted b)
  or_inverted : ∀ m a b, inverted (or m a b) = (inverted a || inverted b)
  and_listed : ∀ m a b id, (inverted (and m a b) = false ↔ Listed (items (and m a b)) id) ↔
    ((inverted a = false ↔ Listed (items a) id) ∧ (inverted b = false ↔ Listed (items b) id))
  or_listed : ∀ m a b id, (inverted (or m a b) = false ↔ Listed (items (or m a b)) id) ↔
    ((inverted a = false ↔ Listed (items a) id) ∨ (inverted b = false ↔ Listed (items b) id))
  and_value : ∀ m a b id v, inverted (and m a b) = false → (id, v) ∈ items (and m a b) →
    Merged m (items a) (items b) id v
  or_value : ∀ m a b id v, inverted (or m a b) = false → (id, v) ∈ items (or m a b) →
    Merged m (items a) (items b) id v

namespace Calculator
variable (sets : Calculator V)

/-- `is_top_empty`: the set stands for no document at all. -/
def isEmpty (s : sets.Set) : Bool := !sets.inverted s && (sets.items s).isEmpty

def Contains (s : sets.Set) (id : DocID) : Prop := sets.inverted s = false ↔
    Listed (sets.items s) id

@[simp] theorem contains_and : sets.Contains (sets.and m a b) id ↔
    sets.Contains a id ∧ sets.Contains b id :=
  sets.and_listed m a b id

@[simp] theorem contains_or : sets.Contains (sets.or m a b) id ↔
    sets.Contains a id ∨ sets.Contains b id :=
  sets.or_listed m a b id

@[simp] theorem contains_all : sets.Contains sets.all id := by
  simp [Contains, sets.all_inverted, sets.all_items, Listed]

@[simp] theorem contains_push : sets.Contains (sets.push rows) id ↔ Listed rows id := by
  simp [Contains, sets.push_inverted, sets.push_listed]

theorem contains_iff_listed (h : sets.inverted s = false) :
    sets.Contains s id ↔ Listed (sets.items s) id := by
  simp [Contains, h]

theorem not_contains_of_empty (h : sets.isEmpty s = true) : ¬ sets.Contains s id := by
  simp only [isEmpty, Bool.and_eq_true, Bool.not_eq_true', List.isEmpty_iff] at h
  simp [Contains, h.1, h.2, Listed]

/-- Adding up what each value selects. -/
theorem contains_foldl_or {sel : α → sets.Set} (values : List α) (s : sets.Set) :
    sets.Contains (values.foldl (fun s a => sets.or m s (sel a)) s) id ↔
      sets.Contains s id ∨ ∃ a ∈ values, sets.Contains (sel a) id := by
  induction values generalizing s with
  | nil => simp
  | cons a values ih =>
    rw [List.foldl_cons, ih, contains_or, or_assoc]
    simp

/-- Cutting down by every value. -/
theorem contains_foldl_and {sel : α → sets.Set} (values : List α) (s : sets.Set) :
    sets.Contains (values.foldl (fun s a => sets.and m s (sel a)) s) id ↔
      sets.Contains s id ∧ ∀ a ∈ values, sets.Contains (sel a) id := by
  induction values generalizing s with
  | nil => simp
  | cons a values ih =>
    rw [List.foldl_cons, ih, contains_and, List.forall_mem_cons, and_assoc]

theorem contains_unless {s t : sets.Set} {c : Bool} :
    sets.Contains (if c then s else sets.and m s t) id ↔
      sets.Contains s id ∧ (c = false → sets.Contains t id) := by
  cases c <;> simp

/-- Leaving early with an empty set makes no difference to what it contains. -/
theorem contains_leave {s r : sets.Set} {c : Bool}
    (h : sets.Contains r id ↔ sets.Contains s id ∧ p) :
    sets.Contains (if c && sets.isEmpty s then s else r) id ↔ sets.Contains s id ∧ p := by
  split
  · rename_i hc
    have hs : ¬ sets.Contains s id := sets.not_contains_of_empty (Bool.and_eq_true_iff.mp hc).2
    simp [hs]
  · exact h

theorem contains_leave_empty {s r : sets.Set} (h : sets.Contains r id ↔ sets.Contains s id ∧ p) :
    sets.Contains (if sets.isEmpty s then s else r) id ↔ sets.Contains s id ∧ p := by
  simpa using sets.contains_leave (c := true) h

theorem inverted_foldl_or {sel : α → sets.Set} (values : List α) (s : sets.Set) :
    sets.inverted (values.foldl (fun s a => sets.or m s (sel a)) s) =
      (sets.inverted s || values.any (fun a => sets.inverted (sel a))) := by
  induction values generalizing s with
  | nil => simp
  | cons a values ih => rw [List.foldl_cons, ih, sets.or_inverted, List.any_cons, Bool.or_assoc]

theorem inverted_foldl_and {sel : α → sets.Set} (values : List α)
    (h : ∀ a ∈ values, sets.inverted (sel a) = false) (s : sets.Set) :
    sets.inverted (values.foldl (fun s a => sets.and m s (sel a)) s) =
      (sets.inverted s && values.isEmpty) := by
  induction values generalizing s with
  | nil => simp
  | cons a values ih =>
    obtain ⟨ha, hrest⟩ := List.forall_mem_cons.mp h
    rw [List.foldl_cons, ih hrest, sets.and_inverted, ha]
    simp

theorem inverted_unless {s t : sets.Set} {c : Bool} (h : sets.inverted t = false) :
    sets.inverted (if c then s else sets.and m s t) = (sets.inverted s && c) := by
  cases c <;> simp [sets.and_inverted, h]

theorem inverted_when {s t : sets.Set} {c : Bool} (h : sets.inverted t = false) :
    sets.inverted (if c then sets.and m s t else s) = (sets.inverted s && !c) := by
  cases c <;> simp [sets.and_inverted, h]

/-- Leaving early happens with sets of what is listed. -/
theorem inverted_leave {s r : sets.Set} {c : Prop} [Decidable c] {q : Bool}
    (hc : c → sets.isEmpty s = true) (h : sets.inverted r = (sets.inverted s && q)) :
    sets.inverted (if c then s else r) = (sets.inverted s && q) := by
  split
  · rename_i hleave
    have hs : sets.inverted s = false := by
      simpa [isEmpty] using (Bool.and_eq_true_iff.mp (hc hleave)).1
    simp [hs]
  · exact h

/-- An item of a conjunction carries a value of an operand or a merge of both. -/
theorem and_merged (hi : sets.inverted a = false ∨ sets.inverted b = false)
    (h : (id, v) ∈ sets.items (sets.and m a b)) : Merged m (sets.items a) (sets.items b) id v := by
  refine sets.and_value m a b id v ?_ h
  rw [sets.and_inverted]
  rcases hi with hi | hi <;> simp [hi]

theorem or_merged (ha : sets.inverted a = false) (hb : sets.inverted b = false)
    (h : (id, v) ∈ sets.items (sets.or m a b)) : Merged m (sets.items a) (sets.items b) id v :=
  sets.or_value m a b id v (by simp [sets.or_inverted, ha, hb]) h

end Calculator

theorem listed_iff_find {items : Records V} {id : DocID} :
    Listed items id ↔ (items.find id).isSome = true := by
  simp only [Listed, Records.find, Option.isSome_map, List.find?_isSome, beq_iff_eq]
  constructor
  · rintro ⟨v, h⟩
    exact ⟨_, h, rfl⟩
  · rintro ⟨r, h, rfl⟩
    exact ⟨r.2, h⟩

def minus (a b : Records V) : Records V := a.filter (fun r => (b.find r.1).isNone)

def meet (m : V → V → V) (a b : Records V) : Records V :=
  a.filterMap (fun r => (b.find r.1).map (fun y => (r.1, m r.2 y)))

def join (m : V → V → V) (a b : Records V) : Records V :=
  a.map (fun r => (r.1, (b.find r.1).elim r.2 (m r.2))) ++ minus b a

theorem mem_minus {a b : Records V} : (id, v) ∈ minus a b ↔ (id, v) ∈ a ∧ ¬ Listed b id := by
  simp [minus, listed_iff_find]

theorem listed_minus {a b : Records V} : Listed (minus a b) id ↔ Listed a id ∧ ¬ Listed b id := by
  simp only [Listed, mem_minus, exists_and_right]

theorem mem_meet {a b : Records V} (hb : (b.map Prod.fst).Nodup) :
    (id, v) ∈ meet m a b ↔ ∃ x y, (id, x) ∈ a ∧ (id, y) ∈ b ∧ v = m x y := by
  simp only [meet, List.mem_filterMap, Option.map_eq_some_iff, Prod.mk.injEq]
  constructor
  · rintro ⟨⟨i, x⟩, hx, y, hy, rfl, rfl⟩
    exact ⟨x, y, hx, (find_eq_some hb).mp hy, rfl⟩
  · rintro ⟨x, y, hx, hy, rfl⟩
    exact ⟨(id, x), hx, y, (find_eq_some hb).mpr hy, rfl, rfl⟩

theorem listed_meet {a b : Records V} (hb : (b.map Prod.fst).Nodup) :
    Listed (meet m a b) id ↔ Listed a id ∧ Listed b id := by
  simp only [Listed, mem_meet hb]
  constructor
  · rintro ⟨_, x, y, hx, hy, _⟩
    exact ⟨⟨x, hx⟩, ⟨y, hy⟩⟩
  · rintro ⟨⟨x, hx⟩, ⟨y, hy⟩⟩
    exact ⟨m x y, x, y, hx, hy, rfl⟩

theorem mem_join {a b : Records V} (hb : (b.map Prod.fst).Nodup) :
    (id, v) ∈ join m a b ↔ Merged m a b id v := by
  simp only [join, List.mem_append, List.mem_map, Prod.mk.injEq, mem_minus, Merged]
  constructor
  · rintro (⟨⟨i, x⟩, hx, rfl, he⟩ | h)
    · cases hf : Records.find b i with
      | none =>
        simp only [hf, Option.elim_none] at he
        subst v
        exact Or.inr (Or.inl ⟨hx, by simp [listed_iff_find, hf]⟩)
      | some y =>
        simp only [hf, Option.elim_some] at he
        exact Or.inl ⟨x, y, hx, (find_eq_some hb).mp hf, he.symm⟩
    · exact Or.inr (Or.inr h)
  · rintro (⟨x, y, hx, hy, rfl⟩ | ⟨hx, hn⟩ | h)
    · exact Or.inl ⟨(id, x), hx, rfl, by simp [(find_eq_some hb).mpr hy]⟩
    · have hf : Records.find b id = none := by simpa [listed_iff_find] using hn
      exact Or.inl ⟨(id, v), hx, rfl, by simp [hf]⟩
    · exact Or.inr h

theorem listed_join {a b : Records V} (hb : (b.map Prod.fst).Nodup) :
    Listed (join m a b) id ↔ Listed a id ∨ Listed b id := by
  constructor
  · rintro ⟨v, hv⟩
    rcases (mem_join hb).mp hv with ⟨x, _, hx, _⟩ | ⟨hx, _⟩ | ⟨hy, _⟩
    · exact Or.inl ⟨x, hx⟩
    · exact Or.inl ⟨v, hx⟩
    · exact Or.inr ⟨v, hy⟩
  · intro h
    by_cases ha : Listed a id
    · obtain ⟨x, hx⟩ := ha
      by_cases hy : Listed b id
      · obtain ⟨y, hy⟩ := hy
        exact ⟨_, (mem_join hb).mpr (Or.inl ⟨x, y, hx, hy, rfl⟩)⟩
      · exact ⟨x, (mem_join hb).mpr (Or.inr (Or.inl ⟨hx, hy⟩))⟩
    · obtain ⟨y, hy⟩ := h.resolve_left ha
      exact ⟨y, (mem_join hb).mpr (Or.inr (Or.inr ⟨hy, ha⟩))⟩

theorem nodup_minus {a b : Records V} (ha : (a.map Prod.fst).Nodup) :
    ((minus a b).map Prod.fst).Nodup :=
  ha.sublist (List.filter_sublist.map Prod.fst)

theorem nodup_meet {a b : Records V} (ha : (a.map Prod.fst).Nodup) :
    ((meet m a b).map Prod.fst).Nodup := by
  have : (meet m a b).map Prod.fst = (a.filter (fun r => (b.find r.1).isSome)).map Prod.fst := by
    induction a with
    | nil => rfl
    | cons r a ih =>
      have ih := ih (List.nodup_cons.mp ha).2
      cases hf : b.find r.1 <;> simp_all [meet]
  rw [this]
  exact ha.sublist (List.filter_sublist.map Prod.fst)

theorem nodup_join {a b : Records V} (ha : (a.map Prod.fst).Nodup) (hb : (b.map Prod.fst).Nodup) :
    ((join m a b).map Prod.fst).Nodup := by
  simp only [join, List.map_append, List.map_map, Function.comp_def]
  refine List.nodup_append.mpr ⟨ha, nodup_minus hb, ?_⟩
  intro i hi j hj he
  subst j
  obtain ⟨r, hr, rfl⟩ := List.mem_map.mp hi
  obtain ⟨q, hq, he⟩ := List.mem_map.mp hj
  exact (mem_minus.mp (show (q.1, q.2) ∈ minus b a from hq)).2 ⟨r.2, he ▸ hr⟩

def distinct : Records V → Records V
  | [] => []
  | r :: rows => if ((distinct rows).find r.1).isSome then distinct rows else r :: distinct rows

theorem distinct_spec (rows : Records V) :
    ((distinct rows).map Prod.fst).Nodup ∧ (∀ id, Listed (distinct rows) id ↔ Listed rows id) ∧
    ∀ r ∈ distinct rows, r ∈ rows := by
  induction rows with
  | nil => simp [distinct]
  | cons r rows ih =>
    obtain ⟨hn, hl, hm⟩ := ih
    have hcons (id : DocID) : Listed (r :: rows) id ↔ id = r.1 ∨ Listed rows id := by
      simp only [Listed, List.mem_cons]
      constructor
      · rintro ⟨v, rfl | h⟩
        · exact Or.inl rfl
        · exact Or.inr ⟨v, h⟩
      · rintro (rfl | ⟨v, h⟩)
        · exact ⟨r.2, Or.inl rfl⟩
        · exact ⟨v, Or.inr h⟩
    unfold distinct
    split
    · rename_i h
      refine ⟨hn, fun id => ?_, fun q hq => List.mem_cons_of_mem _ (hm q hq)⟩
      rw [hcons, hl]
      constructor
      · exact Or.inr
      · rintro (rfl | h')
        · exact (hl _).mp (listed_iff_find.mpr h)
        · exact h'
    · rename_i h
      refine ⟨List.nodup_cons.mpr ⟨?_, hn⟩, fun id => ?_, ?_⟩
      · intro hi
        obtain ⟨q, hq, he⟩ := List.mem_map.mp hi
        exact h (listed_iff_find.mp ⟨q.2, he ▸ hq⟩)
      · rw [hcons, ← hl]
        simp only [Listed, List.mem_cons]
        constructor
        · rintro ⟨v, rfl | h'⟩
          · exact Or.inl rfl
          · exact Or.inr ⟨v, h'⟩
        · rintro (rfl | ⟨v, h'⟩)
          · exact ⟨r.2, Or.inl rfl⟩
          · exact ⟨v, Or.inr h'⟩
      · intro q hq
        rcases List.mem_cons.mp hq with rfl | hq
        · exact List.mem_cons_self
        · exact List.mem_cons_of_mem _ (hm q hq)

structure PlainSet (V : Type) where
  inverted : Bool
  items : Records V
  nodup : (items.map Prod.fst).Nodup

def PlainSet.and (m : V → V → V) (a b : PlainSet V) : PlainSet V :=
  match a.inverted, b.inverted with
  | false, false => ⟨false, meet m a.items b.items, nodup_meet a.nodup⟩
  | false, true => ⟨false, minus a.items b.items, nodup_minus a.nodup⟩
  | true, false => ⟨false, minus b.items a.items, nodup_minus b.nodup⟩
  | true, true => ⟨true, join m a.items b.items, nodup_join a.nodup b.nodup⟩

def PlainSet.or (m : V → V → V) (a b : PlainSet V) : PlainSet V :=
  match a.inverted, b.inverted with
  | false, false => ⟨false, join m a.items b.items, nodup_join a.nodup b.nodup⟩
  | false, true => ⟨true, minus b.items a.items, nodup_minus b.nodup⟩
  | true, false => ⟨true, minus a.items b.items, nodup_minus a.nodup⟩
  | true, true => ⟨true, meet m a.items b.items, nodup_meet a.nodup⟩

def plainCalculator (V : Type) : Calculator V where
  Set := PlainSet V
  push rows := ⟨false, distinct rows, (distinct_spec rows).1⟩
  all := ⟨true, [], ids_nil⟩
  and := PlainSet.and
  or := PlainSet.or
  inverted := PlainSet.inverted
  items := PlainSet.items
  items_nodup := PlainSet.nodup
  push_inverted _ := rfl
  push_listed rows id := (distinct_spec rows).2.1 id
  push_value rows id v h := (distinct_spec rows).2.2 _ h
  all_inverted := rfl
  all_items := rfl
  and_inverted m a b := by
    cases ha : a.inverted <;> cases hb : b.inverted <;> simp [PlainSet.and, ha, hb]
  or_inverted m a b := by
    cases ha : a.inverted <;> cases hb : b.inverted <;> simp [PlainSet.or, ha, hb]
  and_listed m a b id := by
    cases ha : a.inverted <;> cases hb : b.inverted <;>
      simp [PlainSet.and, ha, hb, listed_meet b.nodup, listed_join b.nodup, listed_minus, and_comm]
  or_listed m a b id := by
    cases ha : a.inverted <;> cases hb : b.inverted <;>
      simp [PlainSet.or, ha, hb, listed_meet b.nodup, listed_join b.nodup, listed_minus] <;> grind
  and_value m a b id v hi hv := by
    cases ha : a.inverted <;> cases hb : b.inverted <;>
      simp only [PlainSet.and, ha, hb, Bool.true_eq_false] at hi hv
    · exact Or.inl ((mem_meet b.nodup).mp hv)
    · exact Or.inr (Or.inl (mem_minus.mp hv))
    · exact Or.inr (Or.inr (mem_minus.mp hv))
  or_value m a b id v hi hv := by
    cases ha : a.inverted <;> cases hb : b.inverted <;>
      simp only [PlainSet.or, ha, hb, Bool.true_eq_false] at hi hv
    exact (mem_join b.nodup).mp hv

end Docdb
